import ZephyrThrift.Muzic.FlushedStream

/-!
# Taking the output in windows

A caller that has no more room calls `deflate` with one fresh window after the other, until a call
leaves room in its window, as `test_deflate_full_flush_frag_out` does. Whatever was kept and whatever
the chunk is, the loop ends: it fills every window but the last, and takes as many calls as that needs
(`drainLoop_drains`). Then nothing is kept, and all that was ever delivered decodes to all that was
ever consumed.
-/

set_option autoImplicit false
set_option relaxedAutoImplicit false

namespace ZephyrThrift.Muzic

open Foundation

/-- `while (avail_out == 0) { avail_out = step; res = deflate(strm, flush); }`, with the results of its
calls and what it leaves. -/
def drainLoop (build : Build) (memory : Memory) (flush : Flush) (step : ℕ) :
    ℕ → ZStream → UzlibComp → Except Fault (List DeflateResult × ZStream × UzlibComp)
  | 0, _, _ => .error .endlessLoop
  | fuel + 1, strm, ustate =>
    if strm.availOut = 0 then do
      let r ← deflate build memory { strm with availOut := step } ustate flush
      let (later, last) ← drainLoop build memory flush step fuel r.strm r.state
      return (r :: later, last)
    else .ok ([], strm, ustate)

/-- What the caller's input adds to the output. -/
def Coming (memory : Memory) (flush : Flush) (strm : ZStream) (ustate : UzlibComp)
    (bytes : List UInt8) : Prop :=
  if strm.availIn = 0 then bytes = []
  else ChunkBytes flush ustate.compDisabled
    (muzicAdler32 (memory.bytes strm.nextIn strm.availIn) strm.adler)
    (memory.bytes strm.nextIn strm.availIn) bytes

/-- The output was taken in windows of `step` bytes, up to its end. -/
structure Drained (step : ℕ) (output : List UInt8) (results : List DeflateResult) (strm : ZStream)
    (ustate : UzlibComp) : Prop where
  codes : ∀ r ∈ results, r.code = .ok
  stored : results.flatMap DeflateResult.stored = output
  calls : results.length = output.length / step + 1
  full : ∀ r ∈ results.dropLast, r.stored.length = step
  room : strm.availOut = step - output.length % step
  read : strm.availIn = 0
  empty : ustate.outbuf = none

section Calls

variable {build : Build} {memory : Memory} {strm : ZStream} {ustate : UzlibComp} {flush : Flush}
  {step : ℕ} {pending : List UInt8} {r : DeflateResult}

/-- What one call does to its window: either it moves on in what was kept, and gets to the end of it
only if there is no input, or it puts the chunk behind that. It keeps something only if the window is
full. -/
structure Pours (memory : Memory) (strm : ZStream) (ustate : UzlibComp) (flush : Flush)
    (pending : List UInt8) (r : DeflateResult) (pending' : List UInt8) : Prop where
  code : r.code = .ok
  within : r.stored.length ≤ strm.availOut
  availOut : r.strm.availOut = strm.availOut - r.stored.length
  delivering : Delivering r.state r.strm.totalOut pending'
  full : pending' ≠ [] → r.strm.availOut = 0
  moves : (r.stored ++ pending' = pending ∧ (strm.availIn = 0 ∨ pending' ≠ []) ∧
      r.strm.availIn = strm.availIn ∧ r.strm.nextIn = strm.nextIn ∧ r.strm.adler = strm.adler ∧
        r.state.compDisabled = ustate.compDisabled) ∨
    ∃ bytes, r.stored ++ pending' = pending ++ bytes ∧ Coming memory flush strm ustate bytes ∧
      strm.availIn ≠ 0 ∧ r.strm.availIn = 0

theorem ChunkCall.pours {rested : UzlibComp} {strm' : ZStream}
    (h : ChunkCall build memory strm' rested flush r) (hidle : Idle rested) (hflush : flush ≠ .finish)
    (hsame : rested.compDisabled = ustate.compDisabled) (hadler : strm'.adler = strm.adler)
    (hnext : strm'.nextIn = strm.nextIn) (havail : strm'.availIn = strm.availIn)
    (hroom : pending.length ≤ strm.availOut) (hout : strm'.availOut = strm.availOut - pending.length) :
    ∃ pending', Pours memory strm ustate flush pending { r with stored := pending ++ r.stored }
      pending' := by
  have hcoming : ∀ {encoded : UzlibComp} {bytes : List UInt8}, strm'.availIn ≠ 0 →
      Encoded build rested (memory.bytes strm'.nextIn strm'.availIn) flush
        (muzicAdler32 (memory.bytes strm'.nextIn strm'.availIn) strm'.adler) encoded bytes →
          Coming memory flush strm ustate bytes := by
    intro encoded bytes hin hencoded
    rw [Coming, if_neg (havail ▸ hin), ← hadler, ← hnext, ← havail, ← hsame]
    exact hencoded.chunk
  cases h with
  | nothing hin _ =>
    refine ⟨[], rfl, ?_, ?_, hidle.delivering _, fun h ↦ absurd rfl h,
      .inl ⟨by simp, .inl (havail ▸ hin), havail, hnext, hadler, hsame⟩⟩
    · simpa using hroom
    · simp only [List.append_nil]
      omega
  | @delivers encoded bytes adlerV hadlerV hencoded hin hfits =>
    subst hadlerV
    have hin := hin.resolve_right hflush
    refine ⟨[], if_neg hflush, ?_, ?_, ⟨hencoded.kept.dictSize.trans hidle.dictSize, .inl ⟨rfl, rfl⟩⟩,
      fun h ↦ absurd rfl h, .inr ⟨bytes, by simp, hcoming hin hencoded, havail ▸ hin, rfl⟩⟩
    · simp only [List.length_append]
      omega
    · simp only [List.length_append]
      omega
  | @spills encoded bytes adlerV hadlerV hencoded hin _ hfull =>
    subst hadlerV
    have hlength : (bytes.drop strm'.availOut).length = bytes.length - strm'.availOut :=
      List.length_drop
    have hpending : bytes.drop strm'.availOut ≠ [] := by
      rw [← List.length_pos_iff, hlength]
      omega
    refine ⟨bytes.drop strm'.availOut, rfl, ?_, ?_, ⟨hencoded.kept.dictSize.trans hidle.dictSize,
        .inr ⟨hpending, hlength.symm, bytes, rfl, rfl⟩⟩, fun _ ↦ rfl,
      .inr ⟨bytes, ?_, hcoming hin hencoded, havail ▸ hin, rfl⟩⟩
    · simp only [List.length_append, List.length_take]
      omega
    · simp only [List.length_append, List.length_take]
      omega
    · rw [List.append_assoc, List.take_append_drop]
  | refuses _ _ hfinish _ => exact absurd hfinish hflush

theorem DeflateStep.pours (h : DeflateStep build memory strm ustate flush pending r)
    (hdelivering : Delivering ustate strm.totalOut pending) (hflush : flush ≠ .finish) :
    ∃ pending', Pours memory strm ustate flush pending r pending' := by
  cases h with
  | @stays block hblock hdrop hroom =>
    have hlength : (pending.drop strm.availOut).length = pending.length - strm.availOut :=
      List.length_drop
    have hpending : pending.drop strm.availOut ≠ [] := by
      rw [← List.length_pos_iff, hlength]
      omega
    refine ⟨pending.drop strm.availOut, rfl, ?_, ?_, ⟨hdelivering.dictSize,
        .inr ⟨hpending, hlength.symm, block, ?_, ?_⟩⟩, fun _ ↦ ?_,
      .inl ⟨List.take_append_drop _ _, .inr hpending, rfl, rfl, rfl, rfl⟩⟩
    · simp only [List.length_take]
      omega
    · simp only [List.length_take, ZStream.drained]
      omega
    · simp only [ZStream.drained, Nat.cast_add]
    · rw [ZStream.drained, ← hdrop, List.drop_drop]
    · simp only [ZStream.drained, Nat.sub_self]
  | drains _ hroom hin =>
    exact ⟨[], rfl, hroom, rfl, ⟨hdelivering.dictSize, .inl ⟨rfl, rfl⟩⟩, fun h ↦ absurd rfl h,
      .inl ⟨List.append_nil _, .inl hin, rfl, rfl, rfl, rfl⟩⟩
  | continues _ hroom _ hchunk =>
    exact hchunk.pours ⟨rfl, hdelivering.dictSize⟩ hflush rfl rfl rfl rfl hroom rfl
  | fresh hpending hchunk =>
    subst hpending
    exact hchunk.pours hdelivering.idle hflush rfl rfl rfl rfl (Nat.zero_le _) rfl

/-! ### The loop -/

/-- A window that is filled, and what follows it. -/
theorem Drained.cons {output : List UInt8} {results : List DeflateResult} {last : ZStream}
    {lastState : UzlibComp} (h : Drained step output results last lastState) (hstep : 0 < step)
    (hcode : r.code = .ok) (hfull : r.stored.length = step) :
    Drained step (r.stored ++ output) (r :: results) last lastState where
  codes other hmem := by
    rcases List.mem_cons.mp hmem with rfl | hmem
    · exact hcode
    · exact h.codes other hmem
  stored := by rw [List.flatMap_cons, h.stored]
  calls := by rw [List.length_cons, h.calls, List.length_append, hfull, Nat.add_div_left _ hstep]
  full other hmem := by
    have hsome : results ≠ [] := by
      rintro rfl
      exact absurd h.calls (by simp)
    rw [List.dropLast_cons_of_ne_nil hsome] at hmem
    rcases List.mem_cons.mp hmem with rfl | hmem
    · exact hfull
    · exact h.full other hmem
  room := by rw [h.room, List.length_append, hfull, Nat.add_mod_left]
  read := h.read
  empty := h.empty

/-- The window that is not filled. -/
theorem Drained.single (hcode : r.code = .ok) (hless : r.stored.length < step)
    (hroom : r.strm.availOut = step - r.stored.length) (hread : r.strm.availIn = 0)
    (hempty : r.state.outbuf = none) : Drained step r.stored [r] r.strm r.state where
  codes other hmem := by rwa [List.mem_singleton.mp hmem]
  stored := by rw [List.flatMap_singleton]
  calls := by rw [Nat.div_eq_of_lt hless, List.length_singleton]
  full other hmem := absurd hmem List.not_mem_nil
  room := by rw [hroom, Nat.mod_eq_of_lt hless]
  read := hread
  empty := hempty

/-- What the loop does behind a call. -/
theorem drainLoop_succ (fuel : ℕ) (hfull : strm.availOut = 0)
    (hr : deflate build memory { strm with availOut := step } ustate flush = .ok r) :
    drainLoop build memory flush step (fuel + 1) strm ustate =
      (drainLoop build memory flush step fuel r.strm r.state).map fun later ↦
        (r :: later.1, later.2) := by
  rw [drainLoop, if_pos hfull]
  simp only [hr, bind, Except.bind]
  cases drainLoop build memory flush step fuel r.strm r.state <;> rfl

/-- Behind the last call. -/
theorem drainLoop_stop {fuel : ℕ} (hfuel : 0 < fuel) (hroom : strm.availOut ≠ 0) :
    drainLoop build memory flush step fuel strm ustate = .ok ([], strm, ustate) := by
  obtain ⟨fuel, rfl⟩ := Nat.exists_eq_succ_of_ne_zero hfuel.ne'
  rw [drainLoop, if_neg hroom]

/-- A call behind which there is room ends the loop. -/
theorem drainLoop_last {fuel : ℕ} (hfuel : 1 < fuel) (hfull : strm.availOut = 0)
    (hr : deflate build memory { strm with availOut := step } ustate flush = .ok r)
    {pending' : List UInt8}
    (hpours : Pours memory { strm with availOut := step } ustate flush pending r pending')
    (hread : r.strm.availIn = 0) (hroom : r.strm.availOut ≠ 0) :
    pending' = [] ∧ drainLoop build memory flush step fuel strm ustate = .ok ([r], r.strm, r.state) ∧
      Drained step r.stored [r] r.strm r.state := by
  have hnone : pending' = [] := by
    by_contra hsome
    exact hroom (hpours.full hsome)
  have havail := hpours.availOut
  simp only at havail
  obtain ⟨fuel, rfl⟩ := Nat.exists_eq_succ_of_ne_zero (Nat.ne_zero_of_lt hfuel)
  refine ⟨hnone, ?_, .single hpours.code (by omega) havail hread ?_⟩
  · rw [drainLoop_succ fuel hfull hr, drainLoop_stop (by omega) hroom]
    rfl
  · exact (hnone ▸ hpours.delivering).idle.outbuf

/-- Without input the loop takes what was kept. -/
theorem drainLoop_kept (hflush : flush ≠ .finish) (hstep : 0 < step) (fuel : ℕ) :
    ∀ {strm : ZStream} {ustate : UzlibComp} {pending : List UInt8},
      Delivering ustate strm.totalOut pending → strm.availIn = 0 → strm.availOut = 0 →
        pending.length / step + 1 < fuel → ∃ results last lastState,
          drainLoop build memory flush step fuel strm ustate = .ok (results, last, lastState) ∧
            Drained step pending results last lastState := by
  induction fuel with
  | zero => intro strm ustate pending _ _ _ hfuel; exact absurd hfuel (Nat.not_lt_zero _)
  | succ fuel ih =>
    intro strm ustate pending hdelivering hin hfull hfuel
    obtain ⟨r, hr, hcall⟩ := @deflate_cases build memory { strm with availOut := step } _ flush _
      hdelivering
    obtain ⟨pending', hpours⟩ := hcall.pours hdelivering hflush
    obtain ⟨hstored, -, hread, -⟩ | ⟨_, -, -, hsome, -⟩ := hpours.moves
    · by_cases hroom : r.strm.availOut = 0
      · have hwithin := hpours.within
        have havail := hpours.availOut
        simp only at hwithin havail
        have hlength : r.stored.length = step := by omega
        have hpending : pending.length = step + pending'.length := by
          rw [← hstored, List.length_append, hlength]
        rw [hpending, Nat.add_div_left _ hstep] at hfuel
        obtain ⟨results, last, lastState, hloop, hdrained⟩ :=
          ih hpours.delivering (hread.trans hin) hroom (by omega)
        refine ⟨r :: results, last, lastState, ?_, ?_⟩
        · rw [drainLoop_succ fuel hfull hr, hloop]
          rfl
        · rw [← hstored]
          exact hdrained.cons hstep hpours.code hlength
      · have hmany : 1 < fuel + 1 := (Nat.le_add_left 1 _).trans_lt hfuel
        obtain ⟨rfl, hloop, hdrained⟩ :=
          drainLoop_last hmany hfull hr hpours (hread.trans hin) hroom
        rw [List.append_nil] at hstored
        exact ⟨[r], r.strm, r.state, hloop, hstored ▸ hdrained⟩
    · exact absurd hin hsome

/-- The loop takes what was kept and what its input adds. -/
theorem drainLoop_coming (hflush : flush ≠ .finish) (hstep : 0 < step) (bound : ℕ) :
    ∀ {strm : ZStream} {ustate : UzlibComp} {pending : List UInt8}, pending.length ≤ bound →
      Delivering ustate strm.totalOut pending → strm.availOut = 0 →
        ∃ bytes, Coming memory flush strm ustate bytes ∧
          ∀ fuel, (pending ++ bytes).length / step + 1 < fuel → ∃ results last lastState,
            drainLoop build memory flush step fuel strm ustate = .ok (results, last, lastState) ∧
              Drained step (pending ++ bytes) results last lastState := by
  induction bound using Nat.strong_induction_on with
  | _ bound ih =>
    intro strm ustate pending hbound hdelivering hfull
    by_cases hin : strm.availIn = 0
    · refine ⟨[], by rw [Coming, if_pos hin], fun fuel hfuel ↦ ?_⟩
      rw [List.append_nil] at hfuel ⊢
      exact drainLoop_kept hflush hstep fuel hdelivering hin hfull hfuel
    obtain ⟨r, hr, hcall⟩ := @deflate_cases build memory { strm with availOut := step } _ flush _
      hdelivering
    obtain ⟨pending', hpours⟩ := hcall.pours hdelivering hflush
    have hwithin := hpours.within
    have havail := hpours.availOut
    simp only at hwithin havail
    -- a call that fills its window, and a loop behind it
    have hcons : ∀ {output : List UInt8}, r.strm.availOut = 0 →
        (∀ fuel, output.length / step + 1 < fuel → ∃ results last lastState,
          drainLoop build memory flush step fuel r.strm r.state = .ok (results, last, lastState) ∧
            Drained step output results last lastState) →
        ∀ fuel, (r.stored ++ output).length / step + 1 < fuel → ∃ results last lastState,
          drainLoop build memory flush step fuel strm ustate = .ok (results, last, lastState) ∧
            Drained step (r.stored ++ output) results last lastState := by
      intro output hroom hrest fuel hfuel
      have hlength : r.stored.length = step := by omega
      rw [List.length_append, hlength, Nat.add_div_left _ hstep] at hfuel
      obtain ⟨fuel, rfl⟩ := Nat.exists_eq_succ_of_ne_zero (Nat.ne_zero_of_lt hfuel)
      obtain ⟨results, last, lastState, hloop, hdrained⟩ := hrest fuel (by omega)
      refine ⟨r :: results, last, lastState, ?_, hdrained.cons hstep hpours.code hlength⟩
      rw [drainLoop_succ fuel hfull hr, hloop]
      rfl
    obtain ⟨hstored, hkept, hread, hnext, hadler, hsame⟩ | ⟨bytes, hstored, hcoming, -, hread⟩ :=
      hpours.moves
    · have hpending' := hkept.resolve_left hin
      have hroom := hpours.full hpending'
      have hshorter : pending'.length < bound := by
        have hlength := congrArg List.length hstored
        rw [List.length_append] at hlength
        omega
      obtain ⟨bytes, hcoming, hrest⟩ := ih _ hshorter le_rfl hpours.delivering hroom
      rw [Coming, hread, hnext, hadler, hsame] at hcoming
      refine ⟨bytes, hcoming, ?_⟩
      rw [← hstored, List.append_assoc]
      exact hcons hroom hrest
    · refine ⟨bytes, hcoming, ?_⟩
      rw [← hstored]
      by_cases hroom : r.strm.availOut = 0
      · exact hcons hroom fun fuel hfuel ↦
          drainLoop_kept hflush hstep fuel hpours.delivering hread hroom hfuel
      · intro fuel hfuel
        have hmany : 1 < fuel := (Nat.le_add_left 1 _).trans_lt hfuel
        obtain ⟨rfl, hloop, hdrained⟩ := drainLoop_last hmany hfull hr hpours hread hroom
        rw [List.append_nil]
        exact ⟨[r], r.strm, r.state, hloop, hdrained⟩

end Calls

/-- Behind any calls that do not finish, the loop over windows of any size ends. It fills them one after
the other, and all that was delivered then is a header and blocks for all that was consumed. -/
theorem drainLoop_drains {build : Build} {start strm strm' : ZStream} {calls : List DeflateCall}
    {ustate : UzlibComp} {flush : Flush} {step : ℕ} (hrun : DeflateRun build start calls strm ustate)
    (hcalls : ∀ call ∈ calls, call.flush ≠ .finish) (hhands : Hands strm strm')
    (hfull : strm'.availOut = 0) (hflush : flush ≠ .finish) (hstep : 0 < step) (memory : Memory) :
    ∃ output next, Flushed true (delivered calls ++ output)
        (consumedBytes calls ++ memory.bytes strm'.nextIn strm'.availIn) next ∧
      ∀ fuel, output.length / step + 1 < fuel → ∃ results last lastState,
        drainLoop build memory flush step fuel strm' ustate = .ok (results, last, lastState) ∧
          Drained step output results last lastState := by
  obtain ⟨heap, hall⟩ := hrun.deflateCalls
  obtain ⟨pending, hdelivering, hflushed⟩ := hall.flushed ⟨rfl, rfl⟩ hcalls
  rw [← hhands.totalOut] at hdelivering
  obtain ⟨bytes, hcoming, hloop⟩ := drainLoop_coming hflush hstep _ le_rfl hdelivering hfull
  have hheader : Flushed true (delivered calls ++ pending) (consumedBytes calls)
      ustate.compDisabled := hflushed
  rw [Coming] at hcoming
  split at hcoming
  · next hnone =>
    subst hcoming
    refine ⟨pending ++ [], ustate.compDisabled, ?_, hloop⟩
    rw [hnone, List.append_nil, show memory.bytes strm'.nextIn 0 = [] from rfl, List.append_nil]
    exact hheader
  · refine ⟨pending ++ bytes, false, ?_, hloop⟩
    rw [← List.append_assoc]
    exact hheader.chunk hflush hcoming

/-- The letter `a`, flushed through windows of four bytes. -/
theorem drainLoop_drains_letter :
    ∃ output next, Flushed true (delivered [] ++ output) (consumedBytes [] ++ [97]) next ∧
      ∀ fuel, output.length / 4 + 1 < fuel → ∃ results last lastState,
        drainLoop ⟨false, none⟩ (fun _ ↦ 97) .fullFlush 4 fuel { letterStrm with availOut := 0 }
            letterState = .ok (results, last, lastState) ∧
          Drained 4 output results last lastState := by
  have hrun : DeflateRun ⟨false, none⟩ letterStrm [] (deflateInit letterStrm letterState).1
      (deflateInit letterStrm letterState).2 := .init letterState
  have hhands : Hands (deflateInit letterStrm letterState).1 { letterStrm with availOut := 0 } :=
    ⟨rfl, rfl, rfl⟩
  exact drainLoop_drains hrun (by simp) hhands rfl (by decide) (by decide) fun _ ↦ 97

end ZephyrThrift.Muzic
