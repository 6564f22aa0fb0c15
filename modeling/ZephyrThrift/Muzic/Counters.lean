import ZephyrThrift.Muzic.Delivery

/-!
# The counters of the deflater

A call moves the pointers, the room and the totals of the stream record. They move together except
that a finishing call assigns both totals and a chunk that spills assigns `total_out`. So the counters
tell the truth in exactly the histories where those assignments meet a total of zero
(`countersTrue_iff`).
-/

set_option autoImplicit false
set_option relaxedAutoImplicit false

namespace ZephyrThrift.Muzic

/-! ### What the counters say -/

/-- In a call, the pointers, the room and the totals move by what is consumed and stored. -/
structure DeflateCall.Moves (call : DeflateCall) : Prop where
  nextIn : call.result.strm.nextIn = call.strm.nextIn + call.consumed.length
  availIn : call.result.strm.availIn + call.consumed.length = call.strm.availIn
  totalIn : call.result.strm.totalIn = call.strm.totalIn + call.consumed.length
  nextOut : call.result.strm.nextOut = call.strm.nextOut + call.result.stored.length
  availOut : call.result.strm.availOut + call.result.stored.length = call.strm.availOut
  totalOut : call.result.strm.totalOut = call.strm.totalOut + call.result.stored.length

/-- All that the calls have consumed. -/
def consumedBytes (calls : List DeflateCall) : List UInt8 := calls.flatMap DeflateCall.consumed

theorem consumedBytes_append (calls : List DeflateCall) (call : DeflateCall) :
    consumedBytes (calls ++ [call]) = consumedBytes calls ++ call.consumed := by
  rw [consumedBytes, List.flatMap_append, List.flatMap_singleton]
  rfl

/-- The counters are right: every call moves them together, and after every call the totals are what
has been consumed and stored up to there. -/
structure CountersTrue (calls : List DeflateCall) : Prop where
  moves : ∀ call ∈ calls, call.Moves
  totalIn : ∀ earlier call, earlier ++ [call] <+: calls →
    call.result.strm.totalIn = (consumedBytes (earlier ++ [call])).length
  totalOut : ∀ earlier call, earlier ++ [call] <+: calls →
    call.result.strm.totalOut = (delivered (earlier ++ [call])).length

/-! ### When they say it -/

/-- The output that is pending in front of the call. -/
def DeflateCall.waiting (call : DeflateCall) : ℕ :=
  if call.state.outbuf = none then 0 else call.state.outlen

/-- The call gets to a chunk: it can drain what is pending, and there is a chunk. A call that drains
output does not finish an empty chunk. -/
def DeflateCall.Encodes (call : DeflateCall) : Prop :=
  call.waiting ≤ call.strm.availOut ∧
    (call.strm.availIn ≠ 0 ∨ call.flush = .finish ∧ call.state.outbuf = none)

/-- What the chunk is encoded to does not fit into the rest of the window. -/
def DeflateCall.Spills (build : Build) (call : DeflateCall) : Prop :=
  ∃ encoded, encodeChunk build { call.state with outbuf := none }
      (call.memory.bytes call.strm.nextIn call.strm.availIn) call.flush
      (muzicAdler32 (call.memory.bytes call.strm.nextIn call.strm.availIn) call.strm.adler) =
        .ok encoded ∧
    call.strm.availOut - call.waiting < encoded.outlen

/-- A call that finishes comes with totals of zero, and so does a chunk that spills. -/
structure DeflateCall.StartsCounts (build : Build) (call : DeflateCall) : Prop where
  finish : call.Encodes → call.flush = .finish →
    call.strm.totalIn = 0 ∧ (¬ call.Spills build → call.strm.totalOut + call.waiting = 0)
  spill : call.Encodes → call.flush ≠ .finish → call.Spills build →
    call.strm.totalOut + call.waiting = 0

section Calls

variable {build : Build} {ustate : UzlibComp} {memory : Memory} {strm : ZStream} {flush : Flush}
  {pending : List UInt8}

theorem waiting_eq (memory : Memory) (flush : Flush) (r : DeflateResult)
    (h : Delivering ustate strm.totalOut pending) :
    (DeflateCall.mk memory strm ustate flush r).waiting = pending.length := by
  rcases h.outbuf with ⟨hnone, rfl⟩ | ⟨-, hlen, block, hblock, -⟩
  · exact if_pos hnone
  · rw [DeflateCall.waiting, if_neg (by rw [hblock]; exact Option.some_ne_none _)]
    exact hlen

/-- The spilling of a call, from what its chunk is encoded to. -/
theorem spills_iff {rested encoded : UzlibComp} {bytes : List UInt8} {r : DeflateResult} {adlerV : ℕ}
    (h : Delivering ustate strm.totalOut pending)
    (hrested : ∀ input adlerV, encodeChunk build { ustate with outbuf := none } input flush adlerV =
      encodeChunk build rested input flush adlerV)
    (hadler : adlerV = muzicAdler32 (memory.bytes strm.nextIn strm.availIn) strm.adler)
    (hencoded : Encoded build rested (memory.bytes strm.nextIn strm.availIn) flush adlerV encoded
      bytes) :
    (DeflateCall.mk memory strm ustate flush r).Spills build ↔
      strm.availOut - pending.length < bytes.length := by
  rw [DeflateCall.Spills, waiting_eq memory flush r h]
  simp only [hrested, ← hadler, hencoded.encodes, Except.ok.injEq]
  rw [exists_eq_left', hencoded.outlen]

/-- A call that gets to no chunk moves its counters together. -/
theorem moves_of_not_encodes {r : DeflateResult} {count : ℕ} (hcount : count ≤ strm.availOut)
    (hstrm : r.strm = strm.drained count) (hstored : r.stored.length = count) :
    (DeflateCall.mk memory strm ustate flush r).Moves := by
  have hconsumed : (DeflateCall.mk memory strm ustate flush r).consumed = [] :=
    if_pos (by rw [hstrm]; rfl)
  constructor <;> simp only [hconsumed, hstrm, ZStream.drained, hstored, List.length_nil]
  all_goals omega

theorem startsCounts_of_not_encodes {r : DeflateResult}
    (h : ¬ (DeflateCall.mk memory strm ustate flush r).Encodes) :
    (DeflateCall.mk memory strm ustate flush r).StartsCounts build :=
  ⟨fun hencodes ↦ absurd hencodes h, fun hencodes ↦ absurd hencodes h⟩

theorem startsCounts_iff {r : DeflateResult}
    (h : (DeflateCall.mk memory strm ustate flush r).Encodes) :
    (DeflateCall.mk memory strm ustate flush r).StartsCounts build ↔
      (flush = .finish → strm.totalIn = 0 ∧
        (¬ (DeflateCall.mk memory strm ustate flush r).Spills build →
          strm.totalOut + (DeflateCall.mk memory strm ustate flush r).waiting = 0)) ∧
      (flush ≠ .finish → (DeflateCall.mk memory strm ustate flush r).Spills build →
        strm.totalOut + (DeflateCall.mk memory strm ustate flush r).waiting = 0) :=
  ⟨fun hstarts ↦ ⟨hstarts.finish h, hstarts.spill h⟩,
    fun hstarts ↦ ⟨fun _ ↦ hstarts.1, fun _ ↦ hstarts.2⟩⟩

theorem length_consumed_of_read (memory : Memory) (strm : ZStream) (ustate : UzlibComp)
    (flush : Flush) {r : DeflateResult} (hread : r.strm.availIn = 0) :
    (DeflateCall.mk memory strm ustate flush r).consumed.length = strm.availIn := by
  by_cases hempty : strm.availIn = 0
  · rw [DeflateCall.consumed, if_pos (hread.trans hempty.symm), hempty]
    rfl
  · rw [DeflateCall.consumed, if_neg (by rw [hread]; exact Ne.symm hempty), Memory.length_bytes]

/-- What a call that reads its chunk does to the totals decides whether it moves its counters
together. -/
theorem moves_iff_of_read {r : DeflateResult} (hread : r.strm.availIn = 0)
    (hnextIn : r.strm.nextIn = strm.nextIn + strm.availIn)
    (hnextOut : r.strm.nextOut = strm.nextOut + r.stored.length)
    (havailOut : r.strm.availOut + r.stored.length = strm.availOut) :
    (DeflateCall.mk memory strm ustate flush r).Moves ↔
      r.strm.totalIn = strm.totalIn + strm.availIn ∧
        r.strm.totalOut = strm.totalOut + r.stored.length := by
  have hlength := length_consumed_of_read memory strm ustate flush hread
  constructor
  · intro hmoves
    exact ⟨hlength ▸ hmoves.totalIn, hmoves.totalOut⟩
  · rintro ⟨htotalIn, htotalOut⟩
    refine ⟨?_, ?_, ?_, hnextOut, havailOut, htotalOut⟩
    · rw [hlength]
      exact hnextIn
    · rw [hlength, hread, zero_add]
    · rw [hlength]
      exact htotalIn

/-- A call that drains what is pending and gets to the chunk. -/
theorem moves_iff_of_chunk {rested : UzlibComp} {r : DeflateResult}
    (h : Delivering ustate strm.totalOut pending) (hroom : pending.length ≤ strm.availOut)
    (hgets : strm.availIn ≠ 0 ∨ ustate.outbuf = none)
    (hchunk : ChunkCall build memory (strm.drained pending.length) rested flush r)
    (hrested : ∀ input adlerV, encodeChunk build { ustate with outbuf := none } input flush adlerV =
      encodeChunk build rested input flush adlerV) :
    (DeflateCall.mk memory strm ustate flush { r with stored := pending ++ r.stored }).Moves ↔
      (DeflateCall.mk memory strm ustate flush
        { r with stored := pending ++ r.stored }).StartsCounts build := by
  have hwaiting := fun r ↦ waiting_eq memory flush r h
  have hencodes : ∀ r, strm.availIn ≠ 0 ∨ flush = .finish →
      (DeflateCall.mk memory strm ustate flush r).Encodes := by
    intro r hin
    refine ⟨by rw [hwaiting]; exact hroom, ?_⟩
    rcases hgets with hin' | hnone
    · exact .inl hin'
    · exact hin.imp_right fun hfinish ↦ ⟨hfinish, hnone⟩
  cases hchunk with
  | nothing hin hflush =>
    refine iff_of_true (moves_of_not_encodes hroom rfl (by rw [List.append_nil])) ?_
    refine startsCounts_of_not_encodes fun hencodes ↦ ?_
    rcases hencodes.2 with hsome | ⟨hfinish, -⟩
    · exact hsome hin
    · exact hflush hfinish
  | @delivers encoded bytes adlerV hadler hencoded hin hfits =>
    have hfits' : bytes.length ≤ strm.availOut - pending.length := hfits
    rw [startsCounts_iff (hencodes _ hin), spills_iff h hrested hadler hencoded, hwaiting,
      moves_iff_of_read rfl rfl]
    · by_cases hfinish : flush = .finish
      · simp only [hfinish, ZStream.chunkRead, ZStream.drained, List.length_append, if_true,
          true_imp_iff, not_true_eq_false, false_imp_iff, and_true, ne_eq, not_lt, hfits']
        omega
      · simp only [hfinish, ZStream.chunkRead, ZStream.drained, List.length_append, if_false,
          true_imp_iff, not_false_eq_true, false_imp_iff, true_and, ne_eq]
        omega
    · simp only [ZStream.drained, List.length_append]
      omega
    · simp only [ZStream.drained, List.length_append]
      omega
  | @spills encoded bytes adlerV hadler hencoded hin hflush hfits =>
    have hspills : strm.availOut - pending.length < bytes.length := hfits
    have htake : (bytes.take (strm.availOut - pending.length)).length =
        strm.availOut - pending.length := by
      rw [List.length_take, min_eq_left hspills.le]
    rw [startsCounts_iff (hencodes _ (.inl hin)), spills_iff h hrested hadler hencoded, hwaiting,
      moves_iff_of_read rfl rfl]
    · simp only [hflush, ZStream.chunkRead, ZStream.drained, List.length_append, htake, if_false,
        false_imp_iff, true_and, ne_eq, not_false_eq_true, true_imp_iff, hspills]
      omega
    · simp only [ZStream.drained, List.length_append, htake]
      omega
    · simp only [ZStream.drained, List.length_append, htake]
      omega
  | @refuses encoded bytes adlerV hadler hencoded hfinish hfits =>
    have hspills : strm.availOut - pending.length < bytes.length := hfits
    rw [startsCounts_iff (hencodes _ (.inr hfinish)), spills_iff h hrested hadler hencoded, hwaiting,
      moves_iff_of_read rfl rfl]
    · simp only [hfinish, ZStream.chunkRead, ZStream.drained, List.append_nil, if_true, true_imp_iff,
        not_true_eq_false, false_imp_iff, and_true, ne_eq, hspills]
      omega
    · simp only [ZStream.chunkRead, ZStream.drained, List.append_nil]
    · simp only [ZStream.chunkRead, ZStream.drained, List.append_nil]
      omega

/-- A call moves its counters together exactly when it meets the condition. -/
theorem moves_iff {r : DeflateResult} (h : Delivering ustate strm.totalOut pending)
    (hstep : DeflateStep build memory strm ustate flush pending r) :
    (DeflateCall.mk memory strm ustate flush r).Moves ↔
      (DeflateCall.mk memory strm ustate flush r).StartsCounts build := by
  have hwaiting := fun r ↦ waiting_eq memory flush r h
  cases hstep with
  | stays _ _ hroom =>
    refine iff_of_true (moves_of_not_encodes le_rfl rfl ?_)
      (startsCounts_of_not_encodes fun hencodes ↦ ?_)
    · rw [List.length_take, min_eq_left hroom.le]
    · have hdrained := hencodes.1
      rw [hwaiting] at hdrained
      exact absurd hdrained (not_le.mpr hroom)
  | drains hpending hroom hin =>
    refine iff_of_true (moves_of_not_encodes hroom rfl rfl)
      (startsCounts_of_not_encodes fun hencodes ↦ ?_)
    rcases hencodes.2 with hsome | ⟨-, hnone⟩
    · exact hsome hin
    · rcases h.outbuf with ⟨-, hempty⟩ | ⟨-, -, block, hblock, -⟩
      · exact hpending hempty
      · rw [show ustate.outbuf = none from hnone] at hblock
        cases hblock
  | continues hpending hroom hin hchunk =>
    exact moves_iff_of_chunk h hroom (.inl hin) hchunk fun _ _ ↦ rfl
  | @fresh r hpending hchunk =>
    subst hpending
    have hnone := h.idle.outbuf
    exact moves_iff_of_chunk h (Nat.zero_le _) (.inr hnone) hchunk
      fun _ _ ↦ by rw [← hnone]

end Calls

/-! ### Histories -/

/-- What a call leaves behind: output may be pending, unless it freed the buffer with
`Z_BUF_ERROR`. -/
def Settled (r : DeflateResult) : Prop :=
  r.code ≠ .bufError ∧ (∃ pending, Delivering r.state r.strm.totalOut pending) ∨
    r.code = .bufError ∧ ∃ block, r.state.outbuf = some ⟨block, 0, false⟩

theorem ChunkCall.settled {build : Build} {memory : Memory} {strm : ZStream} {ustate : UzlibComp}
    {flush : Flush} {r : DeflateResult} (h : ChunkCall build memory strm ustate flush r)
    (hidle : Idle ustate) : Settled r := by
  cases h with
  | nothing _ _ => exact .inl ⟨ZCode.noConfusion, [], hidle.delivering _⟩
  | delivers _ hencoded _ _ =>
    refine .inl ⟨?_, [], hencoded.kept.dictSize.trans hidle.dictSize, .inl ⟨rfl, rfl⟩⟩
    by_cases hfinish : flush = .finish
    · simp only [if_pos hfinish]
      decide
    · simp only [if_neg hfinish]
      decide
  | @spills encoded bytes _ _ hencoded _ _ hroom =>
    have hlength : (bytes.drop strm.availOut).length = bytes.length - strm.availOut :=
      List.length_drop
    have hpending : bytes.drop strm.availOut ≠ [] := by
      rw [← List.length_pos_iff, hlength]
      omega
    exact .inl ⟨ZCode.noConfusion, bytes.drop strm.availOut, hencoded.kept.dictSize.trans hidle.dictSize,
      .inr ⟨hpending, hlength.symm, bytes, rfl, rfl⟩⟩
  | @refuses encoded bytes _ _ _ _ _ => exact .inr ⟨rfl, bytes, rfl⟩

theorem DeflateStep.settled {build : Build} {memory : Memory} {strm : ZStream} {ustate : UzlibComp}
    {flush : Flush} {pending : List UInt8} {r : DeflateResult}
    (hdelivering : Delivering ustate strm.totalOut pending)
    (h : DeflateStep build memory strm ustate flush pending r) : Settled r := by
  cases h with
  | @stays block hblock hdrop hroom =>
    have hlength : (pending.drop strm.availOut).length = pending.length - strm.availOut :=
      List.length_drop
    have hpending : pending.drop strm.availOut ≠ [] := by
      rw [← List.length_pos_iff, hlength]
      omega
    refine .inl ⟨ZCode.noConfusion, pending.drop strm.availOut, hdelivering.dictSize,
      .inr ⟨hpending, hlength.symm, block, ?_, ?_⟩⟩
    · simp only [ZStream.drained, Nat.cast_add]
    · rw [ZStream.drained, ← hdrop, List.drop_drop]
  | drains _ _ _ =>
    exact .inl ⟨ZCode.noConfusion, [], hdelivering.dictSize, .inl ⟨rfl, rfl⟩⟩
  | continues _ _ _ hchunk =>
    have hsettled := hchunk.settled ⟨rfl, hdelivering.dictSize⟩
    exact hsettled
  | fresh hpending hchunk =>
    subst hpending
    exact hchunk.settled hdelivering.idle

/-- A state of a history: output may be pending, or the last call freed the buffer with
`Z_BUF_ERROR`. -/
def Between (calls : List DeflateCall) (strm : ZStream) (ustate : UzlibComp) : Prop :=
  (∃ pending, Delivering ustate strm.totalOut pending) ∧
      (∀ call ∈ calls, call.result.code ≠ .bufError) ∨
    (∃ block, ustate.outbuf = some ⟨block, 0, false⟩) ∧
      ∃ call ∈ calls, call.result.code = .bufError

/-- No call succeeds behind a `Z_BUF_ERROR`: the state still points to the buffer that was freed. -/
theorem not_deflate_of_freed {build : Build} {memory : Memory} {strm : ZStream} {ustate : UzlibComp}
    {flush : Flush} {block : List UInt8} {r : DeflateResult}
    (h : ustate.outbuf = some ⟨block, 0, false⟩) :
    deflate build memory strm ustate flush ≠ .ok r := by
  have hread : ∀ count, OutPtr.read ⟨block, 0, false⟩ count = .error .heapRange := fun count ↦
    if_neg fun hlive ↦ Bool.false_ne_true hlive.1
  rw [deflate, h]
  simp only [hread, bind, Except.bind]
  split <;> exact fun h ↦ by cases h

/-- What every call keeps. -/
theorem Between.call {build : Build} {calls : List DeflateCall} {memory : Memory} {strm : ZStream}
    {ustate : UzlibComp} {flush : Flush} {r : DeflateResult} (h : Between calls strm ustate)
    (hr : deflate build memory strm ustate flush = .ok r) :
    Between (calls ++ [⟨memory, strm, ustate, flush, r⟩]) r.strm r.state ∧
      ((DeflateCall.mk memory strm ustate flush r).Moves ↔
        (DeflateCall.mk memory strm ustate flush r).StartsCounts build) := by
  rcases h with ⟨⟨pending, hdelivering⟩, hcodes⟩ | ⟨⟨block, hfreed⟩, -⟩
  · obtain ⟨r', hr', hstep⟩ := deflate_cases build memory flush hdelivering
    rw [hr'] at hr
    injection hr with hr
    subst hr
    refine ⟨?_, moves_iff hdelivering hstep⟩
    rcases hstep.settled hdelivering with ⟨hcode, hpending⟩ | ⟨hcode, hfreed⟩
    · refine .inl ⟨hpending, fun call hcall ↦ ?_⟩
      rcases List.mem_append.mp hcall with hcall | hcall
      · exact hcodes call hcall
      · rw [List.mem_singleton.mp hcall]
        exact hcode
    · exact .inr ⟨hfreed, _, List.mem_append_right _ (List.mem_singleton.mpr rfl), hcode⟩
  · exact absurd hr (not_deflate_of_freed hfreed)

theorem DeflateRun.between {build : Build} {start strm : ZStream} {calls : List DeflateCall}
    {ustate : UzlibComp} (hrun : DeflateRun build start calls strm ustate) :
    Between calls strm ustate ∧ ∀ call ∈ calls, call.Moves ↔ call.StartsCounts build := by
  induction hrun with
  | init heap =>
    exact ⟨.inl ⟨⟨[], Idle.delivering ⟨rfl, rfl⟩ _⟩, fun call hcall ↦ by cases hcall⟩,
      fun call hcall ↦ by cases hcall⟩
  | @call calls strm strm' ustate memory flush r _ hstrm hr ih =>
    obtain ⟨hbetween, hmoves⟩ := ih
    have hbetween' : Between calls strm' ustate := by
      rw [Between, hstrm.totalOut]
      exact hbetween
    obtain ⟨hnext, hcall⟩ := hbetween'.call hr
    refine ⟨hnext, fun call hmem ↦ ?_⟩
    rcases List.mem_append.mp hmem with hmem | hmem
    · exact hmoves call hmem
    · rw [List.mem_singleton.mp hmem]
      exact hcall

/-- Totals that start at zero and move with the calls. -/
theorem DeflateRun.totals {build : Build} {start strm : ZStream} {calls : List DeflateCall}
    {ustate : UzlibComp} (hrun : DeflateRun build start calls strm ustate)
    (hin : start.totalIn = 0) (hout : start.totalOut = 0) (hmoves : ∀ call ∈ calls, call.Moves) :
    CountersTrue calls ∧ strm.totalIn = (consumedBytes calls).length ∧
      strm.totalOut = (delivered calls).length := by
  induction hrun with
  | init heap =>
    refine ⟨⟨hmoves, ?_, ?_⟩, hin, hout⟩ <;> intro earlier call hfront
    all_goals exact absurd (List.prefix_nil.mp hfront) (by simp)
  | @call calls strm strm' ustate memory flush r _ hstrm hr ih =>
    obtain ⟨htrue, htotalIn, htotalOut⟩ := ih fun call hcall ↦
      hmoves call (List.mem_append_left _ hcall)
    have hcall := hmoves _ (List.mem_append_right _ (List.mem_singleton.mpr rfl))
    have htotalIn' : r.strm.totalIn =
        (consumedBytes (calls ++ [⟨memory, strm', ustate, flush, r⟩])).length := by
      rw [consumedBytes_append, List.length_append, ← htotalIn, ← hstrm.totalIn]
      exact hcall.totalIn
    have htotalOut' : r.strm.totalOut =
        (delivered (calls ++ [⟨memory, strm', ustate, flush, r⟩])).length := by
      rw [delivered_append, List.length_append, ← htotalOut, ← hstrm.totalOut]
      exact hcall.totalOut
    refine ⟨⟨hmoves, ?_, ?_⟩, htotalIn', htotalOut'⟩ <;> intro earlier call hfront
    all_goals
      rcases List.prefix_concat_iff.mp hfront with hall | hearlier
    · obtain ⟨rfl, hlast⟩ := List.append_inj' hall rfl
      obtain rfl := List.singleton_inj.mp hlast
      exact htotalIn'
    · exact htrue.totalIn earlier call hearlier
    · obtain ⟨rfl, hlast⟩ := List.append_inj' hall rfl
      obtain rfl := List.singleton_inj.mp hlast
      exact htotalOut'
    · exact htrue.totalOut earlier call hearlier

/-- In a history whose totals start at zero, the counters are right if and only if every call meets
its condition; and a call is defined as long as none has returned `Z_BUF_ERROR`. -/
theorem countersTrue_iff {build : Build} {start strm : ZStream} {calls : List DeflateCall}
    {ustate : UzlibComp} (hrun : DeflateRun build start calls strm ustate)
    (hin : start.totalIn = 0) (hout : start.totalOut = 0) :
    (CountersTrue calls ↔ ∀ call ∈ calls, call.StartsCounts build) ∧
      ∀ memory strm' flush, Hands strm strm' →
        ((∃ r, deflate build memory strm' ustate flush = .ok r) ↔
          ∀ call ∈ calls, call.result.code ≠ .bufError) := by
  obtain ⟨hbetween, hmoves⟩ := hrun.between
  refine ⟨⟨fun htrue call hcall ↦ (hmoves call hcall).mp (htrue.moves call hcall), fun hstarts ↦
    (hrun.totals hin hout fun call hcall ↦ (hmoves call hcall).mpr (hstarts call hcall)).1⟩,
    fun memory strm' flush hstrm ↦ ?_⟩
  rcases hbetween with ⟨⟨pending, hdelivering⟩, hcodes⟩ | ⟨⟨block, hfreed⟩, call, hcall, hcode⟩
  · refine iff_of_true ?_ hcodes
    rw [← hstrm.totalOut] at hdelivering
    obtain ⟨r, hr, -⟩ := deflate_cases build memory flush hdelivering
    exact ⟨r, hr⟩
  · exact iff_of_false (fun ⟨r, hr⟩ ↦ not_deflate_of_freed hfreed hr)
      fun hcodes ↦ hcodes call hcall hcode

/-- The letter `a`, flushed through a window of five bytes. -/
theorem countersTrue_letter : ∃ r, r.strm.totalOut = 5 ∧
    (CountersTrue [⟨fun _ ↦ 97, letterStrm, letterState, .syncFlush, r⟩] ↔
      ∀ call ∈ [DeflateCall.mk (fun _ ↦ 97) letterStrm letterState .syncFlush r],
        call.StartsCounts ⟨false, none⟩) := by
  have htotal : (deflate ⟨false, none⟩ (fun _ ↦ 97) letterStrm letterState .syncFlush).map
      (·.strm.totalOut) = .ok 5 := by decide +kernel
  obtain ⟨r, hr, htotalOut⟩ := map_ok htotal
  have hrun : DeflateRun ⟨false, none⟩ letterStrm
      [⟨fun _ ↦ 97, letterStrm, letterState, .syncFlush, r⟩] r.strm r.state :=
    .call (.init _) ⟨rfl, rfl, rfl⟩ hr
  exact ⟨r, htotalOut, (countersTrue_iff hrun rfl rfl).1⟩

/-- A first letter flushed through a window of ten bytes, a second one through a window of one byte:
`total_out` goes from nine to one. -/
theorem not_countersTrue_second_spill : ∃ calls strm ustate,
    DeflateRun ⟨false, none⟩ letterStrm calls strm ustate ∧
      (∀ call ∈ calls, call.result.code = .ok) ∧ strm.totalOut = 1 ∧ ¬ CountersTrue calls := by
  have hboth : (deflate ⟨false, none⟩ (fun _ ↦ 97) { letterStrm with availOut := 10 } letterState
      .syncFlush >>= fun first ↦ (deflate ⟨false, none⟩ (fun _ ↦ 97)
        { first.strm with availIn := 1, availOut := 1 } first.state .syncFlush).map fun second ↦
          (first.code, first.strm.totalOut, second.code, second.strm.totalOut,
            second.stored.length)) = .ok (.ok, 9, .ok, 1, 1) := by decide +kernel
  obtain ⟨first, hfirst, hsecond⟩ := bind_ok hboth
  obtain ⟨second, hsecond, hvalues⟩ := map_ok hsecond
  simp only [Prod.mk.injEq] at hvalues
  obtain ⟨hcode₁, htotal₁, hcode₂, htotal₂, hstored₂⟩ := hvalues
  have hrun₁ : DeflateRun ⟨false, none⟩ letterStrm
      [⟨fun _ ↦ 97, { letterStrm with availOut := 10 }, letterState, .syncFlush, first⟩] first.strm
      first.state := .call (.init _) ⟨rfl, rfl, rfl⟩ hfirst
  have hhands : Hands first.strm { first.strm with availIn := 1, availOut := 1 } := ⟨rfl, rfl, rfl⟩
  refine ⟨_, second.strm, second.state, hrun₁.call hhands hsecond, ?_, htotal₂, ?_⟩
  · simp [hcode₁, hcode₂]
  · intro htrue
    have hmoves := (htrue.moves _ (List.mem_append_right _ (List.mem_singleton.mpr rfl))).totalOut
    simp only [htotal₁, htotal₂, hstored₂] at hmoves
    omega

end ZephyrThrift.Muzic
