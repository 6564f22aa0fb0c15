import ZephyrThrift.Muzic.BlockDecoding
import ZephyrThrift.Muzic.OutputCuts
import ZephyrThrift.Muzic.Trailer

/-!
# Streams in pieces

Once a stream is known to decode, calls with any windows on any pieces of it store its output in order:
what is left to be decoded is kept from call to call (`Undecoded`). For a stream in one buffer this is
all that windows change (`inflateWindows_takes`).
-/

set_option autoImplicit false
set_option relaxedAutoImplicit false

namespace ZephyrThrift.Muzic

open Foundation

/-! ### What is left of a stream -/

/-- From this state and input, with enough space, the rest of a stream is decoded and nothing remains. -/
structure Undecoded (build : Build) (st : InfCore) (input left : List UInt8) : Prop where
  live : Live st
  fits : FitsRing st left.length
  completes : Completes (inflateStep build) st input left .streamEnd []

section Runs

variable {build : Build}

theorem ranged_of_step {p : InfPass} {e : InfEffect} (hp : inflateStep build p = .ok e)
    (h : Ranged p.state) : Ranged e.pass.state :=
  ranged_iff.mpr ((ranged_iff.mp h).turn (turn_inflateStep hp))

/-- A run accounts for the free space, unless it ends in an error. -/
theorem free_of_runs {p : InfPass} {r : Except Fault InfEffect}
    (hruns : Runs (inflateStep build) p r) :
    Ranged p.state → ∀ e, r = .ok e → (∀ msg, e.signal ≠ .halt (.dataError msg)) →
      e.pass.free + e.stored.length = p.free := by
  induction hruns with
  | fault _ => intro _ e he; cases he
  | stop hp _ =>
    intro hranged e he hsound
    cases he
    exact ((turn_inflateStep hp).free (ranged_iff.mp hranged).ptr hsound).1
  | @next p first r hp hs _ ih =>
    intro hranged last hlast hsound
    cases r with
    | error fault => cases hlast
    | ok later =>
      cases hlast
      have hrest := ih (ranged_of_step hp hranged) later rfl hsound
      have hfree : first.pass.free + first.stored.length = p.free :=
        ((turn_inflateStep hp).free (ranged_iff.mp hranged).ptr (by rw [hs]; simp)).1
      rw [Effect.after_pass, Effect.after_stored, List.length_append]
      omega

/-- The decoder has something to store next. -/
def InfCore.Owes (st : InfCore) : Prop :=
  st.step = .outputUncompressedBlock ∧ 0 < st.sequenceLen ∨
    st.step = .readLiteralOrLength2 ∧ st.literal < 256 ∨
    st.step = .outputSequence ∧ 0 < st.sequenceLen

theorem InfCore.Owes.checksumLeft {st : InfCore} (h : st.Owes) : st.checksumLeft = 4 := by
  rcases h with ⟨hstep, -⟩ | ⟨hstep, -⟩ | ⟨hstep, -⟩ <;>
    simp only [InfCore.checksumLeft, hstep, Muzic.checksumLeft]

/-- Where a run asks for space, there is something to store. -/
theorem owes_of_runs {p : InfPass} {r : Except Fault InfEffect}
    (hruns : Runs (inflateStep build) p r) :
    ∀ e, r = .ok e → e.signal = .needOutput → e.pass.state.Owes := by
  refine Runs.invariant (fun e : InfEffect ↦ e.signal = .needOutput → e.pass.state.Owes)
    (fun _ _ (_ : True) _ _ ↦ trivial) (fun p e _ hp _ hfull ↦ ?_) (fun _ _ h ↦ h) hruns trivial
  have hturn := turn_inflateStep hp
  rw [hfull] at hturn
  generalize e.stored = stored at hturn
  generalize hc : controlOf e.pass = c at hturn
  have hstate : e.pass.state.step = c.step ∧ e.pass.state.literal = c.literal ∧
      e.pass.state.sequenceLen = c.sequenceLen := by
    subst hc
    exact ⟨rfl, rfl, rfl⟩
  simp only [InfCore.Owes, hstate]
  cases hturn with
  | storedPart hstep hsignal =>
    rcases hsignal with ⟨h, -⟩ | ⟨-, hlength, hmore⟩
    · cases h
    · exact .inl ⟨hstep, by simp only; omega⟩
  | literalFull hstep hliteral => exact .inr (.inl ⟨hstep, hliteral⟩)
  | copyPart hstep hmore => exact .inr (.inr ⟨hstep, by simp only; omega⟩)

/-- What is to be stored is stored on the way to the end of the stream. -/
theorem InfCore.Owes.stores {p : InfPass} {e : InfEffect} (h : p.state.Owes)
    (hptr : p.state.outputBuf.ptr ≤ infOutbufSize) (hfree : 0 < p.free)
    (hruns : Runs (inflateStep build) p (.ok e)) (hend : e.signal = .halt .streamEnd) :
    e.stored ≠ [] := by
  -- the first pass goes on and stores something
  have hfirst : ∀ first, inflateStep build p = .ok first →
      first.signal = .proceed ∨ first.signal = .halt .streamEnd →
        first.signal = .proceed ∧ first.stored ≠ [] := by
    intro first hp hsignal
    have hturn := turn_inflateStep hp
    have hcases : (controlOf p).step = .outputUncompressedBlock ∧ 0 < (controlOf p).sequenceLen ∨
        (controlOf p).step = .readLiteralOrLength2 ∧ (controlOf p).literal < 256 ∨
        (controlOf p).step = .outputSequence ∧ 0 < (controlOf p).sequenceLen := h
    have hroom : 0 < (controlOf p).free := hfree
    have hring : (controlOf p).outputBuf.ptr ≤ infOutbufSize := hptr
    generalize controlOf p = c at hturn hcases hroom hring
    generalize controlOf first.pass = c' at hturn
    generalize first.signal = signal at hturn hsignal ⊢
    generalize first.stored = stored at hturn ⊢
    cases hturn with
    | storedPart _ hwaits =>
      rcases hwaits with ⟨rfl, -⟩ | ⟨rfl, -⟩ <;> rcases hsignal with hs | hs <;> cases hs
    | storedAll hstep hlength _ =>
      refine ⟨rfl, fun hnil ↦ ?_⟩
      subst hnil
      rcases hcases with ⟨-, hpos⟩ | ⟨h, -⟩ | ⟨h, -⟩
      · rw [← hlength] at hpos
        exact absurd hpos (Nat.lt_irrefl 0)
      · cases hstep.symm.trans h
      · cases hstep.symm.trans h
    | literal _ _ _ _ => exact ⟨rfl, by simp⟩
    | copyAll hstep hfits hread =>
      refine ⟨rfl, fun hnil ↦ ?_⟩
      subst hnil
      have hlength := (infOutbufRead_length hring hread).2 rfl
      rw [List.length_nil] at hlength
      rcases hcases with ⟨h, -⟩ | ⟨h, -⟩ | ⟨-, hpos⟩
      · cases hstep.symm.trans h
      · cases hstep.symm.trans h
      · omega
    | waits | reservedType | invalidLength | literalFull | invalidSymbol | invalidDistance
    | copyFails | copyPart | checksumPart => rcases hsignal with hs | hs <;> cases hs
    | start hstep | lastBlock hstep | nextBlock hstep | blockHeader hstep | storedLength hstep
    | lengthBits hstep | distance hstep | distanceBits hstep | checksumAll hstep | finished hstep
    | broken hstep =>
      rcases hcases with ⟨h, -⟩ | ⟨h, -⟩ | ⟨h, -⟩ <;> cases hstep.symm.trans h
    | loads hnext => rcases hcases with ⟨h, -⟩ | ⟨h, -⟩ | ⟨h, -⟩ <;> rw [h] at hnext <;> cases hnext
    | symbol hstep =>
      rcases hcases with ⟨h, -⟩ | ⟨h, -⟩ | ⟨h, -⟩ <;> rcases hstep with hstep | hstep <;>
        cases hstep.symm.trans h
    | endOfBlock hstep hliteral | length hstep hliteral =>
      rcases hcases with ⟨h, -⟩ | ⟨-, hlt⟩ | ⟨h, -⟩
      · cases hstep.symm.trans h
      · omega
      · cases hstep.symm.trans h
  generalize hr : (.ok e : Except Fault InfEffect) = r at hruns
  cases hruns with
  | fault _ => cases hr
  | stop hp hs =>
    cases hr
    exact absurd (hfirst _ hp (.inr hend)).1 hs
  | @next _ first r hp hs _ =>
    cases r with
    | error fault => cases hr
    | ok later =>
      cases hr
      rw [Effect.after_stored]
      exact List.append_ne_nil_of_left_ne_nil (hfirst _ hp (.inl hs)).2 _

/-- In front of the checksum, the end of the stream needs input. -/
theorem input_of_completes {st : InfCore} {input left rest : List UInt8}
    (h : Completes (inflateStep build) st input left .streamEnd rest) (hleft : st.checksumLeft = 4) :
    input ≠ [] := by
  rintro rfl
  obtain ⟨enough, hall⟩ := h
  obtain ⟨e, hruns, hsignal, -, -⟩ := hall enough le_rfl
  obtain ⟨looked, skipped, htakes⟩ := runs_takes hruns e rfl
  have htaken : skipped.length + e.pass.state.checksumLeft = st.checksumLeft := htakes.left
  rw [checksumLeft_of_streamEnd hruns e rfl hsignal, hleft] at htaken
  have hnone := congrArg List.length (show [] = looked ++ (skipped ++ e.pass.input) from htakes.input)
  simp only [List.length_nil, List.length_append] at hnone
  omega

/-- The loop on a piece of what is left, in some window: it ends the stream, or it stops at the end of
the piece or of the window. -/
theorem Undecoded.runLoop {st : InfCore} {piece more left : List UInt8}
    (h : Undecoded build st (piece ++ more) left) (window : ℕ) :
    ∃ e, runLoop build ⟨st, piece, window⟩ = .ok e ∧ e.pass.free + e.stored.length = window ∧
      (e.signal = .needOutput → e.pass.free = 0) ∧
      (∃ used, piece = used ++ e.pass.input) ∧
      (e.signal = .halt .streamEnd ∧ e.stored = left ∧ e.pass.input = [] ∧ more = [] ∨
        ∃ later, left = e.stored ++ later ∧
          Undecoded build e.pass.state (e.pass.input ++ more) later ∧
          (e.signal = .needInput ∧ e.pass.input = [] ∧ more ≠ [] ∨
            e.signal = .needOutput ∧ e.pass.input ++ more ≠ [] ∧ later ≠ [])) := by
  obtain ⟨e, hruns, hserved⟩ := h.completes.serve (resumable_inflateStep build)
    (roomy_inflateStep build) divisible_inflateStep rfl h.fits window
  have hrun : Muzic.runLoop build ⟨st, piece, window⟩ = .ok e :=
    (runs_runLoop build h.live).unique hruns
  have hsound : ∀ msg, e.signal ≠ .halt (.dataError msg) := by
    intro msg
    cases hserved with
    | completed hsignal => rw [hsignal]; simp
    | suspended hsignal => rcases hsignal with ⟨hs, -⟩ | ⟨hs, -⟩ <;> rw [hs] <;> simp
  have hfree := free_of_runs hruns h.fits.ranged e rfl hsound
  have hsuffix := hruns.suffix (resumable_inflateStep build) e rfl
  cases hserved with
  | completed hsignal hstored hinput =>
    exact ⟨e, hrun, hfree, by rw [hsignal]; simp, hsuffix,
      .inl ⟨hsignal, hstored, List.append_eq_nil_iff.mp hinput⟩⟩
  | @suspended later hsignal hstored hlater =>
    have hfits : FitsRing e.pass.state later.length := by
      refine divisible_inflateStep.advance_runs hruns e _ rfl ?_
      rw [← List.length_append, ← hstored]
      exact h.fits
    have hundecoded : Undecoded build e.pass.state (e.pass.input ++ more) later :=
      ⟨live_of_runs hruns h.live rfl hsound, hfits, hlater⟩
    rcases hsignal with hneed | ⟨hfull, hzero⟩
    · exact ⟨e, hrun, hfree, by rw [hneed.1]; simp, hsuffix,
        .inr ⟨later, hstored, hundecoded, .inl hneed⟩⟩
    · have howes := owes_of_runs hruns e rfl hfull
      refine ⟨e, hrun, hfree, fun _ ↦ hzero, hsuffix, .inr ⟨later, hstored, hundecoded, .inr ⟨hfull,
        input_of_completes hlater howes.checksumLeft, ?_⟩⟩⟩
      obtain ⟨enough, hall⟩ := hlater
      obtain ⟨last, hlast, hsignal, hsame, -⟩ := hall (enough + 1) (Nat.le_succ enough)
      rw [← hsame]
      exact InfCore.Owes.stores (p := ⟨e.pass.state, e.pass.input ++ more, enough + 1⟩) howes
        hfits.ranged.ptr (Nat.succ_pos enough) hlast hsignal

/-- The whole body of a stream is left to a fresh inflater. -/
theorem undecoded_fresh {statics : Statics} (hstatics : SoundStatics statics) (heap : InfState)
    {body output : List UInt8} (hbody : decodeBody body = some output)
    (hfits : output.length ≤ infOutbufSize) :
    Undecoded build (inflateInit statics heap).core body output := by
  obtain ⟨bits, trailer, hblocks, htrailer, -⟩ := decodeBody_some hbody
  have hptr : (inflateInit statics heap).core.outputBuf.ptr = 0 := rfl
  refine ⟨(@Reachable.init build statics heap).live (by simp [inflateInit]), ⟨?_, ?_⟩,
    output.length, fun free hfree ↦ ?_⟩
  · exact .of_step (by simp [controlOf, inflateInit]) (Nat.zero_le _)
  · rw [hptr, Nat.zero_add]
    exact hfits
  · obtain ⟨e, hruns, hsignal, hstored, hinput, -⟩ := closedBody_spec build
      (at_fresh hstatics heap body free) rfl hblocks
      (show takeBytes 4 (alignBits bits) = some (trailer, bytesBits []) from htrailer) hfits hfree
    exact ⟨e, hruns, hsignal, hstored, hinput⟩

end Runs

/-! ### Calls on a piece -/

/-- The bytes that the decoder still has from the buffer that it was given. -/
def heldInput (memory : Memory) (st : InfState) : List UInt8 :=
  memory.bytes st.inputPtr (st.inputEnd - st.inputPtr)

/-- The accounts of a call that took some bytes. -/
structure Took (strm : ZStream) (st : InfState) (r : InflateResult) (taken : ℕ) : Prop where
  within : st.inputPtr + taken ≤ st.inputEnd
  inputPtr : r.state.inputPtr = st.inputPtr + taken
  inputEnd : r.state.inputEnd = st.inputEnd
  nextIn : r.strm.nextIn = st.inputPtr + taken
  availIn : r.strm.availIn = strm.availIn - taken
  totalIn : r.strm.totalIn = strm.totalIn + taken

/-- A call that reads from where the decoder starts counts what it takes. -/
theorem decodeBuffer_took {build : Build} {memory : Memory} {strm : ZStream} {st : InfState}
    {r : InflateResult} (hr : decodeBuffer build memory strm st st.inputPtr = .ok r)
    (hlive : Live st.core) (hle : st.inputPtr ≤ st.inputEnd)
    (hwithin : st.inputEnd - st.inputPtr ≤ strm.availIn) (hlt : strm.availIn < 2 ^ 32) :
    ∃ taken, Took strm st r taken := by
  obtain ⟨e, hrun, rfl⟩ := decodeBuffer_ok hr
  have hruns := runs_runLoop build (p := entryPass memory strm st) hlive
  obtain ⟨used, hused⟩ := hruns.suffix (resumable_inflateStep build) e hrun
  have hlength := congrArg List.length hused
  rw [entryPass, Memory.length_bytes, List.length_append] at hlength
  have hptr : st.inputEnd - e.pass.input.length = st.inputPtr + used.length := by omega
  have hconsumed : unsignedSub (st.inputPtr + used.length) st.inputPtr = used.length := by
    rw [unsignedSub_of_le] <;> omega
  have havail : unsignedSub strm.availIn used.length = strm.availIn - used.length :=
    unsignedSub_of_le (by omega) (by omega)
  refine ⟨used.length, by omega, hptr, rfl, hptr, ?_, ?_⟩ <;>
    simp only [closeCall, hptr, hconsumed, havail]

/-- How a call ends: with the stream, or waiting, and then what it has not stored is still left. -/
inductive Handled (build : Build) (memory : Memory) (window : ℕ) (more left : List UInt8)
    (r : InflateResult) : Prop
  | ended (hcode : r.code = .streamEnd) (hstored : r.stored = left)
      (hinput : r.state.inputPtr = r.state.inputEnd) (hmore : more = [])
  | waits {later : List UInt8} (hcode : r.code = .ok) (hleft : left = r.stored ++ later)
      (hlater : Undecoded build r.state.core (heldInput memory r.state ++ more) later)
      (hstops : r.state.action = .fillInputBuffer ∧ r.state.inputPtr = r.state.inputEnd ∧ more ≠ [] ∨
        r.state.action = .useOutputBufferContent ∧ r.strm.availOut = 0 ∧
          r.stored.length = window ∧ heldInput memory r.state ++ more ≠ [] ∧ later ≠ [])

section Calls

variable {build : Build} {memory : Memory} {strm : ZStream} {st : InfState}
  {more left : List UInt8}

/-- A call that reads from where the decoder starts, on a piece of what is left of a stream. -/
theorem Undecoded.decodeBuffer (h : Undecoded build st.core (heldInput memory st ++ more) left)
    (hle : st.inputPtr ≤ st.inputEnd) (hwithin : st.inputEnd - st.inputPtr ≤ strm.availIn)
    (hlt : strm.availIn < 2 ^ 32) (hout : 0 < strm.availOut) :
    ∃ r taken, Muzic.decodeBuffer build memory strm st st.inputPtr = .ok r ∧
      Took strm st r taken ∧ r.strm.totalOut = strm.totalOut + r.stored.length ∧
      Handled build memory strm.availOut more left r := by
  obtain ⟨e, hrun, hfree, hzero, ⟨used, hused⟩, hcases⟩ := h.runLoop strm.availOut
  have hlength := congrArg List.length hused
  rw [heldInput, Memory.length_bytes, List.length_append] at hlength
  have hptr : st.inputEnd - e.pass.input.length = st.inputPtr + used.length := by omega
  have hrest : heldInput memory { st with
      core := e.pass.state, action := actionAfter e.signal
      inputPtr := st.inputEnd - e.pass.input.length } = e.pass.input := by
    simp only [heldInput, hptr]
    rw [heldInput, hlength, Memory.bytes_add] at hused
    rw [show st.inputEnd - (st.inputPtr + used.length) = e.pass.input.length by omega]
    exact (List.append_inj hused (Memory.length_bytes _ _ _)).2
  have hr : Muzic.decodeBuffer build memory strm st st.inputPtr =
      .ok (closeCall strm st st.inputPtr e) := by
    rw [decodeBuffer_eq _ hout hle]
    exact congrArg (Except.map _) hrun
  obtain ⟨taken, htook⟩ := decodeBuffer_took hr h.live hle hwithin hlt
  refine ⟨_, taken, hr, htook, ?_, ?_⟩
  · simp only [closeCall]
    omega
  · rcases hcases with ⟨hsignal, hstored, hinput, hmore⟩ | ⟨later, hleft, hlater, hstops⟩
    · refine .ended (by simp only [closeCall, hsignal]; rfl) hstored ?_ hmore
      simp only [closeCall, hinput, List.length_nil, Nat.sub_zero]
    · have hcode : codeAfter e.signal = .ok := by
        rcases hstops with ⟨hsignal, -⟩ | ⟨hsignal, -⟩ <;> rw [hsignal] <;> rfl
      refine .waits hcode hleft ?_ ?_
      · rw [← hrest] at hlater
        exact hlater
      · rcases hstops with ⟨hsignal, hinput, hmore⟩ | ⟨hsignal, hmore, hlater⟩
        · refine .inl ⟨by simp only [closeCall, hsignal]; rfl, ?_, hmore⟩
          simp only [closeCall, hinput, List.length_nil, Nat.sub_zero]
        · refine .inr ⟨by simp only [closeCall, hsignal]; rfl, by simp only [closeCall, hsignal, if_true],
            ?_, ?_, hlater⟩
          · have hfull := hzero hsignal
            simp only [closeCall]
            omega
          · rw [← hrest] at hmore
            exact hmore

end Calls

/-! ### Windows one after another -/

/-- A caller with a list of windows, each given by its place and its size: it calls `inflate` once for
each of them until a call does not return `Z_OK`, and leaves the rest of the stream record alone. -/
def inflateWindows (build : Build) (memory : Memory) :
    List (ℕ × ℕ) → ZStream → InfState → Except Fault (List InflateResult)
  | [], _, _ => .ok []
  | (nextOut, availOut) :: windows, strm, st => do
    let r ← inflate build memory { strm with nextOut := nextOut, availOut := availOut } st
    if r.code = .ok then
      let results ← inflateWindows build memory windows r.strm r.state
      return r :: results
    else return [r]

/-- What a stream holds while windows are handed over: a decoder that waits for the next one, at the
place where the caller's record says. -/
structure Paused (build : Build) (memory : Memory) (strm : ZStream) (st : InfState)
    (left : List UInt8) : Prop where
  action : st.action = .useOutputBufferContent
  inputPtr : st.inputPtr = strm.nextIn
  inputEnd : st.inputEnd = strm.nextIn + strm.availIn
  availIn : 0 < strm.availIn
  availIn_lt : strm.availIn < 2 ^ 32
  undecoded : Undecoded build st.core (memory.bytes strm.nextIn strm.availIn) left

/-- What a call does in a window: it comes to the end of the stream and of its output, or it fills the
window. -/
inductive WindowEnd (build : Build) (memory : Memory) (window : ℕ) (left : List UInt8)
    (r : InflateResult) : Prop
  | ended (hcode : r.code = .streamEnd) (hstored : r.stored = left) (havail : r.strm.availIn = 0)
  | filled {later : List UInt8} (hcode : r.code = .ok) (hfull : r.strm.availOut = 0)
      (hlength : r.stored.length = window) (hleft : left = r.stored ++ later) (hmore : later ≠ [])
      (hlater : Paused build memory r.strm r.state later)

section Windows

variable {build : Build} {memory : Memory} {strm : ZStream} {st : InfState} {left : List UInt8}

/-- A call on all of the input that is left, in any window. -/
theorem Undecoded.window (h : Undecoded build st.core (memory.bytes st.inputPtr strm.availIn) left)
    (hend : st.inputEnd = st.inputPtr + strm.availIn) (hlt : strm.availIn < 2 ^ 32)
    (hout : 0 < strm.availOut) :
    ∃ r, Muzic.decodeBuffer build memory strm st st.inputPtr = .ok r ∧
      WindowEnd build memory strm.availOut left r ∧ r.strm.nextIn + r.strm.availIn = st.inputEnd ∧
      r.strm.totalIn + r.strm.availIn = strm.totalIn + strm.availIn ∧
      r.strm.totalOut = strm.totalOut + r.stored.length := by
  have hheld : heldInput memory st = memory.bytes st.inputPtr strm.availIn := by
    rw [heldInput, hend, Nat.add_sub_cancel_left]
  rw [← hheld, ← List.append_nil (heldInput memory st)] at h
  obtain ⟨r, taken, hr, htook, hproduced, hhandled⟩ := h.decodeBuffer (by omega) (by omega) hlt hout
  have hwithin := htook.within
  have hnext := htook.nextIn
  have havail := htook.availIn
  have htotal := htook.totalIn
  have hptr := htook.inputPtr
  have hend' := htook.inputEnd
  refine ⟨r, hr, ?_, by omega, by omega, hproduced⟩
  cases hhandled with
  | ended hcode hstored hinput _ => exact .ended hcode hstored (by omega)
  | @waits later hcode hleft hlater hstops =>
    rcases hstops with ⟨-, -, hmore⟩ | ⟨haction, hfull, hlength, hinput, hrest⟩
    · exact absurd rfl hmore
    · rw [List.append_nil, heldInput] at hinput hlater
      have hpos := List.length_pos_of_ne_nil hinput
      rw [Memory.length_bytes] at hpos
      rw [hptr.trans hnext.symm, show r.state.inputEnd - r.strm.nextIn = r.strm.availIn by omega]
        at hlater
      exact .filled hcode hfull hlength hleft hrest
        ⟨haction, by omega, by omega, by omega, by omega, hlater⟩

theorem Paused.call (h : Paused build memory strm st left) (hout : 0 < strm.availOut) :
    ∃ r, inflate build memory strm st = .ok r ∧ WindowEnd build memory strm.availOut left r ∧
      r.strm.nextIn + r.strm.availIn = strm.nextIn + strm.availIn ∧
      r.strm.totalIn + r.strm.availIn = strm.totalIn + strm.availIn ∧
      r.strm.totalOut = strm.totalOut + r.stored.length := by
  obtain ⟨r, hr, hwindow, hnext, htotal, hproduced⟩ := @Undecoded.window build memory strm st left
    (by rw [h.inputPtr]; exact h.undecoded) (by rw [h.inputPtr, h.inputEnd]) h.availIn_lt hout
  rw [h.inputPtr] at hr
  refine ⟨r, ?_, hwindow, by rw [hnext, h.inputEnd], htotal, hproduced⟩
  simp only [inflate, h.action, decide_eq_true h.availIn, Build.assert_true, bind, Except.bind]
  exact hr

/-- A call on a fresh inflater with a whole stream, in any window. -/
theorem inflate_window {statics : Statics} (hstatics : SoundStatics statics) (heap : InfState)
    {output : List UInt8} (hlt : strm.availIn < 2 ^ 32)
    (hdecode : decodeZlib (memory.bytes strm.nextIn strm.availIn) = some output)
    (hfits : output.length ≤ infOutbufSize) (hout : 0 < strm.availOut) :
    ∃ r, inflate build memory strm (inflateInit statics heap) = .ok r ∧
      WindowEnd build memory strm.availOut output r ∧
      r.strm.nextIn + r.strm.availIn = strm.nextIn + strm.availIn ∧
      r.strm.totalIn + r.strm.availIn = strm.availIn ∧
      r.strm.totalOut = strm.totalOut + r.stored.length := by
  obtain ⟨flg, body, hinput, hbody⟩ := decodeZlib_some hdecode
  have havail : strm.availIn = 2 + body.length := by
    rw [← Memory.length_bytes memory strm.nextIn strm.availIn, hinput, List.length_cons,
      List.length_cons]
    omega
  have hnil : body ≠ [] := by
    rintro rfl
    cases hbody
  have hpos := List.length_pos_of_ne_nil hnil
  rw [havail, Memory.bytes_add] at hinput
  obtain ⟨hfront, hbehind⟩ :
      memory.bytes strm.nextIn 2 = [0x78, flg] ∧ memory.bytes (strm.nextIn + 2) body.length = body :=
    List.append_inj hinput (by rw [Memory.length_bytes]; rfl)
  have hcmf : memory strm.nextIn = 0x78 := (List.cons.inj hfront).1
  obtain ⟨r, hr, hwindow, hnext, htotal, hproduced⟩ := @Undecoded.window build memory
    { strm with totalIn := 2, availIn := body.length } { inflateInit statics heap with
      inputPtr := strm.nextIn + 2, inputEnd := strm.nextIn + strm.availIn } output
    (by rw [hbehind]; exact undecoded_fresh hstatics heap hbody hfits) (by simp only; omega)
    (by simp only; omega) hout
  refine ⟨r, ?_, hwindow, hnext, by rw [htotal]; simp only; omega, hproduced⟩
  have haction : (inflateInit statics heap).action = .init := rfl
  simp only [inflate, haction, decide_eq_true (show 0 < strm.availIn by omega), Build.assert_true,
    bind, Except.bind, hcmf, ne_eq, not_true, if_false]
  rw [if_neg (by omega), if_neg (by omega), show strm.availIn - 2 = body.length by omega]
  exact hr

/-- The results of calls with one window each that end a stream: every window but the last is filled,
and they hold the output. -/
structure TakenIn (windows : List (ℕ × ℕ)) (left : List UInt8) (front : List InflateResult)
    (last : InflateResult) : Prop where
  ends : last.code = .streamEnd
  fills : ∀ r ∈ front, r.code = .ok ∧ r.strm.availOut = 0
  lengths : front.map (fun r ↦ r.stored.length) <+: windows.map Prod.snd
  stored : front.flatMap InflateResult.stored ++ last.stored = left
  consumed : last.strm.availIn = 0

/-- The calls behind a first one, and what they add to the accounts. -/
theorem windows_from {window : ℕ × ℕ} {windows : List (ℕ × ℕ)} {r : InflateResult}
    (hr : inflate build memory { strm with nextOut := window.1, availOut := window.2 } st = .ok r)
    (hwindow : WindowEnd build memory window.2 left r)
    (hroom : left.length ≤ window.2 + (windows.map Prod.snd).sum)
    (hrest : ∀ later, later ≠ [] → later.length ≤ (windows.map Prod.snd).sum →
      Paused build memory r.strm r.state later →
      ∃ front last, inflateWindows build memory windows r.strm r.state = .ok (front ++ [last]) ∧
        TakenIn windows later front last ∧
        last.strm.nextIn = r.strm.nextIn + r.strm.availIn ∧
        last.strm.totalIn = r.strm.totalIn + r.strm.availIn ∧
        last.strm.totalOut = r.strm.totalOut + later.length) :
    ∃ front last, inflateWindows build memory (window :: windows) strm st = .ok (front ++ [last]) ∧
      TakenIn (window :: windows) left front last ∧
      last.strm.nextIn = r.strm.nextIn + r.strm.availIn ∧
      last.strm.totalIn = r.strm.totalIn + r.strm.availIn ∧
      last.strm.totalOut + r.stored.length = r.strm.totalOut + left.length := by
  cases hwindow with
  | ended hcode hstored havail =>
    refine ⟨[], r, ?_, ⟨hcode, List.forall_mem_nil _, ?_, ?_, havail⟩, ?_, ?_, ?_⟩
    · simp only [inflateWindows, hr, bind, Except.bind, hcode, reduceCtorEq, if_false]
      rfl
    · rw [List.map_nil]
      exact List.nil_prefix
    · rw [List.flatMap_nil, List.nil_append, hstored]
    · rw [havail, Nat.add_zero]
    · rw [havail, Nat.add_zero]
    · rw [hstored]
  | @filled later hcode hfull hlength hleft hmore hlater =>
    rw [hleft, List.length_append] at hroom
    obtain ⟨front, last, hwindows, htaken, hnext, htotal, hproduced⟩ :=
      hrest later hmore (by omega) hlater
    refine ⟨r :: front, last, ?_, ⟨htaken.ends, ?_, ?_, ?_, htaken.consumed⟩, hnext, htotal, ?_⟩
    · simp only [inflateWindows, hr, bind, Except.bind, hcode, if_true, hwindows]
      rfl
    · exact List.forall_mem_cons.mpr ⟨⟨hcode, hfull⟩, htaken.fills⟩
    · rw [List.map_cons, List.map_cons, hlength]
      exact (List.prefix_cons_inj _).mpr htaken.lengths
    · rw [List.flatMap_cons, List.append_assoc, htaken.stored, hleft]
    · rw [hproduced, hleft, List.length_append]
      omega

/-- A stream that is paused is taken by windows that are long enough. -/
theorem Paused.windows : ∀ (windows : List (ℕ × ℕ)) {strm : ZStream} {st : InfState}
    {left : List UInt8}, left ≠ [] → left.length ≤ (windows.map Prod.snd).sum →
    (∀ window ∈ windows, 0 < window.2) → Paused build memory strm st left →
    ∃ front last, inflateWindows build memory windows strm st = .ok (front ++ [last]) ∧
      TakenIn windows left front last ∧ last.strm.nextIn = strm.nextIn + strm.availIn ∧
      last.strm.totalIn = strm.totalIn + strm.availIn ∧
      last.strm.totalOut = strm.totalOut + left.length := by
  intro windows
  induction windows with
  | nil =>
    intro strm st left hleft hroom
    exact absurd (List.length_eq_zero_iff.mp (Nat.le_zero.mp hroom)) hleft
  | cons window windows ih =>
    intro strm st left _ hroom hpos h
    obtain ⟨hwindow, hwindows⟩ := List.forall_mem_cons.mp hpos
    have h' : Paused build memory { strm with nextOut := window.1, availOut := window.2 } st left :=
      ⟨h.action, h.inputPtr, h.inputEnd, h.availIn, h.availIn_lt, h.undecoded⟩
    obtain ⟨r, hr, hend, hnext, htotal, hproduced⟩ := h'.call hwindow
    rw [List.map_cons, List.sum_cons] at hroom
    obtain ⟨front, last, hall, htaken, hnext', htotal', hproduced'⟩ := windows_from hr hend hroom
      fun later hmore hlength hlater ↦ ih hmore hlength hwindows hlater
    refine ⟨front, last, hall, htaken, hnext'.trans hnext, htotal'.trans htotal, ?_⟩
    simp only at hproduced
    omega

end Windows

/-- Output may be taken in any pieces: calls with one window each do what one call with a window for
all of it does. -/
theorem inflateWindows_takes (build : Build) {statics : Statics} (hstatics : SoundStatics statics)
    (heap : InfState) {memory : Memory} {strm : ZStream} {output : List UInt8}
    (hlength : strm.availIn < 2 ^ 32)
    (hdecode : decodeZlib (memory.bytes strm.nextIn strm.availIn) = some output)
    (hfits : output.length ≤ infOutbufSize) {windows : List (ℕ × ℕ)} (hsome : windows ≠ [])
    (hpos : ∀ window ∈ windows, 0 < window.2)
    (hroom : output.length ≤ (windows.map Prod.snd).sum) {nextOut size : ℕ} (hsize : 0 < size)
    (hlarge : output.length ≤ size) :
    ∃ front last single,
      inflateWindows build memory windows strm (inflateInit statics heap) = .ok (front ++ [last]) ∧
      inflate build memory { strm with nextOut := nextOut, availOut := size }
        (inflateInit statics heap) = .ok single ∧
      last.code = .streamEnd ∧ (∀ r ∈ front, r.code = .ok ∧ r.strm.availOut = 0) ∧
      front.map (fun r ↦ r.stored.length) <+: windows.map Prod.snd ∧
      single.code = .streamEnd ∧ single.stored = output ∧
      front.flatMap InflateResult.stored ++ last.stored = single.stored ∧
      last.strm.nextIn = single.strm.nextIn ∧ last.strm.totalIn = single.strm.totalIn ∧
      last.strm.totalOut = single.strm.totalOut := by
  obtain ⟨window, windows, rfl⟩ := List.exists_cons_of_ne_nil hsome
  obtain ⟨hwindow, hwindows⟩ := List.forall_mem_cons.mp hpos
  rw [List.map_cons, List.sum_cons] at hroom
  obtain ⟨r, hr, hend, hnext, htotal, hproduced⟩ := @inflate_window build memory
    { strm with nextOut := window.1, availOut := window.2 } _ hstatics heap _ hlength hdecode hfits
    hwindow
  obtain ⟨front, last, hall, htaken, hnext', htotal', hproduced'⟩ := windows_from hr hend hroom
    fun later hmore hlength hlater ↦ Paused.windows windows hmore hlength hwindows hlater
  obtain ⟨single, hsingle, hend', hsnext, hstotal, hsproduced⟩ := @inflate_window build memory
    { strm with nextOut := nextOut, availOut := size } _ hstatics heap _ hlength hdecode hfits hsize
  cases hend' with
  | filled _ _ hfull hleft hmore _ =>
    have hlater := List.length_pos_of_ne_nil hmore
    rw [hleft, List.length_append] at hlarge
    simp only at hfull
    omega
  | ended hcode hstored havail =>
    refine ⟨front, last, single, hall, hsingle, htaken.ends, htaken.fills, htaken.lengths, hcode,
      hstored, htaken.stored.trans hstored.symm, ?_, ?_, ?_⟩
    · simp only at hnext hsnext
      omega
    · simp only at htotal hstotal
      omega
    · rw [hstored] at hsproduced
      simp only at hproduced hsproduced
      omega

theorem inflateWindows_takes_overlap : ∃ front last single,
    inflateWindows ⟨false, none⟩ (memoryOf overlapStream) [(0, 3), (3, 2), (5, 4)] (streamOf 12 1)
      freshInflater = .ok (front ++ [last]) ∧
    inflate ⟨false, none⟩ (memoryOf overlapStream) { streamOf 12 1 with nextOut := 0, availOut := 8 }
      freshInflater = .ok single ∧
    last.code = .streamEnd ∧ (∀ r ∈ front, r.code = .ok ∧ r.strm.availOut = 0) ∧
    front.map (fun r ↦ r.stored.length) <+: [3, 2, 4] ∧
    single.code = .streamEnd ∧ single.stored = [97, 98, 97, 98, 97, 98, 97, 98] ∧
    front.flatMap InflateResult.stored ++ last.stored = single.stored ∧
    last.strm.nextIn = single.strm.nextIn ∧ last.strm.totalIn = single.strm.totalIn ∧
    last.strm.totalOut = single.strm.totalOut := by
  have hinput : (memoryOf overlapStream).bytes (streamOf 12 1).nextIn (streamOf 12 1).availIn =
      overlapStream := by decide
  exact inflateWindows_takes ⟨false, none⟩ soundStatics_none zeroHeap (by decide)
    (hinput ▸ decodeZlib_overlapStream) (by decide) (by decide) (by decide) (by decide) (by decide)
    (by decide)

end ZephyrThrift.Muzic
