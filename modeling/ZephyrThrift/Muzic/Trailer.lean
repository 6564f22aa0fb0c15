import ZephyrThrift.Muzic.ControlFlow
import ZephyrThrift.Muzic.HeaderDelivery

/-!
# The check bytes of the container

A zlib stream has a second header byte and four bytes of a checksum. `inflate` takes them from its
input like all the others, but it looks at none of them: calls on memory that holds other bytes in
their places leave the same states and return the same results (`Session.alter`), and the stream ends
where four bytes have been taken behind the blocks (`checkBytes_unlooked`).
-/

set_option autoImplicit false
set_option relaxedAutoImplicit false

namespace ZephyrThrift.Muzic

open Foundation

/-! ### Passes and the checksum -/

/-- The bytes of the checksum that are still expected at a step, given the field that counts them. -/
def checksumLeft : InfStep → ℕ → ℕ
  | .adler32Checksum, isLastBlock => isLastBlock
  | .end, _ => 0
  | _, _ => 4

def InfCore.checksumLeft (st : InfCore) : ℕ := Muzic.checksumLeft st.step st.isLastBlock

/-- Only the step that takes them changes how many are expected. -/
theorem checksumLeft_of_turn {build : Build} {c c' : Control} {signal : Signal BlockResult}
    {stored : List UInt8} (h : Turn build c signal stored c') (hstep : c.step ≠ .adler32Checksum) :
    checksumLeft c'.step c'.isLastBlock = checksumLeft c.step c.isLastBlock := by
  cases h with
  | waits | literalFull | finished | broken => rfl
  | start h | nextBlock h | lastBlock h | reservedType h | storedLength h | invalidLength h
  | storedAll h | literal h | endOfBlock h | invalidSymbol h | length h | lengthBits h
  | distance h | invalidDistance h | distanceBits h | copyFails h | copyAll h | storedPart h
  | copyPart h => simp only [h, checksumLeft]
  | blockHeader h _ hnext =>
    rcases hnext with rfl | rfl | rfl <;> simp only [h, checksumLeft]
  | loads h =>
    revert h
    cases hc : c.step <;> intro h <;> cases h <;> rfl
  | symbol h => rcases h with h | h <;> simp only [h, checksumLeft]
  | checksumPart h | checksumAll h => exact absurd h hstep

section Runs

variable {build : Build}

theorem checksumLeft_of_step {p : InfPass} {e : InfEffect} (hp : inflateStep build p = .ok e)
    (hstep : p.state.step ≠ .adler32Checksum) :
    e.pass.state.checksumLeft = p.state.checksumLeft :=
  checksumLeft_of_turn (turn_inflateStep hp) hstep

/-- What a pass takes settles what it does. -/
theorem step_looking {p : InfPass} {e : InfEffect} (hp : inflateStep build p = .ok e) :
    ∃ looked, p.input = looked ++ e.pass.input ∧ ∀ rest, rest.length = e.pass.input.length →
      inflateStep build (p.facing (looked ++ rest)) = .ok (e.leaving rest) := by
  by_cases hneed : e.signal = .needInput
  · obtain ⟨hnil, -⟩ := (resumable_inflateStep build).suspend p e [] hp hneed
    refine ⟨p.input, by rw [hnil, List.append_nil], fun rest hrest ↦ ?_⟩
    rw [hnil, List.length_nil, List.length_eq_zero_iff] at hrest
    rw [hrest, List.append_nil, Pass.facing_self, hp, ← hnil]
    rfl
  · obtain ⟨used, hused, hsame⟩ := (resumable_inflateStep build).settle p e hp hneed
    exact ⟨used, hused, fun rest _ ↦ hsame rest⟩

/-- The pass that takes the bytes of the checksum only counts them. -/
theorem step_skipping {p : InfPass} {e : InfEffect} (hstep : p.state.step = .adler32Checksum)
    (hp : inflateStep build p = .ok e) :
    ∃ skipped, p.input = skipped ++ e.pass.input ∧
      skipped.length + e.pass.state.checksumLeft = p.state.checksumLeft ∧
      (∀ other rest, other.length = skipped.length → rest.length = e.pass.input.length →
        inflateStep build (p.facing (other ++ rest)) = .ok (e.leaving rest)) ∧
      (e.signal = .proceed → e.pass.state.step = .end) := by
  obtain ⟨st, input, free⟩ := p
  simp only at hstep
  have hpass : ∀ input, inflateStep build ⟨st, input, free⟩ =
      passAdler32Checksum ⟨st, input, free⟩ := fun input ↦ by
    rw [inflateStep_eq]
    simp only [hstep, passOf]
  have hleft : st.checksumLeft = st.isLastBlock := by
    rw [InfCore.checksumLeft, hstep]
    rfl
  rw [hpass, passAdler32Checksum_eq] at hp
  split at hp
  · next hall =>
    cases hp
    have htake : (input.take st.isLastBlock).length = st.isLastBlock := by
      rw [List.length_take, min_eq_left hall]
    refine ⟨input.take st.isLastBlock, (List.take_append_drop _ _).symm, ?_, ?_, fun _ ↦ rfl⟩
    · rw [hleft, htake]
      rfl
    · intro other rest hother hrest
      rw [htake] at hother
      have hroom : st.isLastBlock ≤ (other ++ rest).length := by
        rw [List.length_append]
        omega
      show inflateStep build ⟨st, other ++ rest, free⟩ = _
      rw [hpass, passAdler32Checksum_eq, if_pos hroom, List.drop_left' hother]
      rfl
  · next hshort =>
    cases hp
    refine ⟨input, (List.append_nil _).symm, ?_, ?_, fun h ↦ by cases h⟩
    · rw [hleft]
      simp only [InfCore.checksumLeft, hstep, checksumLeft]
      omega
    · intro other rest hother hrest
      obtain rfl := List.length_eq_zero_iff.mp hrest
      show inflateStep build ⟨st, other ++ [], free⟩ = _
      rw [List.append_nil, hpass, passAdler32Checksum_eq, hother, if_neg hshort]
      rfl

/-- A run takes bytes that it may look at, and behind them bytes of the checksum, at whose place there
may be any others. -/
structure Takes (build : Build) (p : InfPass) (e : InfEffect) (looked skipped : List UInt8) :
    Prop where
  input : p.input = looked ++ (skipped ++ e.pass.input)
  left : skipped.length + e.pass.state.checksumLeft = p.state.checksumLeft
  runs : ∀ other rest, other.length = skipped.length → rest.length = e.pass.input.length →
    Runs (inflateStep build) (p.facing (looked ++ (other ++ rest))) (.ok (e.leaving rest))

theorem runs_takes {p : InfPass} {r : Except Fault InfEffect} (hruns : Runs (inflateStep build) p r) :
    ∀ e, r = .ok e → ∃ looked skipped, Takes build p e looked skipped := by
  induction hruns with
  | fault _ => intro e he; cases he
  | @stop p e hp hs =>
    intro _ he
    cases he
    by_cases hstep : p.state.step = .adler32Checksum
    · obtain ⟨skipped, hinput, hleft, hsame, -⟩ := step_skipping hstep hp
      exact ⟨[], skipped, hinput, hleft, fun other rest hother hrest ↦
        .stop (hsame other rest hother hrest) hs⟩
    · obtain ⟨looked, hinput, hsame⟩ := step_looking hp
      refine ⟨looked, [], hinput, ?_, fun other rest hother hrest ↦ ?_⟩
      · rw [List.length_nil, Nat.zero_add, checksumLeft_of_step hp hstep]
      · obtain rfl := List.length_eq_zero_iff.mp hother
        exact .stop (hsame rest hrest) hs
  | @next p e r hp hs hr ih =>
    intro last hlast
    cases r with
    | error fault => cases hlast
    | ok next =>
      cases hlast
      by_cases hstep : p.state.step = .adler32Checksum
      · -- behind the checksum the loop ends, and takes nothing
        obtain ⟨skipped, hinput, hleft, hsame, hend⟩ := step_skipping hstep hp
        have hfinal : ∀ input, inflateStep build (e.pass.facing input) =
            .ok ⟨e.pass.facing input, [], .halt .streamEnd⟩ := fun input ↦ by
          rw [inflateStep_eq]
          simp only [Pass.facing_state, hend hs, passOf]
        have hnext := hr.unique (.stop (hfinal e.pass.input) (by simp))
        injection hnext with hnext
        subst hnext
        refine ⟨[], skipped, hinput, hleft, fun other rest hother hrest ↦ ?_⟩
        exact .next (hsame other rest hother hrest) hs (.stop (hfinal rest) (by simp))
      · obtain ⟨first, hinput, hsame⟩ := step_looking hp
        obtain ⟨looked, skipped, htakes⟩ := ih next rfl
        refine ⟨first ++ looked, skipped, ?_, ?_, fun other rest hother hrest ↦ ?_⟩
        · rw [hinput, htakes.input, List.append_assoc]
          rfl
        · exact htakes.left.trans (checksumLeft_of_step hp hstep)
        · rw [List.append_assoc]
          refine .next (hsame (looked ++ (other ++ rest)) ?_) hs (htakes.runs other rest hother hrest)
          rw [htakes.input]
          simp only [List.length_append, hother, hrest]
          rfl

/-- Only the last step ends the stream. -/
theorem step_of_streamEnd {c c' : Control} {signal : Signal BlockResult} {stored : List UInt8}
    (h : Turn build c signal stored c') (hs : signal = .halt .streamEnd) : c' = c ∧ c.step = .end := by
  cases h with
  | storedPart _ hsignal => rcases hsignal with ⟨h, -⟩ | ⟨h, -⟩ <;> cases h.symm.trans hs
  | finished h => exact ⟨rfl, h⟩
  | _ => cases hs

/-- A run that ends the stream is done with the checksum. -/
theorem checksumLeft_of_streamEnd {p : InfPass} {r : Except Fault InfEffect}
    (hruns : Runs (inflateStep build) p r) :
    ∀ e, r = .ok e → e.signal = .halt .streamEnd → e.pass.state.checksumLeft = 0 := by
  refine Runs.invariant (fun e : InfEffect ↦ e.signal = .halt .streamEnd →
    e.pass.state.checksumLeft = 0) (fun _ _ (_ : True) _ _ ↦ trivial) (fun p e _ hp _ hsignal ↦ ?_)
    (fun _ _ h ↦ h) hruns trivial
  obtain ⟨hsame, hend⟩ := step_of_streamEnd (turn_inflateStep hp) hsignal
  show checksumLeft (controlOf e.pass).step (controlOf e.pass).isLastBlock = 0
  rw [hsame, hend]
  rfl

end Runs

/-! ### Calls and the check bytes -/

/-- The bytes of the checksum that a call takes. -/
def InflateCall.checksumTaken (call : InflateCall) : ℕ :=
  match call.result with
  | .ok r => call.state.core.checksumLeft - r.state.core.checksumLeft
  | .error _ => 0

/-- The addresses of what a call takes without looking at it: the second byte of the header, and the
bytes of the checksum, which come last. -/
def InflateCall.Skips (call : InflateCall) (address : ℕ) : Prop :=
  call.state.action = .init ∧ address = call.strm.nextIn + 1 ∨
    call.state.action = .feed2ndZlibHeaderByte ∧ address = call.strm.nextIn ∨
    ∃ r, call.result = .ok r ∧ r.state.inputPtr ≤ address + call.checksumTaken ∧
      address < r.state.inputPtr

theorem Memory.bytes_congr {memory memory' : Memory} {start count : ℕ}
    (h : ∀ address, start ≤ address → address < start + count → memory' address = memory address) :
    memory'.bytes start count = memory.bytes start count := by
  refine List.map_congr_left fun i hi ↦ h _ (Nat.le_add_right _ _) ?_
  exact Nat.add_lt_add_left (List.mem_range.mp hi) _

section Calls

variable {build : Build} {memory memory' : Memory} {strm : ZStream} {st : InfState}
  {r : InflateResult}

/-- The bytes of the checksum that a call takes are the last ones, and may be any others. -/
theorem decodeBuffer_unlooked {inputBuffer : ℕ}
    (h : decodeBuffer build memory strm st inputBuffer = .ok r) (hlive : Live st.core) :
    ∃ skipped, skipped + r.state.core.checksumLeft = st.core.checksumLeft ∧
      st.inputPtr + skipped ≤ r.state.inputPtr ∧
      ((∀ address, st.inputPtr ≤ address → address + skipped < r.state.inputPtr →
          memory' address = memory address) →
        decodeBuffer build memory' strm st inputBuffer = .ok r) := by
  obtain ⟨_, hout, h⟩ := bind_ok h
  obtain ⟨_, hin, h⟩ := bind_ok h
  split at h
  · cases h
  · next hle =>
    obtain ⟨e, hrun, h⟩ := bind_ok h
    cases h
    have hruns := runs_runLoop build (p := entryPass memory strm st) hlive
    obtain ⟨looked, skipped, htakes⟩ := runs_takes hruns e hrun
    have hinput : memory.bytes st.inputPtr (st.inputEnd - st.inputPtr) =
        looked ++ (skipped ++ e.pass.input) := htakes.input
    have hlength := congrArg List.length hinput
    rw [Memory.length_bytes, List.length_append, List.length_append] at hlength
    have hptr : st.inputEnd - e.pass.input.length =
        st.inputPtr + looked.length + skipped.length := by omega
    refine ⟨skipped.length, htakes.left, ?_, fun hsame ↦ ?_⟩
    · simp only [closeCall]
      omega
    · simp only [closeCall, hptr] at hsame
      rw [hlength, Memory.bytes_add, Memory.bytes_add] at hinput
      have hlooked : memory'.bytes st.inputPtr looked.length = looked :=
        (Memory.bytes_congr fun address hfrom hto ↦ hsame address hfrom (by omega)).trans
          (List.append_inj hinput (Memory.length_bytes _ _ _)).1
      have hother := htakes.runs
        (memory'.bytes (st.inputPtr + looked.length) skipped.length)
        (memory'.bytes (st.inputPtr + looked.length + skipped.length) e.pass.input.length)
        (Memory.length_bytes _ _ _) (Memory.length_bytes _ _ _)
      have hentry : entryPass memory' strm st = (entryPass memory strm st).facing
          (looked ++ (memory'.bytes (st.inputPtr + looked.length) skipped.length ++
            memory'.bytes (st.inputPtr + looked.length + skipped.length) e.pass.input.length)) := by
        rw [entryPass, hlength, Memory.bytes_add, Memory.bytes_add, hlooked]
        rfl
      have hsecond := (runs_runLoop build (p := entryPass memory' strm st) hlive).unique
        (hentry ▸ hother)
      simp only [decodeBuffer, hout, hin, bind, Except.bind, if_neg hle]
      rw [runLoop, entryPass] at hsecond
      rw [hsecond]
      simp only [pure, Except.pure, closeCall, Effect.leaving, Pass.facing, Memory.length_bytes]
      rfl

/-- A call does the same on memory that holds other bytes where it does not look. -/
theorem inflate_unlooked (hreach : Reachable build st) (hr : inflate build memory strm st = .ok r) :
    r.state.core.checksumLeft ≤ st.core.checksumLeft ∧
      ((∀ address, ¬ InflateCall.Skips ⟨memory, strm, st, .ok r⟩ address →
          memory' address = memory address) → inflate build memory' strm st = .ok r) := by
  -- what is not in its place is only skipped if it is of the checksum
  have hlooked : ∀ {address : ℕ},
      ¬ (st.action = .init ∧ address = strm.nextIn + 1) →
      ¬ (st.action = .feed2ndZlibHeaderByte ∧ address = strm.nextIn) →
      (r.state.inputPtr ≤ address + (st.core.checksumLeft - r.state.core.checksumLeft) →
        r.state.inputPtr ≤ address) →
      ¬ InflateCall.Skips ⟨memory, strm, st, .ok r⟩ address := by
    rintro address hsecond hfirst hplace (h | h | ⟨r', hr', hle, hlt⟩)
    · exact hsecond h
    · exact hfirst h
    · cases hr'
      exact absurd hlt (not_lt.mpr (hplace hle))
  -- a call that runs the decoder on what lies behind the header
  have hdecodes : ∀ {strm' : ZStream} {st' : InfState} {inputBuffer : ℕ}, st'.core = st.core →
      st.action ≠ .finish → decodeBuffer build memory strm' st' inputBuffer = .ok r →
      (∀ address, st'.inputPtr ≤ address → ¬ (st.action = .init ∧ address = strm.nextIn + 1) ∧
        ¬ (st.action = .feed2ndZlibHeaderByte ∧ address = strm.nextIn)) →
      r.state.core.checksumLeft ≤ st.core.checksumLeft ∧
        st'.inputPtr + (st.core.checksumLeft - r.state.core.checksumLeft) ≤ r.state.inputPtr ∧
        ((∀ address, ¬ InflateCall.Skips ⟨memory, strm, st, .ok r⟩ address →
            memory' address = memory address) →
          decodeBuffer build memory' strm' st' inputBuffer = .ok r) := by
    intro strm' st' inputBuffer hcore haction hdecode hbehind
    obtain ⟨skipped, hleft, hptr, hother⟩ := @decodeBuffer_unlooked build memory memory' _ _ _ _
      hdecode (hcore ▸ hreach.live haction)
    rw [hcore] at hleft
    refine ⟨by omega, by omega, fun hsame ↦ hother fun address hfrom hlt ↦ hsame address ?_⟩
    exact hlooked (hbehind address hfrom).1 (hbehind address hfrom).2 (by omega)
  obtain ⟨_, hassert, hr'⟩ := bind_ok hr
  simp only [inflate, hassert, bind, Except.bind]
  cases haction : st.action with
  | init =>
    have hmagic : (st.core.checksumLeft - r.state.core.checksumLeft = 0 ∨
        strm.nextIn + (st.core.checksumLeft - r.state.core.checksumLeft) < r.state.inputPtr) →
        ¬ InflateCall.Skips ⟨memory, strm, st, .ok r⟩ strm.nextIn := fun hplace ↦
      hlooked (by omega) (by simp [haction]) (by omega)
    simp only [haction] at hr' ⊢
    split at hr'
    · next hbyte =>
      cases hr'
      refine ⟨le_rfl, fun hsame ↦ ?_⟩
      rw [hsame _ (hmagic (.inl (Nat.sub_self _))), if_pos hbyte]
      rfl
    · next hbyte =>
      split at hr'
      · next hone =>
        cases hr'
        refine ⟨le_rfl, fun hsame ↦ ?_⟩
        rw [hsame _ (hmagic (.inl (Nat.sub_self _))), if_neg hbyte, if_pos hone]
        rfl
      · next hone =>
        split at hr'
        · next htwo =>
          cases hr'
          refine ⟨le_rfl, fun hsame ↦ ?_⟩
          rw [hsame _ (hmagic (.inl (Nat.sub_self _))), if_neg hbyte, if_neg hone, if_pos htwo]
          rfl
        · next htwo =>
          obtain ⟨hle, hptr, hother⟩ := hdecodes (by rfl) (by simp [haction]) hr'
            fun address hfrom ↦
              ⟨by simp only at hfrom; omega, by simp [haction]⟩
          simp only at hptr
          refine ⟨hle, fun hsame ↦ ?_⟩
          rw [hsame _ (hmagic (.inr (by omega))), if_neg hbyte, if_neg hone, if_neg htwo]
          exact hother hsame
  | feed2ndZlibHeaderByte =>
    simp only [haction] at hr' ⊢
    split at hr'
    · next hone =>
      cases hr'
      exact ⟨le_rfl, fun _ ↦ if_pos hone⟩
    · next hone =>
      obtain ⟨hle, -, hother⟩ := hdecodes (by rfl) (by simp [haction]) hr'
        fun address hfrom ↦ ⟨by simp [haction], by simp only at hfrom; omega⟩
      exact ⟨hle, fun hsame ↦ (if_neg hone).trans (hother hsame)⟩
  | fillInputBuffer | useOutputBufferContent | processNextChunk =>
    simp only [haction] at hr' ⊢
    obtain ⟨hle, -, hother⟩ := hdecodes (by rfl) (by simp [haction]) hr' fun _ _ ↦
      ⟨by simp [haction], by simp [haction]⟩
    exact ⟨hle, hother⟩
  | finish =>
    simp only [haction] at hr' ⊢
    cases hr'
    exact ⟨le_rfl, fun _ ↦ rfl⟩

end Calls

/-! ### Sessions -/

/-- Calls on a fresh inflater that returned, on any memory and any stream records, the last one
first. -/
inductive Session (build : Build) : List InflateCall → InfState → Prop
  | init (statics : Statics) (heap : InfState) : Session build [] (inflateInit statics heap)
  | call {calls : List InflateCall} {st : InfState} (h : Session build calls st) {memory : Memory}
      {strm : ZStream} {r : InflateResult} (hr : inflate build memory strm st = .ok r) :
      Session build (⟨memory, strm, st, .ok r⟩ :: calls) r.state

/-- The same call, on memory that holds other bytes where it does not look. -/
structure InflateCall.Alters (call call' : InflateCall) : Prop where
  strm : call'.strm = call.strm
  state : call'.state = call.state
  result : call'.result = call.result
  memory : ∀ address, ¬ call.Skips address → call'.memory address = call.memory address

def checksumTakenBy (calls : List InflateCall) : ℕ := (calls.map InflateCall.checksumTaken).sum

section Sessions

variable {build : Build} {calls : List InflateCall} {st : InfState}

theorem Session.reachable (h : Session build calls st) : Reachable build st := by
  induction h with
  | init statics heap => exact .init statics heap
  | call _ hr ih => exact .call ih hr

/-- The check bytes may be replaced throughout a session. -/
theorem Session.alter (h : Session build calls st) :
    ∀ {calls' : List InflateCall}, List.Forall₂ InflateCall.Alters calls calls' →
      Session build calls' st := by
  induction h with
  | init statics heap =>
    intro calls' halters
    cases halters
    exact .init statics heap
  | @call calls st h memory strm r hr ih =>
    intro calls' halters
    cases halters with
    | @cons _ call' _ calls' hcall hcalls =>
      obtain ⟨memory', strm', st', result'⟩ := call'
      obtain ⟨hstrm, hstate, hresult, hmemory⟩ := hcall
      simp only at hstrm hstate hresult hmemory
      subst hstrm hstate hresult
      exact .call (ih hcalls) ((inflate_unlooked h.reachable hr).2 hmemory)

/-- What has been taken of the checksum and what is still expected are four bytes. -/
theorem Session.checksum (h : Session build calls st) :
    checksumTakenBy calls + st.core.checksumLeft = 4 := by
  induction h with
  | init statics heap => rfl
  | @call calls st h memory strm r hr ih =>
    have hle := (@inflate_unlooked build memory memory strm st r h.reachable hr).1
    have hsum : checksumTakenBy (⟨memory, strm, st, .ok r⟩ :: calls) =
        (st.core.checksumLeft - r.state.core.checksumLeft) + checksumTakenBy calls :=
      List.sum_cons
    omega

/-- The header is not behind a session whose action is still the initial one. -/
theorem Session.header (h : Session build calls st) : st.action ≠ .init →
    ∃ call ∈ calls, call.state.action = .init ∧ call.memory call.strm.nextIn = 0x78 := by
  induction h with
  | init statics heap => exact fun haction ↦ absurd rfl haction
  | @call calls st h memory strm r hr ih =>
    intro haction
    by_cases hinit : st.action = .init
    · refine ⟨_, List.mem_cons_self, hinit, ?_⟩
      by_contra hbyte
      obtain ⟨_, hassert, hr⟩ := bind_ok hr
      simp only [hinit] at hr
      rw [if_pos hbyte] at hr
      cases hr
      exact haction rfl
    · obtain ⟨call, hmem, hcall⟩ := ih hinit
      exact ⟨call, List.mem_cons_of_mem _ hmem, hcall⟩

/-- A call that ends the stream is done with the checksum, and its session has found a header. -/
theorem Session.streamEnd (h : Session build calls st) {memory : Memory} {strm : ZStream}
    {r : InflateResult} (hr : inflate build memory strm st = .ok r) (hcode : r.code = .streamEnd) :
    r.state.core.checksumLeft = 0 ∧ (st.action = .init → memory strm.nextIn = 0x78) := by
  have hdecodes : ∀ {strm' : ZStream} {st' : InfState} {inputBuffer : ℕ}, st'.core = st.core →
      st.action ≠ .finish → decodeBuffer build memory strm' st' inputBuffer = .ok r →
      r.state.core.checksumLeft = 0 := by
    intro strm' st' inputBuffer hcore haction hdecode
    obtain ⟨e, hrun, rfl⟩ := decodeBuffer_ok hdecode
    refine checksumLeft_of_streamEnd (runs_runLoop build (p := entryPass memory strm' st') ?_) e
      hrun ?_
    · show Live st'.core
      exact hcore ▸ h.reachable.live haction
    · simp only [closeCall] at hcode
      rcases hsignal : e.signal with _ | _ | _ | ⟨_ | _⟩ <;> simp only [hsignal] at hcode
      case halt.streamEnd => rfl
      all_goals cases hcode
  obtain ⟨_, _, hr⟩ := bind_ok hr
  cases haction : st.action with
  | init =>
    simp only [haction] at hr
    split at hr
    · cases hr; cases hcode
    · next hbyte =>
      split at hr
      · cases hr; cases hcode
      · split at hr
        · cases hr; cases hcode
        · exact ⟨hdecodes (by rfl) (by simp [haction]) hr, fun _ ↦ not_not.mp hbyte⟩
  | feed2ndZlibHeaderByte =>
    simp only [haction] at hr
    split at hr
    · cases hr; cases hcode
    · exact ⟨hdecodes (by rfl) (by simp [haction]) hr, by simp⟩
  | fillInputBuffer | useOutputBufferContent | processNextChunk =>
    simp only [haction] at hr
    exact ⟨hdecodes (by rfl) (by simp [haction]) hr, by simp⟩
  | finish =>
    simp only [haction] at hr
    cases hr
    cases hcode

/-- Other check bytes do not change a session, and one that ends the stream has found a header and
taken four bytes of a checksum. -/
theorem checkBytes_unlooked (h : Session build calls st) :
    (∀ calls', List.Forall₂ InflateCall.Alters calls calls' → Session build calls' st) ∧
      ∀ call earlier r, calls = call :: earlier → call.result = .ok r → r.code = .streamEnd →
        checksumTakenBy calls = 4 ∧
          ∃ first ∈ calls, first.state.action = .init ∧
            first.memory first.strm.nextIn = 0x78 := by
  refine ⟨fun calls' ↦ h.alter, ?_⟩
  rintro call earlier r rfl hresult hcode
  have hsum := h.checksum
  cases h with
  | @call _ st' hearlier memory strm r' hr =>
    cases hresult
    obtain ⟨hleft, hmagic⟩ := hearlier.streamEnd hr hcode
    refine ⟨by omega, ?_⟩
    by_cases hinit : st'.action = .init
    · exact ⟨_, List.mem_cons_self, hinit, hmagic hinit⟩
    · obtain ⟨first, hmem, hfirst⟩ := hearlier.header hinit
      exact ⟨first, List.mem_cons_of_mem _ hmem, hfirst⟩

end Sessions

/-- The letter `a`, with other check bytes. -/
def uncheckedLetter : List UInt8 := [0x78, 0x00, 0x4B, 0x04, 0x00, 0x00, 0x00, 0x00, 0x00]

/-- The letter with its check bytes, and the same session with others. -/
theorem checkBytes_unlooked_letter : ∃ r, r.code = .streamEnd ∧ r.stored = [97] ∧
    checksumTakenBy [⟨memoryOf headedLetter, streamOf 9 1, freshInflater, .ok r⟩] = 4 ∧
    Session ⟨false, none⟩ [⟨memoryOf uncheckedLetter, streamOf 9 1, freshInflater, .ok r⟩]
      r.state := by
  have hvalues : (inflate ⟨false, none⟩ (memoryOf headedLetter) (streamOf 9 1) freshInflater).map
      (fun r ↦ (r.code, r.stored, r.state.inputPtr, r.state.core.checksumLeft)) =
        .ok (.streamEnd, [97], 9, 0) := by decide +kernel
  obtain ⟨r, hr, hvalues⟩ := map_ok hvalues
  simp only [Prod.mk.injEq] at hvalues
  obtain ⟨hcode, hstored, hptr, hleft⟩ := hvalues
  obtain ⟨halter, hend⟩ := checkBytes_unlooked (.call (.init ⟨none, none⟩ zeroHeap) hr)
  refine ⟨r, hcode, hstored, (hend _ _ r rfl rfl hcode).1, halter _ (.cons ⟨rfl, rfl, rfl, ?_⟩ .nil)⟩
  intro address hlooked
  have hfour : InflateCall.checksumTaken
      ⟨memoryOf headedLetter, streamOf 9 1, inflateInit ⟨none, none⟩ zeroHeap, .ok r⟩ = 4 := by
    simp only [InflateCall.checksumTaken, hleft]
    rfl
  have hsecond : address ≠ 1 := fun h ↦ hlooked (.inl ⟨rfl, h⟩)
  have hplace : address < 5 ∨ 9 ≤ address := by
    by_contra hnot
    exact hlooked (.inr (.inr ⟨r, rfl, by rw [hptr, hfour]; omega, by omega⟩))
  rcases hplace with hlt | hge
  · interval_cases address
    all_goals first | rfl | exact absurd rfl hsecond
  · simp only [memoryOf]
    rw [List.getD_eq_default _ _ (by exact hge), List.getD_eq_default _ _ (by exact hge)]

/-- The stream with the other check bytes is decoded to its end: the header is no multiple of 31, and
the last four bytes are not the checksum of the letter. -/
theorem streamEnd_uncheckedLetter :
    (inflate ⟨false, none⟩ (memoryOf uncheckedLetter) (streamOf 9 1) freshInflater).map
        (fun r ↦ (r.code, r.stored)) = .ok (.streamEnd, [97]) ∧
      (0x78 * 256 + 0x00) % 31 ≠ 0 ∧ adler32 [97] ≠ 0x00000000 := by
  decide +kernel

end ZephyrThrift.Muzic
