import ZephyrThrift.Muzic.WindowCuts

/-!
# Calls of the inflater

A call of `inflate` past the header is one run of the loop between two settlements of accounts
(`decodeBuffer_eq`). `Reachable` are the states that calls lead to, on any input whatsoever; the loop
is only entered in a state that is live.
-/

set_option autoImplicit false
set_option relaxedAutoImplicit false

namespace ZephyrThrift.Muzic

open Foundation

/-- The states of an inflater: what `inflateInit` leaves, and what calls make of it. -/
inductive Reachable (build : Build) : InfState → Prop
  | init (statics : Statics) (heap : InfState) : Reachable build (inflateInit statics heap)
  | call {memory : Memory} {strm : ZStream} {st : InfState} {r : InflateResult}
      (hst : Reachable build st) (hr : inflate build memory strm st = .ok r) :
      Reachable build r.state

/-- The pass that a call enters the loop with. -/
def entryPass (memory : Memory) (strm : ZStream) (st : InfState) : InfPass :=
  ⟨st.core, memory.bytes st.inputPtr (st.inputEnd - st.inputPtr), strm.availOut⟩

/-- The loop of a call. -/
def runLoop (build : Build) (p : InfPass) : Except Fault InfEffect :=
  run (inflateStep build) .endlessLoop (passBound p + 1) p

theorem decodeBuffer_ok {build : Build} {memory : Memory} {strm : ZStream} {st : InfState}
    {inputBuffer : ℕ} {r : InflateResult}
    (h : decodeBuffer build memory strm st inputBuffer = .ok r) :
    ∃ e, runLoop build (entryPass memory strm st) = .ok e ∧ r = closeCall strm st inputBuffer e := by
  obtain ⟨_, _, h⟩ := bind_ok h
  obtain ⟨_, _, h⟩ := bind_ok h
  split at h
  · cases h
  · obtain ⟨e, hrun, h⟩ := bind_ok h
    cases h
    exact ⟨e, hrun, rfl⟩

theorem decodeBuffer_eq {build : Build} {memory : Memory} {strm : ZStream} {st : InfState}
    (inputBuffer : ℕ) (hout : 0 < strm.availOut) (hin : st.inputPtr ≤ st.inputEnd) :
    decodeBuffer build memory strm st inputBuffer =
      (runLoop build (entryPass memory strm st)).map (closeCall strm st inputBuffer) := by
  simp only [decodeBuffer, decide_eq_true hout, decide_eq_true hin, Build.assert_true, bind,
    Except.bind, if_neg (not_lt.mpr hin)]
  rw [runLoop, entryPass]
  cases run (inflateStep build) .endlessLoop _ _ <;> rfl

/-- A call either decodes nothing and leaves the decoder alone, or is one run of the loop. -/
theorem inflate_cases {build : Build} {memory : Memory} {strm : ZStream} {st : InfState}
    {r : InflateResult} (hr : inflate build memory strm st = .ok r) :
    (r.state.core = st.core ∧ r.stored = [] ∧ (r.state.action ≠ .finish → st.action ≠ .finish) ∧
      (r.code = .dataError → r.state.action = .init)) ∨
    ∃ strm' st' inputBuffer, st'.core = st.core ∧ st.action ≠ .finish ∧
      decodeBuffer build memory strm' st' inputBuffer = .ok r := by
  have hdecodes : ∀ {strm' : ZStream} {st' : InfState} {inputBuffer : ℕ}, st.action ≠ .finish →
      decodeBuffer build memory strm' st' inputBuffer = .ok r → st'.core = st.core →
      ∃ strm' st' inputBuffer, st'.core = st.core ∧ st.action ≠ .finish ∧
        decodeBuffer build memory strm' st' inputBuffer = .ok r :=
    fun haction h hcore ↦ ⟨_, _, _, hcore, haction, h⟩
  obtain ⟨_, _, hr⟩ := bind_ok hr
  split at hr
  · next haction =>
    simp only at hr
    split at hr
    · cases hr; exact .inl ⟨rfl, rfl, fun _ ↦ by rw [haction]; simp, fun _ ↦ rfl⟩
    · split at hr
      · cases hr; exact .inl ⟨rfl, rfl, fun _ ↦ by rw [haction]; simp, fun h ↦ by cases h⟩
      · split at hr
        · cases hr; exact .inl ⟨rfl, rfl, fun _ ↦ by rw [haction]; simp, fun h ↦ by cases h⟩
        · exact .inr (hdecodes (by rw [haction]; simp) hr rfl)
  · next haction =>
    split at hr
    · cases hr; exact .inl ⟨rfl, rfl, fun _ ↦ by rw [haction]; simp, fun h ↦ by cases h⟩
    · exact .inr (hdecodes (by rw [haction]; simp) hr rfl)
  · next haction => exact .inr (hdecodes (by rw [haction]; simp) hr rfl)
  · next haction => exact .inr (hdecodes (by rw [haction]; simp) hr rfl)
  · next haction => exact .inr (hdecodes (by rw [haction]; simp) hr rfl)
  · next haction => cases hr; exact .inl ⟨rfl, rfl, fun h ↦ h, fun h ↦ by cases h⟩

/-- Where an exit leaves an action other than `finish`, the state is live. -/
theorem live_closeCall {build : Build} {memory : Memory} {strm : ZStream} {st : InfState}
    {inputBuffer : ℕ} {r : InflateResult}
    (h : decodeBuffer build memory strm st inputBuffer = .ok r) (hlive : Live st.core)
    (hr : r.state.action ≠ .finish) :
    Live r.state.core := by
  obtain ⟨e, hrun, rfl⟩ := decodeBuffer_ok h
  have hruns := run_inflateStep build (p := entryPass memory strm st) hlive
  refine live_of_runs hruns hlive hrun fun msg hs ↦ hr ?_
  simp only [closeCall, hs, actionAfter]

/-- Every reachable state that can still decode is live. -/
theorem Reachable.live {build : Build} {st : InfState} (h : Reachable build st) :
    st.action ≠ .finish → Live st.core := by
  induction h with
  | init statics heap =>
    intro _
    exact ⟨by simp [inflateInit], by simp [inflateInit], by simp [inflateInit]⟩
  | @call memory strm st r hst hr ih =>
    intro hfinish
    rcases inflate_cases hr with ⟨hcore, -, haction, -⟩ | ⟨strm', st', _, hcore, haction, hdecode⟩
    · rw [hcore]
      exact ih (haction hfinish)
    · exact live_closeCall hdecode (by rw [hcore]; exact ih haction) hfinish

/-! ### After an error -/

/-- Calls of `inflate` one after another, each on a memory and a stream record of the caller's. -/
def inflateCalls (build : Build) :
    InfState → List (Memory × ZStream) → Except Fault (List InflateResult)
  | _, [] => .ok []
  | st, (memory, strm) :: calls => do
    let r ← inflate build memory strm st
    let results ← inflateCalls build r.state calls
    return r :: results

/-- A call that reports an error, stores nothing and leaves the caller's stream as it was. -/
structure Rejected (strm : ZStream) (r : InflateResult) : Prop where
  code_ne_ok : r.code ≠ .ok
  code_ne_streamEnd : r.code ≠ .streamEnd
  stored : r.stored = []
  strm : r.strm = strm

/-- With the action `Finish`, a call returns at once, with the initial value of its result. -/
theorem inflate_finished (build : Build) (memory : Memory) {strm : ZStream} {st : InfState}
    (haction : st.action = .finish) (hin : 0 < strm.availIn) :
    inflate build memory strm st = .ok ⟨.ok, strm, st, []⟩ := by
  simp only [inflate, decide_eq_true hin, Build.assert_true, haction]
  rfl

theorem inflateCalls_finished (build : Build) {st : InfState} (haction : st.action = .finish)
    (calls : List (Memory × ZStream)) (hin : ∀ call ∈ calls, 0 < call.2.availIn) :
    inflateCalls build st calls = .ok (calls.map fun call ↦ ⟨.ok, call.2, st, []⟩) := by
  induction calls with
  | nil => rfl
  | cons call calls ih =>
    obtain ⟨hcall, hcalls⟩ := List.forall_mem_cons.mp hin
    rw [inflateCalls, inflate_finished build call.1 haction hcall]
    simp only [bind, Except.bind, ih hcalls]
    rfl

/-- A call that fails in the block decoder leaves the action `Finish`. -/
theorem finish_of_decodeBuffer {build : Build} {memory : Memory} {strm : ZStream} {st : InfState}
    {inputBuffer : ℕ} {r : InflateResult}
    (hr : decodeBuffer build memory strm st inputBuffer = .ok r) (hcode : r.code = .dataError) :
    r.state.action = .finish := by
  obtain ⟨e, -, rfl⟩ := decodeBuffer_ok hr
  simp only [closeCall] at hcode ⊢
  rcases hsignal : e.signal with _ | _ | _ | ⟨_ | _⟩ <;> rw [hsignal] at hcode
  case halt.dataError => rfl
  all_goals cases hcode

/-- An error other than that of the header check comes from the block decoder. -/
theorem finish_of_dataError {build : Build} {memory : Memory} {strm : ZStream} {st : InfState}
    {r : InflateResult} (hr : inflate build memory strm st = .ok r) (hcode : r.code = .dataError)
    (hblock : r.state.action ≠ .init) : r.state.action = .finish := by
  rcases inflate_cases hr with ⟨-, -, -, hinit⟩ | ⟨_, _, _, -, -, hdecode⟩
  · exact absurd (hinit hcode) hblock
  · exact finish_of_decodeBuffer hdecode hcode

/-- Behind a call that failed in the block decoder, no later call reports an error: each of them
stores and consumes nothing, and returns `Z_OK`. -/
theorem not_rejected_after_error (build : Build) {memory : Memory} {strm : ZStream} {st : InfState}
    {r : InflateResult} (hr : inflate build memory strm st = .ok r) (hcode : r.code = .dataError)
    (hblock : r.state.action ≠ .init) (calls : List (Memory × ZStream))
    (hin : ∀ call ∈ calls, 0 < call.2.availIn) :
    inflateCalls build r.state calls = .ok (calls.map fun call ↦ ⟨.ok, call.2, r.state, []⟩) ∧
      ∀ results, inflateCalls build r.state calls = .ok results →
        ∀ call ∈ calls.zip results, ¬ Rejected call.1.2 call.2 := by
  have hcalls := inflateCalls_finished build (finish_of_dataError hr hcode hblock) calls hin
  refine ⟨hcalls, fun results hresults call hmem hrejected ↦ hrejected.code_ne_ok ?_⟩
  rw [hcalls] at hresults
  injection hresults with hresults
  subst hresults
  obtain ⟨_, -, heq⟩ := List.mem_map.mp (List.of_mem_zip hmem).2
  rw [← heq]

theorem not_rejected_after_reserved_type :
    ∃ r, inflate ⟨false, none⟩ (memoryOf [0x78, 0x01, 0x07]) (streamOf 3 1) freshInflater = .ok r ∧
      inflateCalls ⟨false, none⟩ r.state [(memoryOf [0x00], streamOf 1 1)] =
        .ok [⟨.ok, streamOf 1 1, r.state, []⟩] := by
  have hmap : (inflate ⟨false, none⟩ (memoryOf [0x78, 0x01, 0x07]) (streamOf 3 1) freshInflater).map
      (fun r ↦ (r.code, r.state.action)) = .ok (.dataError, .finish) := by decide +kernel
  obtain ⟨r, hr, heq⟩ := map_ok hmap
  injection heq with hcode haction
  exact ⟨r, hr, (not_rejected_after_error ⟨false, none⟩ hr hcode (by rw [haction]; decide)
    [(memoryOf [0x00], streamOf 1 1)] (by decide)).1⟩

/-- A block of the reserved type, one more byte, and the answers to both. -/
theorem fatal_then_ok :
    (inflate ⟨false, none⟩ (memoryOf [0x78, 0x01, 0x07]) (streamOf 3 1) freshInflater >>= fun r ↦
      (inflate ⟨false, none⟩ (memoryOf [0x00]) (streamOf 1 1) r.state).map fun later ↦
        (r.code, r.state.core.step, r.state.action, later.code)) =
      .ok (.dataError, .fatalError, .finish, .ok) := by
  decide +kernel

/-! ### Runs of the loop -/

/-- A call on a refilled input buffer. -/
theorem inflate_refilled {build : Build} {memory : Memory} {st : InfState}
    (haction : st.action = .fillInputBuffer) (strm : ZStream) (hin : 0 < strm.availIn)
    (hout : 0 < strm.availOut) :
    inflate build memory strm st =
      (runLoop build ⟨st.core, memory.bytes strm.nextIn strm.availIn, strm.availOut⟩).map
        (closeCall strm
          { st with inputPtr := strm.nextIn, inputEnd := strm.nextIn + strm.availIn }
          strm.nextIn) := by
  simp only [inflate, haction, decide_eq_true hin, Build.assert_true, bind, Except.bind]
  rw [decodeBuffer_eq _ hout (Nat.le_add_right _ _), entryPass, Nat.add_sub_cancel_left]

theorem inflate_refilled_ok {build : Build} {memory : Memory} {strm : ZStream} {st : InfState}
    {r : InflateResult} (haction : st.action = .fillInputBuffer)
    (hr : inflate build memory strm st = .ok r) :
    ∃ e, runLoop build ⟨st.core, memory.bytes strm.nextIn strm.availIn, strm.availOut⟩ = .ok e ∧
      r = closeCall strm
        { st with inputPtr := strm.nextIn, inputEnd := strm.nextIn + strm.availIn } strm.nextIn e := by
  obtain ⟨_, _, hr⟩ := bind_ok hr
  simp only [haction] at hr
  obtain ⟨e, hrun, hclose⟩ := decodeBuffer_ok hr
  refine ⟨e, ?_, hclose⟩
  rw [← hrun, entryPass, Nat.add_sub_cancel_left]

/-- The loop of a call is a run. -/
theorem runs_runLoop (build : Build) {p : InfPass} (h : Live p.state) :
    Runs (inflateStep build) p (runLoop build p) := run_inflateStep build h

theorem actionAfter_eq_fillInputBuffer {signal : Signal BlockResult}
    (h : actionAfter signal = .fillInputBuffer) : signal = .needInput := by
  rcases signal with _ | _ | _ | ⟨_ | _⟩
  all_goals first | rfl | cases h

theorem unsignedSub_of_le {a b : ℕ} (hle : b ≤ a) (hlt : a - b < 2 ^ 32) :
    unsignedSub a b = a - b := by
  rw [unsignedSub]
  omega

end ZephyrThrift.Muzic
