import ZephyrThrift.Muzic.Calls

/-!
# The header in pieces

A fresh inflater may get the two header bytes in one call or in two. Where the second byte arrives in
front of others, in a buffer of its own call, `inputEnd` still has its value of the call before: the
block decoder then reads what lies between the header and that place. In every other delivery it gets
what follows the header, and the counters are right throughout (`rightlySplit_iff`).
-/

set_option autoImplicit false
set_option relaxedAutoImplicit false

namespace ZephyrThrift.Muzic

open Foundation

/-! ### Calls and what they enter the decoder with -/

/-- One call of `inflate`, with what it was given and what it did. -/
structure InflateCall where
  memory : Memory
  strm : ZStream
  state : InfState
  result : Except Fault InflateResult

/-- What a call enters the block decoder with, where it does: the stream, the state and the place
where it starts to read. -/
def InflateCall.enters (call : InflateCall) : Option (ZStream × InfState × ℕ) :=
  let strm := call.strm
  let st := call.state
  match st.action with
  | .init =>
    if call.memory strm.nextIn ≠ 0x78 ∨ strm.availIn ≤ 2 then none
    else some ({ strm with totalIn := 2, availIn := strm.availIn - 2 },
      { st with inputPtr := strm.nextIn + 2, inputEnd := strm.nextIn + strm.availIn },
      strm.nextIn + 2)
  | .feed2ndZlibHeaderByte =>
    if strm.availIn = 1 then none
    else some ({ strm with totalIn := 2, availIn := strm.availIn - 1 },
      { st with inputPtr := strm.nextIn + 1 }, strm.nextIn + 1)
  | .fillInputBuffer =>
    some (strm, { st with inputPtr := strm.nextIn, inputEnd := strm.nextIn + strm.availIn },
      strm.nextIn)
  | .useOutputBufferContent | .processNextChunk => some (strm, st, strm.nextIn)
  | .finish => none

theorem InflateCall.enters_eq {call : InflateCall} {build : Build} {strm : ZStream} {st : InfState}
    {inputBuffer : ℕ} (h : call.enters = some (strm, st, inputBuffer)) (hin : 0 < call.strm.availIn) :
    inflate build call.memory call.strm call.state =
      decodeBuffer build call.memory strm st inputBuffer := by
  simp only [inflate, decide_eq_true hin, Build.assert_true, bind, Except.bind]
  unfold InflateCall.enters at h
  cases haction : call.state.action with
  | init =>
    simp only [haction] at h ⊢
    split at h
    · cases h
    · rename_i hshort
      rw [not_or, not_not] at hshort
      cases h
      rw [if_neg (not_not_intro hshort.1), if_neg (by omega), if_neg (by omega)]
  | feed2ndZlibHeaderByte =>
    simp only [haction] at h ⊢
    split at h
    · cases h
    · rename_i hmore
      cases h
      rw [if_neg hmore]
  | fillInputBuffer | useOutputBufferContent | processNextChunk =>
    simp only [haction] at h ⊢
    cases h
    rfl
  | finish => simp only [haction] at h; cases h

/-- The bytes that a call takes from its buffer: those of the header, and those that the decoder
reads. -/
def InflateCall.taken (call : InflateCall) : ℕ :=
  match call.result with
  | .error _ => 0
  | .ok r =>
    match call.enters with
    | none => r.strm.nextIn - call.strm.nextIn
    | some (_, st, inputBuffer) => (inputBuffer - call.strm.nextIn) + (r.state.inputPtr - st.inputPtr)

def takenBy (calls : List InflateCall) : ℕ := (calls.map InflateCall.taken).sum

theorem takenBy_append (calls : List InflateCall) (call : InflateCall) :
    takenBy (calls ++ [call]) = takenBy calls + call.taken := by
  simp [takenBy]

/-- What a caller may offer: a buffer and a window that are not empty. Behind a full window, it is the
buffer of the call before, or one that continues it. -/
structure Offers (strm : ZStream) (st : InfState) (strm' : ZStream) : Prop where
  availIn : 0 < strm'.availIn
  availIn_lt : strm'.availIn < 2 ^ 32
  availOut : 0 < strm'.availOut
  totalIn : strm'.totalIn = strm.totalIn
  nextIn : st.action = .useOutputBufferContent → strm'.nextIn = strm.nextIn

/-- The stream and the state behind a call that returned `Z_OK`. -/
def goesOn : Except Fault InflateResult → Option (ZStream × InfState)
  | .ok r => if r.code = .ok then some (r.strm, r.state) else none
  | .error _ => none

/-- Calls on a fresh inflater, each behind one that returned `Z_OK`. -/
inductive Delivery (build : Build) : List InflateCall → Option (ZStream × InfState) → Prop
  | init (strm : ZStream) (statics : Statics) (heap : InfState) :
      Delivery build [] (some (strm, inflateInit statics heap))
  | call {calls : List InflateCall} {strm : ZStream} {st : InfState} {strm' : ZStream}
      (h : Delivery build calls (some (strm, st))) (hoffers : Offers strm st strm')
      (memory : Memory) :
      Delivery build (calls ++ [⟨memory, strm', st, inflate build memory strm' st⟩])
        (goesOn (inflate build memory strm' st))

/-! ### What is promised -/

/-- Where the decoder runs for the first time, it gets what follows the header, and behind a call
`total_in` is what the calls have taken. -/
structure RightCall (earlier : List InflateCall) (call : InflateCall) : Prop where
  range : (∀ other ∈ earlier, other.enters = none) → ∀ strm st inputBuffer,
    call.enters = some (strm, st, inputBuffer) →
      st.inputPtr = call.strm.nextIn + (2 - takenBy earlier) ∧
        st.inputEnd = call.strm.nextIn + call.strm.availIn
  total : ∀ r, call.result = .ok r → r.strm.totalIn = takenBy earlier + call.taken

def RightlySplit (calls : List InflateCall) : Prop :=
  ∀ earlier call, earlier ++ [call] <+: calls → RightCall earlier call

/-- Behind a buffer of one byte comes another one, or one that ends where the first one does. -/
def WellHeaded (calls : List InflateCall) : Prop :=
  ∀ first second rest, calls = first :: second :: rest → first.strm.availIn = 1 →
    second.strm.availIn = 1 ∨
      first.strm.nextIn + 1 = second.strm.nextIn + second.strm.availIn

theorem rightlySplit_append {calls : List InflateCall} {call : InflateCall} :
    RightlySplit (calls ++ [call]) ↔ RightlySplit calls ∧ RightCall calls call := by
  constructor
  · exact fun h ↦ ⟨fun earlier other hfront ↦ h earlier other
      (hfront.trans (List.prefix_append _ _)), h calls call (List.prefix_refl _)⟩
  · rintro ⟨hcalls, hcall⟩ earlier other hfront
    rcases List.prefix_concat_iff.mp hfront with hall | hearlier
    · obtain ⟨rfl, hlast⟩ := List.append_inj' hall rfl
      obtain rfl := List.singleton_inj.mp hlast
      exact hcall
    · exact hcalls earlier other hearlier

theorem wellHeaded_nil : WellHeaded [] := fun _ _ _ h ↦ by cases h

theorem wellHeaded_singleton (call : InflateCall) : WellHeaded [call] := fun _ _ _ h ↦ by cases h

theorem wellHeaded_pair {first second : InflateCall} :
    WellHeaded [first, second] ↔ (first.strm.availIn = 1 → second.strm.availIn = 1 ∨
      first.strm.nextIn + 1 = second.strm.nextIn + second.strm.availIn) := by
  constructor
  · exact fun h ↦ h first second [] rfl
  · intro h _ _ _ heq
    cases heq
    exact h

/-- Only the first two calls matter. -/
theorem wellHeaded_append {first second : InflateCall} {rest : List InflateCall} {call : InflateCall} :
    WellHeaded (first :: second :: rest ++ [call]) ↔ WellHeaded (first :: second :: rest) := by
  constructor <;> intro h _ _ _ heq <;> cases heq <;> exact h _ _ _ rfl

/-! ### The accounts of a call -/

/-- A call that reads from where the decoder starts counts what it takes, and leaves the decoder in
need of input or of a window. -/
theorem decodeBuffer_account {build : Build} {memory : Memory} {strm : ZStream} {st : InfState}
    {r : InflateResult} (hr : decodeBuffer build memory strm st st.inputPtr = .ok r)
    (hlive : Live st.core) (hle : st.inputPtr ≤ st.inputEnd)
    (hlt : st.inputEnd - st.inputPtr < 2 ^ 32) :
    r.strm.totalIn = strm.totalIn + (r.state.inputPtr - st.inputPtr) ∧
      (r.code = .ok → r.state.action = .fillInputBuffer ∨
        r.state.action = .useOutputBufferContent ∧ r.state.inputPtr = r.strm.nextIn ∧
          r.state.inputPtr ≤ r.state.inputEnd ∧ r.state.inputEnd - r.state.inputPtr < 2 ^ 32) := by
  obtain ⟨e, hrun, rfl⟩ := decodeBuffer_ok hr
  have hruns := runs_runLoop build (p := entryPass memory strm st) hlive
  obtain ⟨used, hused⟩ := hruns.suffix (resumable_inflateStep build) e hrun
  have hleft := congrArg List.length hused
  rw [entryPass, Memory.length_bytes, List.length_append] at hleft
  have hstops : e.signal ≠ .proceed :=
    Runs.invariant (fun e : InfEffect ↦ e.signal ≠ .proceed) (fun _ _ (_ : True) _ _ ↦ trivial)
      (fun _ _ _ _ h ↦ h) (fun _ _ h ↦ h) hruns trivial e hrun
  refine ⟨?_, fun hcode ↦ ?_⟩
  · simp only [closeCall]
    rw [unsignedSub_of_le (by omega) (by omega)]
  · simp only [closeCall] at hcode ⊢
    rcases hsignal : e.signal with _ | _ | _ | ⟨_ | _⟩ <;> rw [hsignal] at hcode
    · exact absurd hsignal hstops
    · exact .inl rfl
    · exact .inr ⟨rfl, trivial, by omega, by omega⟩
    · cases hcode
    · cases hcode

/-- The calls have got both header bytes. -/
def Begun (calls : List InflateCall) : Prop :=
  calls ≠ [] ∧ ∀ first, calls = [first] → first.strm.availIn ≠ 1

theorem begun_append {calls : List InflateCall} {call : InflateCall} (hnonempty : calls ≠ []) :
    Begun (calls ++ [call]) := by
  refine ⟨List.append_ne_nil_of_right_ne_nil _ (List.cons_ne_nil _ _), fun first hfirst ↦ ?_⟩
  have hlength := congrArg List.length hfirst
  have hpos := List.length_pos_of_ne_nil hnonempty
  rw [List.length_append, List.length_singleton, List.length_singleton] at hlength
  omega

theorem begun_singleton {call : InflateCall} (h : call.strm.availIn ≠ 1) : Begun ([] ++ [call]) := by
  refine ⟨List.cons_ne_nil _ _, fun first hfirst ↦ ?_⟩
  cases hfirst
  exact h

/-- What the calls have taken, and what the state says of them. -/
def CountsTaken (calls : List InflateCall) (strm : ZStream) (st : InfState) : Prop :=
  match st.action with
  | .init => calls = []
  | .feed2ndZlibHeaderByte =>
    ∃ first, calls = [first] ∧ first.strm.availIn = 1 ∧ first.enters = none ∧
      takenBy calls = 1 ∧ st.inputEnd = first.strm.nextIn + 1
  | .fillInputBuffer =>
    Begun calls ∧ strm.totalIn = takenBy calls ∧
      ((∀ call ∈ calls, call.enters = none) → takenBy calls = 2)
  | .useOutputBufferContent =>
    Begun calls ∧ strm.totalIn = takenBy calls ∧ (∃ call ∈ calls, call.enters ≠ none) ∧
      st.inputPtr = strm.nextIn ∧ st.inputPtr ≤ st.inputEnd ∧ st.inputEnd - st.inputPtr < 2 ^ 32
  | .processNextChunk | .finish => False

section Step

variable {build : Build} {calls : List InflateCall} {memory : Memory} {strm' : ZStream} {st : InfState}

/-- The accounts behind a call that ran the decoder on what it should. -/
theorem countsTaken_entered {call : InflateCall} {strm : ZStream} {st' : InfState}
    (hcall : call.result = inflate build call.memory call.strm call.state)
    (hbegun : Begun (calls ++ [call])) (hin : 0 < call.strm.availIn)
    (henters : call.enters = some (strm, st', st'.inputPtr)) (hlive : Live st'.core)
    (hle : st'.inputPtr ≤ st'.inputEnd) (hlt : st'.inputEnd - st'.inputPtr < 2 ^ 32)
    (htotal : strm.totalIn = takenBy calls + (st'.inputPtr - call.strm.nextIn)) {r : InflateResult}
    (hr : call.result = .ok r) :
    r.strm.totalIn = takenBy calls + call.taken ∧
      (r.code = .ok → CountsTaken (calls ++ [call]) r.strm r.state) := by
  rw [hcall, call.enters_eq henters hin] at hr
  obtain ⟨hcount, hgoes⟩ := decodeBuffer_account hr hlive hle hlt
  have htaken : call.taken = (st'.inputPtr - call.strm.nextIn) + (r.state.inputPtr - st'.inputPtr) := by
    rw [InflateCall.taken, hcall, call.enters_eq henters hin, hr]
    simp only [henters]
  have hsum : r.strm.totalIn = takenBy calls + call.taken := by omega
  refine ⟨hsum, fun hcode ↦ ?_⟩
  have hmem : call ∈ calls ++ [call] := List.mem_append_right _ (List.mem_singleton.mpr rfl)
  have hentered : call.enters ≠ none := by rw [henters]; exact nofun
  rcases hgoes hcode with haction | ⟨haction, hptr, hle', hlt'⟩ <;>
    simp only [CountsTaken, haction, takenBy_append]
  · exact ⟨hbegun, hsum, fun hnone ↦ absurd (hnone call hmem) hentered⟩
  · exact ⟨hbegun, hsum, ⟨call, hmem, hentered⟩, hptr, hle', hlt'⟩

/-- A call that takes one or both bytes of the header, and nothing else. -/
theorem rightCall_header {call : InflateCall} {r : InflateResult} (hresult : call.result = .ok r)
    (henters : call.enters = none) (hnext : call.strm.nextIn ≤ r.strm.nextIn)
    (htotal : r.strm.totalIn + call.strm.nextIn = takenBy calls + r.strm.nextIn) :
    RightCall calls call ∧ call.taken = r.strm.nextIn - call.strm.nextIn := by
  have htaken : call.taken = r.strm.nextIn - call.strm.nextIn := by
    rw [InflateCall.taken, hresult]
    simp only [henters]
  refine ⟨⟨fun _ _ _ _ h ↦ (by rw [henters] at h; cases h), fun r' hr' ↦ ?_⟩, htaken⟩
  rw [hresult] at hr'
  cases hr'
  omega

/-- The first call: a header byte, both, or both and what follows them. -/
theorem right_init (haction : st.action = .init) (hlive : Live st.core) (hin : 0 < strm'.availIn)
    (hlt : strm'.availIn < 2 ^ 32) (hmagic : memory strm'.nextIn = 0x78) :
    RightCall [] ⟨memory, strm', st, inflate build memory strm' st⟩ ∧
      ∀ r, inflate build memory strm' st = .ok r → r.code = .ok →
        CountsTaken ([] ++ [⟨memory, strm', st, inflate build memory strm' st⟩]) r.strm r.state := by
  by_cases hshort : strm'.availIn ≤ 2
  · have henters : InflateCall.enters ⟨memory, strm', st, inflate build memory strm' st⟩ = none := by
      simp only [InflateCall.enters, haction]
      exact if_pos (.inr hshort)
    by_cases hone : strm'.availIn = 1
    · have hresult : inflate build memory strm' st =
          .ok ⟨.ok, { strm' with nextIn := strm'.nextIn + 1, availIn := 0, totalIn := 1 },
            { st with
              inputPtr := strm'.nextIn
              inputEnd := strm'.nextIn + strm'.availIn
              action := .feed2ndZlibHeaderByte }, []⟩ := by
        simp only [inflate, haction, decide_eq_true hin, Build.assert_true, bind, Except.bind, hmagic,
          ne_eq, not_true_eq_false, if_false, if_pos hone]
        rfl
      obtain ⟨hright, htaken⟩ := @rightCall_header [] _ _ hresult henters (by simp only; omega)
        (by simp only [takenBy, List.map_nil, List.sum_nil]; omega)
      refine ⟨hright, fun r hr _ ↦ ?_⟩
      rw [hresult] at hr
      cases hr
      refine ⟨_, rfl, hone, henters, ?_, by simp only [hone]⟩
      rw [takenBy_append, htaken]
      simp [takenBy]
    · have htwo : strm'.availIn = 2 := by omega
      have hresult : inflate build memory strm' st =
          .ok ⟨.ok, { strm' with nextIn := strm'.nextIn + 2, availIn := 0, totalIn := 2 },
            { st with
              inputPtr := strm'.nextIn
              inputEnd := strm'.nextIn + strm'.availIn
              action := .fillInputBuffer }, []⟩ := by
        simp only [inflate, haction, decide_eq_true hin, Build.assert_true, bind, Except.bind, hmagic,
          ne_eq, not_true_eq_false, if_false, if_neg hone, if_pos htwo]
        rfl
      obtain ⟨hright, htaken⟩ := @rightCall_header [] _ _ hresult henters (by simp only; omega)
        (by simp only [takenBy, List.map_nil, List.sum_nil]; omega)
      refine ⟨hright, fun r hr _ ↦ ?_⟩
      rw [hresult] at hr
      cases hr
      have hsum : takenBy ([] ++ [⟨memory, strm', st, inflate build memory strm' st⟩]) = 2 := by
        rw [takenBy_append, htaken]
        simp [takenBy]
      exact ⟨begun_singleton hone, hsum.symm, fun _ ↦ hsum⟩
  · have henters : InflateCall.enters ⟨memory, strm', st, inflate build memory strm' st⟩ =
        some ({ strm' with totalIn := 2, availIn := strm'.availIn - 2 },
          { st with inputPtr := strm'.nextIn + 2, inputEnd := strm'.nextIn + strm'.availIn },
          strm'.nextIn + 2) := by
      simp only [InflateCall.enters, haction]
      exact if_neg (not_or.mpr ⟨not_not_intro hmagic, hshort⟩)
    have hall := fun r ↦ @countsTaken_entered build [] _ _ _ rfl
      (begun_singleton (by simp only; omega)) hin henters hlive
      (by simp only; omega) (by simp only; omega) (by simp only [takenBy, List.map_nil, List.sum_nil]; omega) r
    refine ⟨⟨fun _ _ _ _ h ↦ ?_, fun r hr ↦ (hall r hr).1⟩, fun r hr ↦ (hall r hr).2⟩
    rw [henters] at h
    cases h
    exact ⟨rfl, rfl⟩

/-- The call on the second header byte. -/
theorem right_feed {first : InflateCall} (haction : st.action = .feed2ndZlibHeaderByte)
    (hlive : Live st.core) (hin : 0 < strm'.availIn) (hlt : strm'.availIn < 2 ^ 32)
    (hfirst : first.enters = none) (htaken : takenBy [first] = 1)
    (hend : st.inputEnd = first.strm.nextIn + 1) (hone : first.strm.availIn = 1) :
    (RightCall [first] ⟨memory, strm', st, inflate build memory strm' st⟩ ↔
        WellHeaded ([first] ++ [⟨memory, strm', st, inflate build memory strm' st⟩])) ∧
      (WellHeaded ([first] ++ [⟨memory, strm', st, inflate build memory strm' st⟩]) →
        ∀ r, inflate build memory strm' st = .ok r → r.code = .ok →
          CountsTaken ([first] ++ [⟨memory, strm', st, inflate build memory strm' st⟩]) r.strm r.state) := by
  have hheaded : WellHeaded ([first] ++ [⟨memory, strm', st, inflate build memory strm' st⟩]) ↔
      strm'.availIn = 1 ∨ st.inputEnd = strm'.nextIn + strm'.availIn := by
    rw [hend]
    exact wellHeaded_pair.trans ⟨fun h ↦ h hone, fun h _ ↦ h⟩
  rw [hheaded]
  by_cases hsecond : strm'.availIn = 1
  · have henters : InflateCall.enters ⟨memory, strm', st, inflate build memory strm' st⟩ = none := by
      simp only [InflateCall.enters, haction]
      exact if_pos hsecond
    have hresult : inflate build memory strm' st =
        .ok ⟨.ok, { strm' with nextIn := strm'.nextIn + 1, availIn := 0, totalIn := 2 },
          { st with action := .fillInputBuffer }, []⟩ := by
      simp only [inflate, haction, decide_eq_true hin, Build.assert_true, bind, Except.bind,
        if_pos hsecond]
      rfl
    obtain ⟨hright, htaken'⟩ := @rightCall_header [first] _ _ hresult henters (by simp only; omega)
      (by simp only [htaken]; omega)
    refine ⟨iff_of_true hright (.inl hsecond), fun _ r hr _ ↦ ?_⟩
    rw [hresult] at hr
    cases hr
    have hsum : takenBy ([first] ++ [⟨memory, strm', st, inflate build memory strm' st⟩]) = 2 := by
      rw [takenBy_append, htaken, htaken']
      simp
    exact ⟨begun_append (List.cons_ne_nil _ _), hsum.symm, fun _ ↦ hsum⟩
  · have henters : InflateCall.enters ⟨memory, strm', st, inflate build memory strm' st⟩ =
        some ({ strm' with totalIn := 2, availIn := strm'.availIn - 1 },
          { st with inputPtr := strm'.nextIn + 1 }, strm'.nextIn + 1) := by
      simp only [InflateCall.enters, haction]
      exact if_neg hsecond
    have hall := fun (hplace : st.inputEnd = strm'.nextIn + strm'.availIn) r ↦
      @countsTaken_entered build [first] _ _ _ rfl (begun_append (List.cons_ne_nil _ _)) hin henters hlive
        (by simp only; omega) (by simp only; omega) (by simp only [htaken]; omega) r
    refine ⟨⟨fun hright ↦ ?_, fun hplace ↦ ?_⟩, fun hplace r hr ↦
      (hall (hplace.resolve_left hsecond) r hr).2⟩
    · exact .inr (hright.range (fun other hother ↦ by rw [List.mem_singleton.mp hother]; exact hfirst)
        _ _ _ henters).2
    · have hplace := hplace.resolve_left hsecond
      refine ⟨fun _ _ _ _ h ↦ ?_, fun r hr ↦ (hall hplace r hr).1⟩
      rw [henters] at h
      cases h
      exact ⟨by rw [htaken], hplace⟩

/-- A call behind the header. -/
theorem right_entered {call : InflateCall} {strm : ZStream} {st' : InfState}
    (hbegun : Begun calls) (hresult : call.result = inflate build call.memory call.strm call.state)
    (hin : 0 < call.strm.availIn) (henters : call.enters = some (strm, st', st'.inputPtr))
    (hlive : Live st'.core) (hle : st'.inputPtr ≤ st'.inputEnd)
    (hlt : st'.inputEnd - st'.inputPtr < 2 ^ 32) (hplace : st'.inputPtr = call.strm.nextIn)
    (htotal : strm.totalIn = takenBy calls)
    (hrange : (∀ other ∈ calls, other.enters = none) → takenBy calls = 2 ∧
      st'.inputEnd = call.strm.nextIn + call.strm.availIn) :
    RightCall calls call ∧ ∀ r, call.result = .ok r → r.code = .ok →
      CountsTaken (calls ++ [call]) r.strm r.state := by
  have hall := fun r ↦ @countsTaken_entered build calls call strm st' hresult (begun_append hbegun.1) hin
    henters hlive hle hlt (by omega) r
  refine ⟨⟨fun hnone _ _ _ h ↦ ?_, fun r hr ↦ (hall r hr).1⟩, fun r hr ↦ (hall r hr).2⟩
  obtain ⟨htaken, hend⟩ := hrange hnone
  rw [henters] at h
  cases h
  exact ⟨by rw [htaken]; exact hplace, hend⟩

end Step

/-! ### Whole deliveries -/

/-- Behind the header nothing can go wrong. -/
theorem wellHeaded_behind {calls : List InflateCall} {call : InflateCall} (hbegun : Begun calls)
    (h : WellHeaded calls) : WellHeaded (calls ++ [call]) := by
  rcases calls with _ | ⟨first, _ | ⟨second, rest⟩⟩
  · exact absurd rfl hbegun.1
  · exact wellHeaded_pair.mpr fun hone ↦ absurd hone (hbegun.2 first rfl)
  · exact wellHeaded_append.mpr h

/-- One more call. -/
theorem right_call {build : Build} {calls : List InflateCall} {strm strm' : ZStream} {st : InfState}
    {memory : Memory} (hreach : Reachable build st) (hcounts : CountsTaken calls strm st)
    (hoffers : Offers strm st strm') (hmagic : calls = [] → memory strm'.nextIn = 0x78)
    (hheaded : WellHeaded calls) :
    (RightCall calls ⟨memory, strm', st, inflate build memory strm' st⟩ ↔
        WellHeaded (calls ++ [⟨memory, strm', st, inflate build memory strm' st⟩])) ∧
      (WellHeaded (calls ++ [⟨memory, strm', st, inflate build memory strm' st⟩]) →
        ∀ r, inflate build memory strm' st = .ok r → r.code = .ok →
          CountsTaken (calls ++ [⟨memory, strm', st, inflate build memory strm' st⟩]) r.strm r.state) := by
  have hlive : st.action ≠ .finish → Live st.core := hreach.live
  cases haction : st.action with
  | init =>
    simp only [CountsTaken, haction] at hcounts
    subst hcounts
    obtain ⟨hright, hnext⟩ := right_init haction (hlive (by rw [haction]; exact nofun))
      hoffers.availIn hoffers.availIn_lt (hmagic rfl)
    exact ⟨iff_of_true hright (wellHeaded_singleton _), fun _ ↦ hnext⟩
  | feed2ndZlibHeaderByte =>
    simp only [CountsTaken, haction] at hcounts
    obtain ⟨first, rfl, hone, hfirst, htaken, hend⟩ := hcounts
    exact right_feed haction (hlive (by rw [haction]; exact nofun)) hoffers.availIn
      hoffers.availIn_lt hfirst htaken hend hone
  | fillInputBuffer =>
    simp only [CountsTaken, haction] at hcounts
    obtain ⟨hbegun, htotal, hsum⟩ := hcounts
    have henters : InflateCall.enters ⟨memory, strm', st, inflate build memory strm' st⟩ =
        some (strm', { st with inputPtr := strm'.nextIn, inputEnd := strm'.nextIn + strm'.availIn },
          strm'.nextIn) := by
      simp only [InflateCall.enters, haction]
    have hin := hoffers.availIn_lt
    obtain ⟨hright, hnext⟩ := @right_entered build calls _ _ _ hbegun rfl hoffers.availIn henters
      (hlive (by rw [haction]; exact nofun)) (Nat.le_add_right _ _) (by simp only; omega) rfl
      (hoffers.totalIn.trans htotal) fun hnone ↦ ⟨hsum hnone, rfl⟩
    exact ⟨iff_of_true hright (wellHeaded_behind hbegun hheaded), fun _ ↦ hnext⟩
  | useOutputBufferContent =>
    simp only [CountsTaken, haction] at hcounts
    obtain ⟨hbegun, htotal, ⟨other, hmem, hentered⟩, hptr, hle, hlt⟩ := hcounts
    have hsame : st.inputPtr = strm'.nextIn := hptr.trans (hoffers.nextIn haction).symm
    have henters : InflateCall.enters ⟨memory, strm', st, inflate build memory strm' st⟩ =
        some (strm', st, st.inputPtr) := by
      rw [hsame]
      simp only [InflateCall.enters, haction]
    obtain ⟨hright, hnext⟩ := @right_entered build calls _ _ _ hbegun rfl hoffers.availIn henters
      (hlive (by rw [haction]; exact nofun)) hle hlt hsame (hoffers.totalIn.trans htotal)
      fun hnone ↦ absurd (hnone other hmem) hentered
    exact ⟨iff_of_true hright (wellHeaded_behind hbegun hheaded), fun _ ↦ hnext⟩
  | processNextChunk | finish => simp only [CountsTaken, haction] at hcounts

theorem WellHeaded.of_append {calls : List InflateCall} {call : InflateCall}
    (h : WellHeaded (calls ++ [call])) : WellHeaded calls := by
  rintro first second rest rfl
  exact wellHeaded_append.mp h first second rest rfl

/-- The accounts of a well-headed delivery. -/
theorem Delivery.accounted {build : Build} {calls : List InflateCall} {next : Option (ZStream × InfState)}
    (hrun : Delivery build calls next)
    (hmagic : ∀ first rest, calls = first :: rest → first.memory first.strm.nextIn = 0x78)
    (hheaded : WellHeaded calls) :
    ∀ strm st, next = some (strm, st) → Reachable build st ∧ CountsTaken calls strm st := by
  induction hrun with
  | init strm statics heap =>
    intro strm' st hnext
    cases hnext
    exact ⟨.init statics heap, rfl⟩
  | @call calls strm st strm' _ hoffers memory ih =>
    intro strm'' st'' hnext
    have hearlier : ∀ first rest, calls = first :: rest → first.memory first.strm.nextIn = 0x78 := by
      rintro first rest rfl
      exact hmagic first _ rfl
    obtain ⟨hreach, hcounts⟩ := ih hearlier hheaded.of_append strm st rfl
    unfold goesOn at hnext
    split at hnext
    · rename_i r hr
      split at hnext
      · rename_i hcode
        cases hnext
        have hstep := right_call hreach hcounts hoffers
          (by rintro rfl; exact hmagic _ _ rfl) hheaded.of_append
        exact ⟨.call hreach hr, hstep.2 hheaded r hr hcode⟩
      · cases hnext
    · cases hnext

/-- The decoder gets exactly what follows the header, and the counters are right, if and only if the
second header byte does not come in front of others behind a buffer of one byte. -/
theorem rightlySplit_iff {build : Build} {calls : List InflateCall} {next : Option (ZStream × InfState)}
    (hrun : Delivery build calls next)
    (hmagic : ∀ first rest, calls = first :: rest → first.memory first.strm.nextIn = 0x78) :
    RightlySplit calls ↔ WellHeaded calls := by
  induction hrun with
  | init => exact iff_of_true (fun _ _ h ↦ absurd (List.prefix_nil.mp h) (by simp)) wellHeaded_nil
  | @call calls strm st strm' hearlier hoffers memory ih =>
    have hmagic' : ∀ first rest, calls = first :: rest → first.memory first.strm.nextIn = 0x78 := by
      rintro first rest rfl
      exact hmagic first _ rfl
    rw [rightlySplit_append, ih hmagic']
    have hstep : WellHeaded calls → _ := fun hheaded ↦ by
      obtain ⟨hreach, hcounts⟩ := hearlier.accounted hmagic' hheaded strm st rfl
      exact (right_call hreach hcounts hoffers (by rintro rfl; exact hmagic _ _ rfl) hheaded).1
    exact ⟨fun ⟨hheaded, hright⟩ ↦ (hstep hheaded).mp hright,
      fun hheaded ↦ ⟨hheaded.of_append, (hstep hheaded.of_append).mpr hheaded⟩⟩

/-- The header and the letter `a`. -/
def headedLetter : List UInt8 := [0x78, 0x01, 0x4B, 0x04, 0x00, 0x00, 0x62, 0x00, 0x62]

/-- The first header byte, in a call of its own. -/
def firstByte : InflateCall :=
  ⟨memoryOf headedLetter, streamOf 1 9, freshInflater,
    .ok ⟨.ok, { streamOf 1 9 with nextIn := 1, availIn := 0, totalIn := 1 },
      { freshInflater with action := .feed2ndZlibHeaderByte, inputPtr := 0, inputEnd := 1 }, []⟩⟩

theorem delivery_firstByte : Delivery ⟨false, none⟩ [firstByte]
    (some ({ streamOf 1 9 with nextIn := 1, availIn := 0, totalIn := 1 },
      { freshInflater with action := .feed2ndZlibHeaderByte, inputPtr := 0, inputEnd := 1 })) :=
  .call (.init (streamOf 1 9) ⟨none, none⟩ zeroHeap)
    ⟨Nat.one_pos, show 1 < 2 ^ 32 by norm_num, show 0 < 9 by decide, rfl, fun _ ↦ rfl⟩
    (memoryOf headedLetter)

/-- A byte in each of the first two calls. -/
theorem rightlySplit_bytes : ∃ second next, Delivery ⟨false, none⟩ [firstByte, second] (some next) ∧
    second.strm.nextIn = 1 ∧ second.strm.availIn = 1 ∧ RightlySplit [firstByte, second] := by
  have hoffers : Offers { streamOf 1 9 with nextIn := 1, availIn := 0, totalIn := 1 }
      { freshInflater with action := .feed2ndZlibHeaderByte, inputPtr := 0, inputEnd := 1 }
      { streamOf 1 9 with nextIn := 1, totalIn := 1 } :=
    ⟨Nat.one_pos, show 1 < 2 ^ 32 by norm_num, show 0 < 9 by decide, rfl, fun _ ↦ rfl⟩
  have hsecond := delivery_firstByte.call hoffers (memoryOf headedLetter)
  refine ⟨_, _, hsecond, rfl, rfl, (rightlySplit_iff hsecond fun _ _ h ↦ ?_).mpr ?_⟩
  · cases h
    rfl
  · exact wellHeaded_pair.mpr fun _ ↦ .inl rfl

/-- The first byte in a buffer of its own, and then all the others: the decoder would start behind the
end that it was given, and the assertion on it fails. -/
theorem not_rightlySplit_rest : ∃ second, Delivery ⟨false, none⟩ [firstByte, second] none ∧
    second.strm.nextIn = 1 ∧ second.strm.availIn = 8 ∧ second.result = .error .assertion ∧
    ¬ RightlySplit [firstByte, second] := by
  have hoffers : Offers { streamOf 1 9 with nextIn := 1, availIn := 0, totalIn := 1 }
      { freshInflater with action := .feed2ndZlibHeaderByte, inputPtr := 0, inputEnd := 1 }
      { streamOf 8 9 with nextIn := 1, totalIn := 1 } :=
    ⟨show 0 < 8 by decide, show 8 < 2 ^ 32 by norm_num, show 0 < 9 by decide, rfl, fun _ ↦ rfl⟩
  have hsecond := delivery_firstByte.call hoffers (memoryOf headedLetter)
  refine ⟨_, hsecond, rfl, rfl, rfl, fun h ↦ ?_⟩
  have hend := ((h [firstByte] _ (List.prefix_refl _)).range (fun other hother ↦ ?_) _ _ _ rfl).2
  · cases hend
  · rw [List.mem_singleton.mp hother]
    rfl

end ZephyrThrift.Muzic
