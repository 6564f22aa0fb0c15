import ZephyrThrift.Muzic.HeaderDelivery
import ZephyrThrift.Muzic.OutputPieces

/-!
# Buffers handed over while output is pending

A call that fills its window leaves the decoder with its own pointers into the caller's buffer, and the
next call goes on with them, whatever it is handed. Where the buffer was used up by the same call, the
next buffer is a new one, and the pointers only agree with it if it continues the one before. Refills
lose nothing exactly as long as all of these do (`fedRight_iff`).
-/

set_option autoImplicit false
set_option relaxedAutoImplicit false

namespace ZephyrThrift.Muzic

open Foundation

/-! ### A caller with buffers -/

/-- One call, and what the stream record held before the caller made it. -/
structure FedCall extends InflateCall where
  before : ZStream

/-- Where a caller is: the memory, its stream record, the decoder, and the pieces of the stream that it
has not handed over. -/
structure Feed where
  memory : Memory
  strm : ZStream
  state : InfState
  pieces : List (List UInt8)

/-- The bytes that have not been taken. -/
def Feed.unread (feed : Feed) : List UInt8 :=
  feed.memory.bytes feed.strm.nextIn feed.strm.availIn ++ feed.pieces.flatten

/-- What a caller hands over: the next piece, at any place, when nothing is left of the one before, and
otherwise what is left of it. -/
inductive Feed.Supplies (feed : Feed) (memory : Memory) (strm : ZStream) :
    List (List UInt8) → Prop
  | refill {piece : List UInt8} {pieces : List (List UInt8)} (hempty : feed.strm.availIn = 0)
      (hpieces : feed.pieces = piece :: pieces)
      (hbytes : memory.bytes strm.nextIn strm.availIn = piece) (hlt : strm.availIn < 2 ^ 32) :
      Supplies feed memory strm pieces
  | keep (hmore : feed.strm.availIn ≠ 0) (hnext : strm.nextIn = feed.strm.nextIn)
      (havail : strm.availIn = feed.strm.availIn)
      (hbytes : memory.bytes strm.nextIn strm.availIn =
        feed.memory.bytes feed.strm.nextIn feed.strm.availIn) :
      Supplies feed memory strm feed.pieces

/-- The calls of such a caller on a fresh inflater, each with a window that is not empty. -/
inductive Feeding (build : Build) (pieces : List (List UInt8)) : List FedCall → Option Feed → Prop
  | init (memory : Memory) {strm : ZStream} {statics : Statics} (heap : InfState)
      (hstatics : SoundStatics statics) (hempty : strm.availIn = 0) :
      Feeding build pieces [] (some ⟨memory, strm, inflateInit statics heap, pieces⟩)
  | call {calls : List FedCall} {feed : Feed} {memory : Memory} {strm : ZStream}
      {rest : List (List UInt8)} (h : Feeding build pieces calls (some feed))
      (hsupplies : feed.Supplies memory strm rest) (hout : 0 < strm.availOut) :
      Feeding build pieces
        (calls ++ [⟨⟨memory, strm, feed.state, inflate build memory strm feed.state⟩, feed.strm⟩])
        ((goesOn (inflate build memory strm feed.state)).map fun next ↦
          ⟨memory, next.1, next.2, rest⟩)

/-- A well-formed stream, cut into buffers that are not empty. -/
structure WellCut (pieces : List (List UInt8)) : Prop where
  nonempty : ∀ piece ∈ pieces, piece ≠ []
  first : ∀ piece ∈ pieces.head?, 3 ≤ piece.length
  decodes : ∃ output, decodeZlib pieces.flatten = some output

/-! ### What is promised -/

/-- What the calls have stored. -/
def storedBy (calls : List FedCall) : List UInt8 :=
  calls.flatMap fun call ↦ match call.result with
    | .ok r => r.stored
    | .error _ => []

/-- The decoder reads the caller's bytes from where they begin, and both counters move by the bytes
that it reads. -/
structure RightlyFed (call : FedCall) : Prop where
  range : ∀ strm st inputBuffer, call.enters = some (strm, st, inputBuffer) →
    st.inputPtr = inputBuffer ∧ st.inputEnd ≤ call.strm.nextIn + call.strm.availIn
  moves : ∀ r, call.result = .ok r → r.strm.nextIn = call.strm.nextIn + call.taken ∧
    r.strm.availIn + call.taken = call.strm.availIn

/-- Nothing is lost: every call reads what it should, and as long as the output is not longer than the
window ring, the calls store it, ask for more only while there is more, and end with the whole of it. -/
structure FedRight (pieces : List (List UInt8)) (calls : List FedCall) (next : Option Feed) :
    Prop where
  fed : ∀ call ∈ calls, RightlyFed call
  output : ∀ output, decodeZlib pieces.flatten = some output → output.length ≤ infOutbufSize →
    storedBy calls <+: output ∧
      (∀ call ∈ calls, ∃ r, call.result = .ok r ∧
        (r.code = .ok ∨ r.code = .streamEnd ∧ storedBy calls = output)) ∧
      ∀ feed, next = some feed → feed.unread ≠ []

/-- A buffer that is handed over behind a full window begins where the one before ended. -/
def FedCall.Continues (call : FedCall) : Prop :=
  call.state.action = .useOutputBufferContent → call.before.availIn = 0 →
    call.strm.nextIn = call.before.nextIn

theorem storedBy_append (calls : List FedCall) (call : FedCall) :
    storedBy (calls ++ [call]) = storedBy calls ++ storedBy [call] := List.flatMap_append

theorem storedBy_singleton {call : FedCall} {r : InflateResult} (h : call.result = .ok r) :
    storedBy [call] = r.stored := by
  rw [storedBy, List.flatMap_singleton, h]

/-! ### The state between calls -/

/-- Where the decoder's pointers are, as the action says. -/
def Placed (pieces : List (List UInt8)) (calls : List FedCall) (feed : Feed) : Prop :=
  match feed.state.action with
  | .init =>
    calls = [] ∧ feed.strm.availIn = 0 ∧ feed.pieces = pieces ∧
      ∃ statics heap, SoundStatics statics ∧ feed.state = inflateInit statics heap
  | .fillInputBuffer => True
  | .useOutputBufferContent =>
    feed.state.inputPtr = feed.strm.nextIn ∧ feed.state.inputPtr ≤ feed.state.inputEnd ∧
      feed.state.inputEnd ≤ feed.strm.nextIn + feed.strm.availIn
  | _ => False

/-- What holds between two calls. -/
structure Fed (build : Build) (pieces : List (List UInt8)) (calls : List FedCall) (feed : Feed) :
    Prop where
  reachable : Reachable build feed.state
  availIn_lt : feed.strm.availIn < 2 ^ 32
  nonempty : ∀ piece ∈ feed.pieces, piece ≠ []
  placed : Placed pieces calls feed
  left : feed.state.action ≠ .init → ∀ output, decodeZlib pieces.flatten = some output →
    output.length ≤ infOutbufSize →
      ∃ left, output = storedBy calls ++ left ∧ feed.unread ≠ [] ∧
        Undecoded build feed.state.core feed.unread left

/-- How a call enters the decoder, when it is handed what it should be. -/
structure Entry (build : Build) (pieces : List (List UInt8)) (calls : List FedCall)
    (rest : List (List UInt8)) (call : FedCall) (strm : ZStream) (st : InfState) : Prop where
  enters : call.enters = some (strm, st, st.inputPtr)
  core : st.core = call.state.core
  running : call.state.action ≠ .finish
  first : call.strm.nextIn ≤ st.inputPtr
  le : st.inputPtr ≤ st.inputEnd
  within : st.inputEnd ≤ st.inputPtr + strm.availIn
  ends : st.inputPtr + strm.availIn = call.strm.nextIn + call.strm.availIn
  availOut : strm.availOut = call.strm.availOut
  left : ∀ output, decodeZlib pieces.flatten = some output → output.length ≤ infOutbufSize →
    ∃ left, output = storedBy calls ++ left ∧
      Undecoded build st.core (call.memory.bytes st.inputPtr strm.availIn ++ rest.flatten) left

section Step

variable {build : Build} {pieces rest : List (List UInt8)} {calls : List FedCall} {feed : Feed}
  {memory : Memory} {strm : ZStream}

theorem Feed.Supplies.unread (h : feed.Supplies memory strm rest) :
    memory.bytes strm.nextIn strm.availIn ++ rest.flatten = feed.unread := by
  cases h with
  | refill hempty hpieces hbytes _ =>
    rw [hbytes, Feed.unread, hempty, hpieces, List.flatten_cons]
    rfl
  | keep _ _ _ hbytes => rw [hbytes, Feed.unread]

theorem Feed.Supplies.availIn (h : feed.Supplies memory strm rest) (hfed : Fed build pieces calls feed) :
    0 < strm.availIn ∧ strm.availIn < 2 ^ 32 := by
  cases h with
  | refill _ hpieces hbytes hlt =>
    refine ⟨?_, hlt⟩
    have hpiece := List.length_pos_of_ne_nil (hfed.nonempty _ (hpieces ▸ List.mem_cons_self))
    rwa [← hbytes, Memory.length_bytes] at hpiece
  | keep hmore _ havail _ => exact havail ▸ ⟨Nat.pos_of_ne_zero hmore, hfed.availIn_lt⟩

/-- A call that is handed what it should be enters the decoder in the right place. -/
theorem Fed.entry (hcut : WellCut pieces) (hfed : Fed build pieces calls feed)
    (hsupplies : feed.Supplies memory strm rest) {call : FedCall}
    (hcall : call = ⟨⟨memory, strm, feed.state, inflate build memory strm feed.state⟩, feed.strm⟩)
    (hcontinues : call.Continues) :
    ∃ strm₁ st₁, Entry build pieces calls rest call strm₁ st₁ := by
  have hplaced := hfed.placed
  have hunread := hsupplies.unread
  -- behind the header, the decoder goes on with what is left
  have hleft : feed.state.action ≠ .init → ∀ output, decodeZlib pieces.flatten = some output →
      output.length ≤ infOutbufSize → ∃ left, output = storedBy calls ++ left ∧
        Undecoded build feed.state.core
          (memory.bytes strm.nextIn strm.availIn ++ rest.flatten) left := by
    intro haction output hdecode hfits
    obtain ⟨left, hstored, -, hundecoded⟩ := hfed.left haction output hdecode hfits
    exact ⟨left, hstored, hunread ▸ hundecoded⟩
  subst hcall
  cases haction : feed.state.action with
  | init =>
    simp only [Placed, haction] at hplaced
    obtain ⟨rfl, hempty, hpieces, statics, heap, hstatics, hstate⟩ := hplaced
    obtain ⟨whole, hwhole⟩ := hcut.decodes
    obtain ⟨flg, body, hstream, -⟩ := decodeZlib_some hwhole
    rw [Feed.unread, hempty, hpieces] at hunread
    have hfirst : 3 ≤ strm.availIn := by
      cases hsupplies with
      | keep hmore _ _ _ => exact absurd hempty hmore
      | @refill piece _ _ hfirst hbytes _ =>
        rw [hpieces] at hfirst
        have hlength := hcut.first piece (by rw [hfirst]; rfl)
        rwa [← hbytes, Memory.length_bytes] at hlength
    have hcount : strm.availIn = 2 + (strm.availIn - 2) := by omega
    rw [hcount, Memory.bytes_add, List.append_assoc] at hunread
    have hfront : memory.bytes strm.nextIn 2 = [0x78, flg] ∧
        memory.bytes (strm.nextIn + 2) (strm.availIn - 2) ++ rest.flatten = body :=
      List.append_inj (hunread.trans hstream) (by rw [Memory.length_bytes]; rfl)
    have hcmf : memory strm.nextIn = 0x78 := (List.cons.inj hfront.1).1
    have henters : InflateCall.enters ⟨memory, strm, feed.state,
        inflate build memory strm feed.state⟩ =
        some ({ strm with totalIn := 2, availIn := strm.availIn - 2 }, { feed.state with
          inputPtr := strm.nextIn + 2, inputEnd := strm.nextIn + strm.availIn }, strm.nextIn + 2) := by
      simp only [InflateCall.enters, haction, hcmf, ne_eq, not_true, false_or]
      exact if_neg (by omega)
    refine ⟨_, _, henters, rfl, by simp only [haction]; simp, Nat.le_add_right _ _, by simp only; omega,
      by simp only; omega, by simp only; omega, rfl, fun output hdecode hfits ↦ ⟨output, rfl, ?_⟩⟩
    obtain ⟨flg', body', hstream', hbody⟩ := decodeZlib_some hdecode
    have hsame : body' = body := (List.cons.inj (List.cons.inj (hstream'.symm.trans hstream)).2).2
    simp only [hstate, hfront.2]
    exact undecoded_fresh hstatics heap (hsame ▸ hbody) hfits
  | fillInputBuffer =>
    have henters : InflateCall.enters ⟨memory, strm, feed.state,
        inflate build memory strm feed.state⟩ = some (strm, { feed.state with
          inputPtr := strm.nextIn, inputEnd := strm.nextIn + strm.availIn }, strm.nextIn) := by
      simp only [InflateCall.enters, haction]
    exact ⟨_, _, henters, rfl, by simp only [haction]; simp, le_rfl, Nat.le_add_right _ _, le_rfl, rfl,
      rfl, hleft (by rw [haction]; simp)⟩
  | useOutputBufferContent =>
    simp only [Placed, haction] at hplaced
    obtain ⟨hptr, hle, hend⟩ := hplaced
    obtain ⟨hnext, hwithin⟩ : strm.nextIn = feed.state.inputPtr ∧
        feed.state.inputEnd ≤ feed.state.inputPtr + strm.availIn := by
      cases hsupplies with
      | refill hempty _ _ _ =>
        have hplace : strm.nextIn = feed.strm.nextIn := hcontinues haction hempty
        exact ⟨hplace.trans hptr.symm, by omega⟩
      | keep _ hnext havail _ => exact ⟨hnext.trans hptr.symm, by omega⟩
    have henters : InflateCall.enters ⟨memory, strm, feed.state,
        inflate build memory strm feed.state⟩ = some (strm, feed.state, feed.state.inputPtr) := by
      simp only [InflateCall.enters, haction, hnext]
    refine ⟨strm, feed.state, henters, rfl, by simp only [haction]; simp, hnext.le, hle, hwithin,
      by rw [hnext], rfl, ?_⟩
    rw [← hnext]
    exact hleft (by rw [haction]; simp)
  | feed2ndZlibHeaderByte | processNextChunk | finish => simp only [Placed, haction] at hplaced

theorem Feed.Supplies.mem_pieces (h : feed.Supplies memory strm rest) : ∀ piece ∈ rest,
    piece ∈ feed.pieces := by
  cases h with
  | refill _ hpieces _ _ => exact fun piece hpiece ↦ hpieces ▸ List.mem_cons_of_mem _ hpiece
  | keep => exact fun _ hpiece ↦ hpiece

section Entered

variable {call : FedCall} {strm₁ : ZStream} {st₁ : InfState}

theorem Entry.result (h : Entry build pieces calls rest call strm₁ st₁)
    (hcall : call.result = inflate build call.memory call.strm call.state)
    (hin : 0 < call.strm.availIn) :
    call.result = decodeBuffer build call.memory strm₁ st₁ st₁.inputPtr := by
  rw [hcall]
  exact call.enters_eq h.enters hin

/-- The decoder takes bytes from where it enters. -/
theorem Entry.took (h : Entry build pieces calls rest call strm₁ st₁)
    (hresult : call.result = decodeBuffer build call.memory strm₁ st₁ st₁.inputPtr)
    (hlive : Live st₁.core) (hlt : call.strm.availIn < 2 ^ 32) {r : InflateResult}
    (hr : call.result = .ok r) :
    ∃ taken, Took strm₁ st₁ r taken ∧ call.taken = st₁.inputPtr - call.strm.nextIn + taken := by
  have hfirst := h.first
  have hends := h.ends
  have hwithin := h.within
  obtain ⟨taken, htook⟩ := decodeBuffer_took (hresult.symm.trans hr) hlive h.le (by omega) (by omega)
  refine ⟨taken, htook, ?_⟩
  have hptr := htook.inputPtr
  simp only [InflateCall.taken, hr, h.enters]
  omega

theorem Entry.rightly (h : Entry build pieces calls rest call strm₁ st₁)
    (hresult : call.result = decodeBuffer build call.memory strm₁ st₁ st₁.inputPtr)
    (hlive : Live st₁.core) (hlt : call.strm.availIn < 2 ^ 32) : RightlyFed call := by
  refine ⟨fun strm st inputBuffer henters ↦ ?_, fun r hr ↦ ?_⟩
  · rw [h.enters] at henters
    cases henters
    exact ⟨rfl, h.ends ▸ h.within⟩
  · obtain ⟨taken, htook, htaken⟩ := h.took hresult hlive hlt hr
    have hfirst := h.first
    have hends := h.ends
    have hwithin := h.within
    have hbound := htook.within
    rw [htaken, htook.nextIn, htook.availIn]
    omega

/-- What the call does with the rest of a stream that decodes. -/
theorem Entry.output (h : Entry build pieces calls rest call strm₁ st₁)
    (hresult : call.result = decodeBuffer build call.memory strm₁ st₁ st₁.inputPtr)
    (hlt : call.strm.availIn < 2 ^ 32) (hout : 0 < call.strm.availOut) {output : List UInt8}
    (hdecode : decodeZlib pieces.flatten = some output) (hfits : output.length ≤ infOutbufSize) :
    ∃ r later, call.result = .ok r ∧ output = storedBy (calls ++ [call]) ++ later ∧
      (r.code = .streamEnd ∧ later = [] ∨
        r.code = .ok ∧ Feed.unread ⟨call.memory, r.strm, r.state, rest⟩ ≠ [] ∧
          Undecoded build r.state.core (Feed.unread ⟨call.memory, r.strm, r.state, rest⟩) later) := by
  obtain ⟨left, hleft, hundecoded⟩ := h.left output hdecode hfits
  have hfirst := h.first
  have hends := h.ends
  have hwithin := h.within
  have hle := h.le
  -- what lies behind the part of the buffer that the decoder looks at
  have hbuffer : ∀ place, place ≤ st₁.inputEnd →
      call.memory.bytes place (st₁.inputPtr + strm₁.availIn - place) =
        call.memory.bytes place (st₁.inputEnd - place) ++
          call.memory.bytes st₁.inputEnd (st₁.inputPtr + strm₁.availIn - st₁.inputEnd) := by
    intro place hplace
    rw [show st₁.inputPtr + strm₁.availIn - place =
      (st₁.inputEnd - place) + (st₁.inputPtr + strm₁.availIn - st₁.inputEnd) by omega,
      Memory.bytes_add, Nat.add_sub_cancel' hplace]
  have hentry := hbuffer st₁.inputPtr hle
  rw [Nat.add_sub_cancel_left] at hentry
  rw [hentry, List.append_assoc] at hundecoded
  obtain ⟨r, taken, hr, htook, -, hhandled⟩ := @Undecoded.decodeBuffer build call.memory strm₁ st₁ _ left
    hundecoded hle (by omega) (by omega) (by rw [h.availOut]; exact hout)
  have hstored := storedBy_singleton (hresult.trans hr)
  cases hhandled with
  | ended hcode hall _ _ =>
    refine ⟨r, [], hresult.trans hr, ?_, .inl ⟨hcode, rfl⟩⟩
    rw [storedBy_append, hstored, hall, List.append_nil, hleft]
  | @waits later hcode hall hlater hstops =>
    have hbound := htook.within
    have hunread : Feed.unread ⟨call.memory, r.strm, r.state, rest⟩ =
        heldInput call.memory r.state ++ (call.memory.bytes st₁.inputEnd
          (st₁.inputPtr + strm₁.availIn - st₁.inputEnd) ++ rest.flatten) := by
      simp only [Feed.unread, heldInput, htook.nextIn, htook.availIn, htook.inputPtr, htook.inputEnd]
      rw [← List.append_assoc, ← hbuffer _ hbound]
      congr 2
      omega
    refine ⟨r, later, hresult.trans hr, ?_, .inr ⟨hcode, ?_, by rw [hunread]; exact hlater⟩⟩
    · rw [storedBy_append, hstored, hleft, hall, List.append_assoc]
    · rw [hunread]
      rcases hstops with ⟨-, -, hmore⟩ | ⟨-, -, -, hmore, -⟩
      · exact List.append_ne_nil_of_right_ne_nil _ hmore
      · exact hmore

end Entered

/-- What a call that goes on leaves is what the next one needs. -/
theorem Fed.call (hcut : WellCut pieces) (hfed : Fed build pieces calls feed)
    (hsupplies : feed.Supplies memory strm rest) (hout : 0 < strm.availOut) {call : FedCall}
    (hcall : call = ⟨⟨memory, strm, feed.state, inflate build memory strm feed.state⟩, feed.strm⟩)
    (hcontinues : call.Continues) :
    RightlyFed call ∧
      (∀ r, call.result = .ok r → r.code = .ok →
        Fed build pieces (calls ++ [call]) ⟨memory, r.strm, r.state, rest⟩) ∧
      ∀ output, decodeZlib pieces.flatten = some output → output.length ≤ infOutbufSize →
        ∃ r later, call.result = .ok r ∧ output = storedBy (calls ++ [call]) ++ later ∧
          (r.code = .streamEnd ∧ later = [] ∨
            r.code = .ok ∧ Feed.unread ⟨memory, r.strm, r.state, rest⟩ ≠ []) := by
  obtain ⟨hin, hlt⟩ := hsupplies.availIn hfed
  obtain ⟨strm₁, st₁, hentry⟩ := hfed.entry hcut hsupplies hcall hcontinues
  subst hcall
  have hresult := hentry.result rfl hin
  have hcore : st₁.core = feed.state.core := hentry.core
  have hlive : Live st₁.core := hcore ▸ hfed.reachable.live hentry.running
  have houtput := fun output hdecode hfits ↦
    @Entry.output _ _ _ _ _ _ _ hentry hresult hlt hout output hdecode hfits
  refine ⟨hentry.rightly hresult hlive hlt, fun r hr hcode ↦ ?_, fun output hdecode hfits ↦ ?_⟩
  · obtain ⟨taken, htook, htaken⟩ := hentry.took hresult hlive hlt hr
    have hends : st₁.inputPtr + strm₁.availIn = strm.nextIn + strm.availIn := hentry.ends
    have hfirst : strm.nextIn ≤ st₁.inputPtr := hentry.first
    have hwithin := hentry.within
    have hbound := htook.within
    have hnext := htook.nextIn
    have havail := htook.availIn
    have hend := htook.inputEnd
    have hplaced := (decodeBuffer_account (hresult.symm.trans hr) hlive hentry.le (by omega)).2 hcode
    refine ⟨.call hfed.reachable hr, by simp only; omega,
      fun piece hpiece ↦ hfed.nonempty piece (hsupplies.mem_pieces piece hpiece), ?_, ?_⟩
    · rcases hplaced with haction | ⟨haction, hptr, hle, -⟩
      · simp only [Placed, haction]
      · simp only [Placed, haction]
        exact ⟨hptr, hle, by omega⟩
    · intro _ output hdecode hfits
      obtain ⟨r', later, hr', hstored, hcases⟩ := houtput output hdecode hfits
      obtain rfl : r' = r := by
        have hsame := hr'.symm.trans hr
        injection hsame
      rcases hcases with ⟨hcode', -⟩ | ⟨-, hunread, hundecoded⟩
      · cases hcode'.symm.trans hcode
      · exact ⟨later, hstored, hunread, hundecoded⟩
  · obtain ⟨r, later, hr, hstored, hcases⟩ := houtput output hdecode hfits
    refine ⟨r, later, hr, hstored, ?_⟩
    rcases hcases with hends | ⟨hcode, hunread, -⟩
    · exact .inl hends
    · exact .inr ⟨hcode, hunread⟩

end Step

/-! ### Whole sessions -/

section Sessions

variable {build : Build} {pieces : List (List UInt8)} {calls : List FedCall} {next : Option Feed}

theorem feed_of_goesOn {result : Except Fault InflateResult} {memory : Memory}
    {rest : List (List UInt8)} {feed : Feed}
    (h : (goesOn result).map (fun next ↦ ⟨memory, next.1, next.2, rest⟩) = some feed) :
    ∃ r, result = .ok r ∧ r.code = .ok ∧ feed = ⟨memory, r.strm, r.state, rest⟩ := by
  obtain ⟨strm, hgoes, rfl⟩ := Option.map_eq_some_iff.mp h
  cases result with
  | error fault => cases hgoes
  | ok r =>
    simp only [goesOn] at hgoes
    split at hgoes
    · next hcode =>
      cases hgoes
      exact ⟨r, rfl, hcode, rfl⟩
    · cases hgoes

/-- Every call but the last went on. -/
theorem Feeding.went (h : Feeding build pieces calls next) : ∀ feed, next = some feed →
    ∀ call ∈ calls, ∃ r, call.result = .ok r ∧ r.code = .ok := by
  induction h with
  | init => exact fun _ _ ↦ List.forall_mem_nil _
  | call _ _ _ ih =>
    intro feed hfeed
    obtain ⟨r, hr, hcode, -⟩ := feed_of_goesOn hfeed
    exact List.forall_mem_append.mpr ⟨ih _ rfl, List.forall_mem_singleton.mpr ⟨r, hr, hcode⟩⟩

/-- Between the calls of a session whose buffers continue each other. -/
theorem Feeding.fed (hcut : WellCut pieces) (h : Feeding build pieces calls next) :
    (∀ call ∈ calls, call.Continues) → ∀ feed, next = some feed → Fed build pieces calls feed := by
  induction h with
  | init memory heap hstatics hempty =>
    rintro - feed hfeed
    cases hfeed
    refine ⟨.init _ heap, by rw [hempty]; norm_num, hcut.nonempty, ?_, fun haction ↦ absurd rfl haction⟩
    exact ⟨rfl, hempty, rfl, _, heap, hstatics, rfl⟩
  | @call calls feed memory strm rest _ hsupplies hout ih =>
    intro hcontinues feed' hfeed
    obtain ⟨hearlier, hlast⟩ := List.forall_mem_append.mp hcontinues
    obtain ⟨r, hr, hcode, rfl⟩ := feed_of_goesOn hfeed
    exact (Fed.call hcut (ih hearlier feed rfl) hsupplies hout rfl
      (hlast _ (List.mem_singleton.mpr rfl))).2.1 r hr hcode

/-- Where the buffers continue each other, nothing is lost. -/
theorem Feeding.right (hcut : WellCut pieces) (h : Feeding build pieces calls next) :
    (∀ call ∈ calls, call.Continues) → FedRight pieces calls next := by
  induction h with
  | @init memory strm statics heap hstatics hempty =>
    rintro -
    refine ⟨List.forall_mem_nil _, fun output hdecode hfits ↦ ⟨List.nil_prefix, List.forall_mem_nil _,
      fun feed hfeed ↦ ?_⟩⟩
    cases hfeed
    rw [Feed.unread, hempty]
    rintro hnil
    have hnone : pieces.flatten = [] := hnil
    rw [hnone] at hdecode
    cases hdecode
  | @call calls feed memory strm rest h hsupplies hout ih =>
    intro hcontinues
    obtain ⟨hearlier, hlast⟩ := List.forall_mem_append.mp hcontinues
    have hright := ih hearlier
    obtain ⟨hcall, -, houtput⟩ := Fed.call hcut (h.fed hcut hearlier feed rfl) hsupplies hout rfl
      (hlast _ (List.mem_singleton.mpr rfl))
    refine ⟨List.forall_mem_append.mpr ⟨hright.fed, List.forall_mem_singleton.mpr hcall⟩,
      fun output hdecode hfits ↦ ?_⟩
    obtain ⟨-, hcodes, -⟩ := hright.output output hdecode hfits
    obtain ⟨r, later, hr, hstored, hcases⟩ := houtput output hdecode hfits
    refine ⟨⟨later, hstored.symm⟩, List.forall_mem_append.mpr ⟨fun call hmem ↦ ?_, ?_⟩,
      fun feed' hfeed ↦ ?_⟩
    · obtain ⟨r, hr, hcode⟩ := h.went feed rfl call hmem
      exact ⟨r, hr, .inl hcode⟩
    · refine List.forall_mem_singleton.mpr ⟨r, hr, ?_⟩
      rcases hcases with ⟨hcode, rfl⟩ | ⟨hcode, -⟩
      · exact .inr ⟨hcode, by rw [hstored, List.append_nil]⟩
      · exact .inl hcode
    · obtain ⟨r', hr', hcode', rfl⟩ := feed_of_goesOn hfeed
      have hsame : r' = r := by
        have hsame := hr'.symm.trans hr
        injection hsame
      subst hsame
      rcases hcases with ⟨hcode, -⟩ | ⟨-, hunread⟩
      · cases hcode.symm.trans hcode'
      · exact hunread

/-- A call that reads where it should was handed a buffer that continues the one before. -/
theorem Feeding.continues (hcut : WellCut pieces) (h : Feeding build pieces calls next) :
    (∀ call ∈ calls, RightlyFed call) → ∀ call ∈ calls, call.Continues := by
  induction h with
  | init => exact fun _ ↦ List.forall_mem_nil _
  | @call calls feed memory strm rest h _ _ ih =>
    intro hright
    obtain ⟨hearlier, hlast⟩ := List.forall_mem_append.mp hright
    have hcontinues := ih hearlier
    refine List.forall_mem_append.mpr ⟨hcontinues, List.forall_mem_singleton.mpr ?_⟩
    intro haction _
    have haction : feed.state.action = .useOutputBufferContent := haction
    have hplaced := (h.fed hcut hcontinues feed rfl).placed
    simp only [Placed, haction] at hplaced
    have henters : InflateCall.enters ⟨memory, strm, feed.state,
        inflate build memory strm feed.state⟩ = some (strm, feed.state, strm.nextIn) := by
      simp only [InflateCall.enters, haction]
    have hrange := (hlast _ (List.mem_singleton.mpr rfl)).range _ _ _ henters
    exact hrange.1.symm.trans hplaced.1

end Sessions

/-- Refills lose nothing exactly where every buffer that is handed over behind a full window continues
the one before. -/
theorem fedRight_iff {build : Build} {pieces : List (List UInt8)} (hcut : WellCut pieces)
    {calls : List FedCall} {next : Option Feed} (h : Feeding build pieces calls next) :
    FedRight pieces calls next ↔ ∀ call ∈ calls, call.Continues :=
  ⟨fun hright ↦ h.continues hcut hright.fed, h.right hcut⟩

/-! ### A full window at the end of a buffer -/

/-- The stream of eight letters in two buffers; the first one holds the second letter. -/
def lettersCut : List (List UInt8) := [overlapStream.take 5, overlapStream.drop 5]

/-- The call on the first buffer, with a window for one letter. -/
def firstLetter : FedCall :=
  ⟨⟨memoryOf overlapStream, streamOf 5 1, freshInflater,
    inflate ⟨false, none⟩ (memoryOf overlapStream) (streamOf 5 1) freshInflater⟩, streamOf 0 1⟩

theorem wellCut_letters : WellCut lettersCut :=
  ⟨by decide, by decide, _, (by decide : lettersCut.flatten = overlapStream) ▸ decodeZlib_overlapStream⟩

/-- Behind this call the window is full and the buffer used up; the next one is lost to the decoder if
it is handed over at the place of the first. -/
theorem firstLetter_fills : ∃ r, firstLetter.result = .ok r ∧ r.code = .ok ∧
    r.state.action = .useOutputBufferContent ∧ r.strm.nextIn = 5 ∧ r.strm.availIn = 0 ∧
    r.state.inputPtr = 5 ∧
    (inflate ⟨false, none⟩ (memoryOf (overlapStream.drop 5)) (streamOf 7 1) r.state).map (fun later ↦
      (later.code, later.strm.nextIn, later.strm.availIn, later.state.inputPtr)) = .ok (.ok, 5, 2, 5) := by
  have hrun : (firstLetter.result >>= fun r ↦
      (inflate ⟨false, none⟩ (memoryOf (overlapStream.drop 5)) (streamOf 7 1) r.state).map
        fun later ↦ (r.code, r.state.action, later.code, [r.strm.nextIn, r.strm.availIn,
          r.state.inputPtr, later.strm.nextIn, later.strm.availIn, later.state.inputPtr])) =
      .ok (.ok, .useOutputBufferContent, .ok, [5, 0, 5, 5, 2, 5]) := by decide +kernel
  obtain ⟨r, hr, hlater⟩ := bind_ok hrun
  obtain ⟨later, hlater, hvalues⟩ := map_ok hlater
  simp only [Prod.mk.injEq, List.cons.injEq, and_true] at hvalues
  obtain ⟨hcode, haction, hcode', hnext, havail, hptr, hnext', havail', hptr'⟩ := hvalues
  refine ⟨r, hr, hcode, haction, hnext, havail, hptr, ?_⟩
  rw [hlater]
  simp only [Except.map, hcode', hnext', havail', hptr']

theorem feeding_firstLetter {r : InflateResult} (hr : firstLetter.result = .ok r)
    (hcode : r.code = .ok) :
    Feeding ⟨false, none⟩ lettersCut [firstLetter]
      (some ⟨memoryOf overlapStream, r.strm, r.state, [overlapStream.drop 5]⟩) := by
  have hsupplies : Feed.Supplies
      ⟨memoryOf overlapStream, streamOf 0 1, freshInflater, lettersCut⟩ (memoryOf overlapStream)
      (streamOf 5 1) [overlapStream.drop 5] := .refill rfl rfl (by decide) (by decide)
  have hfeeding := Feeding.call (.init (memoryOf overlapStream) zeroHeap soundStatics_none rfl :
    Feeding ⟨false, none⟩ lettersCut [] _) hsupplies Nat.one_pos
  have hgoes : goesOn (inflate ⟨false, none⟩ (memoryOf overlapStream) (streamOf 5 1) freshInflater) =
      some (r.strm, r.state) := by
    rw [show inflate ⟨false, none⟩ (memoryOf overlapStream) (streamOf 5 1) freshInflater = .ok r
      from hr]
    exact if_pos hcode
  have hstate : inflateInit ⟨none, none⟩ zeroHeap = freshInflater := rfl
  rw [hstate, hgoes] at hfeeding
  exact hfeeding

/-- Handed over behind the first buffer, the second one is read as it should be. -/
theorem fedRight_letters : ∃ second next, Feeding ⟨false, none⟩ lettersCut [firstLetter, second] next ∧
    second.before.availIn = 0 ∧ FedRight lettersCut [firstLetter, second] next := by
  obtain ⟨r, hr, hcode, -, hnext, havail, -, -⟩ := firstLetter_fills
  have hsupplies : Feed.Supplies ⟨memoryOf overlapStream, r.strm, r.state, [overlapStream.drop 5]⟩
      (memoryOf overlapStream) { streamOf 7 8 with nextIn := 5 } [] :=
    .refill havail rfl (by decide) (by decide)
  have hfeeding := Feeding.call (feeding_firstLetter hr hcode) hsupplies
    (show 0 < (8 : ℕ) by decide)
  refine ⟨_, _, hfeeding, havail, (fedRight_iff wellCut_letters hfeeding).mpr ?_⟩
  refine List.forall_mem_append.mpr ⟨List.forall_mem_singleton.mpr fun haction ↦ ?_,
    List.forall_mem_singleton.mpr fun _ _ ↦ hnext.symm⟩
  cases haction

/-- At the place of the first buffer, the second one is not: the decoder reads nothing, and five bytes
are counted as taken. -/
theorem not_fedRight_reused : ∃ second next,
    Feeding ⟨false, none⟩ lettersCut [firstLetter, second] next ∧ second.strm = streamOf 7 1 ∧
      second.memory = memoryOf (overlapStream.drop 5) ∧ second.taken = 0 ∧
      (∃ r, second.result = .ok r ∧ r.strm.nextIn = 5 ∧ r.strm.availIn = 2) ∧
      ¬ FedRight lettersCut [firstLetter, second] next := by
  obtain ⟨r, hr, hcode, haction, hnext, havail, hptr, hlater⟩ := firstLetter_fills
  obtain ⟨later, hlater, hvalues⟩ := map_ok hlater
  simp only [Prod.mk.injEq] at hvalues
  obtain ⟨-, hnext', havail', hptr'⟩ := hvalues
  have hsupplies : Feed.Supplies ⟨memoryOf overlapStream, r.strm, r.state, [overlapStream.drop 5]⟩
      (memoryOf (overlapStream.drop 5)) (streamOf 7 1) [] :=
    .refill havail rfl (by decide) (by decide)
  have hfeeding := Feeding.call (feeding_firstLetter hr hcode) hsupplies Nat.one_pos
  simp only [hlater] at hfeeding
  refine ⟨_, _, hfeeding, rfl, rfl, ?_, ⟨later, rfl, hnext', havail'⟩, fun hright ↦ ?_⟩
  · simp only [InflateCall.taken, InflateCall.enters, haction, hptr, hptr']
    rfl
  · have hrange := (hright.fed _ (List.mem_cons_of_mem _ (List.mem_singleton.mpr rfl))).range
    simp only [InflateCall.enters, haction] at hrange
    have hplace := (hrange _ _ _ rfl).1
    rw [hptr] at hplace
    cases hplace

end ZephyrThrift.Muzic
