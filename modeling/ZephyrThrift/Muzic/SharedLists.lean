import ZephyrThrift.Foundation.Lockstep
import ZephyrThrift.Muzic.CodeLengths

/-!
# Lists that differ in what was left in them

The elements of a symbol-length list behind `elementIndex` are what an earlier use left there. No function
on the list follows a pointer to them, so two lists that differ in nothing else (`SameList`) give the
same results, and lists that differ in nothing else.
-/

set_option autoImplicit false
set_option relaxedAutoImplicit false

namespace ZephyrThrift.Muzic

open Foundation

/-- Lists with the same elements in use, and with pointers to no others; `lengths` says whether the code
lengths of the code length alphabet are the same as well. -/
structure SameList (lengths : Prop) (list list' : InfSLList) : Prop where
  same : list' = { list with
    elements := list'.elements
    lengthsBySymbol := list'.lengthsBySymbol }
  lengthsBySymbol : lengths → list'.lengthsBySymbol = list.lengthsBySymbol
  elements : ∀ i < list.elementIndex, list'.elements i = list.elements i
  headPtr : ∀ length i, list.headPtr length = some i → i < list.elementIndex
  tailPtr : ∀ length i, list.tailPtr length = some i → i < list.elementIndex
  next : ∀ i < list.elementIndex, ∀ j, (list.elements i).next = some j → j < list.elementIndex

/-- A reader of code lengths that comes as far on both lists. -/
inductive SameRead (lengths : Prop) : Bool × InfSLList × InfBS → Bool × InfSLList × InfBS → Prop
  | intro (done : Bool) {list list' : InfSLList} (h : SameList lengths list list')
      (bitstream : InfBS) : SameRead lengths (done, list, bitstream) (done, list', bitstream)

section Lists

variable {build : Build} {lengths : Prop} {list list' : InfSLList}

/-- Empty lists that differ in nothing else. -/
theorem sameList_of_empty (hsame : list' = { list with
      elements := list'.elements
      lengthsBySymbol := list'.lengthsBySymbol })
    (hlengths : lengths → list'.lengthsBySymbol = list.lengthsBySymbol)
    (hempty : Represents list []) : SameList lengths list list' where
  same := hsame
  lengthsBySymbol := hlengths
  elements i hi := absurd hi (by rw [hempty.index]; exact Nat.not_lt_zero i)
  headPtr length i hi := by rw [hempty.head] at hi; cases hi
  tailPtr length i hi := by rw [hempty.tail] at hi; cases hi
  next i hi := absurd hi (by rw [hempty.index]; exact Nat.not_lt_zero i)

/-- The counters of a reader go on in the same way. -/
theorem SameList.setCounters (h : SameList lengths list list') (command symbol huffmanLength
    repetitions : ℕ) :
    SameList lengths
      { list with
        command := command, symbol := symbol, huffmanLength := huffmanLength
        repetitions := repetitions }
      { list' with
        command := command, symbol := symbol, huffmanLength := huffmanLength
        repetitions := repetitions } where
  same := by rw [h.same]
  lengthsBySymbol := h.lengthsBySymbol
  elements := h.elements
  headPtr := h.headPtr
  tailPtr := h.tailPtr
  next := h.next

/-- The elements of a list, with another one behind the last of its length. -/
theorem SameList.append (h : SameList lengths list list') (symbol huffmanLength : ℕ) :
    SameList lengths (list.append symbol huffmanLength) (list'.append symbol huffmanLength) := by
  have hindex : list'.elementIndex = list.elementIndex := by rw [h.same]
  have hhead : list'.headPtr = list.headPtr := by rw [h.same]
  have htail : list'.tailPtr = list.tailPtr := by rw [h.same]
  have hlast := h.tailPtr huffmanLength
  refine ⟨?_, h.lengthsBySymbol, fun i hi ↦ ?_, fun length i hi ↦ ?_, fun length i hi ↦ ?_,
    fun i hi j hj ↦ ?_⟩
  · simp only [InfSLList.append, hindex, hhead, htail]
    rw [h.same]
  · simp only [InfSLList.append, hindex, htail] at hi ⊢
    by_cases hnew : i = list.elementIndex
    · rw [hnew, Function.update_self, Function.update_self]
    · rw [Function.update_of_ne hnew, Function.update_of_ne hnew]
      cases hptr : list.tailPtr huffmanLength with
      | none => exact h.elements i (by omega)
      | some last =>
        simp only
        rw [h.elements last (hlast last hptr)]
        by_cases hsame : i = last
        · rw [hsame, Function.update_self, Function.update_self]
        · rw [Function.update_of_ne hsame, Function.update_of_ne hsame]
          exact h.elements i (by omega)
  · simp only [InfSLList.append] at hi ⊢
    cases hptr : list.tailPtr huffmanLength with
    | some last =>
      rw [hptr] at hi
      exact (h.headPtr length i hi).trans (Nat.lt_succ_self _)
    | none =>
      rw [hptr] at hi
      simp only [Function.update_apply] at hi
      split_ifs at hi
      · cases hi
        exact Nat.lt_succ_self _
      · exact (h.headPtr length i hi).trans (Nat.lt_succ_self _)
  · simp only [InfSLList.append, Function.update_apply] at hi ⊢
    split_ifs at hi
    · cases hi
      exact Nat.lt_succ_self _
    · exact (h.tailPtr length i hi).trans (Nat.lt_succ_self _)
  · simp only [InfSLList.append] at hi hj ⊢
    by_cases hnew : i = list.elementIndex
    · rw [hnew, Function.update_self] at hj
      cases hj
    · rw [Function.update_of_ne hnew] at hj
      have hi' : i < list.elementIndex := by omega
      cases hptr : list.tailPtr huffmanLength with
      | none =>
        rw [hptr] at hj
        exact (h.next i hi' j hj).trans (Nat.lt_succ_self _)
      | some last =>
        rw [hptr] at hj
        simp only [Function.update_apply] at hj
        split_ifs at hj
        · cases hj
          exact Nat.lt_succ_self _
        · exact (h.next i hi' j hj).trans (Nat.lt_succ_self _)

theorem SameList.infSLListAddSymlen (h : SameList lengths list list') (symbol huffmanLength : ℕ) :
    Matched (SameList lengths) (Muzic.infSLListAddSymlen build list symbol huffmanLength)
      (Muzic.infSLListAddSymlen build list' symbol huffmanLength) := by
  have hindex : list'.elementIndex = list.elementIndex := by rw [h.same]
  have hassert : ∀ condition, Matched (fun _ _ ↦ True) (build.assert condition)
      (build.assert condition) := fun condition ↦ .refl _ fun _ _ ↦ trivial
  rw [Muzic.infSLListAddSymlen, Muzic.infSLListAddSymlen, hindex]
  refine (hassert _).bind fun _ _ _ ↦ (hassert _).bind fun _ _ _ ↦ ?_
  by_cases hzero : huffmanLength = 0
  · rw [if_pos hzero, if_pos hzero]
    exact .ok h
  · rw [if_neg hzero, if_neg hzero]
    by_cases hvalid : infLastValidLength < huffmanLength
    · rw [if_pos hvalid, if_pos hvalid]
      exact .fault Fault.headPtrIndex
    · rw [if_neg hvalid, if_neg hvalid]
      by_cases hroom : infLastValidSymbol < list.elementIndex
      · rw [if_pos hroom, if_pos hroom]
        exact .fault Fault.elementsIndex
      · rw [if_neg hroom, if_neg hroom]
        have hboth := h.append symbol huffmanLength
        simp only [InfSLList.append, hindex] at hboth
        exact .ok hboth

theorem SameList.infSLListAddRange (huffmanLength count : ℕ) :
    ∀ (firstSymbol : ℕ) {list list' : InfSLList}, SameList lengths list list' →
      Matched (SameList lengths) (Muzic.infSLListAddRange build firstSymbol huffmanLength count list)
        (Muzic.infSLListAddRange build firstSymbol huffmanLength count list') := by
  induction count with
  | zero => intro firstSymbol list list' h; exact .ok h
  | succ count ih =>
    intro firstSymbol list list' h
    rw [Muzic.infSLListAddRange, Muzic.infSLListAddRange]
    generalize hx : Muzic.infSLListAddSymlen build list firstSymbol huffmanLength = x
    generalize hy : Muzic.infSLListAddSymlen build list' firstSymbol huffmanLength = y
    have hadd := @SameList.infSLListAddSymlen build _ _ _ h firstSymbol huffmanLength
    rw [hx, hy] at hadd
    cases hadd with
    | fault fault => exact .fault fault
    | ok hnext => exact ih (firstSymbol + 1) hnext

/-! ### The reader of the code length alphabet -/

theorem SameList.setLength (h : SameList lengths list list') (key length symbol : ℕ) :
    SameList lengths
      { list with
        lengthsBySymbol := Function.update list.lengthsBySymbol key length, symbol := symbol }
      { list' with
        lengthsBySymbol := Function.update list'.lengthsBySymbol key length
        symbol := symbol } where
  same := by rw [h.same]
  lengthsBySymbol hlengths := by simp only [h.lengthsBySymbol hlengths]
  elements := h.elements
  headPtr := h.headPtr
  tailPtr := h.tailPtr
  next := h.next

theorem SameList.read3BitLengths (count : ℕ) :
    ∀ {list list' : InfSLList} (bitstream : InfBS), SameList lengths list list' →
      Matched (SameRead lengths) (Muzic.read3BitLengths list bitstream count)
        (Muzic.read3BitLengths list' bitstream count) := by
  induction count with
  | zero => intro list list' bitstream h; exact .ok (.intro _ h _)
  | succ count ih =>
    intro list list' bitstream h
    have hsymbol : list'.symbol = list.symbol := by rw [h.same]
    rw [Muzic.read3BitLengths, Muzic.read3BitLengths, hsymbol]
    rcases bitstream.readBits 3 with fault | ⟨_ | length, after⟩
    · exact .fault fault
    · exact .ok (.intro _ h _)
    · exact ih after (h.setLength _ _ _)

theorem SameList.clear3BitLengths (count : ℕ) :
    ∀ {list list' : InfSLList}, SameList lengths list list' →
      SameList lengths (Muzic.clear3BitLengths list count) (Muzic.clear3BitLengths list' count) := by
  induction count with
  | zero => intro list list' h; exact h
  | succ count ih =>
    intro list list' h
    have hsymbol : list'.symbol = list.symbol := by rw [h.same]
    rw [Muzic.clear3BitLengths, Muzic.clear3BitLengths, hsymbol]
    exact ih (h.setLength _ _ _)

theorem SameList.add3BitLengths (count : ℕ) :
    ∀ (symbol : ℕ) {list list' : InfSLList}, SameList True list list' →
      Matched (SameList True) (Muzic.add3BitLengths build symbol count list)
        (Muzic.add3BitLengths build symbol count list') := by
  induction count with
  | zero => intro symbol list list' h; exact .ok h
  | succ count ih =>
    intro symbol list list' h
    rw [Muzic.add3BitLengths, Muzic.add3BitLengths, h.lengthsBySymbol trivial]
    split_ifs
    · generalize hx : Muzic.infSLListAddSymlen build list symbol (list.lengthsBySymbol symbol) = x
      generalize hy : Muzic.infSLListAddSymlen build list' symbol (list.lengthsBySymbol symbol) = y
      have hadd := @SameList.infSLListAddSymlen build _ _ _ h symbol (list.lengthsBySymbol symbol)
      rw [hx, hy] at hadd
      cases hadd with
      | fault fault => exact .fault fault
      | ok hnext => exact ih (symbol + 1) hnext
    · exact ih (symbol + 1) h

theorem SameList.infSLListAdd3BitSymlens (h : SameList True list list') (bitstream : InfBS)
    (numberOfSymlens : ℕ) :
    Matched (SameRead True) (Muzic.infSLListAdd3BitSymlens build list bitstream numberOfSymlens)
      (Muzic.infSLListAdd3BitSymlens build list' bitstream numberOfSymlens) := by
  have hsymbol : list'.symbol = list.symbol := by rw [h.same]
  rw [Muzic.infSLListAdd3BitSymlens, Muzic.infSLListAdd3BitSymlens]
  simp only [hsymbol]
  have hread := h.read3BitLengths (min numberOfSymlens infSymlenSequenceSize - list.symbol) bitstream
  generalize Muzic.read3BitLengths list bitstream _ = x at hread ⊢
  generalize Muzic.read3BitLengths list' bitstream _ = y at hread ⊢
  cases hread with
  | fault fault => exact .fault fault
  | ok hsame =>
    obtain @⟨done, list₁, list₁', hlist, after⟩ := hsame
    cases done with
    | false => exact .ok (.intro _ hlist _)
    | true =>
      have hsymbol₁ : list₁'.symbol = list₁.symbol := by rw [hlist.same]
      simp only [hsymbol₁]
      have hadd := @SameList.add3BitLengths build infSymlenSequenceSize 0 _ _
        (hlist.clear3BitLengths (infSymlenSequenceSize - list₁.symbol))
      generalize Muzic.add3BitLengths build 0 infSymlenSequenceSize
        (Muzic.clear3BitLengths list₁ _) = x at hadd ⊢
      generalize Muzic.add3BitLengths build 0 infSymlenSequenceSize
        (Muzic.clear3BitLengths list₁' _) = y at hadd ⊢
      cases hadd with
      | fault fault => exact .fault fault
      | ok hnext => exact .ok (.intro _ hnext _)

/-! ### The reader of the literal and distance alphabets -/

theorem SameList.addRepetitions (numberOfSymlens fuel : ℕ) :
    ∀ {list list' : InfSLList}, SameList lengths list list' →
      Matched (SameList lengths) (Muzic.addRepetitions build numberOfSymlens fuel list)
        (Muzic.addRepetitions build numberOfSymlens fuel list') := by
  induction fuel with
  | zero => intro list list' h; exact .ok h
  | succ fuel ih =>
    intro list list' h
    have hsymbol : list'.symbol = list.symbol := by rw [h.same]
    have hlength : list'.huffmanLength = list.huffmanLength := by rw [h.same]
    have hrepetitions : list'.repetitions = list.repetitions := by rw [h.same]
    rw [Muzic.addRepetitions, Muzic.addRepetitions, hsymbol, hlength, hrepetitions]
    split_ifs
    · have hadd := @SameList.infSLListAddSymlen build _ _ _ h list.symbol list.huffmanLength
      generalize Muzic.infSLListAddSymlen build list _ _ = x at hadd ⊢
      generalize Muzic.infSLListAddSymlen build list' _ _ = y at hadd ⊢
      cases hadd with
      | fault fault => exact .fault fault
      | @ok list₁ list₁' hnext =>
        obtain ⟨elements', lengths', rfl⟩ : ∃ elements' lengths', list₁' =
            { list₁ with elements := elements', lengthsBySymbol := lengths' } := ⟨_, _, hnext.same⟩
        exact ih (hnext.setCounters list₁.command (list₁.symbol + 1) list₁.huffmanLength
          (list₁.repetitions - 1))
    · exact .ok h

theorem SameList.readRepetitions (h : SameList lengths list list') (bitstream : InfBS)
    (extraBits base huffmanLength : ℕ) :
    Matched (SameRead lengths)
      (Muzic.readRepetitions list bitstream extraBits base huffmanLength)
      (Muzic.readRepetitions list' bitstream extraBits base huffmanLength) := by
  rw [Muzic.readRepetitions, Muzic.readRepetitions]
  rcases bitstream.readBits extraBits with fault | ⟨_ | value, after⟩
  · exact .fault fault
  · exact .ok (.intro _ h _)
  · obtain ⟨elements', lengths', rfl⟩ : ∃ elements' lengths', list' =
        { list with elements := elements', lengthsBySymbol := lengths' } := ⟨_, _, h.same⟩
    exact .ok (.intro _ (h.setCounters 0 list.symbol huffmanLength (base + value)) _)

theorem SameList.runCommand (h : SameList lengths list list') (bitstream : InfBS) :
    Matched (SameRead lengths) (Muzic.runCommand list bitstream)
      (Muzic.runCommand list' bitstream) := by
  have hcommand : list'.command = list.command := by rw [h.same]
  have hlength : list'.huffmanLength = list.huffmanLength := by rw [h.same]
  rw [Muzic.runCommand, Muzic.runCommand, hcommand, hlength]
  split
  · exact h.readRepetitions bitstream _ _ _
  · exact h.readRepetitions bitstream _ _ _
  · exact h.readRepetitions bitstream _ _ _
  · obtain ⟨elements', lengths', rfl⟩ : ∃ elements' lengths', list' =
        { list with elements := elements', lengthsBySymbol := lengths' } := ⟨_, _, h.same⟩
    exact .ok (.intro _ (h.setCounters 0 list.symbol list.command 1) _)

theorem SameList.readCommand (h : SameList lengths list list') (decoder : HuffTable)
    (bitstream : InfBS) :
    Matched (SameRead lengths) (Muzic.readCommand decoder list bitstream)
      (Muzic.readCommand decoder list' bitstream) := by
  have hcommand : list'.command = list.command := by rw [h.same]
  rw [Muzic.readCommand, Muzic.readCommand, hcommand]
  split_ifs
  · rcases bitstream.readEncodedBits decoder with fault | ⟨_ | command, after⟩
    · exact .fault fault
    · exact .ok (.intro _ h _)
    · obtain ⟨elements', lengths', rfl⟩ : ∃ elements' lengths', list' =
          { list with elements := elements', lengthsBySymbol := lengths' } := ⟨_, _, h.same⟩
      exact (h.setCounters command list.symbol list.huffmanLength list.repetitions).runCommand after
  · exact h.runCommand bitstream

theorem SameList.encodedSymlensLoop (numberOfSymlens : ℕ) (decoder : HuffTable) (fuel : ℕ) :
    ∀ {list list' : InfSLList} (bitstream : InfBS), SameList lengths list list' →
      Matched (SameRead lengths)
        (Muzic.encodedSymlensLoop build numberOfSymlens decoder fuel list bitstream)
        (Muzic.encodedSymlensLoop build numberOfSymlens decoder fuel list' bitstream) := by
  induction fuel with
  | zero => intro list list' bitstream _; exact .fault Fault.endlessLoop
  | succ fuel ih =>
    intro list list' bitstream h
    have hsymbol : list'.symbol = list.symbol := by rw [h.same]
    rw [Muzic.encodedSymlensLoop, Muzic.encodedSymlensLoop, hsymbol]
    split_ifs
    · have hadd := @SameList.addRepetitions build _ numberOfSymlens numberOfSymlens _ _ h
      generalize Muzic.addRepetitions build numberOfSymlens numberOfSymlens list = x at hadd ⊢
      generalize Muzic.addRepetitions build numberOfSymlens numberOfSymlens list' = y at hadd ⊢
      cases hadd with
      | fault fault => exact .fault fault
      | @ok list₁ list₁' hnext =>
        have hsymbol₁ : list₁'.symbol = list₁.symbol := by rw [hnext.same]
        have hrepetitions₁ : list₁'.repetitions = list₁.repetitions := by rw [hnext.same]
        simp only [hsymbol₁, hrepetitions₁]
        split_ifs
        · rcases build.assert (list₁.repetitions == 0) with fault | _
          · exact .fault fault
          · have hread := hnext.readCommand decoder bitstream
            generalize Muzic.readCommand decoder list₁ bitstream = x at hread ⊢
            generalize Muzic.readCommand decoder list₁' bitstream = y at hread ⊢
            cases hread with
            | fault fault => exact .fault fault
            | ok hsame =>
              obtain ⟨done, hlist, after⟩ := hsame
              cases done with
              | false => exact .ok (.intro _ hlist _)
              | true => exact ih after hlist
        · exact .ok (.intro _ hnext _)
    · exact .ok (.intro _ h _)

/-! ### Sorting -/

/-- Elements that are the same below an index, and point below it. -/
structure SameElements (count : ℕ) (elements elements' : ℕ → InfSymlen) : Prop where
  same : ∀ i < count, elements' i = elements i
  next : ∀ i < count, ∀ j, (elements i).next = some j → j < count

theorem SameElements.linkLists {headPtr tailPtr : ℕ → Option ℕ} {count : ℕ}
    (hhead : ∀ length i, headPtr length = some i → i < count)
    (htail : ∀ length i, tailPtr length = some i → i < count) (fuel : ℕ) :
    ∀ (last current : ℕ) {elements elements' : ℕ → InfSymlen}, SameElements count elements elements' →
      SameElements count (Muzic.linkLists headPtr tailPtr fuel last current elements)
        (Muzic.linkLists headPtr tailPtr fuel last current elements') := by
  induction fuel with
  | zero => intro last current elements elements' h; exact h
  | succ fuel ih =>
    intro last current elements elements' h
    rw [Muzic.linkLists, Muzic.linkLists]
    cases hptr : tailPtr last with
    | none =>
      simp only
      split_ifs
      · exact ih _ _ h
      · exact ih _ _ h
      · exact h
    | some element =>
      -- the last element of a length is connected to the first of the next
      have hlinked : SameElements count
          (Function.update elements element
            { elements element with next := headPtr (current + 1) })
          (Function.update elements' element
            { elements' element with next := headPtr (current + 1) }) := by
        refine ⟨fun i hi ↦ ?_, fun i hi j hj ↦ ?_⟩
        · simp only [Function.update_apply, h.same element (htail last element hptr), h.same i hi]
        · simp only [Function.update_apply] at hj
          split_ifs at hj
          · exact hhead _ j hj
          · exact h.next i hi j hj
      simp only
      split_ifs
      · exact ih _ _ h
      · exact ih _ _ hlinked
      · exact hlinked

theorem SameElements.followNext {count : ℕ} {elements elements' : ℕ → InfSymlen}
    (h : SameElements count elements elements') (fuel : ℕ) :
    ∀ start : Option ℕ, (∀ i, start = some i → i < count) →
      Muzic.followNext elements' fuel start = Muzic.followNext elements fuel start := by
  induction fuel with
  | zero => intro start _; cases start <;> rfl
  | succ fuel ih =>
    intro start hstart
    cases start with
    | none => rfl
    | some element =>
      have hlt := hstart element rfl
      rw [Muzic.followNext, Muzic.followNext, h.same element hlt,
        ih _ fun i hi ↦ h.next element hlt i hi]

/-- The same chain comes out of both lists, and both are empty behind it. -/
theorem SameList.infSLListGetSorted (h : SameList lengths list list') (resetRepetitions : Bool) :
    Matched (fun sorted sorted' ↦ sorted'.1 = sorted.1 ∧ SameList lengths sorted.2 sorted'.2 ∧
        Represents sorted.2 [])
      (Muzic.infSLListGetSorted list resetRepetitions)
      (Muzic.infSLListGetSorted list' resetRepetitions) := by
  obtain ⟨elements', lengths', rfl⟩ : ∃ elements' lengths', list' =
    { list with elements := elements', lengthsBySymbol := lengths' } := ⟨_, _, h.same⟩
  rw [Muzic.infSLListGetSorted, Muzic.infSLListGetSorted]
  simp only
  rcases scanHeads list.headPtr (infLastValidLength + 1) 0 with fault | firstLength
  · exact .fault fault
  · simp only
    by_cases hlast : firstLength = infLastValidLength
    · rw [if_pos hlast, if_pos hlast]
      exact .fault Fault.headPtrIndex
    · rw [if_neg hlast, if_neg hlast]
      have hlinked := SameElements.linkLists h.headPtr h.tailPtr
        (infLastValidLength - firstLength) firstLength firstLength ⟨h.elements, h.next⟩
      have hempty : Represents (list.restarted resetRepetitions (Muzic.linkLists list.headPtr
          list.tailPtr (infLastValidLength - firstLength) firstLength firstLength list.elements)) [] :=
        represents_restarted list resetRepetitions _
      exact .ok ⟨hlinked.followNext _ _ (h.headPtr firstLength),
        sameList_of_empty rfl h.lengthsBySymbol hempty, hempty⟩

end Lists

end ZephyrThrift.Muzic
