import ZephyrThrift.Foundation.LinkedList
import ZephyrThrift.Muzic.DecoderTable
import ZephyrThrift.Muzic.SymlenList

/-!
# The symbol-length list sorts by length

`Represents list added` says that the linked lists hold the pairs of a symbol and a length that were
added, in the order in which they were added within each length. Adding a pair keeps it, and
`infSLListGetSorted` turns it into one chain: the pairs of length 1, then those of length 2, and so
on. Where the pairs are the code lengths of an alphabet, that is the order of its canonical code.
-/

set_option autoImplicit false
set_option relaxedAutoImplicit false

namespace ZephyrThrift.Muzic

open Foundation

/-- The elements of one length, in the order in which they were added. -/
def nodesOf (added : List (ℕ × ℕ)) (length : ℕ) : List ℕ :=
  (List.range added.length).filter fun i ↦ (added.getD i (0, 0)).2 == length

/-- The successor of an element. -/
def nextOf (elements : ℕ → InfSymlen) : ℕ → Option ℕ := fun i ↦ (elements i).next

theorem nodesOf_append (added : List (ℕ × ℕ)) (code : ℕ × ℕ) (length : ℕ) :
    nodesOf (added ++ [code]) length =
      nodesOf added length ++ if code.2 = length then [added.length] else [] := by
  have hold : (List.range added.length).filter
        (fun i ↦ ((added ++ [code]).getD i (0, 0)).2 == length) = nodesOf added length := by
    refine List.filter_congr fun i hi ↦ ?_
    rw [List.getD_append _ _ _ _ (List.mem_range.mp hi)]
  rw [nodesOf, List.length_append, List.length_singleton, List.range_succ, List.filter_append, hold]
  congr 1
  rw [List.filter_singleton, List.getD_append_right _ _ _ _ le_rfl, Nat.sub_self]
  simp only [List.getD_cons_zero]
  by_cases h : code.2 = length
  · simp [h]
  · simp [h, beq_eq_false_iff_ne.mpr h]

theorem mem_nodesOf {added : List (ℕ × ℕ)} {length i : ℕ} :
    i ∈ nodesOf added length ↔ i < added.length ∧ (added.getD i (0, 0)).2 = length := by
  simp [nodesOf]

theorem nodup_nodesOf (added : List (ℕ × ℕ)) (length : ℕ) : (nodesOf added length).Nodup :=
  List.nodup_range.filter _

/-- The pairs at the elements of one length. -/
theorem map_nodesOf (added : List (ℕ × ℕ)) (length : ℕ) :
    (nodesOf added length).map (fun i ↦ added.getD i (0, 0)) =
      added.filter fun code ↦ code.2 == length := by
  induction added using List.reverseRecOn with
  | nil => rfl
  | append_singleton added code ih =>
    have hold : (nodesOf added length).map (fun i ↦ (added ++ [code]).getD i (0, 0)) =
        (nodesOf added length).map fun i ↦ added.getD i (0, 0) :=
      List.map_congr_left fun i hi ↦ List.getD_append _ _ _ _ (mem_nodesOf.mp hi).1
    rw [nodesOf_append, List.map_append, hold, ih, List.filter_append]
    congr 1
    by_cases h : code.2 = length <;> simp [h]

/-- The linked lists hold the pairs that were added. -/
structure Represents (list : InfSLList) (added : List (ℕ × ℕ)) : Prop where
  index : list.elementIndex = added.length
  element : ∀ i < added.length, (list.elements i).symbol = (added.getD i (0, 0)).1 ∧
    (list.elements i).huffmanLength = (added.getD i (0, 0)).2
  head : ∀ length, list.headPtr length = (nodesOf added length).head?
  tail : ∀ length, list.tailPtr length = (nodesOf added length).getLast?
  linked : ∀ length, Segment (nextOf list.elements) (list.headPtr length) (nodesOf added length) none

/-- The list after a pair was added. -/
def InfSLList.append (list : InfSLList) (symbol huffmanLength : ℕ) : InfSLList :=
  { list with
    elementIndex := list.elementIndex + 1
    headPtr := match list.tailPtr huffmanLength with
      | some _ => list.headPtr
      | none => Function.update list.headPtr huffmanLength (some list.elementIndex)
    elements := Function.update
      (match list.tailPtr huffmanLength with
        | some last => Function.update list.elements last
            { list.elements last with next := some list.elementIndex }
        | none => list.elements)
      list.elementIndex ⟨symbol, huffmanLength, none⟩
    tailPtr := Function.update list.tailPtr huffmanLength (some list.elementIndex) }

theorem infSLListAddSymlen_zero (build : Build) (list : InfSLList) {symbol : ℕ}
    (hsymbol : symbol ≤ infLastValidSymbol) :
    infSLListAddSymlen build list symbol 0 = .ok list := by
  simp only [infSLListAddSymlen, decide_eq_true hsymbol, decide_eq_true (Nat.zero_le _),
    Build.assert_true, bind, Except.bind, if_true]
  rfl

theorem infSLListAddSymlen_eq (build : Build) {list : InfSLList} {symbol huffmanLength : ℕ}
    (hsymbol : symbol ≤ infLastValidSymbol) (hpos : 0 < huffmanLength)
    (hlength : huffmanLength ≤ infLastValidLength)
    (hindex : list.elementIndex ≤ infLastValidSymbol) :
    infSLListAddSymlen build list symbol huffmanLength = .ok (list.append symbol huffmanLength) := by
  simp only [infSLListAddSymlen, decide_eq_true hsymbol, decide_eq_true hlength,
    Build.assert_true, bind, Except.bind, if_neg hpos.ne', if_neg (not_lt.mpr hlength),
    if_neg (not_lt.mpr hindex)]
  rfl

theorem nextOf_update (elements : ℕ → InfSymlen) (i : ℕ) (element : InfSymlen) :
    nextOf (Function.update elements i element) =
      Function.update (nextOf elements) i element.next := by
  funext j
  by_cases h : j = i
  · subst h; simp [nextOf]
  · simp [nextOf, h]

/-- The successors after a pair was added. -/
theorem nextOf_append {list : InfSLList} {added : List (ℕ × ℕ)} (h : Represents list added)
    (symbol huffmanLength : ℕ) :
    nextOf (list.append symbol huffmanLength).elements =
      Function.update
        (match (nodesOf added huffmanLength).getLast? with
          | some last => Function.update (nextOf list.elements) last (some added.length)
          | none => nextOf list.elements)
        added.length none := by
  simp only [InfSLList.append, nextOf_update, h.index, h.tail huffmanLength]
  cases (nodesOf added huffmanLength).getLast? with
  | none => rfl
  | some last => simp only [nextOf_update]

theorem disjoint_nodesOf {added : List (ℕ × ℕ)} {first second i : ℕ} (hne : first ≠ second)
    (hfirst : i ∈ nodesOf added first) : i ∉ nodesOf added second := fun hsecond ↦
  hne ((mem_nodesOf.mp hfirst).2.symm.trans (mem_nodesOf.mp hsecond).2)

/-- The head of a list after a pair was added. -/
theorem Represents.headPtr_append {list : InfSLList} {added : List (ℕ × ℕ)}
    (h : Represents list added) (symbol huffmanLength length : ℕ) :
    (list.append symbol huffmanLength).headPtr length =
      (nodesOf (added ++ [(symbol, huffmanLength)]) length).head? := by
  rw [nodesOf_append]
  simp only [InfSLList.append, h.tail huffmanLength, h.index]
  by_cases hsame : huffmanLength = length
  · subst hsame
    rw [if_pos rfl]
    cases hnodes : nodesOf added huffmanLength with
    | nil => simp
    | cons node nodes =>
      have hhead := h.head huffmanLength
      rw [hnodes] at hhead
      simpa [List.getLast?_cons] using hhead
  · rw [if_neg hsame, List.append_nil, ← h.head length]
    cases (nodesOf added huffmanLength).getLast? with
    | some last => rfl
    | none => exact Function.update_of_ne (Ne.symm hsame) _ _

/-- The chains after a pair was added. -/
theorem Represents.linked_append {list : InfSLList} {added : List (ℕ × ℕ)}
    (h : Represents list added) (symbol huffmanLength length : ℕ) :
    Segment (nextOf (list.append symbol huffmanLength).elements)
      ((list.append symbol huffmanLength).headPtr length)
      (nodesOf (added ++ [(symbol, huffmanLength)]) length) none := by
  have hfresh : ∀ other, ∀ node ∈ nodesOf added other, node ≠ added.length := by
    intro other node hnode
    exact (mem_nodesOf.mp hnode).1.ne
  have hchain := h.linked length
  rw [h.head length] at hchain
  rw [h.headPtr_append, nextOf_append h, nodesOf_append]
  by_cases hsame : huffmanLength = length
  · subst hsame
    rw [if_pos rfl]
    rcases List.eq_nil_or_concat' (nodesOf added huffmanLength) with hnodes | ⟨nodes, last, hnodes⟩
    · rw [hnodes]
      exact ⟨rfl, Function.update_self ..⟩
    · -- the old last element now points to the new one
      have hnodup := nodup_nodesOf added huffmanLength
      have hlast := hfresh huffmanLength
      rw [hnodes] at hchain hnodup hlast ⊢
      rw [List.getLast?_concat]
      have hnotMem : last ∉ nodes := fun hmem ↦
        (List.nodup_append.mp hnodup).2.2 last hmem last (List.mem_singleton_self last) rfl
      have hrelink := Segment.relink (some added.length) nodes _ hnotMem hchain
      have hhead : (nodes ++ [last] ++ [added.length]).head? = (nodes ++ [last]).head? := by
        cases nodes <;> rfl
      rw [hhead]
      refine Segment.append ?_ _ _ (Segment.congr _ _ (fun node hnode ↦ ?_) hrelink)
      · exact ⟨rfl, Function.update_self ..⟩
      · exact Function.update_of_ne (hlast node hnode) _ _
  · rw [if_neg hsame, List.append_nil]
    refine Segment.congr _ _ (fun node hnode ↦ ?_) hchain
    rw [Function.update_of_ne (hfresh length node hnode)]
    cases hlast : (nodesOf added huffmanLength).getLast? with
    | none => rfl
    | some last =>
      have hmem := List.mem_of_getLast? hlast
      exact Function.update_of_ne
        (fun heq ↦ disjoint_nodesOf hsame (heq ▸ hmem) hnode) _ _

/-- Adding a pair extends the list of its length. -/
theorem Represents.append {list : InfSLList} {added : List (ℕ × ℕ)} (h : Represents list added)
    (symbol huffmanLength : ℕ) :
    Represents (list.append symbol huffmanLength) (added ++ [(symbol, huffmanLength)]) where
  index := by
    rw [List.length_append, List.length_singleton, ← h.index]
    rfl
  element := by
    intro i hi
    rw [List.length_append, List.length_singleton] at hi
    by_cases hlast : i = added.length
    · rw [List.getD_append_right _ _ _ _ hlast.ge, hlast, Nat.sub_self, List.getD_cons_zero]
      simp [InfSLList.append, h.index]
    · rw [List.getD_append _ _ _ _ (by omega)]
      obtain ⟨hsymbol, hlength⟩ := h.element i (by omega)
      have hold : ∀ elements : ℕ → InfSymlen,
          Function.update elements list.elementIndex ⟨symbol, huffmanLength, none⟩ i =
            elements i := fun elements ↦ Function.update_of_ne (by rw [h.index]; exact hlast) _ _
      simp only [InfSLList.append, hold]
      cases list.tailPtr huffmanLength with
      | none => exact ⟨hsymbol, hlength⟩
      | some last =>
        simp only [Function.update_apply]
        split
        · next heq => rw [← heq]; exact ⟨hsymbol, hlength⟩
        · exact ⟨hsymbol, hlength⟩
  head := h.headPtr_append symbol huffmanLength
  tail := by
    intro length
    rw [nodesOf_append]
    simp only [InfSLList.append, h.index]
    by_cases hsame : huffmanLength = length
    · subst hsame
      simp
    · rw [if_neg hsame, List.append_nil, ← h.tail length, Function.update_of_ne (Ne.symm hsame)]
  linked := h.linked_append symbol huffmanLength

theorem represents_nil {list : InfSLList} (hindex : list.elementIndex = 0)
    (hhead : ∀ length, list.headPtr length = none) (htail : ∀ length, list.tailPtr length = none) :
    Represents list [] where
  index := hindex
  element := fun _ hi ↦ absurd hi (Nat.not_lt_zero _)
  head := hhead
  tail := htail
  linked := hhead

/-! ### Linking the lists -/

/-- Where the heads are empty up to a length, the scan ends there. -/
theorem scanHeads_eq {headPtr : ℕ → Option ℕ} {first : ℕ} (hfirst : headPtr first ≠ none)
    (fuel : ℕ) :
    ∀ start, start ≤ first → first < start + fuel →
      (∀ length, start ≤ length → length < first → headPtr length = none) →
        scanHeads headPtr fuel start = .ok first := by
  induction fuel with
  | zero => intro start _ hlt _; omega
  | succ fuel ih =>
    intro start hle hlt hbefore
    rw [scanHeads]
    rcases Nat.eq_or_lt_of_le hle with rfl | hlater
    · rw [if_neg hfirst]
    · rw [if_pos (hbefore start le_rfl hlater)]
      exact ih (start + 1) hlater (by omega) fun length h ↦ hbefore length (by omega)

/-- Following the successors of a chain lists its elements. -/
theorem followNext_eq {elements : ℕ → InfSymlen} (nodes : List ℕ) :
    ∀ fuel start, nodes.length ≤ fuel → Segment (nextOf elements) start nodes none →
      followNext elements fuel start = nodes.map elements := by
  induction nodes with
  | nil =>
    intro fuel start _ h
    cases h
    rw [List.map_nil, followNext.eq_def]
  | cons node nodes ih =>
    intro fuel start hfuel h
    obtain ⟨rfl, hrest⟩ := h
    obtain ⟨fuel, rfl⟩ := Nat.exists_eq_add_of_le' (Nat.one_le_of_lt (Nat.lt_of_lt_of_le
      (Nat.lt_succ_self _) hfuel))
    rw [followNext, List.map_cons]
    exact congrArg _ (ih fuel _ (by simpa using hfuel) hrest)

/-- The elements of all lengths from one on, up to 17. -/
def nodesFrom (added : List (ℕ × ℕ)) (length : ℕ) : List ℕ :=
  (List.range' length (infLastValidLength - length)).flatMap (nodesOf added)

theorem nodesFrom_eq_append {added : List (ℕ × ℕ)} {length : ℕ} (h : length < infLastValidLength) :
    nodesFrom added length = nodesOf added length ++ nodesFrom added (length + 1) := by
  rw [nodesFrom, nodesFrom, show infLastValidLength - length =
    (infLastValidLength - (length + 1)) + 1 by omega, List.range'_succ, List.flatMap_cons]

/-- Lengths without elements can be passed over. -/
theorem nodesFrom_skip {added : List (ℕ × ℕ)} {first last : ℕ} (h : first ≤ last)
    (hlast : last ≤ infLastValidLength)
    (hempty : ∀ length, first ≤ length → length < last → nodesOf added length = []) :
    nodesFrom added first = nodesFrom added last := by
  induction last, h using Nat.le_induction with
  | base => rfl
  | succ last hle ih =>
    rw [ih (by omega) fun length h₁ h₂ ↦ hempty length h₁ (by omega),
      nodesFrom_eq_append (by omega), hempty last hle (by omega), List.nil_append]

/-- What the loop has done before `current` is considered: the chain in front is complete up to the
last length that has elements, and the lists of later lengths are still apart. -/
structure Linking (added : List (ℕ × ℕ)) (headPtr : ℕ → Option ℕ) (start : Option ℕ)
    (lastValid current : ℕ) (elements : ℕ → InfSymlen) (front : List ℕ) : Prop where
  le : lastValid ≤ current
  nonempty : nodesOf added lastValid ≠ []
  gap : ∀ length, lastValid < length → length ≤ current → nodesOf added length = []
  chain : Segment (nextOf elements) start (front ++ nodesOf added lastValid) none
  apart : ∀ node ∈ front, ∀ length, lastValid ≤ length → node ∉ nodesOf added length
  later : ∀ length, current < length →
    Segment (nextOf elements) (headPtr length) (nodesOf added length) none

/-- The last element of the chain in front is linked to another list. -/
theorem Linking.relink {added : List (ℕ × ℕ)} {headPtr : ℕ → Option ℕ} {start : Option ℕ}
    {lastValid current : ℕ} {elements : ℕ → InfSymlen} {front : List ℕ}
    (h : Linking added headPtr start lastValid current elements front) (stop : Option ℕ) :
    ∃ last, (nodesOf added lastValid).getLast? = some last ∧
      Segment (Function.update (nextOf elements) last stop) start
        (front ++ nodesOf added lastValid) stop ∧
      ∀ length, current < length →
        Segment (Function.update (nextOf elements) last stop) (headPtr length)
          (nodesOf added length) none := by
  obtain hnodes | ⟨nodes, last, hnodes⟩ := List.eq_nil_or_concat' (nodesOf added lastValid)
  · exact absurd hnodes h.nonempty
  have hmem : last ∈ nodesOf added lastValid := by
    rw [hnodes]
    exact List.mem_append_right _ (List.mem_singleton_self last)
  refine ⟨last, by rw [hnodes, List.getLast?_concat], ?_, ?_⟩
  · have hchain := h.chain
    have hnodup := nodup_nodesOf added lastValid
    rw [hnodes] at hnodup
    rw [hnodes, ← List.append_assoc] at hchain ⊢
    refine Segment.relink stop _ _ (fun hlast ↦ ?_) hchain
    rcases List.mem_append.mp hlast with hfront | hnode
    · exact h.apart last hfront lastValid le_rfl hmem
    · exact (List.nodup_append.mp hnodup).2.2 last hnode last (List.mem_singleton_self last) rfl
  · intro length hlength
    refine Segment.congr _ _ (fun node hnode ↦ Function.update_of_ne ?_ _ _) (h.later length hlength)
    rintro rfl
    have hle := h.le
    exact disjoint_nodesOf (by omega) hmem hnode

theorem linkLists_chain {added : List (ℕ × ℕ)} {headPtr tailPtr : ℕ → Option ℕ} {start : Option ℕ}
    (hhead : ∀ length, headPtr length = (nodesOf added length).head?)
    (htail : ∀ length, tailPtr length = (nodesOf added length).getLast?)
    (hsentinel : nodesOf added infLastValidLength = []) (fuel : ℕ) :
    ∀ lastValid current elements front, current + fuel = infLastValidLength → 0 < fuel →
      Linking added headPtr start lastValid current elements front →
        Segment (nextOf (linkLists headPtr tailPtr fuel lastValid current elements)) start
          (front ++ nodesFrom added lastValid) none := by
  induction fuel with
  | zero => intro _ _ _ _ _ hpos; exact absurd hpos (lt_irrefl 0)
  | succ fuel ih =>
    intro lastValid current elements front hfuel _ h
    have hle := h.le
    rw [linkLists]
    split
    · next hskip =>
      -- nothing has this length
      have hempty : nodesOf added (current + 1) = [] := by
        rw [← List.head?_eq_none_iff, ← hhead]
        exact hskip.2
      refine ih lastValid (current + 1) elements front (by omega) (by omega)
        ⟨by omega, h.nonempty, fun length h₁ h₂ ↦ ?_, h.chain, h.apart,
          fun length hlength ↦ h.later length (by omega)⟩
      rcases Nat.eq_or_lt_of_le h₂ with rfl | hlt
      · exact hempty
      · exact h.gap length h₁ (by omega)
    · next hlink =>
      obtain ⟨last, hlast, hchain, hlater⟩ := h.relink (headPtr (current + 1))
      simp only [htail lastValid, hlast]
      split
      · next hlt =>
        have hnonempty : nodesOf added (current + 1) ≠ [] := by
          intro hempty
          rw [← List.head?_eq_none_iff, ← hhead] at hempty
          exact hlink ⟨hlt, hempty⟩
        rw [nodesFrom_eq_append (show lastValid < infLastValidLength by omega),
          nodesFrom_skip (show lastValid + 1 ≤ current + 1 by omega) (by omega)
            (fun length h₁ h₂ ↦ h.gap length (by omega) (by omega)), ← List.append_assoc]
        refine ih (current + 1) (current + 1) _ _ (by omega) (by omega)
          ⟨le_rfl, hnonempty, fun length h₁ h₂ ↦ by omega, ?_, ?_, ?_⟩
        · rw [nextOf_update]
          exact Segment.append (hlater (current + 1) (Nat.lt_succ_self _)) _ _ hchain
        · intro node hnode length hlength
          rcases List.mem_append.mp hnode with hfront | hmem
          · exact h.apart node hfront length (by omega)
          · exact disjoint_nodesOf (by omega) hmem
        · intro length hlength
          rw [nextOf_update]
          exact hlater length (by omega)
      · next hge =>
        have hend : headPtr (current + 1) = none := by
          rw [hhead, show current + 1 = infLastValidLength by omega, hsentinel]
          rfl
        rw [nodesFrom_eq_append (show lastValid < infLastValidLength by omega),
          nodesFrom_skip (show lastValid + 1 ≤ infLastValidLength by omega) le_rfl
            (fun length h₁ h₂ ↦ h.gap length (by omega) (by omega)), nextOf_update]
        rw [hend] at hchain ⊢
        simpa [nodesFrom] using hchain

/-- Linking the lists keeps the symbols and the lengths. -/
theorem linkLists_keeps (headPtr tailPtr : ℕ → Option ℕ) (i : ℕ) (fuel : ℕ) :
    ∀ lastValid current elements,
      (linkLists headPtr tailPtr fuel lastValid current elements i).symbol = (elements i).symbol ∧
      (linkLists headPtr tailPtr fuel lastValid current elements i).huffmanLength =
        (elements i).huffmanLength := by
  induction fuel with
  | zero => intro lastValid current elements; exact ⟨rfl, rfl⟩
  | succ fuel ih =>
    intro lastValid current elements
    have hupdate : ∀ (last : ℕ) (next : Option ℕ),
        (Function.update elements last { elements last with next := next } i).symbol =
          (elements i).symbol ∧
        (Function.update elements last { elements last with next := next } i).huffmanLength =
          (elements i).huffmanLength := by
      intro last next
      rw [Function.update_apply]
      split
      · next heq => rw [heq]; exact ⟨rfl, rfl⟩
      · exact ⟨rfl, rfl⟩
    rw [linkLists]
    split
    · exact ih ..
    · cases htail : tailPtr lastValid with
      | none =>
        simp only
        split
        · exact ih ..
        · exact ⟨rfl, rfl⟩
      | some last =>
        simp only
        split
        · rw [(ih ..).1, (ih ..).2]
          exact hupdate last _
        · exact hupdate last _

theorem length_nodesFrom_le (added : List (ℕ × ℕ)) (length : ℕ) :
    (nodesFrom added length).length ≤ added.length := by
  have hnodup : (nodesFrom added length).Nodup := by
    refine List.nodup_flatMap.mpr ⟨fun other _ ↦ nodup_nodesOf added other, ?_⟩
    refine List.Pairwise.imp (fun hne i hfirst hsecond ↦ ?_) (List.nodup_range' _ one_pos)
    exact disjoint_nodesOf hne hfirst hsecond
  have hsub : nodesFrom added length ⊆ List.range added.length := by
    intro i hi
    obtain ⟨other, -, hother⟩ := List.mem_flatMap.mp hi
    exact List.mem_range.mpr (mem_nodesOf.mp hother).1
  simpa using (hnodup.subperm hsub).length_le

/-- The pairs sorted by length, for the lengths of Huffman codes. -/
def sortedPairs (added : List (ℕ × ℕ)) : List (ℕ × ℕ) :=
  (List.range' 1 maxCodeLength).flatMap fun length ↦ added.filter fun code ↦ code.2 == length

/-- `infSLListGetSorted` on a list that is not empty: the chain of all pairs, sorted by length, and
an empty list. -/
theorem infSLListGetSorted_spec {list : InfSLList} {added : List (ℕ × ℕ)}
    (h : Represents list added) (hadded : added ≠ [])
    (hlengths : ∀ code ∈ added, 1 ≤ code.2 ∧ code.2 ≤ maxCodeLength)
    (hroom : added.length ≤ infLastValidSymbol + 1) (resetRepetitions : Bool) :
    ∃ chain elements, codesOf chain = sortedPairs added ∧
      infSLListGetSorted list resetRepetitions = .ok (chain,
        { list with
          command := if resetRepetitions then 0 else list.command
          huffmanLength := if resetRepetitions then 0 else list.huffmanLength
          repetitions := if resetRepetitions then 0 else list.repetitions
          elementIndex := 0
          symbol := 0
          headPtr := fun _ ↦ none
          tailPtr := fun _ ↦ none
          elements := elements }) := by
  -- no element has a length of zero or behind the longest code
  have hempty : ∀ length, length = 0 ∨ maxCodeLength < length → nodesOf added length = [] := by
    intro length hlength
    rw [List.eq_nil_iff_forall_not_mem]
    intro i hi
    obtain ⟨hi, hcode⟩ := mem_nodesOf.mp hi
    have hmem : added.getD i (0, 0) ∈ added := by
      rw [List.getD_eq_getElem _ _ hi]
      exact List.getElem_mem hi
    have := hlengths _ hmem
    omega
  have hsome : ∃ length, nodesOf added length ≠ [] := by
    obtain ⟨code, rest, rfl⟩ := List.exists_cons_of_ne_nil hadded
    refine ⟨code.2, List.ne_nil_of_mem (a := 0) (mem_nodesOf.mpr ⟨by simp, by simp⟩)⟩
  -- the first length that has elements
  have hfirst := Nat.find_spec hsome
  have hbefore : ∀ length, length < Nat.find hsome → nodesOf added length = [] := fun length hlt ↦
    not_not.mp (Nat.find_min hsome hlt)
  generalize Nat.find hsome = first at hfirst hbefore
  have hpos : 1 ≤ first := by
    by_contra hzero
    exact hfirst (hempty first (.inl (by omega)))
  have hmax : first ≤ maxCodeLength := by
    by_contra hlate
    exact hfirst (hempty first (.inr (by omega)))
  have hmaxLt : maxCodeLength < infLastValidLength := by decide
  have hheadNone : ∀ length, list.headPtr length = none ↔ nodesOf added length = [] := by
    intro length
    rw [h.head, List.head?_eq_none_iff]
  have hscan : scanHeads list.headPtr (infLastValidLength + 1) 0 = .ok first :=
    scanHeads_eq (fun hnone ↦ hfirst ((hheadNone first).mp hnone)) _ _ (Nat.zero_le _) (by omega)
      fun length _ hlt ↦ (hheadNone length).mpr (hbefore length hlt)
  have hchain := linkLists_chain h.head h.tail (hempty _ (.inr hmaxLt))
    (infLastValidLength - first) first first list.elements [] (by omega) (by omega)
    ⟨le_rfl, hfirst, fun _ _ _ ↦ by omega, h.linked first, fun _ hmem ↦ absurd hmem List.not_mem_nil,
      fun length _ ↦ h.linked length⟩
  rw [List.nil_append] at hchain
  have hlist := followNext_eq _ _ _ ((length_nodesFrom_le added first).trans hroom) hchain
  refine ⟨_, _, ?_, by rw [infSLListGetSorted, hscan]; simp only [if_neg (show first ≠
    infLastValidLength by omega)]; rfl⟩
  rw [hlist, codesOf, List.map_map]
  have hpair : ∀ i ∈ nodesFrom added first,
      ((fun element : InfSymlen ↦ (element.symbol, element.huffmanLength)) ∘
        linkLists list.headPtr list.tailPtr (infLastValidLength - first) first first list.elements) i =
          added.getD i (0, 0) := by
    intro i hi
    obtain ⟨length, -, hmem⟩ := List.mem_flatMap.mp hi
    obtain ⟨hsymbol, hlength⟩ := linkLists_keeps list.headPtr list.tailPtr i
      (infLastValidLength - first) first first list.elements
    obtain ⟨hsymbol', hlength'⟩ := h.element i (mem_nodesOf.mp hmem).1
    simp only [Function.comp_apply, hsymbol, hlength, hsymbol', hlength']
  rw [List.map_congr_left hpair, ← nodesFrom_skip hpos (by omega)
    fun length _ hlt ↦ hbefore length hlt]
  have hall : nodesFrom added 1 = (List.range' 1 maxCodeLength).flatMap (nodesOf added) := by
    rw [nodesFrom, show infLastValidLength - 1 = maxCodeLength + 2 from rfl,
      ← List.range'_append_1, List.flatMap_append]
    simp [List.range'_succ, hempty 16 (.inr (by decide)), hempty 17 (.inr (by decide)),
      maxCodeLength]
  rw [hall, List.map_flatMap, sortedPairs]
  simp only [map_nodesOf]

end ZephyrThrift.Muzic
