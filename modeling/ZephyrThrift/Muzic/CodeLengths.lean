import ZephyrThrift.Foundation.DeflateFormat
import ZephyrThrift.Muzic.Inflate
import ZephyrThrift.Muzic.SortedList

/-!
# From code lengths to a decoder

Where the symbol-length list holds the code lengths of an alphabet, `infSLListGetSorted` and
`infHuffMakeDecoder` together give a table that decodes the canonical code of these lengths:
`Decodes table lengths` says that a buffer that starts with a code word yields its symbol, and that a
buffer that holds only the first bits of a code word yields an entry longer than these bits, so that
the reader goes on loading.
-/

set_option autoImplicit false
set_option relaxedAutoImplicit false

namespace ZephyrThrift.Muzic

open Foundation

/-! ### Code lengths in the list -/

/-- The symbols that have a code, with their lengths. -/
def presentCodes (lengths : List ℕ) : List (ℕ × ℕ) :=
  ((List.range lengths.length).filter fun symbol ↦ lengthAt lengths symbol ≠ 0).map
    fun symbol ↦ (symbol, lengthAt lengths symbol)

theorem mem_presentCodes {lengths : List ℕ} {code : ℕ × ℕ} :
    code ∈ presentCodes lengths ↔
      code.1 < lengths.length ∧ lengthAt lengths code.1 ≠ 0 ∧ lengthAt lengths code.1 = code.2 := by
  simp only [presentCodes, List.mem_map, List.mem_filter, List.mem_range, decide_eq_true_eq]
  constructor
  · rintro ⟨symbol, ⟨hlt, hne⟩, rfl⟩
    exact ⟨hlt, hne, rfl⟩
  · rintro ⟨hlt, hne, heq⟩
    exact ⟨code.1, ⟨hlt, hne⟩, by rw [heq]⟩

theorem length_presentCodes_le (lengths : List ℕ) :
    (presentCodes lengths).length ≤ lengths.length := by
  rw [presentCodes, List.length_map]
  simpa using List.length_filter_le (fun symbol ↦ decide (lengthAt lengths symbol ≠ 0))
    (List.range lengths.length)

theorem lengthAt_append_of_lt {lengths : List ℕ} {symbol : ℕ} (h : symbol < lengths.length)
    (more : List ℕ) : lengthAt (lengths ++ more) symbol = lengthAt lengths symbol :=
  List.getD_append _ _ _ _ h

theorem lengthAt_append_length (lengths : List ℕ) (length : ℕ) (more : List ℕ) :
    lengthAt (lengths ++ length :: more) lengths.length = length := by
  rw [lengthAt, List.getD_append_right _ _ _ _ le_rfl, Nat.sub_self, List.getD_cons_zero]

theorem presentCodes_append (lengths : List ℕ) (length : ℕ) :
    presentCodes (lengths ++ [length]) =
      presentCodes lengths ++ if length = 0 then [] else [(lengths.length, length)] := by
  have hold : ∀ symbol ∈ List.range lengths.length,
      lengthAt (lengths ++ [length]) symbol = lengthAt lengths symbol := fun symbol hsymbol ↦
    lengthAt_append_of_lt (List.mem_range.mp hsymbol) _
  rw [presentCodes, List.length_append, List.length_singleton, List.range_succ, List.filter_append,
    List.map_append, List.filter_congr fun symbol hsymbol ↦ by rw [hold symbol hsymbol]]
  congr 1
  · exact List.map_congr_left fun symbol hsymbol ↦ by
      rw [hold symbol (List.mem_filter.mp hsymbol).1]
  · rw [List.filter_singleton, lengthAt_append_length]
    by_cases hzero : length = 0
    · simp [hzero]
    · simp [hzero, lengthAt_append_length]

theorem presentCodes_ne_nil {lengths : List ℕ} (h : HasCode lengths) : presentCodes lengths ≠ [] := by
  obtain ⟨length, hmem, hne⟩ := h
  obtain ⟨symbol, hlt, rfl⟩ := List.mem_iff_getElem.mp hmem
  have hlength : lengthAt lengths symbol = lengths[symbol] := List.getD_eq_getElem _ _ hlt
  exact List.ne_nil_of_mem (show (symbol, lengths[symbol]) ∈ presentCodes lengths from
    mem_presentCodes.mpr ⟨hlt, hlength ▸ hne, hlength⟩)

/-- Sorted by length, the pairs of an alphabet are the code words in canonical order. -/
theorem sortedPairs_presentCodes (lengths : List ℕ) :
    sortedPairs (presentCodes lengths) = sortedCodes lengths 1 maxCodeLength := by
  rw [sortedPairs, sortedCodes]
  refine List.flatMap_congr fun length hlength ↦ ?_
  have hpos : length ≠ 0 := by
    have := (List.mem_range'_1.mp hlength).1
    omega
  rw [presentCodes, symbolsOfLength, List.filter_map, List.filter_filter]
  have hsame : ∀ symbol ∈ List.range lengths.length,
      (((fun code : ℕ × ℕ ↦ code.2 == length) ∘ fun symbol ↦ (symbol, lengthAt lengths symbol))
        symbol && decide (lengthAt lengths symbol ≠ 0)) =
          decide (lengthAt lengths symbol = length) := by
    intro symbol _
    by_cases heq : lengthAt lengths symbol = length <;> simp [heq, hpos]
  rw [List.filter_congr hsame]
  refine List.map_congr_left fun symbol hsymbol ↦ ?_
  have := (List.mem_filter.mp hsymbol).2
  rw [of_decide_eq_true this]

/-! ### Adding code lengths -/

section Adding

variable (build : Build)

/-- The symbols added by a representation do not depend on the reader's progress. -/
theorem Represents.congr {list list' : InfSLList} {added : List (ℕ × ℕ)}
    (h : Represents list added) (hindex : list'.elementIndex = list.elementIndex)
    (helements : list'.elements = list.elements) (hhead : list'.headPtr = list.headPtr)
    (htail : list'.tailPtr = list.tailPtr) : Represents list' added where
  index := hindex.trans h.index
  element := by rw [helements]; exact h.element
  head := by rw [hhead]; exact h.head
  tail := by rw [htail]; exact h.tail
  linked := by rw [helements, hhead]; exact h.linked

/-- What adding symbols leaves alone: the reader's progress. -/
structure SameProgress (list list' : InfSLList) : Prop where
  command : list'.command = list.command
  symbol : list'.symbol = list.symbol
  huffmanLength : list'.huffmanLength = list.huffmanLength
  repetitions : list'.repetitions = list.repetitions
  lengthsBySymbol : list'.lengthsBySymbol = list.lengthsBySymbol

theorem SameProgress.refl (list : InfSLList) : SameProgress list list := ⟨rfl, rfl, rfl, rfl, rfl⟩

theorem SameProgress.trans {first second third : InfSLList} (h : SameProgress first second)
    (h' : SameProgress second third) : SameProgress first third :=
  ⟨h'.command.trans h.command, h'.symbol.trans h.symbol, h'.huffmanLength.trans h.huffmanLength,
    h'.repetitions.trans h.repetitions, h'.lengthsBySymbol.trans h.lengthsBySymbol⟩

/-- Adding the next code length of an alphabet. -/
theorem infSLListAddSymlen_spec {list : InfSLList} {lengths : List ℕ}
    (h : Represents list (presentCodes lengths)) (hroom : lengths.length ≤ infLastValidSymbol)
    {length : ℕ} (hlength : length ≤ infLastValidLength) :
    ∃ list', infSLListAddSymlen build list lengths.length length = .ok list' ∧
      Represents list' (presentCodes (lengths ++ [length])) ∧ SameProgress list list' := by
  rw [presentCodes_append]
  rcases Nat.eq_zero_or_pos length with rfl | hpos
  · refine ⟨list, infSLListAddSymlen_zero build list hroom, ?_, SameProgress.refl list⟩
    rwa [if_pos rfl, List.append_nil]
  · have hindex : list.elementIndex ≤ infLastValidSymbol := by
      rw [h.index]
      exact (length_presentCodes_le lengths).trans hroom
    refine ⟨list.append lengths.length length,
      infSLListAddSymlen_eq build hroom hpos hlength hindex, ?_, ⟨rfl, rfl, rfl, rfl, rfl⟩⟩
    rw [if_neg hpos.ne']
    exact h.append _ _

/-- `infSLListAddRange` adds one length for consecutive symbols. -/
theorem infSLListAddRange_spec {length : ℕ} (hlength : length ≤ infLastValidLength) (count : ℕ) :
    ∀ (list : InfSLList) (lengths : List ℕ), Represents list (presentCodes lengths) →
      lengths.length + count ≤ infLastValidSymbol + 1 →
        ∃ list', infSLListAddRange build lengths.length length count list = .ok list' ∧
          Represents list' (presentCodes (lengths ++ List.replicate count length)) ∧
          SameProgress list list' := by
  induction count with
  | zero =>
    intro list lengths h _
    exact ⟨list, rfl, by rwa [List.replicate_zero, List.append_nil], SameProgress.refl list⟩
  | succ count ih =>
    intro list lengths h hroom
    obtain ⟨list₁, hadd, hrep, hsame⟩ := infSLListAddSymlen_spec build h (by omega) hlength
    obtain ⟨list', hrest, hrep', hsame'⟩ := ih list₁ (lengths ++ [length]) hrep
      (by rw [List.length_append, List.length_singleton]; omega)
    rw [List.length_append, List.length_singleton] at hrest
    refine ⟨list', ?_, ?_, hsame.trans hsame'⟩
    · rw [infSLListAddRange, hadd]
      exact hrest
    · rwa [List.append_assoc, List.singleton_append, ← List.replicate_succ] at hrep'

/-- The third loop of `infSLListAdd3BitSymlens` adds the lengths of the array. -/
theorem add3BitLengths_spec (arr : ℕ → ℕ) (count : ℕ) :
    ∀ (list : InfSLList) (symbol : ℕ), list.lengthsBySymbol = arr →
      Represents list (presentCodes ((List.range symbol).map arr)) →
        symbol + count ≤ infLastValidSymbol + 1 →
        (∀ other < symbol + count, arr other ≤ infLastValidLength) →
          ∃ list', add3BitLengths build symbol count list = .ok list' ∧
            Represents list' (presentCodes ((List.range (symbol + count)).map arr)) ∧
            SameProgress list list' := by
  induction count with
  | zero => intro list symbol _ h _ _; exact ⟨list, rfl, h, SameProgress.refl list⟩
  | succ count ih =>
    intro list symbol hlist h hroom harr
    have hlen : ((List.range symbol).map arr).length = symbol := by simp
    obtain ⟨list₁, hadd, hrep, hsame⟩ := infSLListAddSymlen_spec build h (by omega)
      (harr symbol (by omega))
    rw [hlen] at hadd
    rw [← List.map_singleton, ← List.map_append, ← List.range_succ] at hrep
    obtain ⟨list', hrest, hrep', hsame'⟩ := ih list₁ (symbol + 1)
      (hsame.lengthsBySymbol.trans hlist) hrep (by omega) fun other hother ↦ harr other (by omega)
    rw [show symbol + 1 + count = symbol + (count + 1) by omega] at hrep'
    refine ⟨list', ?_, hrep', hsame.trans hsame'⟩
    rw [add3BitLengths]
    by_cases hpos : 0 < list.lengthsBySymbol symbol
    · rw [if_pos hpos, hlist, hadd]
      exact hrest
    · -- a length of zero adds nothing
      have hzero : arr symbol = 0 := by rw [← hlist]; omega
      rw [hzero, infSLListAddSymlen_zero build list (by omega)] at hadd
      injection hadd with hadd
      rw [if_neg hpos, hadd]
      exact hrest

/-- The pending repetitions are added as far as the alphabet goes. -/
theorem addRepetitions_eq {numberOfSymlens : ℕ} (hmax : numberOfSymlens ≤ infLastValidSymbol + 1)
    (fuel : ℕ) :
    ∀ (list : InfSLList) (lengths : List ℕ), Represents list (presentCodes lengths) →
      list.symbol = lengths.length → list.huffmanLength ≤ infLastValidLength →
        numberOfSymlens - list.symbol ≤ fuel →
          ∃ list', addRepetitions build numberOfSymlens fuel list = .ok list' ∧
            Represents list' (presentCodes (lengths ++
              List.replicate (min list.repetitions (numberOfSymlens - lengths.length))
                list.huffmanLength)) ∧
            list'.command = list.command ∧ list'.huffmanLength = list.huffmanLength ∧
            list'.symbol =
              list.symbol + min list.repetitions (numberOfSymlens - lengths.length) ∧
            list'.repetitions =
              list.repetitions - min list.repetitions (numberOfSymlens - lengths.length) := by
  induction fuel with
  | zero =>
    intro list lengths h hsymbol hlength hfuel
    have hzero : min list.repetitions (numberOfSymlens - lengths.length) = 0 := by omega
    rw [hzero]
    exact ⟨list, rfl, by simpa using h, rfl, rfl, rfl, rfl⟩
  | succ fuel ih =>
    intro list lengths h hsymbol hlength hfuel
    rw [addRepetitions]
    by_cases hpending : 0 < list.repetitions ∧ list.symbol < numberOfSymlens
    · obtain ⟨list₁, hadd, hrep, hsame⟩ := infSLListAddSymlen_spec build h (by omega) hlength
      have hstep : min list.repetitions (numberOfSymlens - lengths.length) =
          min (list.repetitions - 1) (numberOfSymlens - (lengths.length + 1)) + 1 := by omega
      rw [if_pos hpending, hsymbol, hadd, hstep]
      obtain ⟨list', hrest, hrep', hcommand, hlength', hsymbol', hrepetitions⟩ := ih
        { list₁ with symbol := list₁.symbol + 1, repetitions := list₁.repetitions - 1 }
        (lengths ++ [list.huffmanLength]) (hrep.congr rfl rfl rfl rfl)
        (by simp only [hsame.symbol, hsymbol, List.length_append, List.length_singleton])
        (by simp only [hsame.huffmanLength]; exact hlength)
        (by simp only [hsame.symbol]; omega)
      simp only [hsame.symbol, hsame.huffmanLength, hsame.repetitions, hsame.command,
        List.length_append, List.length_singleton] at hrep' hcommand hlength' hsymbol' hrepetitions
      refine ⟨list', hrest, ?_, hcommand, hlength', by omega, by omega⟩
      rwa [List.append_assoc, List.singleton_append, ← List.replicate_succ] at hrep'
    · have hzero : min list.repetitions (numberOfSymlens - lengths.length) = 0 := by omega
      rw [if_neg hpending, hzero]
      exact ⟨list, rfl, by simpa using h, rfl, rfl, rfl, rfl⟩

end Adding

/-! ### The decoder of an alphabet -/

/-- The table decodes the canonical code of the given lengths. -/
structure Decodes (table : HuffTable) (lengths : List ℕ) : Prop where
  full : ∀ symbol bits, 0 < lengthAt lengths symbol →
    bits % 2 ^ lengthAt lengths symbol =
      reverseBits (lengthAt lengths symbol) (canonicalCode lengths symbol) →
        infHuffDecode table bits = .ok (InfHuff.value (lengthAt lengths symbol) symbol)
  short : ∀ symbol bits count, 0 < lengthAt lengths symbol →
    bits % 2 ^ lengthAt lengths symbol =
      reverseBits (lengthAt lengths symbol) (canonicalCode lengths symbol) →
        count < lengthAt lengths symbol →
          ∃ entry, infHuffDecode table (bits % 2 ^ count) = .ok entry ∧ count < entry.length

theorem ascends_of_codesOf {chain : List InfSymlen} {lengths : List ℕ}
    (hcodes : codesOf chain = sortedCodes lengths 1 maxCodeLength) : Ascends 1 chain := by
  have hmem : ∀ element ∈ chain,
      1 ≤ element.huffmanLength ∧ element.huffmanLength ≤ maxCodeLength := by
    intro element helement
    have hpair : (element.symbol, element.huffmanLength) ∈ sortedCodes lengths 1 maxCodeLength := by
      rw [← hcodes]
      exact List.mem_map_of_mem helement
    obtain ⟨⟨hpos, hlt⟩, -⟩ := mem_sortedCodes.mp hpair
    simp only at hpos hlt
    omega
  have hpairs := pairwise_sortedCodes lengths maxCodeLength 1
  rw [← hcodes, codesOf, List.pairwise_map] at hpairs
  exact ⟨hpairs, fun element h ↦ (hmem element h).2, fun element h ↦ (hmem element h).1⟩

theorem chain_ne_nil {chain : List InfSymlen} {lengths : List ℕ}
    (hcodes : codesOf chain = sortedCodes lengths 1 maxCodeLength)
    (hle : ∀ length ∈ lengths, length ≤ maxCodeLength) (hcode : HasCode lengths) : chain ≠ [] := by
  obtain ⟨length, hmem, hne⟩ := hcode
  obtain ⟨symbol, hlt, rfl⟩ := List.mem_iff_getElem.mp hmem
  have hmax := hle _ (List.getElem_mem hlt)
  have hpair : (symbol, lengths[symbol]) ∈ codesOf chain := by
    rw [hcodes]
    refine mem_sortedCodes.mpr ⟨⟨?_, ?_⟩, hlt, List.getD_eq_getElem _ _ hlt⟩ <;> simp only <;> omega
  rintro rfl
  exact absurd hpair List.not_mem_nil

theorem length_chain_le {chain : List InfSymlen} {lengths : List ℕ}
    (hcodes : codesOf chain = sortedCodes lengths 1 maxCodeLength) :
    chain.length ≤ lengths.length := by
  have hcount : chain.length = (codesOf chain).length := by rw [codesOf, List.length_map]
  rw [hcount, hcodes]
  exact length_sortedCodes_le _ _ _

theorem buildable_of_codesOf {chain : List InfSymlen} {lengths : List ℕ}
    (hcodes : codesOf chain = sortedCodes lengths 1 maxCodeLength)
    (hkraft : KraftLe maxCodeLength lengths) (hcode : HasCode lengths)
    (hlength : lengths.length ≤ infLastValidSymbol + 1) : Buildable chain := by
  obtain ⟨hsorted, hlongest, hshortest⟩ := ascends_of_codesOf hcodes
  refine ⟨chain_ne_nil hcodes hkraft.1 hcode, ⟨hsorted, hlongest, hshortest, ?_⟩,
    (length_chain_le hcodes).trans hlength⟩
  rw [hcodes, Nat.zero_add, spanOf_sortedCodes _ hkraft.1]
  exact hkraft.2

/-- `infHuffMakeDecoder` on the sorted code lengths of an alphabet. -/
theorem infHuffMakeDecoder_decodes (build : Build) (table : HuffTable) {chain : List InfSymlen}
    {lengths : List ℕ} (hcodes : codesOf chain = sortedCodes lengths 1 maxCodeLength)
    (hkraft : KraftLe maxCodeLength lengths) (hcode : HasCode lengths)
    (hlength : lengths.length ≤ infLastValidSymbol + 1) :
    ∃ table', infHuffMakeDecoder build table chain = .ok table' ∧ Decodes table' lengths := by
  obtain ⟨table', hmake, hright, -⟩ := infHuffMakeDecoder_spec build table
    (buildable_of_codesOf hcodes hkraft hcode hlength)
  rw [hcodes] at hright
  refine ⟨table', hmake, ?_, ?_⟩
  · intro symbol bits hpos hbits
    exact hright bits _ (locate_reverseBits hkraft hpos hbits)
  · intro symbol bits count hpos hbits hcount
    obtain ⟨code, hlocate, hlonger⟩ := locate_reverseBits_partial hkraft hpos hbits hcount
    exact ⟨_, hright _ _ hlocate, hlonger⟩

/-- The list after `infSLListGetSorted`: empty, and the reader's progress reset or kept. -/
def InfSLList.restarted (list : InfSLList) (resetRepetitions : Bool)
    (elements : ℕ → InfSymlen) : InfSLList :=
  { list with
    command := if resetRepetitions then 0 else list.command
    huffmanLength := if resetRepetitions then 0 else list.huffmanLength
    repetitions := if resetRepetitions then 0 else list.repetitions
    elementIndex := 0
    symbol := 0
    headPtr := fun _ ↦ none
    tailPtr := fun _ ↦ none
    elements := elements }

theorem represents_restarted (list : InfSLList) (resetRepetitions : Bool)
    (elements : ℕ → InfSymlen) : Represents (list.restarted resetRepetitions elements) [] :=
  represents_nil rfl (fun _ ↦ rfl) fun _ ↦ rfl

/-- `infSLListGetSorted` on the code lengths of an alphabet, a prefix code or not. -/
theorem getSorted_spec {list : InfSLList} {lengths : List ℕ}
    (h : Represents list (presentCodes lengths)) (hle : ∀ length ∈ lengths, length ≤ maxCodeLength)
    (hcode : HasCode lengths) (hlength : lengths.length ≤ infLastValidSymbol + 1)
    (resetRepetitions : Bool) :
    ∃ chain elements,
      infSLListGetSorted list resetRepetitions =
        .ok (chain, list.restarted resetRepetitions elements) ∧
      codesOf chain = sortedCodes lengths 1 maxCodeLength := by
  have hlengths : ∀ code ∈ presentCodes lengths, 1 ≤ code.2 ∧ code.2 ≤ maxCodeLength := by
    intro code hmem
    obtain ⟨-, hne, heq⟩ := mem_presentCodes.mp hmem
    have hpos : 0 < lengthAt lengths code.1 := Nat.pos_of_ne_zero hne
    have := hle _ (lengthAt_mem hpos)
    omega
  obtain ⟨chain, elements, hcodes, hsorted⟩ := infSLListGetSorted_spec h (presentCodes_ne_nil hcode)
    hlengths ((length_presentCodes_le lengths).trans hlength) resetRepetitions
  exact ⟨chain, elements, hsorted, hcodes.trans (sortedPairs_presentCodes lengths)⟩

/-- The two functions that every loader ends with, on the code lengths of an alphabet. -/
theorem sortAndMake_spec (build : Build) (table : HuffTable) {list : InfSLList}
    {lengths : List ℕ} (h : Represents list (presentCodes lengths))
    (hkraft : KraftLe maxCodeLength lengths) (hcode : HasCode lengths)
    (hlength : lengths.length ≤ infLastValidSymbol + 1) (resetRepetitions : Bool) :
    ∃ chain elements table',
      infSLListGetSorted list resetRepetitions =
        .ok (chain, list.restarted resetRepetitions elements) ∧
      infHuffMakeDecoder build table chain = .ok table' ∧ Decodes table' lengths := by
  obtain ⟨chain, elements, hsorted, hcodes⟩ :=
    getSorted_spec h hkraft.1 hcode hlength resetRepetitions
  obtain ⟨table', hmake, hdecodes⟩ :=
    infHuffMakeDecoder_decodes build table hcodes hkraft hcode hlength
  exact ⟨chain, elements, table', hsorted, hmake, hdecodes⟩

/-! ### An alphabet added symbol by symbol -/

/-- The code lengths of the symbols from `symbol` on, added in increasing order. -/
def addSymlens (build : Build) : ℕ → List ℕ → InfSLList → Except Fault InfSLList
  | _, [], list => .ok list
  | symbol, length :: lengths, list =>
    match infSLListAddSymlen build list symbol length with
    | .error fault => .error fault
    | .ok list => addSymlens build (symbol + 1) lengths list

theorem addSymlens_spec (build : Build) (more : List ℕ) :
    ∀ (list : InfSLList) (lengths : List ℕ), Represents list (presentCodes lengths) →
      lengths.length + more.length ≤ infLastValidSymbol + 1 →
        (∀ length ∈ more, length ≤ infLastValidLength) →
          ∃ list', addSymlens build lengths.length more list = .ok list' ∧
            Represents list' (presentCodes (lengths ++ more)) := by
  induction more with
  | nil => intro list lengths h _ _; exact ⟨list, rfl, by rwa [List.append_nil]⟩
  | cons length more ih =>
    intro list lengths h hroom hmore
    obtain ⟨hlength, hmore⟩ := List.forall_mem_cons.mp hmore
    rw [List.length_cons] at hroom
    obtain ⟨list₁, hadd, hrep, -⟩ := infSLListAddSymlen_spec build h (by omega) hlength
    obtain ⟨list', hrest, hrep'⟩ := ih list₁ (lengths ++ [length]) hrep
      (by rw [List.length_append, List.length_singleton]; omega) hmore
    rw [List.length_append, List.length_singleton] at hrest
    refine ⟨list', ?_, by rwa [List.append_assoc, List.singleton_append] at hrep'⟩
    rw [addSymlens, hadd]
    exact hrest

/-- What is asked of a decoder table: a code word in the buffer yields its symbol and its length, and
the first bits of a code word, with zeros behind them, an entry longer than these bits, so that the
reader asks for more input. -/
structure CanonicalTable (table : HuffTable) (lengths : List ℕ) : Prop where
  decode : ∀ symbol bits, 0 < lengthAt lengths symbol → bits < 2 ^ 32 →
    bits % 2 ^ lengthAt lengths symbol =
      reverseBits (lengthAt lengths symbol) (canonicalCode lengths symbol) →
        infHuffDecode table bits = .ok (InfHuff.value (lengthAt lengths symbol) symbol)
  partly : ∀ symbol count, count < lengthAt lengths symbol →
    ∃ entry,
      infHuffDecode table
          (reverseBits (lengthAt lengths symbol) (canonicalCode lengths symbol) % 2 ^ count) =
        .ok entry ∧ count < entry.length
  waits : ∀ symbol count, count < lengthAt lengths symbol →
    (InfBS.mk (reverseBits (lengthAt lengths symbol) (canonicalCode lengths symbol) % 2 ^ count)
        count []).readEncodedBits table =
      .ok (none,
        ⟨reverseBits (lengthAt lengths symbol) (canonicalCode lengths symbol) % 2 ^ count, count, []⟩)

/-- The code lengths of any usable alphabet, added to an empty list, give a table that is right, and
no write leaves the table. -/
theorem canonicalTable_of_addSymlens (build : Build) (table : HuffTable) {list : InfSLList}
    (hindex : list.elementIndex = 0) (hhead : ∀ length, list.headPtr length = none)
    (htail : ∀ length, list.tailPtr length = none) {lengths : List ℕ}
    (hcount : lengths.length ≤ 288) (hkraft : KraftLe 15 lengths) (hcode : HasCode lengths)
    (resetRepetitions : Bool) :
    ∃ added chain sorted table', addSymlens build 0 lengths list = .ok added ∧
      infSLListGetSorted added resetRepetitions = .ok (chain, sorted) ∧
      infHuffMakeDecoder build table chain = .ok table' ∧ CanonicalTable table' lengths := by
  have hempty : Represents list (presentCodes []) := represents_nil hindex hhead htail
  obtain ⟨added, hadd, hrep⟩ := addSymlens_spec build lengths list [] hempty
    (by simp only [List.length_nil, infLastValidSymbol]; omega)
    fun length hmem ↦ (hkraft.1 length hmem).trans (by decide)
  obtain ⟨chain, elements, table', hsorted, hmake, hdecodes⟩ :=
    sortAndMake_spec build table hrep hkraft hcode (hcount.trans (by decide)) resetRepetitions
  have hpartly : ∀ symbol count, count < lengthAt lengths symbol →
      ∃ entry,
        infHuffDecode table'
            (reverseBits (lengthAt lengths symbol) (canonicalCode lengths symbol) % 2 ^ count) =
          .ok entry ∧ count < entry.length := fun symbol count hlt ↦
    hdecodes.short symbol _ count (Nat.zero_lt_of_lt hlt)
      (Nat.mod_eq_of_lt (reverseBits_lt _ _)) hlt
  refine ⟨added, chain, _, table', hadd, hsorted, hmake,
    fun symbol bits hpos _ ↦ hdecodes.full symbol bits hpos, hpartly, fun symbol count hlt ↦ ?_⟩
  obtain ⟨entry, hentry, hlonger⟩ := hpartly symbol count hlt
  rw [InfBS.readEncodedBits]
  by_cases hzero : count = 0
  · exact if_pos hzero
  · refine (if_neg hzero).trans ?_
    rw [InfBS.readEncodedLoop, hentry]
    exact if_pos hlonger

/-- Three symbols of lengths 1, 2 and 2. -/
theorem canonicalTable_three :
    ∃ added chain sorted table',
      addSymlens ⟨false, none⟩ 0 [1, 2, 2] freshInflater.core.sllist = .ok added ∧
      infSLListGetSorted added true = .ok (chain, sorted) ∧
      infHuffMakeDecoder ⟨false, none⟩ staticTable chain = .ok table' ∧
      CanonicalTable table' [1, 2, 2] :=
  canonicalTable_of_addSymlens ⟨false, none⟩ staticTable rfl (fun _ ↦ rfl) (fun _ ↦ rfl) (by decide)
    (by decide) (by decide) true

/-! ### The fixed decoders -/

theorem kraftLe_fixedLengths :
    KraftLe maxCodeLength fixedLiteralLengths ∧ KraftLe maxCodeLength fixedDistanceLengths := by
  decide +kernel

theorem kraftLe_fixedLiteralLengths : KraftLe maxCodeLength fixedLiteralLengths :=
  kraftLe_fixedLengths.1

theorem kraftLe_fixedDistanceLengths : KraftLe maxCodeLength fixedDistanceLengths :=
  kraftLe_fixedLengths.2

theorem hasCode_fixedLiteralLengths : HasCode fixedLiteralLengths :=
  ⟨8, List.mem_append_right _ (List.mem_replicate.mpr ⟨by norm_num, rfl⟩), by norm_num⟩

theorem hasCode_fixedDistanceLengths : HasCode fixedDistanceLengths :=
  ⟨5, List.mem_replicate.mpr ⟨by norm_num, rfl⟩, by norm_num⟩

theorem length_fixedLiteralLengths : fixedLiteralLengths.length = 288 := by
  simp only [fixedLiteralLengths, List.length_append, List.length_replicate]

/-- An empty list whose reader has made no progress. -/
structure InfSLList.Fresh (list : InfSLList) : Prop where
  represents : Represents list []
  command : list.command = 0
  symbol : list.symbol = 0
  huffmanLength : list.huffmanLength = 0
  repetitions : list.repetitions = 0

theorem fresh_restarted (list : InfSLList) (elements : ℕ → InfSymlen) :
    (list.restarted true elements).Fresh :=
  ⟨represents_restarted list true elements, rfl, rfl, rfl, rfl⟩

/-- A cached table that decodes the code of the given lengths. -/
def CachedFor (cachedDecoder : Option HuffTable) (lengths : List ℕ) : Prop :=
  ∀ table, cachedDecoder = some table → Decodes table lengths

theorem infHuffMakeFixedLiteralDecoder_spec (build : Build) {cachedDecoder : Option HuffTable}
    (hcached : CachedFor cachedDecoder fixedLiteralLengths) {list : InfSLList} (h : list.Fresh) :
    ∃ table list', infHuffMakeFixedLiteralDecoder build cachedDecoder list = .ok (table, list') ∧
      Decodes table fixedLiteralLengths ∧ list'.Fresh := by
  cases cachedDecoder with
  | some table => exact ⟨table, list, rfl, hcached table rfl, h⟩
  | none =>
    have hstart : Represents list (presentCodes []) := h.represents
    have hroom : ∀ (lengths : List ℕ) (count : ℕ), lengths.length + count ≤ 288 →
        lengths.length + count ≤ infLastValidSymbol + 1 := fun _ _ hle ↦ hle.trans (by decide)
    obtain ⟨list₁, hadd₁, hrep₁, -⟩ := infSLListAddRange_spec build (show 8 ≤ infLastValidLength by decide) 144
      list [] hstart (by simp [infLastValidSymbol])
    obtain ⟨list₂, hadd₂, hrep₂, -⟩ := infSLListAddRange_spec build (show 9 ≤ infLastValidLength by decide) 112
      list₁ _ hrep₁ (hroom _ _ (by
        simp only [List.nil_append, List.length_replicate]; norm_num))
    obtain ⟨list₃, hadd₃, hrep₃, -⟩ := infSLListAddRange_spec build (show 7 ≤ infLastValidLength by decide) 24
      list₂ _ hrep₂ (hroom _ _ (by
        simp only [List.nil_append, List.length_append, List.length_replicate]; norm_num))
    obtain ⟨list₄, hadd₄, hrep₄, -⟩ := infSLListAddRange_spec build (show 8 ≤ infLastValidLength by decide) 8
      list₃ _ hrep₃ (hroom _ _ (by
        simp only [List.nil_append, List.length_append, List.length_replicate]; norm_num))
    simp only [List.nil_append, List.length_append, List.length_replicate, List.length_nil]
      at hadd₁ hadd₂ hadd₃ hadd₄ hrep₄
    obtain ⟨chain, elements, table', hsorted, hmake, hdecodes⟩ := sortAndMake_spec build staticTable
      hrep₄ kraftLe_fixedLiteralLengths hasCode_fixedLiteralLengths
      (length_fixedLiteralLengths.le.trans (by decide)) true
    refine ⟨table', list₄.restarted true elements, ?_, hdecodes, fresh_restarted _ _⟩
    simp only [infHuffMakeFixedLiteralDecoder, bind, Except.bind, hadd₁, hadd₂, hadd₃, hadd₄,
      hsorted, hmake]
    rfl

theorem infHuffMakeFixedDistanceDecoder_spec (build : Build) {cachedDecoder : Option HuffTable}
    (hcached : CachedFor cachedDecoder fixedDistanceLengths) {list : InfSLList} (h : list.Fresh) :
    ∃ table list', infHuffMakeFixedDistanceDecoder build cachedDecoder list = .ok (table, list') ∧
      Decodes table fixedDistanceLengths ∧ list'.Fresh := by
  cases cachedDecoder with
  | some table => exact ⟨table, list, rfl, hcached table rfl, h⟩
  | none =>
    have hstart : Represents list (presentCodes []) := h.represents
    obtain ⟨list₁, hadd₁, hrep₁, -⟩ := infSLListAddRange_spec build (show 5 ≤ infLastValidLength by decide) 32
      list [] hstart (by simp [infLastValidSymbol])
    obtain ⟨chain, elements, table', hsorted, hmake, hdecodes⟩ := sortAndMake_spec build staticTable
      hrep₁ kraftLe_fixedDistanceLengths hasCode_fixedDistanceLengths
      (by simp [infLastValidSymbol]) true
    refine ⟨table', list₁.restarted true elements, ?_, hdecodes, fresh_restarted _ _⟩
    simp only [List.length_nil] at hadd₁
    simp only [infHuffMakeFixedDistanceDecoder, bind, Except.bind, hadd₁, hsorted, hmake]
    rfl

end ZephyrThrift.Muzic
