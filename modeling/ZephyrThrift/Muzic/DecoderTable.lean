import ZephyrThrift.Foundation.CanonicalCode
import ZephyrThrift.Muzic.HuffmanTable

/-!
# Decoder tables decode canonical codes

A buffer is looked up by its value read most significant bit first, `reverseBits 15 bits`: the code
words of a chain sorted by length cover consecutive intervals of these values (`locate`). Each loop
of `infHuffMakeDecoder` extends the values for which the table is right by the intervals of the
elements it consumes, first in whole cells of the main table, then one cell, and one subtable, at a
time. `infHuffMakeDecoder_spec` puts the loops together.

The bound on the table holds because a subtable that is not the last is full: one whose codes have
one length has as many entries as codes, and lengths grow in at most six others.
-/

set_option autoImplicit false
set_option relaxedAutoImplicit false

namespace ZephyrThrift.Muzic

open Foundation

/-- The longest code length, and the scale of the intervals. -/
def maxCodeLength : ℕ := 15

theorem reverseAt_of_lt {index : ℕ} (h : index < 256) :
    reverseAt index = .ok (reverseBits 8 index) := by
  have htable : infReverse = (List.range 256).map (reverseBits 8) := by decide +kernel
  have hentry : infReverse[index]? = some (reverseBits 8 index) := by
    rw [htable, List.getElem?_map, List.getElem?_range h]
    rfl
  simp only [reverseAt, hentry]

/-! ### Filling a table -/

theorem fillLoop_spec {base tableSize known exponent : ℕ} (data : InfHuff)
    (hknown : known < 2 ^ exponent) (hsize : 2 ^ exponent ∣ tableSize)
    (hbound : base + tableSize ≤ infHuffTableSize) (fuel : ℕ) :
    ∀ (unknownBits : ℕ) (table : HuffTable), 2 ^ exponent ∣ unknownBits →
      tableSize ≤ unknownBits + fuel →
        fillLoop base tableSize known (2 ^ exponent) data fuel unknownBits table =
          .ok fun i ↦
            if base + unknownBits ≤ i ∧ i < base + tableSize ∧ (i - base) % 2 ^ exponent = known
            then data else table i := by
  have hpos : 0 < 2 ^ exponent := Nat.two_pow_pos exponent
  induction fuel with
  | zero =>
    intro unknownBits table _ hfuel
    rw [fillLoop]
    congr 1
    funext i
    rw [if_neg (by omega)]
  | succ fuel ih =>
    intro unknownBits table hdvd hfuel
    obtain ⟨turn, rfl⟩ := hdvd
    obtain ⟨turns, rfl⟩ := hsize
    rw [fillLoop]
    by_cases hlt : 2 ^ exponent * turn < 2 ^ exponent * turns
    · have hturn : turn + 1 ≤ turns := Nat.lt_of_mul_lt_mul_left hlt
      have hnext : 2 ^ exponent * turn + 2 ^ exponent ≤ 2 ^ exponent * turns := by
        rw [← Nat.mul_succ]
        exact Nat.mul_le_mul_left _ hturn
      have hindex : 2 ^ exponent * turn ||| known = 2 ^ exponent * turn + known :=
        (Nat.two_pow_add_eq_or_of_lt hknown turn).symm
      rw [if_pos hlt, hindex, HuffTable.set, if_pos (by omega)]
      simp only
      rw [ih _ _ (Dvd.intro (turn + 1) (by ring)) (by omega)]
      congr 1
      funext i
      by_cases hi : i = base + (2 ^ exponent * turn + known)
      · rw [if_neg (by omega), if_pos hi, if_pos]
        refine ⟨by omega, by omega, ?_⟩
        rw [hi, Nat.add_sub_cancel_left, Nat.mul_add_mod, Nat.mod_eq_of_lt hknown]
      · rw [if_neg hi]
        congr 1
        simp only [eq_iff_iff]
        constructor
        · rintro ⟨h₁, h₂, h₃⟩
          exact ⟨by omega, h₂, h₃⟩
        · rintro ⟨h₁, h₂, h₃⟩
          refine ⟨?_, h₂, h₃⟩
          -- the only other index with these low bits in this turn is the one written
          by_contra hbelow
          apply hi
          have hdiv : (i - base) / 2 ^ exponent = turn := by
            rw [Nat.div_eq_iff hpos]
            rw [Nat.mul_comm]
            omega
          have hsplit := Nat.div_add_mod (i - base) (2 ^ exponent)
          rw [hdiv, h₃] at hsplit
          omega
    · rw [if_neg hlt]
      congr 1
      funext i
      rw [if_neg (by omega)]

/-- The reversed code that `infHuffFillTable` computes from two table look-ups. -/
theorem reverse_two_bytes (huffman : ℕ) {length : ℕ} (hlength : length ≤ 16) :
    ((reverseBits 8 (huffman % 256) <<< 8) ||| reverseBits 8 (huffman >>> 8)) >>> (16 - length) =
      reverseBits length huffman := by
  have hlow := reverseBits_mod 8 huffman
  rw [show (2 : ℕ) ^ 8 = 256 by norm_num] at hlow
  rw [hlow, Nat.shiftLeft_eq, Nat.mul_comm,
    ← Nat.two_pow_add_eq_or_of_lt (reverseBits_lt 8 _), Nat.shiftRight_eq_div_pow,
    Nat.shiftRight_eq_div_pow, Nat.mul_comm, ← reverseBits_add 8 8,
    reverseBits_div_pow (show length ≤ 16 from hlength)]

/-- `infHuffFillTable` writes the entries whose index agrees with the reversed code on the bits that
the table knows. -/
theorem infHuffFillTable_spec (build : Build) (table : HuffTable)
    {base exponent huffman huffmanLength discardedBits : ℕ} (byte : ℕ)
    (hlength : huffmanLength ≤ 15) (hdiscarded : discardedBits < huffmanLength)
    (hhuffman : huffman < 2 ^ huffmanLength) (hexponent : huffmanLength - discardedBits ≤ exponent)
    (hbound : base + 2 ^ exponent ≤ infHuffTableSize) :
    infHuffFillTable build table base (2 ^ exponent) huffman huffmanLength byte discardedBits =
      .ok fun i ↦
        if base ≤ i ∧ i < base + 2 ^ exponent ∧ (i - base) % 2 ^ (huffmanLength - discardedBits) =
          reverseBits huffmanLength huffman / 2 ^ discardedBits
        then InfHuff.value huffmanLength byte else table i := by
  have hpow : 2 ^ huffmanLength ≤ 2 ^ 15 := Nat.pow_le_pow_right (by norm_num) hlength
  have hhigh : huffman >>> 8 < 256 := by
    rw [Nat.shiftRight_eq_div_pow]
    omega
  have hreverse := reverse_two_bytes huffman (show huffmanLength ≤ 16 by omega)
  have hlt := reverseBits_lt huffmanLength huffman
  have hknown : reverseBits huffmanLength huffman / 2 ^ discardedBits <
      2 ^ (huffmanLength - discardedBits) := by
    rw [Nat.div_lt_iff_lt_mul (Nat.two_pow_pos _), ← pow_add,
      Nat.sub_add_cancel hdiscarded.le]
    exact hlt
  have hassert : (decide (discardedBits < huffmanLength) &&
      decide (reverseBits huffmanLength huffman < 2 ^ huffmanLength)) = true := by
    simp [hdiscarded, hlt]
  simp only [infHuffFillTable, reverseAt_of_lt (Nat.mod_lt huffman (by norm_num : 256 > 0)),
    reverseAt_of_lt hhigh, bind, Except.bind, hreverse, Nat.one_shiftLeft, hassert,
    Build.assert_true]
  rw [Nat.shiftRight_eq_div_pow, fillLoop_spec _ hknown (pow_dvd_pow 2 hexponent) hbound _ 0 table (dvd_zero _) (by simp)]
  simp only [Nat.add_zero]

/-! ### Chains of elements -/

/-- The code words of a chain. -/
def codesOf (chain : List InfSymlen) : List (ℕ × ℕ) :=
  chain.map fun element ↦ (element.symbol, element.huffmanLength)

@[simp] theorem codesOf_nil : codesOf [] = [] := rfl

@[simp] theorem codesOf_cons (element : InfSymlen) (chain : List InfSymlen) :
    codesOf (element :: chain) = (element.symbol, element.huffmanLength) :: codesOf chain := rfl

@[simp] theorem codesOf_append (first second : List InfSymlen) :
    codesOf (first ++ second) = codesOf first ++ codesOf second := by
  simp [codesOf]

theorem spanOf_codesOf_cons (element : InfSymlen) (chain : List InfSymlen) :
    spanOf maxCodeLength (codesOf (element :: chain)) =
      2 ^ (maxCodeLength - element.huffmanLength) + spanOf maxCodeLength (codesOf chain) := rfl

/-- `huffman` is the code of the first element of a chain whose intervals start at `start`. -/
def StartsAt (start huffman : ℕ) : List InfSymlen → Prop
  | [] => True
  | element :: _ => start = huffman * 2 ^ (maxCodeLength - element.huffmanLength)

/-- A chain sorted by length, of lengths from `shortest` to 15. -/
structure Ascends (shortest : ℕ) (chain : List InfSymlen) : Prop where
  sorted : chain.Pairwise fun first second ↦ first.huffmanLength ≤ second.huffmanLength
  longest : ∀ element ∈ chain, element.huffmanLength ≤ maxCodeLength
  shortest : ∀ element ∈ chain, shortest ≤ element.huffmanLength

theorem Ascends.tail {shortest : ℕ} {element : InfSymlen} {chain : List InfSymlen}
    (h : Ascends shortest (element :: chain)) : Ascends shortest chain where
  sorted := (List.pairwise_cons.mp h.sorted).2
  longest other hother := h.longest other (List.mem_cons_of_mem _ hother)
  shortest other hother := h.shortest other (List.mem_cons_of_mem _ hother)

theorem Ascends.append_right {shortest : ℕ} {first second : List InfSymlen}
    (h : Ascends shortest (first ++ second)) : Ascends shortest second where
  sorted := (List.pairwise_append.mp h.sorted).2.1
  longest element helement := h.longest element (List.mem_append_right _ helement)
  shortest element helement := h.shortest element (List.mem_append_right _ helement)

/-- Behind a first element longer than eight bits, so are the others. -/
theorem Ascends.long {element : InfSymlen} {chain : List InfSymlen}
    (h : Ascends 1 (element :: chain)) (hlong : ¬ element.huffmanLength ≤ 8) :
    Ascends 9 (element :: chain) where
  sorted := h.sorted
  longest := h.longest
  shortest other hother := by
    rcases List.mem_cons.mp hother with rfl | hother
    · omega
    · have := (List.pairwise_cons.mp h.sorted).1 other hother
      omega

/-- A chain that can still be added behind `start`: sorted, of lengths from `shortest` to 15, and
within the code space. -/
structure Fits (shortest start : ℕ) (chain : List InfSymlen) : Prop where
  sorted : chain.Pairwise fun first second ↦ first.huffmanLength ≤ second.huffmanLength
  longest : ∀ element ∈ chain, element.huffmanLength ≤ maxCodeLength
  shortest : ∀ element ∈ chain, shortest ≤ element.huffmanLength
  space : start + spanOf maxCodeLength (codesOf chain) ≤ 2 ^ maxCodeLength

theorem Fits.ascends {shortest start : ℕ} {chain : List InfSymlen} (h : Fits shortest start chain) :
    Ascends shortest chain := ⟨h.sorted, h.longest, h.shortest⟩

theorem Fits.tail {shortest start : ℕ} {element : InfSymlen} {chain : List InfSymlen}
    (h : Fits shortest start (element :: chain)) :
    Fits shortest (start + 2 ^ (maxCodeLength - element.huffmanLength)) chain where
  sorted := (List.pairwise_cons.mp h.sorted).2
  longest other hother := h.longest other (List.mem_cons_of_mem _ hother)
  shortest other hother := h.shortest other (List.mem_cons_of_mem _ hother)
  space := by
    have hspace := h.space
    rw [spanOf_codesOf_cons] at hspace
    omega

theorem StartsAt.advance {start huffman shortest : ℕ} {element : InfSymlen}
    {chain : List InfSymlen} (h : StartsAt start huffman (element :: chain))
    (hfits : Ascends shortest (element :: chain)) :
    StartsAt (start + 2 ^ (maxCodeLength - element.huffmanLength))
      (advanceCanonical huffman element chain) chain := by
  cases chain with
  | nil => exact trivial
  | cons following chain =>
    have hle := (List.pairwise_cons.mp hfits.sorted).1 following List.mem_cons_self
    have hmax := hfits.longest following (List.mem_cons_of_mem _ List.mem_cons_self)
    have hpow : 2 ^ (maxCodeLength - element.huffmanLength) =
        2 ^ (following.huffmanLength - element.huffmanLength) *
          2 ^ (maxCodeLength - following.huffmanLength) := by
      rw [← pow_add]
      congr 1
      omega
    simp only [StartsAt] at h ⊢
    rw [advanceCanonical, nextCanonical, Nat.shiftLeft_eq, h, hpow]
    ring

/-- The code of the first element fits into its length. -/
theorem StartsAt.huffman_lt {start huffman shortest : ℕ} {element : InfSymlen}
    {chain : List InfSymlen} (h : StartsAt start huffman (element :: chain))
    (hfits : Fits shortest start (element :: chain)) :
    huffman < 2 ^ element.huffmanLength := by
  have hspace := hfits.space
  have hmax := hfits.longest element List.mem_cons_self
  have hpos : 0 < 2 ^ (maxCodeLength - element.huffmanLength) := Nat.two_pow_pos _
  have hpow : 2 ^ maxCodeLength =
      2 ^ element.huffmanLength * 2 ^ (maxCodeLength - element.huffmanLength) := by
    rw [← pow_add, Nat.add_sub_cancel' hmax]
  simp only [StartsAt] at h
  rw [spanOf_codesOf_cons, hpow, h] at hspace
  exact Nat.lt_of_mul_lt_mul_right (a := 2 ^ (maxCodeLength - element.huffmanLength)) (by omega)

/-- The interval of the first element, read as an equation between codes. -/
theorem StartsAt.mem_interval_iff {start huffman value : ℕ} {element : InfSymlen}
    {chain : List InfSymlen} (h : StartsAt start huffman (element :: chain)) :
    start ≤ value ∧ value < start + 2 ^ (maxCodeLength - element.huffmanLength) ↔
      value / 2 ^ (maxCodeLength - element.huffmanLength) = huffman := by
  have hpos : 0 < 2 ^ (maxCodeLength - element.huffmanLength) := Nat.two_pow_pos _
  simp only [StartsAt] at h
  rw [Nat.div_eq_iff hpos, h]
  omega

/-! ### The main table -/

/-- The first value of the cell of the main table that an index stands for. -/
def cellStart (index : ℕ) : ℕ := reverseBits 8 index * 2 ^ 7

theorem cellStart_div {length : ℕ} (h : length ≤ 8) (index : ℕ) :
    cellStart index / 2 ^ (maxCodeLength - length) = reverseBits length index := by
  have hpow : 2 ^ (maxCodeLength - length) = 2 ^ 7 * 2 ^ (8 - length) := by
    rw [← pow_add, maxCodeLength]
    congr 1
    omega
  rw [cellStart, hpow, ← Nat.div_div_eq_div_mul, Nat.mul_div_cancel _ (by norm_num),
    reverseBits_div_pow h]

/-- The buffer has the value of its cell, up to the bits that the main table does not know. -/
theorem reverseBits_cell (bits : ℕ) : reverseBits maxCodeLength bits / 2 ^ 7 * 2 ^ 7 =
    cellStart (bits % 256) := by
  have h := reverseBits_div_pow (show 8 ≤ maxCodeLength by norm_num [maxCodeLength]) bits
  rw [show maxCodeLength - 8 = 7 from rfl] at h
  rw [h, cellStart, show (256 : ℕ) = 2 ^ 8 by norm_num, reverseBits_mod]

/-- The loop over the short lengths: where it stops, the table is right for the cells below. -/
theorem fillMainTable_spec (build : Build) (chain : List InfSymlen) :
    ∀ (start huffman : ℕ) (table : HuffTable), Fits 1 start chain → StartsAt start huffman chain →
      2 ^ 7 ∣ start →
        ∃ table' huffman' early late, fillMainTable build table huffman chain =
            .ok (table', huffman', late) ∧
          chain = early ++ late ∧
          (∀ element ∈ early, element.huffmanLength ≤ 8) ∧
          Fits 9 (start + spanOf maxCodeLength (codesOf early)) late ∧
          StartsAt (start + spanOf maxCodeLength (codesOf early)) huffman' late ∧
          2 ^ 7 ∣ start + spanOf maxCodeLength (codesOf early) ∧
          (∀ i, (256 ≤ i ∨ cellStart i < start ∨
            start + spanOf maxCodeLength (codesOf early) ≤ cellStart i) → table' i = table i) ∧
          ∀ i < 256, start ≤ cellStart i →
            cellStart i < start + spanOf maxCodeLength (codesOf early) →
              ∃ code, locate maxCodeLength start (codesOf early) (cellStart i) = some code ∧
                table' i = InfHuff.value code.2 code.1 := by
  induction chain with
  | nil =>
    intro start huffman table _ _ hdvd
    refine ⟨table, huffman, [], [], rfl, rfl, by simp, ⟨.nil, by simp, by simp, ?_⟩, trivial, by simpa,
      fun _ _ ↦ rfl, fun i _ hge hlt ↦ ?_⟩
    · simpa using (by assumption : Fits 1 start []).space
    · simp only [codesOf_nil, spanOf_nil, Nat.add_zero] at hlt
      omega
  | cons element chain ih =>
    intro start huffman table hfits hstarts hdvd
    by_cases hshort : element.huffmanLength ≤ 8
    · have hpositive := hfits.shortest element List.mem_cons_self
      have hhuffman := hstarts.huffman_lt hfits
      have hfill := infHuffFillTable_spec build table element.symbol (hshort.trans (by norm_num))
        hpositive hhuffman (show element.huffmanLength - 0 ≤ 8 by omega)
        (show 0 + 2 ^ 8 ≤ infHuffTableSize by norm_num [infHuffTableSize])
      have hdvd' : 2 ^ 7 ∣ start + 2 ^ (maxCodeLength - element.huffmanLength) :=
        dvd_add hdvd (pow_dvd_pow 2 (by simp only [maxCodeLength]; omega))
      obtain ⟨table', huffman', early, late, hrun, hsplit, hearly, hlate, hnext, haligned, hkeep,
        hright⟩ := ih _ _ _ hfits.tail (hstarts.advance hfits.ascends) hdvd'
      rw [Nat.add_assoc, ← spanOf_codesOf_cons] at hlate hnext haligned hkeep hright
      -- the entries written are those of the cells in the interval of the element
      have hwritten : ∀ i < 256, (start ≤ cellStart i ∧
          cellStart i < start + 2 ^ (maxCodeLength - element.huffmanLength) ↔
            0 ≤ i ∧ i < 0 + 2 ^ 8 ∧ (i - 0) % 2 ^ (element.huffmanLength - 0) =
              reverseBits element.huffmanLength huffman / 2 ^ 0) := by
        intro i hi
        rw [hstarts.mem_interval_iff, cellStart_div hshort, reverseBits_eq_iff hhuffman]
        simp [show i < 256 from hi]
      refine ⟨table', huffman', element :: early, late, ?_, by rw [hsplit, List.cons_append], ?_,
        hlate, hnext, haligned, ?_, ?_⟩
      · rw [fillMainTable, if_pos hshort, show infMainTableSize = 2 ^ 8 from rfl, hfill]
        exact hrun
      · intro other hother
        rcases List.mem_cons.mp hother with rfl | hother
        · exact hshort
        · exact hearly other hother
      · intro i hi
        have hwidth : 0 < 2 ^ (maxCodeLength - element.huffmanLength) := Nat.two_pow_pos _
        rw [hkeep i (by omega)]
        rcases hi with hi | hi
        · rw [if_neg (by simp only [show (2 : ℕ) ^ 8 = 256 by norm_num]; omega)]
        · by_cases hbig : 256 ≤ i
          · rw [if_neg (by simp only [show (2 : ℕ) ^ 8 = 256 by norm_num]; omega)]
          · rw [if_neg]
            rw [← hwritten i (by omega)]
            rw [spanOf_codesOf_cons] at hi
            omega
      · intro i hi hge hlt
        rw [codesOf_cons, locate]
        by_cases hin : cellStart i < start + 2 ^ (maxCodeLength - element.huffmanLength)
        · refine ⟨(element.symbol, element.huffmanLength), if_pos hin, ?_⟩
          rw [hkeep i (.inr (.inl hin)), if_pos ((hwritten i hi).mp ⟨hge, hin⟩)]
        · rw [if_neg hin]
          exact hright i hi (not_lt.mp hin) hlt
    · refine ⟨table, huffman, [], element :: chain, ?_, rfl, by simp, ⟨hfits.sorted, hfits.longest,
        (hfits.ascends.long hshort).shortest, by simpa using hfits.space⟩, by simpa using hstarts,
        by simpa, fun _ _ ↦ rfl, fun i _ hge hlt ↦ ?_⟩
      · rw [fillMainTable, if_neg hshort]
      · simp only [codesOf_nil, spanOf_nil, Nat.add_zero] at hlt
        omega

/-! ### Subtables -/

/-- The cell of the main table that a code longer than eight bits falls into. -/
theorem StartsAt.cell {start huffman : ℕ} {element : InfSymlen} {chain : List InfSymlen}
    (h : StartsAt start huffman (element :: chain)) (hlong : 8 ≤ element.huffmanLength)
    (hmax : element.huffmanLength ≤ maxCodeLength) :
    huffman >>> (element.huffmanLength - 8) = start / 2 ^ 7 := by
  have hpow : 2 ^ 7 =
      2 ^ (maxCodeLength - element.huffmanLength) * 2 ^ (element.huffmanLength - 8) := by
    rw [← pow_add]
    congr 1
    simp only [maxCodeLength] at hmax ⊢
    omega
  simp only [StartsAt] at h
  rw [h, hpow, ← Nat.div_div_eq_div_mul, Nat.mul_div_cancel _ (Nat.two_pow_pos _),
    Nat.shiftRight_eq_div_pow]

/-- The interval of a code longer than eight bits does not leave its cell. -/
theorem StartsAt.within_cell {start huffman : ℕ} {element : InfSymlen} {chain : List InfSymlen}
    (h : StartsAt start huffman (element :: chain)) (hlong : 8 ≤ element.huffmanLength) :
    start + 2 ^ (maxCodeLength - element.huffmanLength) ≤ (start / 2 ^ 7 + 1) * 2 ^ 7 := by
  have hdvd : 2 ^ (maxCodeLength - element.huffmanLength) ∣ 2 ^ 7 :=
    pow_dvd_pow 2 (by simp only [maxCodeLength]; omega)
  obtain ⟨parts, hparts⟩ := hdvd
  have hlt : start < (start / 2 ^ 7 + 1) * 2 ^ 7 := by omega
  generalize start / 2 ^ 7 + 1 = next at hlt ⊢
  simp only [StartsAt] at h
  have hcell : next * 2 ^ 7 = next * parts * 2 ^ (maxCodeLength - element.huffmanLength) := by
    rw [hparts]
    ring
  rw [hcell, h] at hlt ⊢
  rw [← Nat.succ_mul]
  exact Nat.mul_le_mul_right _ (Nat.lt_of_mul_lt_mul_right hlt)

/-- What the look-ahead finds: the elements of one cell, which is full unless they are the last. -/
structure SpanOk (start index : ℕ) (chain : List InfSymlen) (span : SubtableSpan) : Prop where
  split : chain = span.members ++ span.remaining
  lastLe : ∀ element ∈ span.members, element.huffmanLength ≤ span.lastLength
  lastMem : ∃ element ∈ span.members, element.huffmanLength = span.lastLength
  starts : StartsAt (start + spanOf maxCodeLength (codesOf span.members)) span.nextHuffman
    span.remaining
  within : start + spanOf maxCodeLength (codesOf span.members) ≤ (index + 1) * 2 ^ 7
  full : span.remaining ≠ [] →
    start + spanOf maxCodeLength (codesOf span.members) = (index + 1) * 2 ^ 7

theorem spanSubtable_spec (chain : List InfSymlen) :
    ∀ (start huffman index : ℕ), chain ≠ [] → Ascends 9 chain → StartsAt start huffman chain →
      start / 2 ^ 7 = index → SpanOk start index chain (spanSubtable index huffman chain) := by
  induction chain with
  | nil => intro start huffman index h; exact absurd rfl h
  | cons element chain ih =>
    intro start huffman index _ hfits hstarts hindex
    have hlong := hfits.shortest element List.mem_cons_self
    have hwithin := hstarts.within_cell (by omega)
    rw [hindex] at hwithin
    have hadvance := hstarts.advance hfits
    cases chain with
    | nil =>
      exact ⟨rfl, by simp [spanSubtable], ⟨element, by simp [spanSubtable]⟩, trivial,
        by simpa [spanSubtable] using hwithin, by simp [spanSubtable]⟩
    | cons following next =>
      rw [advanceCanonical] at hadvance
      have hmem : following ∈ element :: following :: next :=
        List.mem_cons_of_mem _ List.mem_cons_self
      have hcell := hadvance.cell (by have := hfits.shortest following hmem; omega)
        (hfits.longest following hmem)
      by_cases hsame : nextCanonical huffman element.huffmanLength following.huffmanLength >>>
          (following.huffmanLength - 8) = index
      · have hspan := ih _ _ index (by simp) hfits.tail hadvance (hcell.symm.trans hsame)
        rw [spanSubtable, if_pos hsame]
        obtain ⟨last, hlast, hlength⟩ := hspan.lastMem
        have hle : element.huffmanLength ≤ last.huffmanLength := by
          refine (List.pairwise_cons.mp hfits.sorted).1 last ?_
          rw [hspan.split]
          exact List.mem_append_left _ hlast
        refine ⟨by rw [List.cons_append, ← hspan.split], ?_, ⟨last, List.mem_cons_of_mem _ hlast,
          hlength⟩, ?_, ?_, ?_⟩
        · intro other hother
          rcases List.mem_cons.mp hother with rfl | hother
          · exact hlength ▸ hle
          · exact hspan.lastLe other hother
        all_goals simp only [spanOf_codesOf_cons, ← Nat.add_assoc]
        · exact hspan.starts
        · exact hspan.within
        · exact hspan.full
      · rw [spanSubtable, if_neg hsame]
        refine ⟨rfl, by simp, ⟨element, by simp⟩, by simpa using hadvance, by simpa using hwithin,
          fun _ ↦ ?_⟩
        -- the next code lies in another cell, so this one is used up
        rw [hcell] at hsame
        simp only [codesOf_cons, codesOf_nil, spanOf_cons, spanOf_nil, Nat.add_zero]
        have hwidth : 0 < 2 ^ (maxCodeLength - element.huffmanLength) := Nat.two_pow_pos _
        omega

/-- On the buffers of one cell, the entries that an element fills are those of its interval. -/
theorem StartsAt.subtable_index_iff {start huffman bits exponent : ℕ} {element : InfSymlen}
    {chain : List InfSymlen} (h : StartsAt start huffman (element :: chain))
    (hlong : 8 < element.huffmanLength) (hmax : element.huffmanLength ≤ maxCodeLength)
    (hhuffman : huffman < 2 ^ element.huffmanLength)
    (hexponent : element.huffmanLength - 8 ≤ exponent)
    (hcell : reverseBits maxCodeLength bits / 2 ^ 7 = start / 2 ^ 7) :
    bits / 2 ^ 8 % 2 ^ exponent % 2 ^ (element.huffmanLength - 8) =
        reverseBits element.huffmanLength huffman / 2 ^ 8 ↔
      start ≤ reverseBits maxCodeLength bits ∧
        reverseBits maxCodeLength bits < start + 2 ^ (maxCodeLength - element.huffmanLength) := by
  have hsum : element.huffmanLength = 8 + (element.huffmanLength - 8) := by omega
  have hpow : 2 ^ element.huffmanLength = 2 ^ 8 * 2 ^ (element.huffmanLength - 8) := by
    rw [← pow_add, ← hsum]
  rw [h.mem_interval_iff, reverseBits_div_pow hmax, reverseBits_eq_iff hhuffman,
    Nat.mod_mod_of_dvd _ (pow_dvd_pow 2 hexponent)]
  -- the low eight bits agree because both lie in the cell
  have hindex := h.cell hlong.le hmax
  have hindexlt : huffman >>> (element.huffmanLength - 8) < 2 ^ 8 := by
    rw [Nat.shiftRight_eq_div_pow, Nat.div_lt_iff_lt_mul (Nat.two_pow_pos _), ← hpow]
    exact hhuffman
  have hlow : bits % 2 ^ 8 = reverseBits element.huffmanLength huffman % 2 ^ 8 := by
    have hbits : reverseBits 8 bits = huffman >>> (element.huffmanLength - 8) := by
      rw [hindex, ← hcell]
      exact (reverseBits_div_pow (show 8 ≤ maxCodeLength by norm_num [maxCodeLength])
        bits).symm
    rw [(reverseBits_eq_iff hindexlt).mp hbits]
    have hsplit := reverseBits_add (element.huffmanLength - 8) 8 huffman
    rw [Nat.sub_add_cancel hlong.le] at hsplit
    rw [hsplit, Nat.mul_add_mod', Nat.mod_eq_of_lt (reverseBits_lt 8 _),
      Nat.shiftRight_eq_div_pow]
  have hbits : bits % 2 ^ element.huffmanLength =
      bits % 2 ^ 8 + 2 ^ 8 * (bits / 2 ^ 8 % 2 ^ (element.huffmanLength - 8)) := by
    rw [hpow, Nat.mod_mul]
  have hcode := Nat.mod_add_div (reverseBits element.huffmanLength huffman) (2 ^ 8)
  rw [hbits, hlow]
  constructor
  · intro heq
    rw [heq, hcode]
  · intro heq
    omega

/-- The place in a subtable at `base` that a buffer is looked up at. -/
def subtableSlot (base exponent bits : ℕ) : ℕ := base + bits / 2 ^ 8 % 2 ^ exponent

/-- The loop over the members of one subtable: it is right for the buffers in their intervals. -/
theorem fillSubtable_spec (build : Build) {base exponent index : ℕ}
    (hbound : base + 2 ^ exponent ≤ infHuffTableSize) (members : List InfSymlen) :
    ∀ (start huffman : ℕ) (table : HuffTable), Fits 9 start members →
      StartsAt start huffman members → (∀ element ∈ members, element.huffmanLength - 8 ≤ exponent) →
        index * 2 ^ 7 ≤ start →
          start + spanOf maxCodeLength (codesOf members) ≤ (index + 1) * 2 ^ 7 →
            ∃ table', fillSubtable build base (2 ^ exponent) table huffman members = .ok table' ∧
              (∀ i, (i < base ∨ base + 2 ^ exponent ≤ i) → table' i = table i) ∧
              ∀ bits, reverseBits maxCodeLength bits / 2 ^ 7 = index →
                ((reverseBits maxCodeLength bits < start ∨
                    start + spanOf maxCodeLength (codesOf members) ≤
                      reverseBits maxCodeLength bits) →
                  table' (subtableSlot base exponent bits) =
                    table (subtableSlot base exponent bits)) ∧
                (start ≤ reverseBits maxCodeLength bits →
                  reverseBits maxCodeLength bits <
                    start + spanOf maxCodeLength (codesOf members) →
                      ∃ code, locate maxCodeLength start (codesOf members)
                          (reverseBits maxCodeLength bits) = some code ∧
                        table' (subtableSlot base exponent bits) =
                          InfHuff.value code.2 code.1) := by
  induction members with
  | nil =>
    intro start huffman table _ _ _ _ _
    refine ⟨table, rfl, fun _ _ ↦ rfl, fun bits _ ↦ ⟨fun _ ↦ rfl, fun hge hlt ↦ ?_⟩⟩
    simp only [codesOf_nil, spanOf_nil, Nat.add_zero] at hlt
    omega
  | cons element members ih =>
    intro start huffman table hfits hstarts hexponent hge hle
    have hlong := hfits.shortest element List.mem_cons_self
    have hmax := hfits.longest element List.mem_cons_self
    have hmax15 : element.huffmanLength ≤ 15 := hmax
    have hhuffman := hstarts.huffman_lt hfits
    have hwidth : 0 < 2 ^ (maxCodeLength - element.huffmanLength) := Nat.two_pow_pos _
    have hexponent' := hexponent element List.mem_cons_self
    have hfill := infHuffFillTable_spec build table element.symbol hmax15
      (show 8 < element.huffmanLength by omega) hhuffman hexponent' hbound
    rw [spanOf_codesOf_cons] at hle
    obtain ⟨table', hrun, hkeep, hright⟩ := ih _ _ _ hfits.tail (hstarts.advance hfits.ascends)
      (fun other hother ↦ hexponent other (List.mem_cons_of_mem _ hother)) (by omega)
      (by rw [Nat.add_assoc]; exact hle)
    rw [Nat.add_assoc, ← spanOf_codesOf_cons] at hright
    have hslot : ∀ bits, subtableSlot base exponent bits < base + 2 ^ exponent := by
      intro bits
      have := Nat.mod_lt (bits / 2 ^ 8) (Nat.two_pow_pos exponent)
      simp only [subtableSlot]
      omega
    have hcell : start / 2 ^ 7 = index := by
      rw [Nat.div_eq_iff (by norm_num)]
      omega
    -- the entry written by this element, seen from a buffer of the cell
    have hwritten : ∀ bits, reverseBits maxCodeLength bits / 2 ^ 7 = index →
        (start ≤ reverseBits maxCodeLength bits ∧ reverseBits maxCodeLength bits <
          start + 2 ^ (maxCodeLength - element.huffmanLength) ↔
            base ≤ subtableSlot base exponent bits ∧
              subtableSlot base exponent bits < base + 2 ^ exponent ∧
                (subtableSlot base exponent bits - base) % 2 ^ (element.huffmanLength - 8) =
                  reverseBits element.huffmanLength huffman / 2 ^ 8) := by
      intro bits hbits
      rw [← hstarts.subtable_index_iff (by omega) hmax hhuffman hexponent' (hbits.trans hcell.symm)]
      simp only [hslot bits, true_and]
      rw [subtableSlot, Nat.add_sub_cancel_left]
      simp
    refine ⟨table', ?_, ?_, fun bits hbits ↦ ⟨fun hout ↦ ?_, fun hin hin' ↦ ?_⟩⟩
    · rw [fillSubtable, hfill]
      exact hrun
    · intro i hi
      rw [hkeep i hi, if_neg (by omega)]
    · rw [spanOf_codesOf_cons] at hout
      rw [(hright bits hbits).1 (by rw [spanOf_codesOf_cons]; omega), if_neg]
      rw [← hwritten bits hbits]
      omega
    · rw [codesOf_cons, locate]
      by_cases hfirst : reverseBits maxCodeLength bits <
          start + 2 ^ (maxCodeLength - element.huffmanLength)
      · refine ⟨(element.symbol, element.huffmanLength), if_pos hfirst, ?_⟩
        rw [(hright bits hbits).1 (.inl hfirst), if_pos ((hwritten bits hbits).mp ⟨hin, hfirst⟩)]
      · rw [if_neg hfirst]
        exact (hright bits hbits).2 (not_lt.mp hfirst) hin'

theorem spanOf_same_length {length : ℕ} (chain : List InfSymlen)
    (h : ∀ element ∈ chain, element.huffmanLength = length) :
    spanOf maxCodeLength (codesOf chain) = chain.length * 2 ^ (maxCodeLength - length) := by
  induction chain with
  | nil => simp
  | cons element chain ih =>
    rw [spanOf_codesOf_cons, ih fun other hother ↦ h other (List.mem_cons_of_mem _ hother),
      h element List.mem_cons_self, List.length_cons]
    ring

/-- Room for the subtables of a chain behind `subtableIndex`: as many entries as codes, and a
largest subtable for every growth of the length and for the last cell. -/
def Room (subtableIndex : ℕ) : List InfSymlen → Prop
  | [] => True
  | element :: chain =>
    subtableIndex + (chain.length + 1) + 2 ^ 7 * (maxCodeLength - element.huffmanLength) + 2 ^ 7 ≤
      infHuffTableSize

/-- Behind the main table there is room for the codes of every list. -/
theorem room_of_ascends {chain : List InfSymlen} (h : Ascends 9 chain) (hlength : chain.length ≤ 291) :
    Room infMainTableSize chain := by
  cases chain with
  | nil => exact trivial
  | cons element chain =>
    have hlong := h.shortest element List.mem_cons_self
    rw [List.length_cons] at hlength
    simp only [Room, infMainTableSize, infHuffTableSize, maxCodeLength]
    omega

/-- A subtable fits into the room, and leaves room for the subtables behind it. -/
theorem SpanOk.room {start index subtableIndex : ℕ} {element : InfSymlen} {chain : List InfSymlen}
    {span : SubtableSpan} (hspan : SpanOk start index (element :: chain) span)
    (hfits : Ascends 9 (element :: chain)) (hstart : start = index * 2 ^ 7)
    (hroom : Room subtableIndex (element :: chain)) :
    subtableIndex + 2 ^ (span.lastLength - 8) ≤ infHuffTableSize ∧
      Room (subtableIndex + 2 ^ (span.lastLength - 8)) span.remaining := by
  obtain ⟨last, hlast, hlength⟩ := hspan.lastMem
  have hlastMem : last ∈ element :: chain := by
    rw [hspan.split]
    exact List.mem_append_left _ hlast
  have hlong := hfits.shortest last hlastMem
  have hmax := hfits.longest last hlastMem
  have hsize : 2 ^ (span.lastLength - 8) ≤ 2 ^ 7 :=
    Nat.pow_le_pow_right (by norm_num) (by simp only [maxCodeLength] at hmax; omega)
  simp only [Room] at hroom
  refine ⟨by omega, ?_⟩
  cases hremaining : span.remaining with
  | nil => exact trivial
  | cons following next =>
    have hsplit := hspan.split
    rw [hremaining] at hsplit
    have hcount : chain.length + 1 = span.members.length + (next.length + 1) := by
      simpa using congrArg List.length hsplit
    have hfollowing : following ∈ element :: chain := by
      rw [hsplit]
      exact List.mem_append_right _ List.mem_cons_self
    have hfollowingMax := hfits.longest following hfollowing
    have hsorted := hfits.sorted
    rw [hsplit, List.pairwise_append] at hsorted
    have hgrow := hsorted.2.2 last hlast following List.mem_cons_self
    have hhead : ∀ member ∈ span.members, element.huffmanLength ≤ member.huffmanLength := by
      intro member hmember
      have hmem : member ∈ element :: chain := by
        rw [hspan.split]
        exact List.mem_append_left _ hmember
      rcases List.mem_cons.mp hmem with rfl | hmem
      · exact le_rfl
      · exact (List.pairwise_cons.mp hfits.sorted).1 member hmem
    simp only [Room]
    rcases Nat.eq_or_lt_of_le (hhead last hlast) with heq | hlonger
    · -- all members have one length, and their intervals fill the cell
      have hsame : ∀ member ∈ span.members, member.huffmanLength = element.huffmanLength := by
        intro member hmember
        have := hhead member hmember
        have := hspan.lastLe member hmember
        omega
      have hfull := hspan.full (by rw [hremaining]; simp)
      rw [spanOf_same_length _ hsame, hstart, Nat.add_mul, Nat.one_mul] at hfull
      have hwidth : span.members.length * 2 ^ (maxCodeLength - element.huffmanLength) = 2 ^ 7 :=
        Nat.add_left_cancel hfull
      have hpow : 2 ^ 7 = 2 ^ (element.huffmanLength - 8) *
          2 ^ (maxCodeLength - element.huffmanLength) := by
        rw [← pow_add]
        congr 1
        simp only [maxCodeLength] at hmax ⊢
        omega
      rw [hpow] at hwidth
      have hmembers := Nat.mul_right_cancel (Nat.two_pow_pos _) hwidth
      rw [← hlength, ← heq]
      have hmono : 2 ^ 7 * (maxCodeLength - following.huffmanLength) ≤
          2 ^ 7 * (maxCodeLength - element.huffmanLength) := Nat.mul_le_mul_left _ (by omega)
      omega
    · have hmono : 2 ^ 7 * (maxCodeLength - following.huffmanLength) + 2 ^ 7 ≤
          2 ^ 7 * (maxCodeLength - element.huffmanLength) := by
        rw [← Nat.mul_succ]
        exact Nat.mul_le_mul_left _ (by omega)
      omega

theorem Fits.append_left {shortest start : ℕ} {first second : List InfSymlen}
    (h : Fits shortest start (first ++ second)) : Fits shortest start first where
  sorted := (List.pairwise_append.mp h.sorted).1
  longest element helement := h.longest element (List.mem_append_left _ helement)
  shortest element helement := h.shortest element (List.mem_append_left _ helement)
  space := by
    have hspace := h.space
    rw [codesOf_append, spanOf_append] at hspace
    omega

theorem Fits.append_right {shortest start : ℕ} {first second : List InfSymlen}
    (h : Fits shortest start (first ++ second)) :
    Fits shortest (start + spanOf maxCodeLength (codesOf first)) second where
  sorted := (List.pairwise_append.mp h.sorted).2.1
  longest element helement := h.longest element (List.mem_append_right _ helement)
  shortest element helement := h.shortest element (List.mem_append_right _ helement)
  space := by
    have hspace := h.space
    rw [codesOf_append, spanOf_append] at hspace
    omega

theorem cellStart_reverse {index : ℕ} (h : index < 2 ^ 8) :
    cellStart (reverseBits 8 index) = index * 2 ^ 7 := by
  rw [cellStart, reverseBits_reverseBits 8 index h]

/-- The look-up of a buffer whose cell holds a reference to a subtable. -/
theorem infHuffDecode_tableRef {table : HuffTable} {bits base exponent : ℕ} {entry : InfHuff}
    (hbound : base + 2 ^ exponent ≤ infHuffTableSize)
    (hmain : table (bits % 256) = InfHuff.tableRef base (2 ^ exponent - 1))
    (hslot : table (subtableSlot base exponent bits) = entry) :
    infHuffDecode table bits = .ok entry := by
  have hlt := Nat.mod_lt (bits / 2 ^ 8) (Nat.two_pow_pos exponent)
  have hindex : base + ((bits >>> 8) &&& (2 ^ exponent - 1)) = subtableSlot base exponent bits := by
    rw [Nat.and_two_pow_sub_one_eq_mod, Nat.shiftRight_eq_div_pow, subtableSlot]
  simp only [infHuffDecode, hmain, InfHuff.tableRef, InfHuff.index, InfHuff.mask,
    Bool.false_eq_true, if_false, hindex, HuffTable.get, hslot]
  rw [if_pos]
  simp only [subtableSlot]
  omega

/-- The loop over the subtables: the table becomes right for the values of the chain, and keeps what
it held for the values below and in the cells behind. -/
theorem makeSubtables_spec (build : Build) (fuel : ℕ) :
    ∀ (chain : List InfSymlen) (subtableIndex start huffman : ℕ) (table : HuffTable),
      chain.length ≤ fuel → Fits 9 start chain → StartsAt start huffman chain →
        (chain ≠ [] → 2 ^ 7 ∣ start) → Room subtableIndex chain → 256 ≤ subtableIndex →
          ∃ table', makeSubtables build fuel table subtableIndex huffman chain = .ok table' ∧
            (∀ i, 256 ≤ i → i < subtableIndex → table' i = table i) ∧
            (∀ i < 256, (cellStart i < start ∨
              start + spanOf maxCodeLength (codesOf chain) ≤ cellStart i) → table' i = table i) ∧
            ∀ bits, start ≤ reverseBits maxCodeLength bits →
              reverseBits maxCodeLength bits < start + spanOf maxCodeLength (codesOf chain) →
                ∃ code, locate maxCodeLength start (codesOf chain)
                    (reverseBits maxCodeLength bits) = some code ∧
                  infHuffDecode table' bits = .ok (InfHuff.value code.2 code.1) := by
  induction fuel with
  | zero =>
    intro chain subtableIndex start huffman table hfuel _ _ _ _ _
    obtain rfl := List.length_eq_zero_iff.mp (Nat.le_zero.mp hfuel)
    refine ⟨table, rfl, fun _ _ _ ↦ rfl, fun _ _ _ ↦ rfl, fun bits hge hlt ↦ ?_⟩
    simp only [codesOf_nil, spanOf_nil, Nat.add_zero] at hlt
    omega
  | succ fuel ih =>
    intro chain subtableIndex start huffman table hfuel hfits hstarts hdvd hroom hindex256
    cases chain with
    | nil =>
      refine ⟨table, rfl, fun _ _ _ ↦ rfl, fun _ _ _ ↦ rfl, fun bits hge hlt ↦ ?_⟩
      simp only [codesOf_nil, spanOf_nil, Nat.add_zero] at hlt
      omega
    | cons element next =>
      have hlong := hfits.shortest element List.mem_cons_self
      have hmax := hfits.longest element List.mem_cons_self
      have hstart : start = start / 2 ^ 7 * 2 ^ 7 :=
        (Nat.div_mul_cancel (hdvd (List.cons_ne_nil _ _))).symm
      have hcell := hstarts.cell (by omega) hmax
      have hspan := spanSubtable_spec (element :: next) start huffman _ (List.cons_ne_nil _ _)
        hfits.ascends hstarts rfl
      have hroom' := hspan.room hfits.ascends hstart hroom
      have hcellLt : start / 2 ^ 7 < 2 ^ 8 := by
        have hspace := hfits.space
        have hwidth : 0 < 2 ^ (maxCodeLength - element.huffmanLength) := Nat.two_pow_pos _
        rw [spanOf_codesOf_cons, maxCodeLength] at hspace
        rw [maxCodeLength] at hwidth
        omega
      rw [makeSubtables]
      simp only [hcell]
      generalize hvalue : spanSubtable (start / 2 ^ 7) huffman (element :: next) = span at hspan hroom'
      generalize start / 2 ^ 7 = index at *
      obtain ⟨hsize, hroomRest⟩ := hroom'
      have hsplit := hspan.split
      rw [hsplit] at hfits hfuel
      -- the members start with the first element of the chain
      have hmembers : StartsAt start huffman span.members := by
        obtain ⟨last, hlast, -⟩ := hspan.lastMem
        cases hm : span.members with
        | nil => rw [hm] at hlast; exact absurd hlast List.not_mem_nil
        | cons first others =>
          rw [hm, List.cons_append] at hsplit
          injection hsplit with hfirst _
          rw [← hfirst]
          exact hstarts
      have hnonempty : 0 < span.members.length := by
        obtain ⟨last, hlast, -⟩ := hspan.lastMem
        exact List.length_pos_of_mem hlast
      have hset : ∀ data, table.set (reverseBits 8 index) data =
          .ok fun i ↦ if i = reverseBits 8 index then data else table i := by
        intro data
        have := reverseBits_lt 8 index
        rw [HuffTable.set, if_pos (by simp only [infHuffTableSize]; omega)]
      simp only [reverseAt_of_lt hcellLt, hset, bind, Except.bind, Nat.one_shiftLeft,
        decide_eq_true hsize, Build.assert_true]
      generalize hentries : (fun i ↦ if i = reverseBits 8 index then
        InfHuff.tableRef subtableIndex (2 ^ (span.lastLength - 8) - 1) else table i) = referred
      obtain ⟨filled, hfill, hkeepFill, hrightFill⟩ := fillSubtable_spec build hsize span.members start
        huffman referred hfits.append_left hmembers
        (fun member hmember ↦ Nat.sub_le_sub_right (hspan.lastLe member hmember) 8) hstart.ge
        hspan.within
      rw [hfill]
      simp only
      have hlength : span.remaining.length ≤ fuel := by
        rw [List.length_append] at hfuel
        omega
      have hsubtable := Nat.two_pow_pos (span.lastLength - 8)
      obtain ⟨table', hrun, hkeep, hkeepMain, hright⟩ := ih span.remaining _ _ _ filled hlength
        hfits.append_right hspan.starts (fun h ↦ by rw [hspan.full h]; exact Dvd.intro_left _ rfl)
        hroomRest (by omega)
      have hpositive : 0 < spanOf maxCodeLength (codesOf span.members) := by
        cases hm : span.members with
        | nil => rw [hm] at hnonempty; exact absurd hnonempty (lt_irrefl 0)
        | cons first others =>
          rw [spanOf_codesOf_cons]
          exact Nat.add_pos_left (Nat.two_pow_pos _) _
      have hslotLt := reverseBits_lt 8 index
      have hslotCell := cellStart_reverse hcellLt
      refine ⟨table', hrun, ?_, ?_, ?_⟩
      · intro i hi hi'
        rw [hkeep i hi (by omega), hkeepFill i (.inl hi'), ← hentries]
        exact if_neg (by omega)
      · intro i hi hi'
        rw [hsplit, codesOf_append, spanOf_append] at hi'
        rw [hkeepMain i hi (by omega), hkeepFill i (.inl (by omega)), ← hentries]
        refine if_neg fun h ↦ ?_
        rw [h, hslotCell] at hi'
        omega
      · intro bits hge hlt
        rw [hsplit, codesOf_append, locate_append _ _ _ _ _ hge]
        rw [hsplit, codesOf_append, spanOf_append] at hlt
        by_cases hin : reverseBits maxCodeLength bits <
            start + spanOf maxCodeLength (codesOf span.members)
        · -- the buffer belongs to this cell: follow the reference
          have hwithin := hspan.within
          have hbits : reverseBits maxCodeLength bits / 2 ^ 7 = index := by
            rw [Nat.div_eq_iff (by norm_num)]
            omega
          obtain ⟨code, hlocate, hslot⟩ := (hrightFill bits hbits).2 hge hin
          have hmainIndex : bits % 256 = reverseBits 8 index := by
            have hdiv := reverseBits_div_pow
              (show 8 ≤ maxCodeLength by norm_num [maxCodeLength]) bits
            rw [show maxCodeLength - 8 = 7 from rfl, hbits] at hdiv
            exact (reverseBits_eq_iff hcellLt).mp hdiv.symm
          have hmain : table' (bits % 256) =
              InfHuff.tableRef subtableIndex (2 ^ (span.lastLength - 8) - 1) := by
            rw [hmainIndex, hkeepMain _ hslotLt (.inl (by rw [hslotCell]; omega)),
              hkeepFill _ (.inl (by omega)), ← hentries]
            exact if_pos rfl
          refine ⟨code, by rw [if_pos hin, hlocate], infHuffDecode_tableRef hsize hmain ?_⟩
          have hmod := Nat.mod_lt (bits / 2 ^ 8) (Nat.two_pow_pos (span.lastLength - 8))
          rw [← hslot]
          exact hkeep _ (by simp only [subtableSlot]; omega) (by simp only [subtableSlot]; omega)
        · obtain ⟨code, hlocate, hdecode⟩ := hright bits (not_lt.mp hin) (by omega)
          exact ⟨code, by rw [if_neg hin, hlocate], hdecode⟩

/-! ### The decoder -/

/-- A chain that `infHuffMakeDecoder` can turn into a table; a symbol-length list has 291
elements. -/
structure Buildable (chain : List InfSymlen) : Prop where
  nonempty : chain ≠ []
  fits : Fits 1 0 chain
  length_le : chain.length ≤ 291

/-- `infHuffMakeDecoder` builds a table, without leaving it, that maps every buffer in the interval
of a code word to that code word; the cells behind the last code word are marked as invalid. -/
theorem infHuffMakeDecoder_spec (build : Build) (table : HuffTable) {chain : List InfSymlen}
    (h : Buildable chain) :
    ∃ table', infHuffMakeDecoder build table chain = .ok table' ∧
      (∀ bits code, locate maxCodeLength 0 (codesOf chain) (reverseBits maxCodeLength bits) =
        some code → infHuffDecode table' bits = .ok (InfHuff.value code.2 code.1)) ∧
      ∀ i < 256, spanOf maxCodeLength (codesOf chain) ≤ cellStart i →
        table' i = InfHuff.value infInvalidLength 0 := by
  have hstarts : StartsAt 0 0 chain := by
    cases chain with
    | nil => exact trivial
    | cons element chain => exact (Nat.zero_mul _).symm
  have hnonempty : (decide (chain ≠ [])) = true := decide_eq_true h.nonempty
  simp only [infHuffMakeDecoder, hnonempty, Build.assert_true, bind, Except.bind, h.nonempty,
    if_false]
  have hreset : ∀ i < 256, (fun i ↦ if i < infMainTableSize then InfHuff.value infInvalidLength 0
      else table i : HuffTable) i = InfHuff.value infInvalidLength 0 := fun i hi ↦ if_pos hi
  generalize (fun i ↦ if i < infMainTableSize then InfHuff.value infInvalidLength 0 else table i :
    HuffTable) = reset at hreset
  obtain ⟨main, huffman, early, late, hrun, hsplit, hearly, hlate, hnext, hdvd, hkeep, hright⟩ :=
    fillMainTable_spec build chain 0 0 reset h.fits hstarts (dvd_zero _)
  rw [Nat.zero_add] at hlate hnext hdvd hright
  have hroom : Room infMainTableSize late := by
    have hlength := h.length_le
    rw [hsplit, List.length_append] at hlength
    exact room_of_ascends hlate.ascends (by omega)
  obtain ⟨table', hmake, -, hkeepMain, hrightLate⟩ := makeSubtables_spec build late.length late
    infMainTableSize _ huffman main le_rfl hlate hnext (fun _ ↦ hdvd) hroom le_rfl
  refine ⟨table', ?_, ?_, ?_⟩
  · rw [hrun]
    exact hmake
  rotate_left
  · intro i hi hbehind
    rw [hsplit, codesOf_append, spanOf_append] at hbehind
    rw [hkeepMain i hi (.inr hbehind), hkeep i (.inr (.inr (by omega))), hreset i hi]
  · intro bits code hlocate
    have hcellEq := reverseBits_cell bits
    rw [hsplit, codesOf_append, locate_append _ _ _ _ _ (Nat.zero_le _), Nat.zero_add] at hlocate
    by_cases hin : reverseBits maxCodeLength bits < spanOf maxCodeLength (codesOf early)
    · -- a short code: its whole cell belongs to one code word
      rw [if_pos hin] at hlocate
      have hcellLe : cellStart (bits % 256) ≤ reverseBits maxCodeLength bits := by
        rw [← hcellEq]
        exact Nat.div_mul_le_self _ _
      obtain ⟨code', hlocate', hentry⟩ := hright (bits % 256) (Nat.mod_lt _ (by norm_num))
        (Nat.zero_le _) (by omega)
      have hmem := locate_mem _ _ hlocate'
      have hshort : code'.2 ≤ 8 := by
        obtain ⟨element, helement, rfl⟩ := List.mem_map.mp hmem
        exact hearly element helement
      have haligned : Aligned maxCodeLength 0 (codesOf early) := by
        refine ⟨?_, fun _ _ ↦ dvd_zero _⟩
        have hsorted := h.fits.sorted
        rw [hsplit, List.pairwise_append] at hsorted
        exact List.pairwise_map.mpr hsorted.1
      have hsame := locate_congr _ 0 haligned (Nat.zero_le _)
        (Nat.zero_le (reverseBits maxCodeLength bits)) hlocate' (by
          rw [cellStart_div hshort, reverseBits_div_pow (hshort.trans (by norm_num [maxCodeLength])),
            ← reverseBits_mod code'.2 (bits % 256), show (256 : ℕ) = 2 ^ 8 by norm_num,
            Nat.mod_mod_of_dvd _ (pow_dvd_pow 2 hshort), reverseBits_mod])
      rw [hlocate] at hsame
      injection hsame with hsame
      subst hsame
      have hmain : table' (bits % 256) = InfHuff.value code.2 code.1 := by
        rw [hkeepMain _ (Nat.mod_lt _ (by norm_num)) (.inl (by omega)), hentry]
      simp only [infHuffDecode, hmain, InfHuff.value, if_true]
    · rw [if_neg hin] at hlocate
      have hsome : (locate maxCodeLength (spanOf maxCodeLength (codesOf early)) (codesOf late)
          (reverseBits maxCodeLength bits)).isSome := by rw [hlocate]; rfl
      rw [locate_isSome_iff _ _ _ _ (not_lt.mp hin)] at hsome
      obtain ⟨code', hlocate', hdecode⟩ := hrightLate bits (not_lt.mp hin) hsome
      rw [hlocate] at hlocate'
      injection hlocate' with hlocate'
      rw [hlocate']
      exact hdecode

end ZephyrThrift.Muzic
