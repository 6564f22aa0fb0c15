import ZephyrThrift.Foundation.BitList

/-!
# Canonical prefix codes

RFC 1951, 3.2.2: a prefix code is given by the code lengths of its symbols; the codes of one length
are consecutive, and shorter codes come before longer ones. `canonicalCode` is the algorithm of the
RFC, with `firstCode` its `next_code`.

On the scale of `2 ^ maxBits` the code word of a symbol covers an interval of values, and listed by
length and symbol (`sortedCodes`) these intervals follow each other without a gap. `locate` finds
the symbol whose interval holds a value; `locate_sortedCodes` says that it finds every symbol from
its canonical code, which is all that a table-driven decoder has to reproduce. Prefix freeness is a
consequence: a value lies in one interval.
-/

set_option autoImplicit false
set_option relaxedAutoImplicit false

namespace ZephyrThrift.Foundation

/-- The code length of a symbol; zero, also beyond the list, for a symbol without a code. -/
def lengthAt (lengths : List ℕ) (symbol : ℕ) : ℕ := lengths.getD symbol 0

/-- RFC 1951, 3.2.2, step 1: the number of codes of a length. -/
def lengthCount (lengths : List ℕ) (length : ℕ) : ℕ :=
  if length = 0 then 0 else lengths.count length

/-- RFC 1951, 3.2.2, step 2: the smallest code of a length. -/
def firstCode (lengths : List ℕ) : ℕ → ℕ
  | 0 => 0
  | length + 1 => (firstCode lengths length + lengthCount lengths length) * 2

/-- RFC 1951, 3.2.2, step 3: consecutive codes for the symbols of one length. -/
def canonicalCode (lengths : List ℕ) (symbol : ℕ) : ℕ :=
  firstCode lengths (lengthAt lengths symbol) +
    (lengths.take symbol).count (lengthAt lengths symbol)

/-- The code word of a symbol, most significant bit first. -/
def codeWord (lengths : List ℕ) (symbol : ℕ) : List Bool :=
  (bitsOf (lengthAt lengths symbol) (canonicalCode lengths symbol)).reverse

/-- The Kraft sum on the scale of `2 ^ maxBits`. -/
def kraftSum (maxBits : ℕ) (lengths : List ℕ) : ℕ :=
  (lengths.map fun length ↦ if length = 0 then 0 else 2 ^ (maxBits - length)).sum

/-- Code lengths of at most `maxBits` that satisfy the Kraft inequality. -/
def KraftLe (maxBits : ℕ) (lengths : List ℕ) : Prop :=
  (∀ length ∈ lengths, length ≤ maxBits) ∧ kraftSum maxBits lengths ≤ 2 ^ maxBits

instance (maxBits : ℕ) (lengths : List ℕ) : Decidable (KraftLe maxBits lengths) :=
  inferInstanceAs (Decidable (_ ∧ _))

@[simp] theorem length_codeWord (lengths : List ℕ) (symbol : ℕ) :
    (codeWord lengths symbol).length = lengthAt lengths symbol := by
  simp [codeWord]

theorem lt_length_of_lengthAt_pos {lengths : List ℕ} {symbol : ℕ}
    (h : 0 < lengthAt lengths symbol) : symbol < lengths.length := by
  by_contra hge
  rw [lengthAt, List.getD_eq_default _ _ (by omega)] at h
  exact absurd h (lt_irrefl 0)

theorem lengthAt_mem {lengths : List ℕ} {symbol : ℕ} (h : 0 < lengthAt lengths symbol) :
    lengthAt lengths symbol ∈ lengths := by
  have hlt := lt_length_of_lengthAt_pos h
  rw [lengthAt, List.getD_eq_getElem _ _ hlt]
  exact List.getElem_mem hlt

/-- A symbol is not counted among the earlier symbols of its length. -/
theorem count_take_lt {lengths : List ℕ} {symbol : ℕ} (h : symbol < lengths.length) :
    (lengths.take symbol).count (lengthAt lengths symbol) <
      lengths.count (lengthAt lengths symbol) := by
  have hsplit : lengths = lengths.take symbol ++ lengthAt lengths symbol ::
      lengths.drop (symbol + 1) := by
    rw [lengthAt, List.getD_eq_getElem _ _ h, List.cons_getElem_drop_succ,
      List.take_append_drop]
  have hcount := congrArg (List.count (lengthAt lengths symbol)) hsplit
  rw [List.count_append, List.count_cons_self] at hcount
  omega

/-! ### The symbols sorted by length -/

/-- The symbols of one length, in increasing order. -/
def symbolsOfLength (lengths : List ℕ) (length : ℕ) : List ℕ :=
  (List.range lengths.length).filter fun symbol ↦ lengthAt lengths symbol = length

/-- The symbols with their lengths, for `count` lengths from `start` on, sorted by length. -/
def sortedCodes (lengths : List ℕ) (start count : ℕ) : List (ℕ × ℕ) :=
  (List.range' start count).flatMap fun length ↦
    (symbolsOfLength lengths length).map fun symbol ↦ (symbol, length)

theorem sortedCodes_succ (lengths : List ℕ) (start count : ℕ) :
    sortedCodes lengths start (count + 1) =
      (symbolsOfLength lengths start).map (fun symbol ↦ (symbol, start)) ++
        sortedCodes lengths (start + 1) count := by
  simp [sortedCodes, List.range'_succ]

/-- The filter of the indices of a list by its entries, cut at an index. -/
theorem length_filter_range_take (lengths : List ℕ) (length symbol : ℕ)
    (h : symbol ≤ lengths.length) :
    ((List.range symbol).filter fun s ↦ lengthAt lengths s = length).length =
      (lengths.take symbol).count length := by
  induction symbol with
  | zero => simp
  | succ symbol ih =>
    have hlt : symbol < lengths.length := h
    rw [List.range_succ, List.filter_append, List.length_append, ih (by omega),
      List.take_succ_eq_append_getElem hlt, List.count_append]
    congr 1
    have hentry : lengthAt lengths symbol = lengths[symbol] := by
      rw [lengthAt, List.getD_eq_getElem _ _ hlt]
    by_cases heq : lengths[symbol] = length
    · simp [hentry, heq]
    · simp [hentry, heq]

theorem length_symbolsOfLength (lengths : List ℕ) (length : ℕ) :
    (symbolsOfLength lengths length).length = lengths.count length := by
  rw [symbolsOfLength, length_filter_range_take lengths length _ le_rfl, List.take_length]

/-- The place of a symbol among the symbols of its length. -/
theorem getElem?_symbolsOfLength {lengths : List ℕ} {symbol : ℕ} (h : symbol < lengths.length) :
    (symbolsOfLength lengths (lengthAt lengths symbol))[(lengths.take symbol).count
      (lengthAt lengths symbol)]? = some symbol := by
  obtain ⟨rest, hrest⟩ := Nat.exists_eq_add_of_lt h
  have hrange : List.range lengths.length =
      List.range symbol ++ symbol :: (List.range rest).map (symbol + 1 + ·) := by
    rw [hrest, show symbol + rest + 1 = symbol + 1 + rest by omega, List.range_add,
      List.range_succ, List.append_assoc, List.singleton_append]
  have hplace := length_filter_range_take lengths (lengthAt lengths symbol) symbol h.le
  rw [symbolsOfLength, hrange, List.filter_append, List.filter_cons_of_pos (by simp),
    List.getElem?_append_right (by omega), hplace, Nat.sub_self, List.getElem?_cons_zero]

/-! ### Intervals -/

/-- The width of the intervals of a list of code words. -/
def spanOf (maxBits : ℕ) (codes : List (ℕ × ℕ)) : ℕ :=
  (codes.map fun code ↦ 2 ^ (maxBits - code.2)).sum

@[simp] theorem spanOf_nil (maxBits : ℕ) : spanOf maxBits [] = 0 := rfl

@[simp] theorem spanOf_cons (maxBits : ℕ) (code : ℕ × ℕ) (codes : List (ℕ × ℕ)) :
    spanOf maxBits (code :: codes) = 2 ^ (maxBits - code.2) + spanOf maxBits codes := rfl

@[simp] theorem spanOf_append (maxBits : ℕ) (first second : List (ℕ × ℕ)) :
    spanOf maxBits (first ++ second) = spanOf maxBits first + spanOf maxBits second := by
  simp [spanOf]

/-- The code word whose interval holds a value, where the intervals start at `start`. -/
def locate (maxBits : ℕ) : ℕ → List (ℕ × ℕ) → ℕ → Option (ℕ × ℕ)
  | _, [], _ => none
  | start, code :: codes, value =>
    if value < start + 2 ^ (maxBits - code.2) then some code
    else locate maxBits (start + 2 ^ (maxBits - code.2)) codes value

theorem locate_isSome_iff (maxBits : ℕ) (codes : List (ℕ × ℕ)) :
    ∀ start value, start ≤ value →
      ((locate maxBits start codes value).isSome ↔ value < start + spanOf maxBits codes) := by
  induction codes with
  | nil => intro start value h; simp [locate, h]
  | cons code codes ih =>
    intro start value h
    rw [locate, spanOf_cons]
    by_cases hin : value < start + 2 ^ (maxBits - code.2)
    · rw [if_pos hin]
      simp only [Option.isSome_some, true_iff]
      omega
    · rw [if_neg hin, ih _ _ (by omega), Nat.add_assoc]

theorem locate_append (maxBits : ℕ) (first second : List (ℕ × ℕ)) :
    ∀ start value, start ≤ value →
      locate maxBits start (first ++ second) value =
        if value < start + spanOf maxBits first then locate maxBits start first value
        else locate maxBits (start + spanOf maxBits first) second value := by
  induction first with
  | nil =>
    intro start value h
    rw [spanOf_nil, Nat.add_zero, if_neg (by omega), List.nil_append]
  | cons code first ih =>
    intro start value h
    rw [List.cons_append, locate, locate, spanOf_cons]
    by_cases hin : value < start + 2 ^ (maxBits - code.2)
    · rw [if_pos hin, if_pos (by omega), if_pos hin]
    · rw [if_neg hin, ih _ _ (by omega), if_neg hin]
      simp only [Nat.add_assoc]

/-- Among code words of one length, the interval is found by division. -/
theorem locate_map (maxBits length : ℕ) (symbols : List ℕ) :
    ∀ start value, start ≤ value →
      locate maxBits start (symbols.map fun symbol ↦ (symbol, length)) value =
        (symbols[(value - start) / 2 ^ (maxBits - length)]?).map fun symbol ↦ (symbol, length) := by
  induction symbols with
  | nil => intro start value _; simp [locate]
  | cons symbol symbols ih =>
    intro start value h
    have hpos : 0 < 2 ^ (maxBits - length) := Nat.two_pow_pos _
    rw [List.map_cons, locate]
    by_cases hin : value < start + 2 ^ (maxBits - length)
    · rw [if_pos hin, Nat.div_eq_of_lt (by omega)]
      rfl
    · have hstep : (value - start) / 2 ^ (maxBits - length) =
          (value - (start + 2 ^ (maxBits - length))) / 2 ^ (maxBits - length) + 1 := by
        rw [← Nat.add_div_right _ hpos]
        congr 1
        omega
      rw [if_neg hin, ih _ _ (not_lt.mp hin), hstep, List.getElem?_cons_succ]

theorem spanOf_map (maxBits length : ℕ) (symbols : List ℕ) :
    spanOf maxBits (symbols.map fun symbol ↦ (symbol, length)) =
      symbols.length * 2 ^ (maxBits - length) := by
  simp [spanOf, Function.comp_def]

/-- Scaled, the smallest code of the next length is the end of the codes of this length. -/
theorem firstCode_succ_scaled (lengths : List ℕ) {length maxBits : ℕ} (h : length < maxBits) :
    firstCode lengths (length + 1) * 2 ^ (maxBits - (length + 1)) =
      firstCode lengths length * 2 ^ (maxBits - length) +
        lengthCount lengths length * 2 ^ (maxBits - length) := by
  have hpow : 2 ^ (maxBits - length) = 2 * 2 ^ (maxBits - (length + 1)) := by
    rw [← pow_succ', show maxBits - (length + 1) + 1 = maxBits - length by omega]
  rw [firstCode, hpow]
  ring

theorem firstCode_scaled_mono (lengths : List ℕ) (maxBits : ℕ) {first second : ℕ}
    (h : first ≤ second) (hmax : second ≤ maxBits) :
    firstCode lengths first * 2 ^ (maxBits - first) ≤
      firstCode lengths second * 2 ^ (maxBits - second) := by
  induction second, h using Nat.le_induction with
  | base => exact le_rfl
  | succ second _ ih =>
    rw [firstCode_succ_scaled lengths (by omega)]
    exact (ih (by omega)).trans (Nat.le_add_right _ _)

/-- The interval of a symbol is found in the sorted list, from any length up to its own. -/
theorem locate_sortedCodes_from {lengths : List ℕ} {symbol maxBits value : ℕ}
    (hpos : 0 < lengthAt lengths symbol)
    (hvalue : value / 2 ^ (maxBits - lengthAt lengths symbol) = canonicalCode lengths symbol) :
    ∀ count start, 0 < start → start ≤ lengthAt lengths symbol →
      lengthAt lengths symbol < start + count → start + count ≤ maxBits + 1 →
        locate maxBits (firstCode lengths start * 2 ^ (maxBits - start))
          (sortedCodes lengths start count) value = some (symbol, lengthAt lengths symbol) := by
  have hlt := lt_length_of_lengthAt_pos hpos
  have hscaled : canonicalCode lengths symbol * 2 ^ (maxBits - lengthAt lengths symbol) ≤ value := by
    rw [← hvalue]
    exact Nat.div_mul_le_self _ _
  have hfirst : firstCode lengths (lengthAt lengths symbol) *
      2 ^ (maxBits - lengthAt lengths symbol) ≤ value :=
    (Nat.mul_le_mul_right _ (Nat.le_add_right _ _)).trans hscaled
  intro count
  induction count with
  | zero => intro start _ hle hlt'; omega
  | succ count ih =>
    intro start hstart hle hlt' hmax
    have hbelow := (firstCode_scaled_mono lengths maxBits hle (by omega)).trans hfirst
    rw [sortedCodes_succ, locate_append _ _ _ _ _ hbelow, spanOf_map, length_symbolsOfLength]
    rcases Nat.eq_or_lt_of_le hle with heq | hlonger
    · -- the symbol stands in the first block
      subst heq
      have hplace := count_take_lt hlt
      have hwithin : value < firstCode lengths (lengthAt lengths symbol) *
          2 ^ (maxBits - lengthAt lengths symbol) +
            lengths.count (lengthAt lengths symbol) *
              2 ^ (maxBits - lengthAt lengths symbol) := by
        rw [← Nat.add_mul, ← Nat.div_lt_iff_lt_mul (Nat.two_pow_pos _), hvalue, canonicalCode]
        omega
      have hindex : (value - firstCode lengths (lengthAt lengths symbol) *
          2 ^ (maxBits - lengthAt lengths symbol)) / 2 ^ (maxBits - lengthAt lengths symbol) =
            (lengths.take symbol).count (lengthAt lengths symbol) := by
        rw [Nat.mul_comm, Nat.sub_mul_div, hvalue, canonicalCode, Nat.add_sub_cancel_left]
      rw [if_pos hwithin, locate_map _ _ _ _ _ hbelow, hindex, getElem?_symbolsOfLength hlt]
      rfl
    · -- the first block ends below the value
      have hend : firstCode lengths (start + 1) * 2 ^ (maxBits - (start + 1)) =
          firstCode lengths start * 2 ^ (maxBits - start) +
            lengths.count start * 2 ^ (maxBits - start) := by
        rw [firstCode_succ_scaled lengths (by omega), lengthCount, if_neg (by omega)]
      have hbelow' := (firstCode_scaled_mono lengths maxBits hlonger (by omega)).trans hfirst
      rw [Nat.succ_eq_add_one, hend] at hbelow'
      rw [if_neg (by omega), ← hend]
      exact ih (start + 1) (by omega) hlonger (by omega) (by omega)

/-- Every value that starts with the canonical code of a symbol lies in the interval of the
symbol. -/
theorem locate_sortedCodes {lengths : List ℕ} {symbol maxBits value : ℕ}
    (hpos : 0 < lengthAt lengths symbol) (hmax : lengthAt lengths symbol ≤ maxBits)
    (hvalue : value / 2 ^ (maxBits - lengthAt lengths symbol) = canonicalCode lengths symbol) :
    locate maxBits 0 (sortedCodes lengths 1 maxBits) value =
      some (symbol, lengthAt lengths symbol) := by
  have h := locate_sortedCodes_from hpos hvalue maxBits 1 one_pos hpos (by omega) (by omega)
  simpa [firstCode, lengthCount] using h

/-- A list of consecutive numbers holds each of them once. -/
theorem sum_range'_ite (length : ℕ) (f : ℕ → ℕ) (count : ℕ) :
    ∀ start, ((List.range' start count).map fun other ↦ if length = other then f other else 0).sum =
      if start ≤ length ∧ length < start + count then f length else 0 := by
  induction count with
  | zero =>
    intro start
    rw [if_neg (by omega)]
    rfl
  | succ count ih =>
    intro start
    rw [List.range'_succ, List.map_cons, List.sum_cons, ih]
    by_cases heq : length = start
    · rw [if_pos heq, if_neg (by omega), if_pos (by omega), heq, Nat.add_zero]
    · rw [if_neg heq, Nat.zero_add]
      congr 1
      simp only [eq_iff_iff]
      omega

theorem spanOf_sortedCodes_eq_sum (maxBits : ℕ) (lengths : List ℕ) (count : ℕ) :
    ∀ start, spanOf maxBits (sortedCodes lengths start count) =
      ((List.range' start count).map fun length ↦
        lengths.count length * 2 ^ (maxBits - length)).sum := by
  induction count with
  | zero => intro start; simp [sortedCodes, spanOf]
  | succ count ih =>
    intro start
    rw [sortedCodes_succ, spanOf_append, spanOf_map, length_symbolsOfLength, ih,
      List.range'_succ, List.map_cons, List.sum_cons]

/-- The intervals of all code words together are the Kraft sum. -/
theorem spanOf_sortedCodes (maxBits : ℕ) {lengths : List ℕ}
    (h : ∀ length ∈ lengths, length ≤ maxBits) :
    spanOf maxBits (sortedCodes lengths 1 maxBits) = kraftSum maxBits lengths := by
  rw [spanOf_sortedCodes_eq_sum]
  induction lengths with
  | nil => simp [kraftSum]
  | cons length lengths ih =>
    have hlength := h length List.mem_cons_self
    have hterm : ∀ other, (length :: lengths).count other * 2 ^ (maxBits - other) =
        lengths.count other * 2 ^ (maxBits - other) +
          if length = other then 2 ^ (maxBits - other) else 0 := by
      intro other
      rw [List.count_cons]
      by_cases heq : length = other
      · simp [heq, Nat.add_mul]
      · simp [heq]
    simp only [hterm]
    rw [List.sum_map_add, ih fun other hother ↦ h other (List.mem_cons_of_mem _ hother),
      sum_range'_ite length (fun other ↦ 2 ^ (maxBits - other)), kraftSum, kraftSum, List.map_cons,
      List.sum_cons, Nat.add_comm]
    congr 1
    by_cases hzero : length = 0
    · rw [if_pos hzero, if_neg (by omega)]
    · rw [if_neg hzero, if_pos (by omega)]

/-- Under the Kraft inequality a canonical code fits into its length. -/
theorem canonicalCode_lt {lengths : List ℕ} {symbol maxBits : ℕ} (hkraft : KraftLe maxBits lengths)
    (hpos : 0 < lengthAt lengths symbol) :
    canonicalCode lengths symbol < 2 ^ lengthAt lengths symbol := by
  have hmax := hkraft.1 _ (lengthAt_mem hpos)
  have hwidth : 0 < 2 ^ (maxBits - lengthAt lengths symbol) := Nat.two_pow_pos _
  have hvalue : canonicalCode lengths symbol * 2 ^ (maxBits - lengthAt lengths symbol) /
      2 ^ (maxBits - lengthAt lengths symbol) = canonicalCode lengths symbol :=
    Nat.mul_div_cancel _ hwidth
  have hsome : (locate maxBits 0 (sortedCodes lengths 1 maxBits) (canonicalCode lengths symbol *
      2 ^ (maxBits - lengthAt lengths symbol))).isSome := by
    rw [locate_sortedCodes hpos hmax hvalue]
    rfl
  rw [locate_isSome_iff _ _ _ _ (Nat.zero_le _), spanOf_sortedCodes _ hkraft.1, Nat.zero_add] at hsome
  have hpow : 2 ^ maxBits =
      2 ^ lengthAt lengths symbol * 2 ^ (maxBits - lengthAt lengths symbol) := by
    rw [← pow_add, Nat.add_sub_cancel' hmax]
  exact Nat.lt_of_mul_lt_mul_right (hpow ▸ hsome.trans_le hkraft.2)

/-! ### Values that start with a code word -/

/-- Code words sorted by length, with the first interval starting at a multiple of the widths of
all: then every interval starts at a multiple of its width. -/
structure Aligned (maxBits start : ℕ) (codes : List (ℕ × ℕ)) : Prop where
  sorted : codes.Pairwise fun first second ↦ first.2 ≤ second.2
  dvd : ∀ code ∈ codes, 2 ^ (maxBits - code.2) ∣ start

theorem Aligned.tail {maxBits start : ℕ} {code : ℕ × ℕ} {codes : List (ℕ × ℕ)}
    (h : Aligned maxBits start (code :: codes)) :
    Aligned maxBits (start + 2 ^ (maxBits - code.2)) codes where
  sorted := (List.pairwise_cons.mp h.sorted).2
  dvd other hother := by
    have hle := (List.pairwise_cons.mp h.sorted).1 other hother
    exact dvd_add (h.dvd other (List.mem_cons_of_mem _ hother))
      (pow_dvd_pow 2 (by omega))

theorem pairwise_sortedCodes (lengths : List ℕ) (count : ℕ) :
    ∀ start, (sortedCodes lengths start count).Pairwise fun first second ↦ first.2 ≤ second.2 := by
  have hmem : ∀ count start code, code ∈ sortedCodes lengths start count → start ≤ code.2 := by
    intro count start code hcode
    simp only [sortedCodes, List.mem_flatMap, List.mem_map, List.mem_range'_1] at hcode
    obtain ⟨length, hlength, symbol, -, rfl⟩ := hcode
    exact hlength.1
  induction count with
  | zero => intro start; simp [sortedCodes]
  | succ count ih =>
    intro start
    rw [sortedCodes_succ, List.pairwise_append]
    refine ⟨?_, ih _, ?_⟩
    · rw [List.pairwise_map]
      exact List.pairwise_of_forall fun _ _ ↦ le_rfl
    · intro first hfirst second hsecond
      obtain ⟨symbol, -, rfl⟩ := List.mem_map.mp hfirst
      exact (Nat.le_succ start).trans (hmem _ _ _ hsecond)

theorem mem_sortedCodes {lengths : List ℕ} {start count : ℕ} {code : ℕ × ℕ} :
    code ∈ sortedCodes lengths start count ↔
      (start ≤ code.2 ∧ code.2 < start + count) ∧ code.1 < lengths.length ∧
        lengthAt lengths code.1 = code.2 := by
  simp only [sortedCodes, List.mem_flatMap, List.mem_map, List.mem_range'_1, symbolsOfLength,
    List.mem_filter, List.mem_range, decide_eq_true_eq]
  constructor
  · rintro ⟨length, hrange, symbol, ⟨hlt, heq⟩, rfl⟩
    exact ⟨hrange, hlt, heq⟩
  · rintro ⟨hrange, hlt, heq⟩
    exact ⟨code.2, hrange, code.1, ⟨hlt, heq⟩, rfl⟩

/-- There are no more code words than symbols. -/
theorem length_sortedCodes_le (lengths : List ℕ) (start count : ℕ) :
    (sortedCodes lengths start count).length ≤ lengths.length := by
  have hnodup : (sortedCodes lengths start count).Nodup := by
    refine List.nodup_flatMap.mpr ⟨fun length _ ↦ ?_, ?_⟩
    · exact (List.nodup_range.filter _).map fun first second h ↦ congrArg Prod.fst h
    · refine List.Pairwise.imp (fun hne code hfirst hsecond ↦ hne ?_)
        (List.nodup_range' _ one_pos)
      obtain ⟨_, _, rfl⟩ := List.mem_map.mp hfirst
      obtain ⟨_, _, heq⟩ := List.mem_map.mp hsecond
      exact (congrArg Prod.snd heq).symm
  have hsub : sortedCodes lengths start count ⊆
      (List.range lengths.length).map fun symbol ↦ (symbol, lengthAt lengths symbol) := by
    intro code hcode
    obtain ⟨_, hlt, heq⟩ := mem_sortedCodes.mp hcode
    exact List.mem_map.mpr ⟨code.1, List.mem_range.mpr hlt, by rw [heq]⟩
  simpa using (hnodup.subperm hsub).length_le

theorem aligned_sortedCodes (maxBits : ℕ) (lengths : List ℕ) (start count : ℕ) :
    Aligned maxBits 0 (sortedCodes lengths start count) :=
  ⟨pairwise_sortedCodes lengths count start, fun _ _ ↦ dvd_zero _⟩

theorem locate_mem {maxBits value : ℕ} {code : ℕ × ℕ} (codes : List (ℕ × ℕ)) :
    ∀ start, locate maxBits start codes value = some code → code ∈ codes := by
  induction codes with
  | nil => intro start h; simp [locate] at h
  | cons other codes ih =>
    intro start h
    rw [locate] at h
    split at h
    · injection h with h
      exact h ▸ List.mem_cons_self
    · exact List.mem_cons_of_mem _ (ih _ h)

/-- The interval found for one value is found for every value that agrees with it on the leading
bits. -/
theorem locate_congr {maxBits : ℕ} {code : ℕ × ℕ} {first second : ℕ} (codes : List (ℕ × ℕ)) :
    ∀ start, Aligned maxBits start codes → start ≤ first → start ≤ second →
      locate maxBits start codes first = some code →
        first / 2 ^ (maxBits - code.2) = second / 2 ^ (maxBits - code.2) →
          locate maxBits start codes second = some code := by
  induction codes with
  | nil => intro start _ _ _ h; simp [locate] at h
  | cons other codes ih =>
    intro start haligned hfirst hsecond h hagree
    have hpos : 0 < 2 ^ (maxBits - other.2) := Nat.two_pow_pos _
    obtain ⟨cell, hcell⟩ := haligned.dvd other List.mem_cons_self
    have hin : ∀ value, start ≤ value →
        (value < start + 2 ^ (maxBits - other.2) ↔ value / 2 ^ (maxBits - other.2) = cell) := by
      intro value hvalue
      rw [Nat.div_eq_iff hpos, Nat.mul_comm, ← hcell]
      omega
    rw [locate] at h ⊢
    by_cases hbefore : first < start + 2 ^ (maxBits - other.2)
    · rw [if_pos hbefore] at h
      injection h with h
      subst h
      rw [if_pos]
      rwa [hin second hsecond, ← hagree, ← hin first hfirst]
    · rw [if_neg hbefore] at h
      -- a longer code word agrees on more bits than the one passed over
      have hmem : code ∈ codes := locate_mem codes _ h
      have hle := (List.pairwise_cons.mp haligned.sorted).1 code hmem
      have hagree' : first / 2 ^ (maxBits - other.2) = second / 2 ^ (maxBits - other.2) := by
        have hpow : 2 ^ (maxBits - other.2) =
            2 ^ (maxBits - code.2) * 2 ^ (maxBits - other.2 - (maxBits - code.2)) := by
          rw [← pow_add]
          congr 1
          omega
        rw [hpow, ← Nat.div_div_eq_div_mul, ← Nat.div_div_eq_div_mul, hagree]
      have hafter : ¬ second < start + 2 ^ (maxBits - other.2) := by
        rw [hin second hsecond, ← hagree', ← hin first hfirst]
        exact hbefore
      rw [if_neg hafter]
      exact ih _ haligned.tail (by omega) (by omega) h hagree

section Words

variable {lengths : List ℕ} {symbol maxBits : ℕ}

theorem reverseBits_div_pow {length : ℕ} (h : length ≤ maxBits) (bits : ℕ) :
    reverseBits maxBits bits / 2 ^ (maxBits - length) = reverseBits length bits := by
  obtain ⟨rest, rfl⟩ := Nat.exists_eq_add_of_le h
  rw [Nat.add_sub_cancel_left, reverseBits_add_div]

/-- A buffer that starts with the code word of a symbol lies in the interval of the symbol. -/
theorem locate_reverseBits (hkraft : KraftLe maxBits lengths) (hpos : 0 < lengthAt lengths symbol)
    {bits : ℕ} (hbits : bits % 2 ^ lengthAt lengths symbol =
      reverseBits (lengthAt lengths symbol) (canonicalCode lengths symbol)) :
    locate maxBits 0 (sortedCodes lengths 1 maxBits) (reverseBits maxBits bits) =
      some (symbol, lengthAt lengths symbol) := by
  have hmax := hkraft.1 _ (lengthAt_mem hpos)
  refine locate_sortedCodes hpos hmax ?_
  rw [reverseBits_div_pow hmax]
  exact (reverseBits_eq_iff (canonicalCode_lt hkraft hpos)).mpr hbits

/-- A buffer that holds only the first bits of a code word, and zeros behind them, lies in the
interval of some code word that is longer than these bits. -/
theorem locate_reverseBits_partial (hkraft : KraftLe maxBits lengths)
    (hpos : 0 < lengthAt lengths symbol) {bits count : ℕ}
    (hbits : bits % 2 ^ lengthAt lengths symbol =
      reverseBits (lengthAt lengths symbol) (canonicalCode lengths symbol))
    (hcount : count < lengthAt lengths symbol) :
    ∃ code, locate maxBits 0 (sortedCodes lengths 1 maxBits)
      (reverseBits maxBits (bits % 2 ^ count)) = some code ∧ count < code.2 := by
  have hmax := hkraft.1 _ (lengthAt_mem hpos)
  have hfull := locate_reverseBits hkraft hpos hbits
  have hsome : (locate maxBits 0 (sortedCodes lengths 1 maxBits)
      (reverseBits maxBits bits)).isSome := by rw [hfull]; rfl
  rw [locate_isSome_iff _ _ _ _ (Nat.zero_le _)] at hsome
  -- zeros behind the first bits only make the value smaller
  have hle : reverseBits maxBits (bits % 2 ^ count) ≤ reverseBits maxBits bits := by
    obtain ⟨rest, rfl⟩ := Nat.exists_eq_add_of_le (hcount.le.trans hmax)
    have hzero : ∀ n, reverseBits n 0 = 0 := by
      intro n
      induction n with
      | zero => rfl
      | succ n ih => simp [reverseBits, ih]
    rw [reverseBits_add, reverseBits_add, reverseBits_mod, Nat.mod_div_self, hzero]
    omega
  have hsome' : (locate maxBits 0 (sortedCodes lengths 1 maxBits)
      (reverseBits maxBits (bits % 2 ^ count))).isSome := by
    rw [locate_isSome_iff _ _ _ _ (Nat.zero_le _)]
    omega
  obtain ⟨code, hcode⟩ := Option.isSome_iff_exists.mp hsome'
  refine ⟨code, hcode, ?_⟩
  by_contra hshort
  rw [not_lt] at hshort
  have hagree : reverseBits maxBits (bits % 2 ^ count) / 2 ^ (maxBits - code.2) =
      reverseBits maxBits bits / 2 ^ (maxBits - code.2) := by
    rw [reverseBits_div_pow (by omega), reverseBits_div_pow (by omega),
      ← reverseBits_mod code.2 (bits % 2 ^ count), Nat.mod_mod_of_dvd _ (pow_dvd_pow 2 hshort),
      reverseBits_mod]
  have hother := locate_congr _ 0 (aligned_sortedCodes maxBits lengths 1 maxBits) (Nat.zero_le _)
    (Nat.zero_le _) hcode hagree
  rw [hfull] at hother
  injection hother with hother
  rw [← hother] at hshort
  exact absurd hcount (by simpa using hshort)

/-- The low bits of a list that starts with a code word. -/
theorem valueOf_codeWord_append (lengths : List ℕ) (symbol : ℕ) (rest : List Bool) :
    valueOf (codeWord lengths symbol ++ rest) % 2 ^ lengthAt lengths symbol =
      reverseBits (lengthAt lengths symbol) (canonicalCode lengths symbol) := by
  rw [valueOf_append, length_codeWord, Nat.add_mul_mod_self_left, codeWord,
    valueOf_reverse_bitsOf, Nat.mod_eq_of_lt (reverseBits_lt _ _)]

/-- Prefix freeness: a bit list starts with the code word of at most one symbol. -/
theorem codeWord_unique {other : ℕ} {bits : List Bool} (hkraft : KraftLe maxBits lengths)
    (hpos : 0 < lengthAt lengths symbol) (hother : 0 < lengthAt lengths other)
    (hsymbol : codeWord lengths symbol <+: bits) (hbegins : codeWord lengths other <+: bits) :
    symbol = other := by
  obtain ⟨rest, hrest⟩ := hsymbol
  obtain ⟨rest', hrest'⟩ := hbegins
  have h := locate_reverseBits hkraft hpos (valueOf_codeWord_append lengths symbol rest)
  have h' := locate_reverseBits hkraft hother (valueOf_codeWord_append lengths other rest')
  rw [hrest] at h
  rw [hrest', h] at h'
  injection h' with h'
  exact congrArg Prod.fst h'

end Words

end ZephyrThrift.Foundation
