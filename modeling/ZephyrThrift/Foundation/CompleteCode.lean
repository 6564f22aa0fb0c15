import ZephyrThrift.Foundation.DeflateFormat

/-!
# Complete codes

Code lengths whose Kraft sum is exactly 1. Their code words fill the whole range of values, so every
bit list begins with a code word or is the beginning of one (`Complete.exists_codeWord`).
-/

set_option autoImplicit false
set_option relaxedAutoImplicit false

namespace ZephyrThrift.Foundation

/-- Code lengths of at most `maxBits` whose Kraft sum is exactly 1. -/
structure Complete (maxBits : ℕ) (lengths : List ℕ) : Prop where
  short : ∀ length ∈ lengths, length ≤ maxBits
  full : kraftSum maxBits lengths = 2 ^ maxBits

theorem Complete.kraftLe {maxBits : ℕ} {lengths : List ℕ} (h : Complete maxBits lengths) :
    KraftLe maxBits lengths := ⟨h.short, h.full.le⟩

theorem Complete.hasCode {maxBits : ℕ} {lengths : List ℕ} (h : Complete maxBits lengths) :
    HasCode lengths := by
  by_contra hnone
  have hzero : ∀ length ∈ lengths, (if length = 0 then 0 else 2 ^ (maxBits - length)) = 0 := by
    intro length hmem
    rw [if_pos]
    by_contra hne
    exact hnone ⟨length, hmem, hne⟩
  have hsum : kraftSum maxBits lengths = 0 := by
    rw [kraftSum, List.map_congr_left hzero]
    simp
  exact (Nat.two_pow_pos maxBits).ne' (h.full.symm.trans hsum)

/-- The symbol whose interval is found is the symbol whose code the value starts with. -/
theorem canonicalCode_of_locate {lengths : List ℕ} {symbol length maxBits value : ℕ} (count : ℕ) :
    ∀ start, 0 < start → start + count ≤ maxBits + 1 →
      firstCode lengths start * 2 ^ (maxBits - start) ≤ value →
        locate maxBits (firstCode lengths start * 2 ^ (maxBits - start))
            (sortedCodes lengths start count) value = some (symbol, length) →
          value / 2 ^ (maxBits - length) = canonicalCode lengths symbol := by
  induction count with
  | zero => intro start _ _ _ h; simp [sortedCodes, locate] at h
  | succ count ih =>
    intro start hstart hmax hfirst h
    have hpos : 0 < 2 ^ (maxBits - start) := Nat.two_pow_pos _
    rw [sortedCodes_succ, locate_append _ _ _ _ _ hfirst, spanOf_map, length_symbolsOfLength] at h
    by_cases hin : value < firstCode lengths start * 2 ^ (maxBits - start) +
        lengths.count start * 2 ^ (maxBits - start)
    · rw [if_pos hin, locate_map _ _ _ _ _ hfirst, Option.map_eq_some_iff] at h
      obtain ⟨found, hfound, heq⟩ := h
      injection heq with hsymbol hlength
      subst hsymbol hlength
      obtain ⟨hlt, hlength⟩ := List.mem_filter.mp (List.mem_of_getElem? hfound)
      have hlength := of_decide_eq_true hlength
      -- the place of the symbol among those of its length
      have hplace := getElem?_symbolsOfLength (List.mem_range.mp hlt)
      rw [hlength] at hplace
      have hindex := (List.getElem?_inj (List.getElem?_eq_some_iff.mp hfound).1
        (List.nodup_range.filter _)).mp (hfound.trans hplace.symm)
      have hvalue : (value - firstCode lengths start * 2 ^ (maxBits - start)) /
          2 ^ (maxBits - start) = value / 2 ^ (maxBits - start) - firstCode lengths start := by
        rw [Nat.mul_comm, Nat.sub_mul_div]
      have hle := (Nat.le_div_iff_mul_le hpos).mpr hfirst
      rw [canonicalCode, hlength]
      omega
    · rw [if_neg hin] at h
      have hmore : count ≠ 0 := by
        rintro rfl
        simp [sortedCodes, locate] at h
      have hend : firstCode lengths (start + 1) * 2 ^ (maxBits - (start + 1)) =
          firstCode lengths start * 2 ^ (maxBits - start) +
            lengths.count start * 2 ^ (maxBits - start) := by
        rw [firstCode_succ_scaled lengths (by omega), lengthCount, if_neg (by omega)]
      rw [← hend] at h
      exact ih (start + 1) (by omega) (by omega) (by rw [hend]; exact not_lt.mp hin) h

section Complete

variable {maxBits : ℕ} {lengths : List ℕ}

/-- Every value starts with a code. -/
theorem Complete.exists_code (h : Complete maxBits lengths) {value : ℕ}
    (hvalue : value < 2 ^ maxBits) : ∃ symbol, 0 < lengthAt lengths symbol ∧
      value / 2 ^ (maxBits - lengthAt lengths symbol) = canonicalCode lengths symbol := by
  have hsome : (locate maxBits 0 (sortedCodes lengths 1 maxBits) value).isSome := by
    rw [locate_isSome_iff _ _ _ _ (Nat.zero_le _), spanOf_sortedCodes _ h.short, h.full]
    omega
  obtain ⟨⟨symbol, length⟩, hlocate⟩ := Option.isSome_iff_exists.mp hsome
  obtain ⟨⟨hpos, -⟩, -, hlength⟩ := mem_sortedCodes.mp (locate_mem _ _ hlocate)
  simp only at hpos hlength
  have hzero : firstCode lengths 1 * 2 ^ (maxBits - 1) = 0 := by simp [firstCode, lengthCount]
  refine ⟨symbol, by omega, ?_⟩
  rw [hlength]
  exact canonicalCode_of_locate maxBits 1 one_pos (by omega) (by omega) (by rw [hzero]; exact hlocate)

/-- A bit list begins with a code word, or is the beginning of one. -/
theorem Complete.exists_codeWord (h : Complete maxBits lengths) (bits : List Bool) :
    ∃ symbol behind tail, 0 < lengthAt lengths symbol ∧
      codeWord lengths symbol ++ behind = bits ++ tail := by
  obtain ⟨symbol, hpos, hcode⟩ := h.exists_code (reverseBits_lt maxBits (valueOf bits))
  rw [reverseBits_div_pow (h.short _ (lengthAt_mem hpos)),
    reverseBits_eq_iff (canonicalCode_lt h.kraftLe hpos)] at hcode
  -- zeros behind the bits, so that they are long enough
  have hzeros : valueOf (bits ++ bitsOf (lengthAt lengths symbol) 0) = valueOf bits := by
    rw [valueOf_append, valueOf_bitsOf, Nat.zero_mod, Nat.mul_zero, Nat.add_zero]
  generalize hpadded : bits ++ bitsOf (lengthAt lengths symbol) 0 = padded at hzeros
  have hlong : lengthAt lengths symbol ≤ padded.length := by
    rw [← hpadded, List.length_append, length_bitsOf]
    omega
  have htake : (padded.take (lengthAt lengths symbol)).length = lengthAt lengths symbol := by
    rw [List.length_take, min_eq_left hlong]
  have hsplit := congrArg valueOf (List.take_append_drop (lengthAt lengths symbol) padded)
  rw [valueOf_append, htake, hzeros] at hsplit
  have hword : codeWord lengths symbol = padded.take (lengthAt lengths symbol) := by
    have hlow := valueOf_lt (padded.take (lengthAt lengths symbol))
    rw [htake] at hlow
    rw [← hsplit, Nat.add_mul_mod_self_left, Nat.mod_eq_of_lt hlow] at hcode
    rw [← bitsOf_valueOf (padded.take _), ← bitsOf_valueOf (codeWord lengths symbol), htake,
      length_codeWord, hcode, codeWord, valueOf_reverse_bitsOf]
  exact ⟨symbol, padded.drop (lengthAt lengths symbol), _, hpos, by
    rw [hword, List.take_append_drop, ← hpadded]⟩

end Complete

end ZephyrThrift.Foundation
