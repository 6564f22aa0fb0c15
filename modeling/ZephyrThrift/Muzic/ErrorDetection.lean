import ZephyrThrift.Foundation.AdlerErrors
import ZephyrThrift.Muzic.Checksum

/-!
# What the checksum of a stream notices

A receiver that compares the trailer with `muzic_adler32` of what it decoded: a replaced part of the data
goes unnoticed exactly where `muzic_adler32` does not tell the two parts apart (`muzicAdler32_part_iff`),
and changes of two bytes are all noticed unless 65521 divides their distance (`muzicAdler32_two_bytes_iff`).
-/

set_option autoImplicit false
set_option relaxedAutoImplicit false

namespace ZephyrThrift.Muzic

open Foundation

section Noticed

variable {s1 s2 : ℕ}

theorem packed_inj {sums sums' : ℕ × ℕ} (h : sums.1 < adlerBase) (h' : sums'.1 < adlerBase) :
    sums.2 * 2 ^ 16 + sums.1 = sums'.2 * 2 ^ 16 + sums'.1 ↔ sums = sums' := by
  simp only [adlerBase] at h h'
  rw [Prod.ext_iff]
  omega

/-- Two checksums that continue one. -/
theorem muzicAdler32_eq_iff (h1 : s1 < adlerBase) (h2 : s2 < adlerBase) (data data' : List UInt8) :
    muzicAdler32 data (s2 * 2 ^ 16 + s1) = muzicAdler32 data' (s2 * 2 ^ 16 + s1) ↔
      adlerSums (s1, s2) data = adlerSums (s1, s2) data' := by
  rw [muzicAdler32_eq data h1 h2, muzicAdler32_eq data' h1 h2,
    packed_inj (adlerSums_lt h1 h2 data).1 (adlerSums_lt h1 h2 data').1]

/-- A part that is replaced by one of its length goes unnoticed exactly where the checksums of the two
parts agree, whatever comes before and behind it. -/
theorem muzicAdler32_part_iff (h1 : s1 < adlerBase) (h2 : s2 < adlerBase) (front rest : List UInt8)
    {part part' : List UInt8} (hlength : part'.length = part.length) :
    muzicAdler32 (front ++ (part ++ rest)) (s2 * 2 ^ 16 + s1) =
        muzicAdler32 (front ++ (part' ++ rest)) (s2 * 2 ^ 16 + s1) ↔
      muzicAdler32 part 1 = muzicAdler32 part' 1 := by
  have hone : 1 < adlerBase := by decide
  have hzero : 0 < adlerBase := by decide
  have hpart := muzicAdler32_eq_iff hone hzero part part'
  rw [Nat.zero_mul, Nat.zero_add, sameSums_adlerSums_iff hlength hone hzero] at hpart
  rw [muzicAdler32_eq_iff h1 h2, adlerSums_part_iff hlength front rest h1 h2, hpart]

/-- Every change of two bytes is noticed if and only if 65521 does not divide their distance. -/
theorem muzicAdler32_two_bytes_iff (h1 : s1 < 65521) (h2 : s2 < 65521)
    (front middle rest : List UInt8) :
    (∀ first last first' last', muzicAdler32 (front ++ first :: (middle ++ last :: rest))
          (s2 * 2 ^ 16 + s1) =
        muzicAdler32 (front ++ first' :: (middle ++ last' :: rest)) (s2 * 2 ^ 16 + s1) →
      first = first' ∧ last = last') ↔ ¬ 65521 ∣ middle.length + 1 := by
  have hunnoticed : ∀ first last first' last',
      muzicAdler32 (front ++ first :: (middle ++ last :: rest)) (s2 * 2 ^ 16 + s1) =
          muzicAdler32 (front ++ first' :: (middle ++ last' :: rest)) (s2 * 2 ^ 16 + s1) ↔
        SameSums (plainSums (0, 0) (first :: (middle ++ [last])))
          (plainSums (0, 0) (first' :: (middle ++ [last']))) := by
    intro first last first' last'
    have hpart := adlerSums_part_iff (show (first' :: (middle ++ [last'])).length =
      (first :: (middle ++ [last])).length by simp) front rest h1 h2
    simp only [List.cons_append, List.append_assoc, List.nil_append] at hpart
    rw [muzicAdler32_eq_iff h1 h2, hpart]
  constructor
  · intro hnotices hdistance
    obtain ⟨hfirst, -⟩ := hnotices 0 1 1 0 ((hunnoticed 0 1 1 0).mpr (sameSums_swap hdistance))
    cases hfirst
  · intro hdistance first last first' last' h
    exact plainSums_two_bytes hdistance ((hunnoticed first last first' last').mp h)

end Noticed

/-- The first and the last letter of `abc` change places. -/
theorem muzicAdler32_two_bytes_letters : muzicAdler32 [97, 98, 99] 1 ≠ muzicAdler32 [99, 98, 97] 1 := by
  intro h
  have hnotices := (muzicAdler32_two_bytes_iff (show 1 < 65521 by norm_num)
    (show 0 < 65521 by norm_num) [] [98] []).mpr (by norm_num)
  obtain ⟨hfirst, -⟩ := hnotices 97 99 99 97 h
  cases hfirst

end ZephyrThrift.Muzic
