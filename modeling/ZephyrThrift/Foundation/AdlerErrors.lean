import ZephyrThrift.Foundation.Adler

/-!
# Errors that the Adler-32 sums notice

A part of the bytes that is replaced by another one of its length goes unnoticed exactly where the sums of
the two parts agree (`adlerSums_part_iff`), whatever stands around them. The base is prime, so the sums of a
part notice every change of two of its bytes (`plainSums_two_bytes`), unless the base divides their distance.
-/

set_option autoImplicit false
set_option relaxedAutoImplicit false

namespace ZephyrThrift.Foundation

theorem prime_adlerBase : adlerBase.Prime := by
  rw [adlerBase]
  norm_num

/-- The sums behind more bytes, from reduced ones. -/
theorem adlerSums_of_lt {s1 s2 : ℕ} (h1 : s1 < adlerBase) (h2 : s2 < adlerBase)
    (bytes : List UInt8) : adlerSums (s1, s2) bytes =
      ((s1 + (plainSums (0, 0) bytes).1) % adlerBase,
        (s2 + bytes.length * s1 + (plainSums (0, 0) bytes).2) % adlerBase) := by
  have heq := adlerSums_eq bytes s1 s2
  rwa [Nat.mod_eq_of_lt h1, Nat.mod_eq_of_lt h2, plainSums_eq] at heq

/-- The same sums, up to the base. -/
def SameSums (sums sums' : ℕ × ℕ) : Prop :=
  sums.1 ≡ sums'.1 [MOD adlerBase] ∧ sums.2 ≡ sums'.2 [MOD adlerBase]

/-- More bytes behind the sums neither hide a difference nor make one. -/
theorem sameSums_plainSums_iff (sums sums' : ℕ × ℕ) (rest : List UInt8) :
    SameSums (plainSums sums rest) (plainSums sums' rest) ↔ SameSums sums sums' := by
  obtain ⟨s1, s2⟩ := sums
  obtain ⟨s1', s2'⟩ := sums'
  rw [plainSums_eq rest s1 s2, plainSums_eq rest s1' s2']
  generalize plainSums (0, 0) rest = r
  simp only [SameSums]
  constructor
  · rintro ⟨hfirst, hsecond⟩
    have hsame := Nat.ModEq.add_right_cancel' r.1 hfirst
    exact ⟨hsame, Nat.ModEq.add_right_cancel (hsame.mul_left rest.length)
      (Nat.ModEq.add_right_cancel' r.2 hsecond)⟩
  · rintro ⟨hfirst, hsecond⟩
    exact ⟨hfirst.add_right r.1, (hsecond.add (hfirst.mul_left rest.length)).add_right r.2⟩

/-- Nor do the sums in front of parts of one length. -/
theorem sameSums_adlerSums_iff {part part' : List UInt8} (hlength : part'.length = part.length)
    {s1 s2 : ℕ} (h1 : s1 < adlerBase) (h2 : s2 < adlerBase) :
    adlerSums (s1, s2) part = adlerSums (s1, s2) part' ↔
      SameSums (plainSums (0, 0) part) (plainSums (0, 0) part') := by
  rw [adlerSums_of_lt h1 h2 part, adlerSums_of_lt h1 h2 part', hlength, Prod.mk.injEq]
  constructor
  · rintro ⟨hfirst, hsecond⟩
    exact ⟨Nat.ModEq.add_left_cancel' s1 hfirst, Nat.ModEq.add_left_cancel' _ hsecond⟩
  · rintro ⟨hfirst, hsecond⟩
    exact ⟨hfirst.add_left s1, hsecond.add_left _⟩

/-- A part goes unnoticed exactly where its own sums agree with those of what it replaces. -/
theorem adlerSums_part_iff {part part' : List UInt8} (hlength : part'.length = part.length)
    (front rest : List UInt8) {s1 s2 : ℕ} (h1 : s1 < adlerBase) (h2 : s2 < adlerBase) :
    adlerSums (s1, s2) (front ++ (part ++ rest)) = adlerSums (s1, s2) (front ++ (part' ++ rest)) ↔
      SameSums (plainSums (0, 0) part) (plainSums (0, 0) part') := by
  obtain ⟨ha, hb⟩ := adlerSums_lt h1 h2 front
  have hlonger : (part' ++ rest).length = (part ++ rest).length := by
    rw [List.length_append, List.length_append, hlength]
  rw [adlerSums_append _ front (part ++ rest), adlerSums_append _ front (part' ++ rest),
    sameSums_adlerSums_iff hlonger ha hb, plainSums_append, plainSums_append,
    sameSums_plainSums_iff]

/-- The sums of bytes between two others. -/
theorem plainSums_between (first last : UInt8) (middle : List UInt8) :
    plainSums (0, 0) (first :: (middle ++ [last])) =
      (first.toNat + (plainSums (0, 0) middle).1 + last.toNat,
        (middle.length + 2) * first.toNat + last.toNat +
          ((plainSums (0, 0) middle).1 + (plainSums (0, 0) middle).2)) := by
  rw [plainSums_cons, plainSums_append, plainSums_eq middle, plainSums_cons, plainSums_nil,
    Prod.mk.injEq]
  constructor
  · ring
  · ring

/-- Where the base divides the distance of two bytes, the sums do not notice that they change places. -/
theorem sameSums_swap {first last : UInt8} {middle : List UInt8}
    (hdistance : adlerBase ∣ middle.length + 1) :
    SameSums (plainSums (0, 0) (first :: (middle ++ [last])))
      (plainSums (0, 0) (last :: (middle ++ [first]))) := by
  rw [plainSums_between, plainSums_between]
  generalize plainSums (0, 0) middle = m
  have hweighted : ∀ a b : ℕ, (middle.length + 2) * a + b ≡ a + b [MOD adlerBase] := by
    intro a b
    have hzero := ((Nat.modEq_zero_iff_dvd.mpr hdistance).mul_right a).add_right (a + b)
    rw [Nat.zero_mul, Nat.zero_add] at hzero
    rwa [show (middle.length + 2) * a + b = (middle.length + 1) * a + (a + b) by ring]
  constructor
  · show first.toNat + m.1 + last.toNat ≡ last.toNat + m.1 + first.toNat [MOD adlerBase]
    rw [show first.toNat + m.1 + last.toNat = last.toNat + m.1 + first.toNat by omega]
  · refine Nat.ModEq.add_right (m.1 + m.2) ((hweighted _ _).trans ?_)
    rw [Nat.add_comm first.toNat]
    exact (hweighted _ _).symm

/-- Two bytes whose distance the base does not divide cannot change without a change of the sums. -/
theorem plainSums_two_bytes {first last first' last' : UInt8} {middle : List UInt8}
    (hdistance : ¬ adlerBase ∣ middle.length + 1)
    (h : SameSums (plainSums (0, 0) (first :: (middle ++ [last])))
      (plainSums (0, 0) (first' :: (middle ++ [last'])))) : first = first' ∧ last = last' := by
  rw [plainSums_between, plainSums_between] at h
  generalize plainSums (0, 0) middle = m at h
  obtain ⟨hfirst, hsecond⟩ := h
  simp only at hfirst hsecond
  have hbytes : first.toNat + last.toNat ≡ first'.toNat + last'.toNat [MOD adlerBase] := by
    rw [Nat.add_right_comm first.toNat, Nat.add_right_comm first'.toNat] at hfirst
    exact Nat.ModEq.add_right_cancel' m.1 hfirst
  have hweighted : (middle.length + 1) * first.toNat ≡ (middle.length + 1) * first'.toNat
      [MOD adlerBase] := by
    refine Nat.ModEq.add_right_cancel hbytes ?_
    have hsums := Nat.ModEq.add_right_cancel' _ hsecond
    have hsplit : ∀ a b : ℕ, (middle.length + 1) * a + (a + b) = (middle.length + 2) * a + b :=
      fun a b ↦ by ring
    rwa [hsplit, hsplit]
  have hcoprime : Nat.gcd adlerBase (middle.length + 1) = 1 :=
    (Nat.Prime.coprime_iff_not_dvd prime_adlerBase).mpr hdistance
  have hlow : ∀ byte : UInt8, byte.toNat < adlerBase := fun byte ↦
    byte.toNat_lt.trans (by decide)
  have hsame : first.toNat = first'.toNat :=
    (Nat.ModEq.cancel_left_of_coprime hcoprime hweighted).eq_of_lt_of_lt (hlow _) (hlow _)
  rw [hsame] at hbytes
  exact ⟨UInt8.toNat_inj.mp hsame, UInt8.toNat_inj.mp
    ((Nat.ModEq.add_left_cancel' _ hbytes).eq_of_lt_of_lt (hlow _) (hlow _))⟩

end ZephyrThrift.Foundation
