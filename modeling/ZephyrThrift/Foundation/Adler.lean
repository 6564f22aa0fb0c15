import ZephyrThrift.Foundation.DeflateFormat

/-!
# The Adler-32 sums

The two sums of the checksum as sums of natural numbers, reduced only at the end. How the sums depend
on where they start gives the continuation of a checksum and the bytes in front that leave a checksum
unchanged (`adler32_append_left`).
-/

set_option autoImplicit false
set_option relaxedAutoImplicit false

namespace ZephyrThrift.Foundation

def adlerBase : ℕ := 65521

/-- The two sums behind more bytes, without reduction. -/
def plainSums (sums : ℕ × ℕ) (bytes : List UInt8) : ℕ × ℕ :=
  bytes.foldl (fun sums byte ↦ (sums.1 + byte.toNat, sums.2 + (sums.1 + byte.toNat))) sums

/-- The two sums behind more bytes, modulo the base. -/
def adlerSums (sums : ℕ × ℕ) (bytes : List UInt8) : ℕ × ℕ :=
  bytes.foldl (fun sums byte ↦
    ((sums.1 + byte.toNat) % adlerBase, (sums.2 + (sums.1 + byte.toNat) % adlerBase) % adlerBase)) sums

theorem adler32_eq (bytes : List UInt8) :
    adler32 bytes = (adlerSums (1, 0) bytes).2 * 2 ^ 16 + (adlerSums (1, 0) bytes).1 := rfl

@[simp] theorem plainSums_nil (sums : ℕ × ℕ) : plainSums sums [] = sums := rfl

theorem plainSums_cons (sums : ℕ × ℕ) (byte : UInt8) (bytes : List UInt8) :
    plainSums sums (byte :: bytes) =
      plainSums (sums.1 + byte.toNat, sums.2 + (sums.1 + byte.toNat)) bytes := rfl

theorem plainSums_append (sums : ℕ × ℕ) (first second : List UInt8) :
    plainSums sums (first ++ second) = plainSums (plainSums sums first) second :=
  List.foldl_append

@[simp] theorem adlerSums_nil (sums : ℕ × ℕ) : adlerSums sums [] = sums := rfl

theorem adlerSums_append (sums : ℕ × ℕ) (first second : List UInt8) :
    adlerSums sums (first ++ second) = adlerSums (adlerSums sums first) second :=
  List.foldl_append

/-- The sums are affine in where they start. -/
theorem plainSums_eq (bytes : List UInt8) : ∀ s1 s2, plainSums (s1, s2) bytes =
    (s1 + (plainSums (0, 0) bytes).1, s2 + bytes.length * s1 + (plainSums (0, 0) bytes).2) := by
  induction bytes with
  | nil => intro s1 s2; simp
  | cons byte bytes ih =>
    intro s1 s2
    rw [plainSums_cons, plainSums_cons, ih, ih (0 + byte.toNat)]
    simp only [List.length_cons, Prod.mk.injEq, Nat.mul_add, Nat.add_mul]
    omega

/-- The first sum adds the bytes, the second one the values that the first sum takes. -/
theorem plainSums_closed (bytes : List UInt8) : ∀ s1 s2, plainSums (s1, s2) bytes =
    (s1 + (bytes.map UInt8.toNat).sum, s2 + ((List.range bytes.length).map fun i ↦
      s1 + ((bytes.take (i + 1)).map UInt8.toNat).sum).sum) := by
  induction bytes with
  | nil => intro s1 s2; rfl
  | cons byte bytes ih =>
    intro s1 s2
    rw [plainSums_cons, ih, List.length_cons, List.range_succ_eq_map]
    simp only [List.map_cons, List.map_map, List.sum_cons, List.take_succ_cons, List.take_zero,
      List.map_nil, List.sum_nil, Function.comp_def, Nat.succ_eq_add_one, Nat.add_assoc, Nat.add_zero]

/-- The sums of bytes that fit a bound of 255. -/
theorem plainSums_le (bytes : List UInt8) :
    (plainSums (0, 0) bytes).1 ≤ 255 * bytes.length ∧
      2 * (plainSums (0, 0) bytes).2 ≤ 255 * (bytes.length * (bytes.length + 1)) := by
  induction bytes with
  | nil => simp
  | cons byte bytes ih =>
    have hbyte := byte.toNat_lt
    rw [plainSums_cons, plainSums_eq]
    simp only [List.length_cons]
    refine ⟨by omega, ?_⟩
    have hmul : bytes.length * (0 + byte.toNat) ≤ bytes.length * 255 :=
      Nat.mul_le_mul_left _ (by omega)
    have hsquare : (bytes.length + 1) * (bytes.length + 1 + 1) =
        bytes.length * (bytes.length + 1) + 2 * bytes.length + 2 := by ring
    omega

/-- The sums never fall. -/
theorem le_plainSums (bytes : List UInt8) (s1 s2 : ℕ) :
    s1 ≤ (plainSums (s1, s2) bytes).1 ∧ s2 ≤ (plainSums (s1, s2) bytes).2 := by
  rw [plainSums_eq]
  exact ⟨Nat.le_add_right _ _, by omega⟩

theorem adlerSums_eq (bytes : List UInt8) : ∀ s1 s2,
    adlerSums (s1 % adlerBase, s2 % adlerBase) bytes =
      ((plainSums (s1, s2) bytes).1 % adlerBase, (plainSums (s1, s2) bytes).2 % adlerBase) := by
  induction bytes with
  | nil => intro s1 s2; rfl
  | cons byte bytes ih =>
    intro s1 s2
    have hfirst : (s1 % adlerBase + byte.toNat) % adlerBase = (s1 + byte.toNat) % adlerBase :=
      Nat.mod_add_mod _ _ _
    have hsecond : (s2 % adlerBase + (s1 + byte.toNat) % adlerBase) % adlerBase =
        (s2 + (s1 + byte.toNat)) % adlerBase := (Nat.add_mod _ _ _).symm
    rw [plainSums_cons, ← ih, adlerSums, List.foldl_cons, hfirst, hsecond]
    rfl

theorem adlerSums_lt {s1 s2 : ℕ} (h1 : s1 < adlerBase) (h2 : s2 < adlerBase) (bytes : List UInt8) :
    (adlerSums (s1, s2) bytes).1 < adlerBase ∧ (adlerSums (s1, s2) bytes).2 < adlerBase := by
  have heq := adlerSums_eq bytes s1 s2
  rw [Nat.mod_eq_of_lt h1, Nat.mod_eq_of_lt h2] at heq
  rw [heq]
  exact ⟨Nat.mod_lt _ (by decide), Nat.mod_lt _ (by decide)⟩

theorem packed_sums_iff {a b : ℕ} (ha : a < 65521) (hb : b < 65521) (n s w : ℕ) :
    (b + n * a + w) % 65521 * 2 ^ 16 + (a + s) % 65521 =
      (0 + n * 1 + w) % 65521 * 2 ^ 16 + (1 + s) % 65521 ↔ b * 2 ^ 16 + a = 1 := by
  constructor
  · intro h
    have hfirst : a = 1 := by omega
    rw [hfirst] at h ⊢
    have hmod : (b + (n * 1 + w)) % 65521 = (0 + (n * 1 + w)) % 65521 := by
      rw [← Nat.add_assoc, ← Nat.add_assoc]
      omega
    have hsecond : b % 65521 = 0 % 65521 := Nat.ModEq.add_right_cancel' _ hmod
    rw [Nat.mod_eq_of_lt hb, Nat.zero_mod] at hsecond
    rw [hsecond, Nat.zero_mul]
  · intro h
    have hfirst : a = 1 := by omega
    have hsecond : b = 0 := by omega
    rw [hfirst, hsecond]

/-- Bytes in front do not change a checksum exactly when their own checksum is that of no bytes. -/
theorem adler32_append_left (front bytes : List UInt8) :
    adler32 (front ++ bytes) = adler32 bytes ↔ adler32 front = 1 := by
  have hlt := adlerSums_lt (show 1 < adlerBase by decide) (show 0 < adlerBase by decide) front
  rw [adler32_eq, adler32_eq, adler32_eq, adlerSums_append]
  generalize adlerSums (1, 0) front = sums at hlt ⊢
  obtain ⟨a, b⟩ := sums
  obtain ⟨ha, hb⟩ : a < adlerBase ∧ b < adlerBase := hlt
  have hfront := adlerSums_eq bytes a b
  have hnone := adlerSums_eq bytes 1 0
  rw [Nat.mod_eq_of_lt ha, Nat.mod_eq_of_lt hb, plainSums_eq] at hfront
  rw [Nat.mod_eq_of_lt (show 1 < adlerBase by decide), Nat.zero_mod, plainSums_eq] at hnone
  rw [hfront, hnone]
  exact packed_sums_iff ha hb _ _ _

/-- Four bytes hold a number of 32 bits. -/
theorem bigEndian_inj {first second : ℕ} (hfirst : first < 2 ^ 32) (hsecond : second < 2 ^ 32)
    (h : bigEndian first = bigEndian second) : first = second := by
  simp only [bigEndian, List.cons.injEq, and_true] at h
  obtain ⟨h3, h2, h1, h0⟩ := h
  have hbyte : ∀ a b : ℕ, UInt8.ofNat a = UInt8.ofNat b → a % 256 = b % 256 := by
    intro a b hab
    have := congrArg UInt8.toNat hab
    rwa [UInt8.toNat_ofNat', UInt8.toNat_ofNat'] at this
  have h3 := hbyte _ _ h3
  have h2 := hbyte _ _ h2
  have h1 := hbyte _ _ h1
  have h0 := hbyte _ _ h0
  omega

theorem adler32_lt (bytes : List UInt8) : adler32 bytes < 2 ^ 32 := by
  obtain ⟨h1, h2⟩ := adlerSums_lt (show 1 < adlerBase by decide) (show 0 < adlerBase by decide) bytes
  rw [adler32_eq]
  simp only [adlerBase] at h1 h2
  omega

end ZephyrThrift.Foundation
