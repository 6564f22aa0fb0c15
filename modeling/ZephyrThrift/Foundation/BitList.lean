import Mathlib

/-!
# Numbers as bit lists

Bit lists are read least significant bit first. `bitsOf` cuts the low bits of a number into a list,
`valueOf` puts a list together again, and `reverseBits` is the number whose low bits stand in the
opposite order, which is how a code word transmitted most significant bit first looks to a reader
that takes the least significant bit first.
-/

set_option autoImplicit false
set_option relaxedAutoImplicit false

namespace ZephyrThrift.Foundation

/-- The low `count` bits of a number, least significant bit first. -/
def bitsOf : ℕ → ℕ → List Bool
  | 0, _ => []
  | count + 1, value => decide (value % 2 = 1) :: bitsOf count (value / 2)

/-- The number with the given bits, least significant bit first. -/
def valueOf : List Bool → ℕ
  | [] => 0
  | bit :: bits => bit.toNat + 2 * valueOf bits

@[simp] theorem length_bitsOf (count value : ℕ) : (bitsOf count value).length = count := by
  induction count generalizing value with
  | zero => rfl
  | succ count ih => simp [bitsOf, ih]

theorem valueOf_bitsOf (count value : ℕ) : valueOf (bitsOf count value) = value % 2 ^ count := by
  induction count generalizing value with
  | zero => simp [bitsOf, valueOf, Nat.mod_one]
  | succ count ih =>
    have hbit : (decide (value % 2 = 1)).toNat = value % 2 := by
      rcases Nat.mod_two_eq_zero_or_one value with h | h <;> simp [h]
    rw [bitsOf, valueOf, ih, hbit, pow_succ', Nat.mod_mul]

theorem valueOf_lt (bits : List Bool) : valueOf bits < 2 ^ bits.length := by
  induction bits with
  | nil => simp [valueOf]
  | cons bit bits ih =>
    have hbit : bit.toNat ≤ 1 := by cases bit <;> simp
    simp only [valueOf, List.length_cons, pow_succ]
    omega

theorem bitsOf_valueOf (bits : List Bool) : bitsOf bits.length (valueOf bits) = bits := by
  induction bits with
  | nil => rfl
  | cons bit bits ih =>
    have hhead : decide ((bit.toNat + 2 * valueOf bits) % 2 = 1) = bit := by
      cases bit <;> simp
    have htail : (bit.toNat + 2 * valueOf bits) / 2 = valueOf bits := by
      have hbit : bit.toNat < 2 := by cases bit <;> simp
      omega
    simp only [List.length_cons, bitsOf, valueOf, hhead, htail, ih]

theorem valueOf_append (first second : List Bool) :
    valueOf (first ++ second) = valueOf first + 2 ^ first.length * valueOf second := by
  induction first with
  | nil => simp [valueOf]
  | cons bit first ih =>
    simp only [List.cons_append, valueOf, ih, List.length_cons, pow_succ']
    ring

theorem bitsOf_add (first second value : ℕ) :
    bitsOf (first + second) value = bitsOf first value ++ bitsOf second (value / 2 ^ first) := by
  induction first generalizing value with
  | zero => simp [bitsOf]
  | succ first ih =>
    rw [Nat.succ_add, bitsOf, ih, bitsOf, List.cons_append, Nat.div_div_eq_div_mul, ← pow_succ']

theorem bitsOf_mod (count value : ℕ) : bitsOf count (value % 2 ^ count) = bitsOf count value := by
  have h := bitsOf_valueOf (bitsOf count value)
  rwa [length_bitsOf, valueOf_bitsOf] at h

theorem take_bitsOf {count total : ℕ} (h : count ≤ total) (value : ℕ) :
    (bitsOf total value).take count = bitsOf count value := by
  obtain ⟨rest, rfl⟩ := Nat.exists_eq_add_of_le h
  rw [bitsOf_add, List.take_left' (length_bitsOf count value)]

theorem drop_bitsOf {count total : ℕ} (h : count ≤ total) (value : ℕ) :
    (bitsOf total value).drop count = bitsOf (total - count) (value / 2 ^ count) := by
  obtain ⟨rest, rfl⟩ := Nat.exists_eq_add_of_le h
  rw [bitsOf_add, List.drop_left' (length_bitsOf count value), Nat.add_sub_cancel_left]

/-- Two numbers below `2 ^ count` with the same bits are equal. -/
theorem eq_of_bitsOf_eq {count first second : ℕ} (hfirst : first < 2 ^ count)
    (hsecond : second < 2 ^ count) (h : bitsOf count first = bitsOf count second) :
    first = second := by
  have hvalue := congrArg valueOf h
  rwa [valueOf_bitsOf, valueOf_bitsOf, Nat.mod_eq_of_lt hfirst, Nat.mod_eq_of_lt hsecond] at hvalue

/-- A second number put above the low bits of a first. -/
theorem bitsOf_add_mul {count : ℕ} {low : ℕ} (hlow : low < 2 ^ count) (extra high : ℕ) :
    bitsOf (count + extra) (low + 2 ^ count * high) = bitsOf count low ++ bitsOf extra high := by
  have hpos : 0 < 2 ^ count := Nat.two_pow_pos count
  rw [bitsOf_add, Nat.add_mul_div_left _ _ hpos, Nat.div_eq_of_lt hlow, Nat.zero_add]
  congr 1
  rw [← bitsOf_mod, Nat.add_mul_mod_self_left, bitsOf_mod]

/-- The bits of a byte sequence, byte by byte. -/
def bytesBits (bytes : List UInt8) : List Bool := bytes.flatMap fun byte ↦ bitsOf 8 byte.toNat

@[simp] theorem bytesBits_nil : bytesBits [] = [] := rfl

@[simp] theorem bytesBits_cons (byte : UInt8) (bytes : List UInt8) :
    bytesBits (byte :: bytes) = bitsOf 8 byte.toNat ++ bytesBits bytes := rfl

@[simp] theorem bytesBits_append (first second : List UInt8) :
    bytesBits (first ++ second) = bytesBits first ++ bytesBits second :=
  List.flatMap_append

@[simp] theorem length_bytesBits (bytes : List UInt8) :
    (bytesBits bytes).length = 8 * bytes.length := by
  induction bytes with
  | nil => rfl
  | cons byte bytes ih =>
    rw [bytesBits_cons, List.length_append, length_bitsOf, ih, List.length_cons]
    ring

theorem drop_bytesBits (count : ℕ) (bytes : List UInt8) :
    bytesBits (bytes.drop count) = (bytesBits bytes).drop (8 * count) := by
  rcases le_or_gt count bytes.length with h | h
  · conv_rhs => rw [← List.take_append_drop count bytes, bytesBits_append]
    rw [List.drop_left']
    rw [length_bytesBits, List.length_take, min_eq_left h]
  · rw [List.drop_eq_nil_of_le (by omega), bytesBits_nil,
      List.drop_eq_nil_of_le (by rw [length_bytesBits]; omega)]

/-- Byte sequences with the same bits are equal. -/
theorem bytesBits_injective : Function.Injective bytesBits := by
  intro first
  induction first with
  | nil =>
    intro second h
    have hlength := congrArg List.length h
    rw [length_bytesBits, length_bytesBits, List.length_nil] at hlength
    exact (List.length_eq_zero_iff.mp (by omega)).symm
  | cons byte first ih =>
    intro second h
    cases second with
    | nil =>
      have hlength := congrArg List.length h
      simp at hlength
    | cons other second =>
      rw [bytesBits_cons, bytesBits_cons] at h
      obtain ⟨hhead, htail⟩ := List.append_inj h (by simp)
      have hbyte := eq_of_bitsOf_eq byte.toNat_lt other.toNat_lt hhead
      rw [UInt8.toNat_inj.mp hbyte, ih htail]

/-! ### Reversal -/

/-- The low `count` bits of a number in the opposite order. -/
def reverseBits : ℕ → ℕ → ℕ
  | 0, _ => 0
  | count + 1, value => value % 2 * 2 ^ count + reverseBits count (value / 2)

theorem reverseBits_lt (count value : ℕ) : reverseBits count value < 2 ^ count := by
  induction count generalizing value with
  | zero => simp [reverseBits]
  | succ count ih =>
    have hlow := ih (value / 2)
    have hbit : value % 2 ≤ 1 := by omega
    have hmul : value % 2 * 2 ^ count ≤ 1 * 2 ^ count := Nat.mul_le_mul_right _ hbit
    rw [reverseBits, pow_succ]
    omega

theorem reverseBits_add (first second value : ℕ) :
    reverseBits (first + second) value =
      reverseBits first value * 2 ^ second + reverseBits second (value / 2 ^ first) := by
  induction first generalizing value with
  | zero => simp [reverseBits]
  | succ first ih =>
    rw [Nat.succ_add, reverseBits, ih, reverseBits, Nat.div_div_eq_div_mul, ← pow_succ', pow_add]
    ring

theorem reverseBits_add_div (first second value : ℕ) :
    reverseBits (first + second) value / 2 ^ second = reverseBits first value := by
  rw [reverseBits_add, Nat.mul_comm, Nat.mul_add_div (Nat.two_pow_pos second),
    Nat.div_eq_of_lt (reverseBits_lt second _), Nat.add_zero]

theorem reverseBits_mod (count value : ℕ) :
    reverseBits count (value % 2 ^ count) = reverseBits count value := by
  induction count generalizing value with
  | zero => rfl
  | succ count ih =>
    have hdiv : value % 2 ^ (count + 1) / 2 = value / 2 % 2 ^ count := by
      rw [pow_succ', Nat.mod_mul_right_div_self]
    have hmod : value % 2 ^ (count + 1) % 2 = value % 2 :=
      Nat.mod_mod_of_dvd value (dvd_pow_self 2 (Nat.succ_ne_zero count))
    rw [reverseBits, hdiv, hmod, ih, reverseBits]

/-- Reversal read from the other end. -/
theorem reverseBits_succ (count value : ℕ) :
    reverseBits (count + 1) value = 2 * reverseBits count value + value / 2 ^ count % 2 := by
  rw [reverseBits_add]
  simp [reverseBits, Nat.mul_comm]

theorem reverseBits_reverseBits (count : ℕ) :
    ∀ value, value < 2 ^ count → reverseBits count (reverseBits count value) = value := by
  induction count with
  | zero => intro value h; simp [reverseBits] at h ⊢; omega
  | succ count ih =>
    intro value h
    have hsmall : value / 2 < 2 ^ count := by rw [pow_succ] at h; omega
    have hlow := reverseBits_lt count (value / 2)
    have hbit : value % 2 < 2 := Nat.mod_lt _ (by norm_num)
    rw [reverseBits_succ, reverseBits, Nat.mul_comm (value % 2), Nat.mul_add_div (by positivity),
      Nat.div_eq_of_lt hlow, Nat.add_zero, ← reverseBits_mod, Nat.mul_add_mod, reverseBits_mod,
      ih _ hsmall]
    omega

theorem reverseBits_eq_iff {count : ℕ} {value code : ℕ} (hcode : code < 2 ^ count) :
    reverseBits count value = code ↔ value % 2 ^ count = reverseBits count code := by
  constructor
  · intro h
    rw [← h, ← reverseBits_mod count value,
      reverseBits_reverseBits count _ (Nat.mod_lt _ (Nat.two_pow_pos count))]
  · intro h
    rw [← reverseBits_mod, h, reverseBits_reverseBits count code hcode]

/-- A code word sent most significant bit first has the reversed number as its value. -/
theorem valueOf_reverse_bitsOf (count value : ℕ) :
    valueOf (bitsOf count value).reverse = reverseBits count value := by
  induction count generalizing value with
  | zero => rfl
  | succ count ih =>
    have hbit : (decide (value % 2 = 1)).toNat = value % 2 := by
      rcases Nat.mod_two_eq_zero_or_one value with h | h <;> simp [h]
    rw [bitsOf, List.reverse_cons, valueOf_append, ih, List.length_reverse, length_bitsOf,
      valueOf, valueOf, hbit, reverseBits]
    ring

end ZephyrThrift.Foundation
