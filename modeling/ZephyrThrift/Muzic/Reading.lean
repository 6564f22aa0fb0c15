import ZephyrThrift.Muzic.CodeLengths
import ZephyrThrift.Muzic.ReaderSuspension

/-!
# What the readers read

`InfBS.Faces limit bitstream bits` says that the bit buffer and the input behind it hold the given
bits, with at most `limit` of them in the buffer. Where the bits start with a number or a code word,
the readers hand it out and face the bits behind it; where they end too early, the readers fail
without a fault.
-/

set_option autoImplicit false
set_option relaxedAutoImplicit false

namespace ZephyrThrift.Muzic

open Foundation

namespace InfBS

/-- The bits that have not been read: those in the buffer, and those of the input. -/
def view (bitstream : InfBS) : List Bool :=
  bitsOf bitstream.size bitstream.bits ++ bytesBits bitstream.input

structure Faces (limit : ℕ) (bitstream : InfBS) (bits : List Bool) : Prop where
  view : bitstream.view = bits
  low : bitstream.bits < 2 ^ bitstream.size
  small : bitstream.size ≤ limit

@[simp] theorem length_view (bitstream : InfBS) :
    bitstream.view.length = bitstream.size + 8 * bitstream.input.length := by
  rw [InfBS.view, List.length_append, length_bitsOf, length_bytesBits]

/-- The buffer is the low part of the number in front. -/
theorem valueOf_view_mod {bitstream : InfBS} (hlow : bitstream.bits < 2 ^ bitstream.size) :
    valueOf bitstream.view % 2 ^ bitstream.size = bitstream.bits := by
  rw [InfBS.view, valueOf_append, length_bitsOf, Nat.add_mul_mod_self_left, valueOf_bitsOf,
    Nat.mod_mod, Nat.mod_eq_of_lt hlow]

theorem loadByte_eq {bits size : ℕ} (hlow : bits < 2 ^ size) (hsize : size + 8 ≤ 32) (byte : UInt8) :
    loadByte bits size byte = .ok (bits + 2 ^ size * byte.toNat) := by
  have hbyte : byte.toNat * 2 ^ size < 2 ^ 32 := by
    have hpow : 2 ^ (size + 8) ≤ 2 ^ 32 := Nat.pow_le_pow_right (by norm_num) hsize
    have hlt := Nat.mul_lt_mul_of_pos_right byte.toNat_lt (Nat.two_pow_pos size)
    rw [pow_add, Nat.mul_comm] at hpow
    omega
  rw [loadByte, if_pos (by omega), Nat.shiftLeft_eq, Nat.mod_eq_of_lt hbyte, Nat.or_comm,
    Nat.mul_comm, ← Nat.two_pow_add_eq_or_of_lt hlow, Nat.add_comm]

theorem loaded_lt {bits size : ℕ} (hlow : bits < 2 ^ size) (byte : UInt8) :
    bits + 2 ^ size * byte.toNat < 2 ^ (size + 8) := by
  have hle : 2 ^ size * byte.toNat ≤ 2 ^ size * 255 :=
    Nat.mul_le_mul_left _ (Nat.le_of_lt_succ byte.toNat_lt)
  rw [pow_add]
  omega

/-- Loading a byte does not change what has not been read. -/
theorem view_load {bits size : ℕ} (hlow : bits < 2 ^ size) (byte : UInt8) (input : List UInt8) :
    (InfBS.mk (bits + 2 ^ size * byte.toNat) (size + 8) input).view =
      (InfBS.mk bits size (byte :: input)).view := by
  simp only [InfBS.view, bytesBits_cons]
  rw [bitsOf_add_mul hlow, List.append_assoc]

/-- What the loading loop leaves. -/
structure Loaded (count : ℕ) (before after : InfBS) : Prop where
  view : after.view = before.view
  low : after.bits < 2 ^ after.size
  size : after.size = before.size ∨ after.size < count + 8
  aligned : after.size % 8 = before.size % 8

theorem loadUpTo_spec (count : ℕ) (input : List UInt8) :
    ∀ bits size, bits < 2 ^ size → count ≤ 25 ∨ count = 32 ∧ size % 8 = 0 →
      ∃ after, loadUpTo count bits size input =
          .ok (decide (count ≤ size + 8 * input.length), after) ∧
        Loaded count ⟨bits, size, input⟩ after ∧
        (count ≤ size + 8 * input.length → count ≤ after.size) := by
  induction input with
  | nil =>
    intro bits size hlow _
    exact ⟨_, rfl, ⟨rfl, hlow, .inl rfl, rfl⟩, fun h ↦ h⟩
  | cons byte input ih =>
    intro bits size hlow hcount
    rw [loadUpTo]
    by_cases hmore : size < count
    · rw [if_pos hmore, loadByte_eq hlow (by omega)]
      obtain ⟨after, hload, hloaded, henough⟩ := ih _ _ (loaded_lt hlow byte) (by omega)
      rw [show size + 8 + 8 * input.length = size + 8 * (byte :: input).length by
        rw [List.length_cons]; omega] at hload henough
      refine ⟨after, hload, ⟨?_, hloaded.low, ?_, ?_⟩, henough⟩
      · rw [hloaded.view, view_load hlow]
      · rcases hloaded.size with heq | hlt
        · exact .inr (by rw [heq]; simp only; omega)
        · exact .inr hlt
      · rw [hloaded.aligned]
        simp only [Nat.add_mod_right]
    · rw [if_neg hmore, decide_eq_true (by omega)]
      exact ⟨_, rfl, ⟨rfl, hlow, .inl rfl, rfl⟩, fun _ ↦ by simp only; omega⟩

/-- Dropping bits from the buffer drops them from what has not been read. -/
theorem view_drop {size count : ℕ} (h : count ≤ size) (bits : ℕ) (input : List UInt8) :
    (InfBS.mk (bits >>> count) (size - count) input).view =
      (InfBS.mk bits size input).view.drop count := by
  simp only [InfBS.view]
  rw [List.drop_append_of_le_length (by rw [length_bitsOf]; exact h), drop_bitsOf h,
    Nat.shiftRight_eq_div_pow]

theorem dropped_lt {bits size count : ℕ} (hlow : bits < 2 ^ size) (h : count ≤ size) :
    bits >>> count < 2 ^ (size - count) := by
  rw [Nat.shiftRight_eq_div_pow, Nat.div_lt_iff_lt_mul (Nat.two_pow_pos _), ← pow_add,
    Nat.sub_add_cancel h]
  exact hlow

/-- `readBits` hands out the number that comes next. -/
theorem Faces.readBits {limit count : ℕ} {bitstream : InfBS} {bits : List Bool}
    (h : bitstream.Faces limit bits) (hlimit : 7 ≤ limit) (hcount : count ≤ 25) {value : ℕ}
    {rest : List Bool} (htake : takeBits count bits = some (value, rest)) :
    ∃ after, bitstream.readBits count = .ok (some value, after) ∧ after.Faces limit rest := by
  obtain ⟨chunk, hsplit, hlength, hvalue⟩ := takeBits_eq_some.mp htake
  obtain ⟨⟨bits', size', input'⟩, hload, hloaded, henough⟩ :=
    loadUpTo_spec count bitstream.input bitstream.bits bitstream.size h.low (.inl hcount)
  have hlong : count ≤ bitstream.size + 8 * bitstream.input.length := by
    rw [← length_view, h.view, hsplit, List.length_append]
    omega
  have hsize := henough hlong
  have hview : (InfBS.mk bits' size' input').view = chunk ++ rest := by
    rw [hloaded.view, ← hsplit]
    exact h.view
  rw [decide_eq_true hlong] at hload
  refine ⟨⟨bits' >>> count, size' - count, input'⟩, ?_, ?_, dropped_lt hloaded.low hsize, ?_⟩
  · have hbits : bits' &&& (1 <<< count - 1) = value := by
      rw [Nat.one_shiftLeft, Nat.and_two_pow_sub_one_eq_mod, ← hvalue]
      have hwhole : valueOf (InfBS.mk bits' size' input').view % 2 ^ size' = bits' :=
        valueOf_view_mod hloaded.low
      rw [← hwhole, Nat.mod_mod_of_dvd _ (pow_dvd_pow 2 hsize), hview, valueOf_append, hlength,
        Nat.add_mul_mod_self_left, Nat.mod_eq_of_lt (hlength ▸ valueOf_lt chunk)]
    simp only [InfBS.readBits, hload, hbits]
  · rw [view_drop hsize, hview, List.drop_left' hlength]
  · have hsmall := h.small
    rcases hloaded.size with heq | hlt
    · simp only at heq ⊢
      omega
    · simp only at hlt ⊢
      omega

/-- Where the bits end too early, `readBits` waits. -/
theorem Faces.readBits_none {limit count : ℕ} {bitstream : InfBS} {bits : List Bool}
    (h : bitstream.Faces limit bits) (hcount : count ≤ 25) (htake : takeBits count bits = none) :
    ∃ after, bitstream.readBits count = .ok (none, after) := by
  obtain ⟨after, hload, -, -⟩ :=
    loadUpTo_spec count bitstream.input bitstream.bits bitstream.size h.low (.inl hcount)
  have hshort : ¬ count ≤ bitstream.size + 8 * bitstream.input.length := by
    rw [← length_view, h.view]
    intro hle
    rw [takeBits, if_pos hle] at htake
    cases htake
  rw [decide_eq_false hshort] at hload
  exact ⟨after, by simp only [InfBS.readBits, hload]⟩

/-- `readDWord` drops the padding and hands out the next 32 bits. -/
theorem Faces.readDWord (build : Build) {limit : ℕ} {bitstream : InfBS} {bits : List Bool}
    (h : bitstream.Faces limit bits) (hlimit : limit ≤ 32) {value : ℕ} {rest : List Bool}
    (htake : takeBits 32 (alignBits bits) = some (value, rest)) :
    ∃ input, bitstream.readDWord build = .ok (some value, ⟨0, 0, input⟩) ∧
      bytesBits input = rest := by
  obtain ⟨chunk, hsplit, hlength, hvalue⟩ := takeBits_eq_some.mp htake
  have hskip : bitstream.size % 8 ≤ bitstream.size := Nat.mod_le _ _
  have hpadding : bits.length % 8 = bitstream.size % 8 := by
    rw [← h.view, length_view, Nat.add_mul_mod_self_left]
  have hstart : (InfBS.mk (bitstream.bits >>> (bitstream.size % 8))
      (bitstream.size - bitstream.size % 8) bitstream.input).view = chunk ++ rest := by
    rw [view_drop hskip, ← hsplit, alignBits, hpadding, ← h.view]
  obtain ⟨⟨bits', size', input'⟩, hload, hloaded, henough⟩ :=
    loadUpTo_spec 32 bitstream.input _ _ (dropped_lt h.low hskip) (.inr ⟨rfl, by omega⟩)
  have hlong : 32 ≤ bitstream.size - bitstream.size % 8 + 8 * bitstream.input.length := by
    have hlen := congrArg List.length hstart
    rw [length_view, List.length_append, hlength] at hlen
    simp only at hlen
    omega
  have hsize : size' = 32 := by
    have hge := henough hlong
    have hsmall := h.small
    have haligned := hloaded.aligned
    simp only at hge haligned
    rcases hloaded.size with heq | hlt
    · simp only at heq
      omega
    · simp only at hlt
      omega
  subst hsize
  rw [decide_eq_true hlong] at hload
  have hview := hloaded.view
  rw [hstart, InfBS.view] at hview
  obtain ⟨hchunk, hrest⟩ := List.append_inj hview (by rw [length_bitsOf, hlength])
  have hbits : bits' = value := by
    rw [← hvalue, ← hchunk, valueOf_bitsOf, Nat.mod_eq_of_lt hloaded.low]
  exact ⟨input', by simp only [InfBS.readDWord, hload, beq_self_eq_true, Build.assert_true, hbits],
    hrest⟩

theorem takeCode_value {length : ℕ} (h : length < 32) (code bits size : ℕ) (input : List UInt8) :
    takeCode (InfHuff.value length code) ⟨bits, size, input⟩ =
      .ok (some code, ⟨bits >>> length, size - length, input⟩) := by
  have hdrop : dropBits bits (InfHuff.value length code).length = .ok (bits >>> length) := if_pos h
  simp only [takeCode, hdrop]
  rfl

section Symbols

variable {table : HuffTable} {lengths : List ℕ} {symbol : ℕ}

/-- The entry found in front of a code word, some of whose bits may be missing. -/
theorem infHuffDecode_view (hdecodes : Decodes table lengths) (hpos : 0 < lengthAt lengths symbol)
    {bitstream : InfBS} {rest tail : List Bool} (hlow : bitstream.bits < 2 ^ bitstream.size)
    (hview : codeWord lengths symbol ++ rest = bitstream.view ++ tail) :
    (lengthAt lengths symbol ≤ bitstream.size →
      infHuffDecode table bitstream.bits =
        .ok (InfHuff.value (lengthAt lengths symbol) symbol)) ∧
    (bitstream.size < lengthAt lengths symbol →
      ∃ entry, infHuffDecode table bitstream.bits = .ok entry ∧ bitstream.size < entry.length) := by
  have hword := valueOf_codeWord_append lengths symbol rest
  have hbits : valueOf (codeWord lengths symbol ++ rest) % 2 ^ bitstream.size = bitstream.bits := by
    have hsplit : 2 ^ bitstream.view.length = 2 ^ bitstream.size * 2 ^ (8 * bitstream.input.length) := by
      rw [length_view, pow_add]
    rw [hview, valueOf_append, hsplit, Nat.mul_assoc, Nat.add_mul_mod_self_left,
      valueOf_view_mod hlow]
  constructor
  · intro hle
    refine hdecodes.full symbol _ hpos ?_
    rw [← hbits, Nat.mod_mod_of_dvd _ (pow_dvd_pow 2 hle), hword]
  · intro hlt
    have hshort := hdecodes.short symbol _ bitstream.size hpos hword hlt
    rwa [hbits] at hshort

/-- The loop of `readEncodedBits`, in front of a code word or of its first bits. -/
theorem readEncodedLoop_spec (hdecodes : Decodes table lengths) (hpos : 0 < lengthAt lengths symbol)
    (hmax : lengthAt lengths symbol ≤ maxCodeLength) (rest tail : List Bool)
    (input : List UInt8) :
    ∀ bits size, bits < 2 ^ size →
      codeWord lengths symbol ++ rest = (InfBS.mk bits size input).view ++ tail →
        (lengthAt lengths symbol ≤ size + 8 * input.length →
          ∃ after, readEncodedLoop table bits size input = .ok (some symbol, after) ∧
            after.view = (InfBS.mk bits size input).view.drop (lengthAt lengths symbol) ∧
            after.bits < 2 ^ after.size ∧
            (after.size < 8 ∨ after.size + lengthAt lengths symbol ≤ size)) ∧
        (size + 8 * input.length < lengthAt lengths symbol →
          ∃ after, readEncodedLoop table bits size input = .ok (none, after)) := by
  have hmax15 : lengthAt lengths symbol ≤ 15 := hmax
  -- a buffer that holds the whole code word
  have hdone : ∀ (input : List UInt8) (bits size : ℕ), bits < 2 ^ size →
      codeWord lengths symbol ++ rest = (InfBS.mk bits size input).view ++ tail →
        lengthAt lengths symbol ≤ size →
          readEncodedLoop table bits size input = .ok (some symbol,
            ⟨bits >>> lengthAt lengths symbol, size - lengthAt lengths symbol, input⟩) := by
    intro input bits size hlow hview hle
    have hentry := (infHuffDecode_view hdecodes hpos hlow hview).1 hle
    simp only at hentry
    rw [readEncodedLoop_eq, hentry]
    exact (if_neg (not_lt.mpr hle)).trans (takeCode_value (by omega) _ _ _ _)
  induction input with
  | nil =>
    intro bits size hlow hview
    constructor
    · intro hle
      rw [List.length_nil] at hle
      exact ⟨_, hdone _ _ _ hlow hview hle, view_drop hle _ _, dropped_lt hlow hle,
        .inr (Nat.sub_add_cancel hle).le⟩
    · intro hlt
      rw [List.length_nil] at hlt
      obtain ⟨entry, hentry, hlonger⟩ := (infHuffDecode_view hdecodes hpos hlow hview).2 hlt
      simp only at hentry hlonger
      exact ⟨_, by rw [readEncodedLoop_eq, hentry]; exact if_pos hlonger⟩
  | cons byte input ih =>
    intro bits size hlow hview
    rcases le_or_gt (lengthAt lengths symbol) size with hle | hlt
    · exact ⟨fun _ ↦ ⟨_, hdone _ _ _ hlow hview hle, view_drop hle _ _, dropped_lt hlow hle,
        .inr (Nat.sub_add_cancel hle).le⟩, fun hshort ↦ absurd hshort (by omega)⟩
    · obtain ⟨entry, hentry, hlonger⟩ := (infHuffDecode_view hdecodes hpos hlow hview).2 hlt
      simp only at hentry hlonger
      have hstep : readEncodedLoop table bits size (byte :: input) =
          readEncodedLoop table (bits + 2 ^ size * byte.toNat) (size + 8) input := by
        rw [readEncodedLoop_eq, hentry]
        simp only [if_pos hlonger, loadByte_eq hlow (show size + 8 ≤ 32 by omega)]
      have hload := view_load hlow byte input
      obtain ⟨hlong, hshort⟩ := ih _ _ (loaded_lt hlow byte) (by rw [hload]; exact hview)
      rw [hstep, List.length_cons, show size + 8 * (input.length + 1) = size + 8 + 8 * input.length by
        omega]
      refine ⟨fun hle ↦ ?_, hshort⟩
      obtain ⟨after, hread, hafter, hlow', hsmall⟩ := hlong hle
      rw [hload] at hafter
      exact ⟨after, hread, hafter, hlow', by omega⟩

/-- `readEncodedBits` enters its loop with a byte in the buffer, if there is one. -/
theorem readEncodedBits_eq (table : HuffTable) {bitstream : InfBS} (hlow : bitstream.bits < 2 ^ bitstream.size)
    (hview : bitstream.view ≠ []) :
    ∃ bits size input, bitstream.readEncodedBits table = readEncodedLoop table bits size input ∧
      bits < 2 ^ size ∧ (InfBS.mk bits size input).view = bitstream.view ∧
      (size = bitstream.size ∨ size = 8) := by
  obtain ⟨bits, size, input⟩ := bitstream
  rcases Nat.eq_zero_or_pos size with rfl | hpos
  · cases input with
    | nil => exact absurd rfl hview
    | cons byte input =>
      have hload := loadByte_eq hlow (show 0 + 8 ≤ 32 by norm_num) byte
      exact ⟨_, 8, input, by simp only [InfBS.readEncodedBits, if_true, hload], loaded_lt hlow byte,
        view_load hlow byte input, .inr rfl⟩
  · exact ⟨bits, size, input, readEncodedBits_of_size _ hpos.ne', hlow, rfl, .inl rfl⟩

/-- `readEncodedBits` hands out the symbol whose code word comes next. -/
theorem Faces.readEncodedBits {limit : ℕ} {bitstream : InfBS} {bits : List Bool}
    (h : bitstream.Faces limit bits) (hlimit : 7 ≤ limit) (hdecodes : Decodes table lengths)
    (hmax : ∀ length ∈ lengths, length ≤ maxCodeLength) {rest : List Bool}
    (htake : takeSymbol lengths bits = some (symbol, rest)) :
    ∃ after, bitstream.readEncodedBits table = .ok (some symbol, after) ∧
      after.Faces limit rest := by
  obtain ⟨hpos, hbits⟩ := takeSymbol_some htake
  have hlong := congrArg List.length hbits
  rw [← h.view, length_view, List.length_append, length_codeWord] at hlong
  have hne : bitstream.view ≠ [] := by
    intro hnil
    have := congrArg List.length hnil
    rw [length_view, List.length_nil] at this
    omega
  obtain ⟨bits', size', input', hread, hlow', hview', hsize'⟩ :=
    readEncodedBits_eq table h.low hne
  have hsame := congrArg List.length hview'
  rw [length_view, length_view] at hsame
  simp only at hsame
  obtain ⟨after, hloop, hafter, hlow, hsmall⟩ := (readEncodedLoop_spec hdecodes hpos
    (hmax _ (lengthAt_mem hpos)) rest [] input' bits' size' hlow'
    (by rw [List.append_nil, hview', h.view, hbits])).1 (by omega)
  refine ⟨after, hread.trans hloop, ⟨?_, hlow, ?_⟩⟩
  · rw [hafter, hview', h.view, hbits, List.drop_left' (length_codeWord lengths symbol)]
  · have := h.small
    omega

/-- Where the bits end within a code word, `readEncodedBits` waits. -/
theorem Faces.readEncodedBits_none {limit : ℕ} {bitstream : InfBS} {bits : List Bool}
    (h : bitstream.Faces limit bits) (hdecodes : Decodes table lengths)
    (hmax : ∀ length ∈ lengths, length ≤ maxCodeLength) (hpos : 0 < lengthAt lengths symbol)
    {tail : List Bool} (hword : codeWord lengths symbol = bits ++ tail) (htail : tail ≠ []) :
    ∃ after, bitstream.readEncodedBits table = .ok (none, after) := by
  by_cases hne : bitstream.view = []
  · have hlength := congrArg List.length hne
    rw [length_view, List.length_nil] at hlength
    refine ⟨bitstream, ?_⟩
    rw [InfBS.readEncodedBits, if_pos (by omega),
      List.length_eq_zero_iff.mp (show bitstream.input.length = 0 by omega)]
  · obtain ⟨bits', size', input', hread, hlow', hview', -⟩ :=
      readEncodedBits_eq table h.low hne
    have hshort := congrArg List.length hword
    rw [length_codeWord, List.length_append, ← h.view, ← hview', length_view] at hshort
    have hmore := List.length_pos_of_ne_nil htail
    simp only at hshort
    obtain ⟨after, hloop⟩ := (readEncodedLoop_spec hdecodes hpos
      (hmax _ (lengthAt_mem hpos)) [] tail input' bits' size' hlow'
      (by rw [List.append_nil, hview', h.view, hword])).2 (by omega)
    exact ⟨after, hread.trans hloop⟩

end Symbols

end InfBS

end ZephyrThrift.Muzic
