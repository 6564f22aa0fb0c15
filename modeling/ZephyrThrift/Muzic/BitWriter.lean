import ZephyrThrift.Foundation.BitList
import ZephyrThrift.Muzic.Deflate

/-!
# What the bit writer appends

The buffer of the compressor and the bits that do not fill a byte yet are one bit list (`Emitted`).
`outbits` appends the low bits of a number to it, without a fault (`outbits_emitted`), and the padding
in front of `out4bytes` fills it up to a whole number of bytes (`outbits_align`).
-/

set_option autoImplicit false
set_option relaxedAutoImplicit false

namespace ZephyrThrift.Muzic

open Foundation

/-- What writing leaves alone. -/
structure Kept (out out' : UzlibComp) : Prop where
  compDisabled : out'.compDisabled = out.compDisabled
  hashTable : out'.hashTable = out.hashTable
  hashBits : out'.hashBits = out.hashBits
  dictSize : out'.dictSize = out.dictSize

theorem Kept.refl (out : UzlibComp) : Kept out out := ⟨rfl, rfl, rfl, rfl⟩

theorem Kept.trans {first second third : UzlibComp} (h : Kept first second)
    (h' : Kept second third) : Kept first third :=
  ⟨h'.compDisabled.trans h.compDisabled, h'.hashTable.trans h.hashTable,
    h'.hashBits.trans h.hashBits, h'.dictSize.trans h.dictSize⟩

/-- The whole bytes in the buffer, and the bits behind them. -/
structure Written (out : UzlibComp) (bytes : List UInt8) (pending : List Bool) : Prop where
  buffer : out.outbuf = some ⟨bytes, 0, true⟩ ∨ out.outbuf = none ∧ bytes = [] ∧ out.outsize = 0
  outlen : out.outlen = bytes.length
  noutbits : out.noutbits = pending.length
  outbits : out.outbits = valueOf pending

/-- The bits written so far. -/
def Emitted (out : UzlibComp) (bits : List Bool) : Prop :=
  ∃ bytes pending, Written out bytes pending ∧ pending.length < 8 ∧ bits = bytesBits bytes ++ pending

/-- The same compressor with a buffer of `size` bytes that holds the given ones. -/
def UzlibComp.holding (out : UzlibComp) (bytes : List UInt8) (size : ℕ) : UzlibComp :=
  { out with outbuf := some ⟨bytes, 0, true⟩, outlen := bytes.length, outsize := size }

theorem appendByte_holding (out : UzlibComp) {bytes : List UInt8} {size : ℕ}
    (hroom : bytes.length < size) (byte : UInt8) :
    appendByte (out.holding bytes size) byte = .ok (out.holding (bytes ++ [byte]) size) := by
  have hlength : bytes.length + 1 = (bytes ++ [byte]).length := by
    rw [List.length_append, List.length_singleton]
  rw [appendByte, UzlibComp.holding, UzlibComp.holding, ← hlength]
  exact if_pos ⟨rfl, rfl, rfl, hroom⟩

section Writing

variable {out : UzlibComp} {bytes : List UInt8} {pending : List Bool}

theorem reallocOut_eq (h : Written out bytes pending) :
    reallocOut out.outbuf = .ok ⟨bytes, 0, true⟩ := by
  rcases h.buffer with hsome | ⟨hnone, rfl, -⟩
  · rw [hsome]
    rfl
  · rw [hnone]
    rfl

theorem Written.eq_holding (h : Written out bytes pending) (hroom : 0 < out.outsize) :
    out = out.holding bytes out.outsize := by
  have hsome := h.buffer.resolve_right fun hnone ↦ hroom.ne' hnone.2.2
  rw [UzlibComp.holding, ← hsome, ← h.outlen]

theorem growOutbuf_spec (h : Written out bytes pending) :
    ∃ size, bytes.length < size ∧ growOutbuf out = .ok (out.holding bytes size) := by
  rw [growOutbuf]
  by_cases hfull : out.outsize ≤ out.outlen
  · refine ⟨out.outlen + 64, by rw [h.outlen]; omega, ?_⟩
    rw [if_pos hfull, reallocOut_eq h, UzlibComp.holding, ← h.outlen]
  · rw [if_neg hfull]
    exact ⟨out.outsize, h.outlen ▸ not_le.mp hfull,
      congrArg Except.ok (h.eq_holding (by omega))⟩

theorem valueOf_mod (count : ℕ) (bits : List Bool) :
    valueOf bits % 2 ^ count = valueOf (bits.take count) := by
  by_cases h : count ≤ bits.length
  · have hlow := valueOf_lt (bits.take count)
    conv_lhs => rw [← List.take_append_drop count bits, valueOf_append]
    rw [List.length_take, min_eq_left h] at hlow ⊢
    rw [Nat.add_mul_mod_self_left, Nat.mod_eq_of_lt hlow]
  · rw [List.take_of_length_le (by omega)]
    exact Nat.mod_eq_of_lt ((valueOf_lt bits).trans_le (Nat.pow_le_pow_right (by norm_num) (by omega)))

theorem valueOf_shiftRight (count : ℕ) (bits : List Bool) :
    valueOf bits >>> count = valueOf (bits.drop count) := by
  rw [Nat.shiftRight_eq_div_pow]
  by_cases h : count ≤ bits.length
  · have hlow := valueOf_lt (bits.take count)
    conv_lhs => rw [← List.take_append_drop count bits, valueOf_append]
    rw [List.length_take, min_eq_left h] at hlow ⊢
    rw [Nat.add_mul_div_left _ _ (Nat.two_pow_pos count), Nat.div_eq_of_lt hlow, Nat.zero_add]
  · rw [List.drop_of_length_le (by omega)]
    exact Nat.div_eq_of_lt ((valueOf_lt bits).trans_le (Nat.pow_le_pow_right (by norm_num) (by omega)))

/-- The next eight bits make the next byte. -/
theorem bytesBits_next (bytes : List UInt8) {pending : List Bool} (h : 8 ≤ pending.length) :
    bytesBits (bytes ++ [UInt8.ofNat (valueOf pending % 256)]) =
      bytesBits bytes ++ pending.take 8 := by
  have hlength : (pending.take 8).length = 8 := by rw [List.length_take, min_eq_left h]
  have hbyte : (UInt8.ofNat (valueOf pending % 256)).toNat = valueOf (pending.take 8) := by
    rw [show 256 = 2 ^ 8 by norm_num, valueOf_mod, UInt8.toNat_ofNat_of_lt']
    have hlt := valueOf_lt (pending.take 8)
    rwa [hlength] at hlt
  have hbits := bitsOf_valueOf (pending.take 8)
  rw [hlength] at hbits
  rw [bytesBits_append, bytesBits_cons, bytesBits_nil, List.append_nil, hbyte, hbits]

theorem flushBytes_spec (fuel : ℕ) :
    ∀ {out : UzlibComp} {bytes : List UInt8} {pending : List Bool}, Written out bytes pending →
      pending.length < fuel →
        ∃ out', flushBytes fuel out = .ok out' ∧ Emitted out' (bytesBits bytes ++ pending) ∧
          Kept out out' := by
  induction fuel with
  | zero => intro out bytes pending _ hfuel; exact absurd hfuel (Nat.not_lt_zero _)
  | succ fuel ih =>
    intro out bytes pending h hfuel
    rw [flushBytes, h.noutbits]
    by_cases hwhole : 8 ≤ pending.length
    · obtain ⟨size, hroom, hgrow⟩ := growOutbuf_spec h
      have happend := appendByte_holding out hroom (UInt8.ofNat (out.outbits % 256))
      have hnext : Written { out.holding (bytes ++ [UInt8.ofNat (out.outbits % 256)]) size with
          outbits := out.outbits >>> 8, noutbits := out.noutbits - 8 }
          (bytes ++ [UInt8.ofNat (out.outbits % 256)]) (pending.drop 8) :=
        ⟨.inl rfl, rfl, by rw [h.noutbits, List.length_drop],
          by rw [h.outbits, valueOf_shiftRight]⟩
      obtain ⟨out', hflush, hemitted, hkept⟩ := ih hnext (by rw [List.length_drop]; omega)
      refine ⟨out', ?_, ?_, ⟨hkept.compDisabled, hkept.hashTable, hkept.hashBits,
        hkept.dictSize⟩⟩
      · rw [if_pos hwhole, hgrow]
        dsimp only [UzlibComp.holding] at happend hflush ⊢
        rw [happend]
        exact hflush
      · rwa [h.outbits, bytesBits_next bytes hwhole, List.append_assoc, List.take_append_drop]
          at hemitted
    · rw [if_neg hwhole]
      exact ⟨out, rfl, ⟨bytes, pending, h, not_le.mp hwhole, rfl⟩, Kept.refl out⟩

end Writing

/-- `outbits` appends the low bits of a number. -/
theorem outbits_emitted (build : Build) {out : UzlibComp} {before : List Bool}
    (h : Emitted out before) {value nbits : ℕ} (hvalue : value < 2 ^ nbits) (hnbits : nbits ≤ 24) :
    ∃ out', outbits build out value nbits = .ok out' ∧ Emitted out' (before ++ bitsOf nbits value) ∧
      Kept out out' := by
  obtain ⟨bytes, pending, hwritten, hpending, rfl⟩ := h
  have hvalueOf : out.outbits ||| value <<< out.noutbits = valueOf (pending ++ bitsOf nbits value) := by
    rw [hwritten.outbits, hwritten.noutbits, Nat.or_comm,
      ← Nat.shiftLeft_add_eq_or_of_lt (valueOf_lt pending), valueOf_append, valueOf_bitsOf,
      Nat.mod_eq_of_lt hvalue, Nat.shiftLeft_eq]
    ring
  have hall : Written { out with
      outbits := out.outbits ||| value <<< out.noutbits, noutbits := out.noutbits + nbits }
      bytes (pending ++ bitsOf nbits value) :=
    ⟨hwritten.buffer, hwritten.outlen, by simp [hwritten.noutbits], hvalueOf⟩
  have hfits : decide (out.noutbits + nbits ≤ 32) = true := by
    rw [decide_eq_true_eq, hwritten.noutbits]
    omega
  obtain ⟨out', hflush, hemitted, hkept⟩ := flushBytes_spec (out.noutbits + nbits + 1) hall
    (by rw [List.length_append, length_bitsOf, hwritten.noutbits]; exact Nat.lt_succ_self _)
  rw [← List.append_assoc] at hemitted
  refine ⟨out', ?_, hemitted, ⟨hkept.compDisabled, hkept.hashTable, hkept.hashBits, hkept.dictSize⟩⟩
  rw [outbits, hfits, Build.assert_true]
  exact hflush

/-! ### Sequences of writes -/

/-- A write of the given bits, by a compressor that is not disabled. -/
def Appends (write : UzlibComp → Except Fault UzlibComp) (bits : List Bool) : Prop :=
  ∀ out before, out.compDisabled = false → Emitted out before →
    ∃ out', write out = .ok out' ∧ Emitted out' (before ++ bits) ∧ Kept out out'

theorem appends_outbits (build : Build) {value nbits : ℕ} (hvalue : value < 2 ^ nbits)
    (hnbits : nbits ≤ 24) :
    Appends (fun out ↦ outbits build out value nbits) (bitsOf nbits value) :=
  fun _ _ _ h ↦ outbits_emitted build h hvalue hnbits

theorem appends_ok : Appends .ok [] := by
  intro out before _ h
  exact ⟨out, rfl, by rwa [List.append_nil], Kept.refl out⟩

theorem Appends.bind {first second : UzlibComp → Except Fault UzlibComp} {bits bits' : List Bool}
    (h : Appends first bits) (h' : Appends second bits') :
    Appends (fun out ↦ first out >>= second) (bits ++ bits') := by
  intro out before hdisabled hemitted
  obtain ⟨middle, hfirst, hmiddle, hkept⟩ := h out before hdisabled hemitted
  obtain ⟨out', hsecond, hemitted', hkept'⟩ :=
    h' middle _ (hkept.compDisabled.trans hdisabled) hmiddle
  refine ⟨out', ?_, by rwa [← List.append_assoc], hkept.trans hkept'⟩
  dsimp only
  rw [hfirst]
  exact hsecond

/-! ### Whole bytes -/

/-- The padding up to a whole number of bytes. -/
def paddingBits (bits : List Bool) : List Bool := List.replicate ((8 - bits.length % 8) % 8) false

/-- Seven zero bits fill the last byte up. -/
theorem outbits_align (build : Build) {out : UzlibComp} {before : List Bool}
    (h : Emitted out before) :
    ∃ out' bytes pending, outbits build out 0 7 = .ok out' ∧ Written out' bytes pending ∧
      bytesBits bytes = before ++ paddingBits before ∧ Kept out out' := by
  obtain ⟨out', hout, ⟨bytes, pending, hwritten, hpending, hbits⟩, hkept⟩ :=
    outbits_emitted build h (show 0 < 2 ^ 7 by norm_num) (show 7 ≤ 24 by norm_num)
  refine ⟨out', bytes, pending, hout, hwritten, ?_, hkept⟩
  have hzeros : bitsOf 7 0 = List.replicate 7 false := rfl
  have hlength := congrArg List.length hbits
  rw [hzeros, List.length_append, List.length_append, List.length_replicate, length_bytesBits]
    at hlength
  have hwhole : (bytesBits bytes ++ pending).take (8 * bytes.length) = bytesBits bytes :=
    List.take_left' (length_bytesBits bytes)
  rw [← hwhole, ← hbits, hzeros, List.take_append,
    List.take_of_length_le (by omega), List.take_replicate, paddingBits]
  congr 2
  omega

theorem out4bytes_spec {out : UzlibComp} {bytes : List UInt8} {pending : List Bool}
    (h : Written out bytes pending) (st nd rd th : UInt8) :
    ∃ size, out4bytes out st nd rd th = .ok (out.holding (bytes ++ [st, nd, rd, th]) size) := by
  have hbytes : ∀ size, bytes.length + 4 ≤ size →
      (do
        let out ← appendByte (out.holding bytes size) st
        let out ← appendByte out nd
        let out ← appendByte out rd
        appendByte out th) = .ok (out.holding (bytes ++ [st, nd, rd, th]) size) := by
    intro size hsize
    have hfirst := appendByte_holding out (show bytes.length < size by omega) st
    have hsecond := appendByte_holding out (show (bytes ++ [st]).length < size by
      rw [List.length_append, List.length_singleton]; omega) nd
    have hthird := appendByte_holding out (show (bytes ++ [st] ++ [nd]).length < size by
      simp only [List.length_append, List.length_singleton]; omega) rd
    have hfourth := appendByte_holding out (show (bytes ++ [st] ++ [nd] ++ [rd]).length < size by
      simp only [List.length_append, List.length_singleton]; omega) th
    simp only [bind, Except.bind, hfirst, hsecond, hthird, hfourth]
    simp only [List.append_assoc, List.cons_append, List.nil_append]
  rw [out4bytes]
  dsimp only
  by_cases hsmall : out.outsize < out.outlen + 4
  · have hgrown : { out with outsize := out.outlen + 4, outbuf := some ⟨bytes, 0, true⟩ } =
        out.holding bytes (out.outlen + 4) := by
      rw [UzlibComp.holding, ← h.outlen]
    refine ⟨out.outlen + 4, ?_⟩
    rw [if_pos hsmall, reallocOut_eq h]
    simp only [bind, Except.bind, pure, Except.pure]
    rw [hgrown]
    exact hbytes _ (by rw [h.outlen])
  · refine ⟨out.outsize, ?_⟩
    rw [if_neg hsmall]
    simp only [bind, Except.bind, pure, Except.pure]
    rw [h.eq_holding (by omega)]
    exact hbytes _ (by rw [← h.outlen]; omega)

end ZephyrThrift.Muzic
