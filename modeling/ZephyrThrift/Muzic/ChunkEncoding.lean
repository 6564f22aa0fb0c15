import ZephyrThrift.Muzic.Matching

/-!
# What one chunk becomes

`deflate` turns a chunk into the header of the stream where one is due, one block in fixed Huffman
codes whose tokens stand for the chunk, and either an empty stored block or the checksum, all of it
whole bytes (`encodeChunk_spec`). Nothing can fail on the way.
-/

set_option autoImplicit false
set_option relaxedAutoImplicit false

namespace ZephyrThrift.Muzic

open Foundation

/-! ### The parts of a chunk -/

/-- The header of the stream, in front of the first chunk and of a chunk that finishes. -/
def chunkHeader (flush : Flush) (first : Bool) : List UInt8 :=
  if flush = .finish ∨ first = true then [0x78, 0x01] else []

/-- A block in fixed Huffman codes, around the bits of its tokens. -/
def blockBits (final : Bool) (bits : List Bool) : List Bool :=
  bitsOf 1 final.toNat ++ bitsOf 2 1 ++ (bits ++ codeWord fixedLiteralLengths 256)

/-- The header of the empty stored block behind a chunk that does not finish. -/
def closingBits (flush : Flush) : List Bool := if flush = .finish then [] else bitsOf 3 0

/-- The lengths of the empty stored block, or the checksum. -/
def closingBytes (flush : Flush) (adlerV : ℕ) : List UInt8 :=
  if flush = .finish then [byteAt adlerV 24, byteAt adlerV 16, byteAt adlerV 8, byteAt adlerV 0]
  else [0x00, 0x00, 0xFF, 0xFF]

/-- The bytes of a chunk: `first` says whether a header is due. -/
def ChunkBytes (flush : Flush) (first : Bool) (adlerV : ℕ) (input bytes : List UInt8) : Prop :=
  ∃ tokens bits body, TokensBits fixedLiteralLengths fixedDistanceLengths tokens bits ∧
    ValidTokens 32768 [] tokens ∧ expand [] tokens = input ∧
    bytes = chunkHeader flush first ++ body ++ closingBytes flush adlerV ∧
    bytesBits body = blockBits (decide (flush = .finish)) bits ++ closingBits flush ++
      paddingBits (blockBits (decide (flush = .finish)) bits ++ closingBits flush)

/-! ### The passes of the encoder -/

/-- The start of `encodeChunk`, up to the matcher. -/
def openChunk (build : Build) (flush : Flush) (first : Bool) (out : UzlibComp) :
    Except Fault UzlibComp :=
  (if flush = .finish ∨ first = true then
    outbits build out 0x78 8 >>= (outbits build · 0x01 8) else .ok out) >>= fun out ↦
  outbits build { out with compDisabled := false } (decide (flush = .finish)).toNat 1 >>=
    (outbits build · 1 2)

/-- The end of `encodeChunk`, behind the matcher. -/
def closeChunk (build : Build) (flush : Flush) (adlerV : ℕ) (out : UzlibComp) :
    Except Fault UzlibComp :=
  outbits build out 0 7 >>= fun out ↦
    if flush = .finish then
      (outbits build out 0 7 >>= (out4bytes · (byteAt adlerV 24) (byteAt adlerV 16) (byteAt adlerV 8)
        (byteAt adlerV 0))) >>= fun out ↦ .ok { out with compDisabled := true }
    else
      outbits build out 0 3 >>= (outbits build · 0 7) >>= (out4bytes · 0x00 0x00 0xFF 0xFF)

theorem encodeChunk_eq (build : Build) (ustate : UzlibComp) (input : List UInt8) (flush : Flush)
    (adlerV : ℕ) :
    encodeChunk build ustate input flush adlerV =
      openChunk build flush ustate.compDisabled { ustate with
        outlen := 0, outsize := 0, outbits := 0, noutbits := 0, hashTable := fun _ ↦ none } >>=
      (uzlibCompress build · input) >>= (closeChunk build flush adlerV ·) := by
  by_cases hfinish : flush = .finish
  · subst hfinish
    simp only [encodeChunk, openChunk, closeChunk, zlibStartBlock, zlibFinishBlock, true_or,
      if_true, ne_eq, not_true_eq_false, if_false, decide_true, Bool.toNat_true, bind_assoc]
    rfl
  · by_cases hfirst : ustate.compDisabled = true
    · simp only [encodeChunk, openChunk, closeChunk, hfinish, hfirst, or_true, if_true, ne_eq,
        not_false_eq_true, if_false, decide_false, Bool.toNat_false, bind_assoc]
    · simp only [encodeChunk, openChunk, closeChunk, hfinish, hfirst, if_true, ne_eq,
        not_false_eq_true, if_false, decide_false, Bool.toNat_false, bind_assoc]
      rfl

/-- What `encodeChunk` keeps of the state. -/
structure KeptByChunk (out out' : UzlibComp) : Prop where
  hashBits : out'.hashBits = out.hashBits
  dictSize : out'.dictSize = out.dictSize

theorem KeptByMatcher.byChunk {out out' : UzlibComp} (h : KeptByMatcher out out') :
    KeptByChunk out out' := ⟨h.hashBits, h.dictSize⟩

theorem KeptByChunk.trans {first second third : UzlibComp} (h : KeptByChunk first second)
    (h' : KeptByChunk second third) : KeptByChunk first third :=
  ⟨h'.hashBits.trans h.hashBits, h'.dictSize.trans h.dictSize⟩

theorem Emitted.enable {out : UzlibComp} {bits : List Bool} (h : Emitted out bits) :
    Emitted { out with compDisabled := false } bits := by
  obtain ⟨bytes, pending, hwritten, hpending, hbits⟩ := h
  exact ⟨bytes, pending, ⟨hwritten.buffer, hwritten.outlen, hwritten.noutbits, hwritten.outbits⟩,
    hpending, hbits⟩

theorem openChunk_spec (build : Build) (flush : Flush) (first : Bool) {out : UzlibComp}
    (h : Emitted out []) :
    ∃ out', openChunk build flush first out = .ok out' ∧ out'.compDisabled = false ∧
      KeptByChunk out out' ∧
      Emitted out' (bytesBits (chunkHeader flush first) ++
        (bitsOf 1 (decide (flush = .finish)).toNat ++ bitsOf 2 1)) := by
  obtain ⟨out₁, hheader, hemitted₁, hkept₁⟩ : ∃ out₁,
      (if flush = .finish ∨ first = true then
        outbits build out 0x78 8 >>= (outbits build · 0x01 8) else .ok out) = .ok out₁ ∧
      Emitted out₁ (bytesBits (chunkHeader flush first)) ∧ Kept out out₁ := by
    by_cases hdue : flush = .finish ∨ first = true
    · obtain ⟨middle, hmiddle, hemitted, hkept⟩ :=
        outbits_emitted build h (show 0x78 < 2 ^ 8 by norm_num) (by norm_num)
      obtain ⟨out₁, hout₁, hemitted₁, hkept₁⟩ :=
        outbits_emitted build hemitted (show 0x01 < 2 ^ 8 by norm_num) (by norm_num)
      refine ⟨out₁, ?_, ?_, hkept.trans hkept₁⟩
      · rw [if_pos hdue, hmiddle]
        exact hout₁
      · rw [chunkHeader, if_pos hdue]
        exact hemitted₁
    · rw [if_neg hdue, chunkHeader, if_neg hdue]
      exact ⟨out, rfl, h, Kept.refl out⟩
  have hfinal : (decide (flush = .finish)).toNat < 2 ^ 1 := by
    cases decide (flush = .finish) <;> decide
  obtain ⟨out₂, hout₂, hemitted₂, hkept₂⟩ :=
    outbits_emitted build hemitted₁.enable hfinal (by norm_num)
  obtain ⟨out₃, hout₃, hemitted₃, hkept₃⟩ :=
    outbits_emitted build hemitted₂ (show 1 < 2 ^ 2 by norm_num) (by norm_num)
  have hkept := hkept₂.trans hkept₃
  refine ⟨out₃, ?_, hkept.compDisabled, ⟨hkept.hashBits.trans hkept₁.hashBits,
    hkept.dictSize.trans hkept₁.dictSize⟩, by rwa [← List.append_assoc]⟩
  rw [openChunk, hheader]
  simp only [bind, Except.bind, hout₂, hout₃]

theorem closeChunk_spec (build : Build) (flush : Flush) (adlerV : ℕ) {out : UzlibComp}
    {before : List Bool} (h : Emitted out before) (henabled : out.compDisabled = false) :
    ∃ out' bytes, closeChunk build flush adlerV out = .ok out' ∧
      out'.outbuf = some ⟨bytes ++ closingBytes flush adlerV, 0, true⟩ ∧
      out'.outlen = (bytes ++ closingBytes flush adlerV).length ∧
      out'.compDisabled = decide (flush = .finish) ∧ KeptByChunk out out' ∧
      bytesBits bytes = before ++ codeWord fixedLiteralLengths 256 ++ closingBits flush ++
        paddingBits (before ++ codeWord fixedLiteralLengths 256 ++ closingBits flush) := by
  obtain ⟨out₁, hout₁, hemitted₁, hkept₁⟩ :=
    outbits_emitted build h (show 0 < 2 ^ 7 by norm_num) (show 7 ≤ 24 by norm_num)
  rw [show bitsOf 7 0 = codeWord fixedLiteralLengths 256 from codeWord_from_256 0 (by norm_num)]
    at hemitted₁
  by_cases hfinish : flush = .finish
  · subst hfinish
    obtain ⟨out₂, bytes, pending, hout₂, hwritten, hbytes, hkept₂⟩ := outbits_align build hemitted₁
    obtain ⟨size, hout₃⟩ := out4bytes_spec hwritten (byteAt adlerV 24) (byteAt adlerV 16)
      (byteAt adlerV 8) (byteAt adlerV 0)
    have hkept := hkept₁.trans hkept₂
    rw [closingBytes, closingBits, if_pos rfl, if_pos rfl]
    refine ⟨{ out₂.holding (bytes ++ [byteAt adlerV 24, byteAt adlerV 16, byteAt adlerV 8,
      byteAt adlerV 0]) size with compDisabled := true }, bytes, ?_, rfl, rfl, rfl,
      ⟨hkept.hashBits, hkept.dictSize⟩, ?_⟩
    · simp only [closeChunk, hout₁, hout₂, hout₃, bind, Except.bind, if_true]
    · rw [hbytes, List.append_nil]
  · obtain ⟨out₂, hout₂, hemitted₂, hkept₂⟩ :=
      outbits_emitted build hemitted₁ (show 0 < 2 ^ 3 by norm_num) (show 3 ≤ 24 by norm_num)
    obtain ⟨out₃, bytes, pending, hout₃, hwritten, hbytes, hkept₃⟩ := outbits_align build hemitted₂
    obtain ⟨size, hout₄⟩ := out4bytes_spec hwritten 0x00 0x00 0xFF 0xFF
    have hkept := (hkept₁.trans hkept₂).trans hkept₃
    rw [closingBytes, closingBits, if_neg hfinish, if_neg hfinish, decide_eq_false hfinish]
    refine ⟨out₃.holding (bytes ++ [0x00, 0x00, 0xFF, 0xFF]) size, bytes, ?_, rfl, rfl,
      hkept.compDisabled.trans henabled,
      ⟨hkept.hashBits, hkept.dictSize⟩, hbytes⟩
    simp only [closeChunk, hout₁, hout₂, hout₃, hout₄, bind, Except.bind, if_neg hfinish]

/-! ### The whole chunk -/

/-- Whole bytes in front of bits. -/
theorem bytesBits_eq_append {front bytes : List UInt8} {bits : List Bool}
    (h : bytesBits bytes = bytesBits front ++ bits) :
    ∃ body, bytes = front ++ body ∧ bytesBits body = bits := by
  have hlength := congrArg List.length h
  rw [List.length_append, length_bytesBits, length_bytesBits] at hlength
  refine ⟨bytes.drop front.length, ?_, ?_⟩
  · apply bytesBits_injective
    rw [bytesBits_append, drop_bytesBits, h, List.drop_left' (length_bytesBits front)]
  · rw [drop_bytesBits, h, List.drop_left' (length_bytesBits front)]

theorem paddingBits_bytes (front : List UInt8) (bits : List Bool) :
    paddingBits (bytesBits front ++ bits) = paddingBits bits := by
  rw [paddingBits, paddingBits, List.length_append, length_bytesBits, Nat.mul_add_mod]

/-- A state between chunks: no output is pending, and the matcher has its parameters. -/
structure Idle (ustate : UzlibComp) : Prop where
  outbuf : ustate.outbuf = none
  dictSize : ustate.dictSize = 32768

/-- Every chunk is encoded, whatever its bytes. -/
theorem encodeChunk_spec (build : Build) {ustate : UzlibComp} (h : Idle ustate) (input : List UInt8)
    (flush : Flush) (adlerV : ℕ) :
    ∃ ustate' bytes, encodeChunk build ustate input flush adlerV = .ok ustate' ∧
      ustate'.outbuf = some ⟨bytes, 0, true⟩ ∧ ustate'.outlen = bytes.length ∧
      ustate'.compDisabled = decide (flush = .finish) ∧ KeptByChunk ustate ustate' ∧
      ChunkBytes flush ustate.compDisabled adlerV input bytes := by
  have hstart : Emitted { ustate with
      outlen := 0, outsize := 0, outbits := 0, noutbits := 0, hashTable := fun _ ↦ none } [] :=
    ⟨[], [], ⟨.inr ⟨h.outbuf, rfl, rfl⟩, rfl, rfl, rfl⟩, by norm_num, rfl⟩
  obtain ⟨out₁, hout₁, henabled₁, hkept₁, hemitted₁⟩ :=
    openChunk_spec build flush ustate.compDisabled hstart
  obtain ⟨out₂, tokens, bits, hout₂, hkept₂, htokens, hemitted₂, hvalid, hexpand⟩ :=
    @uzlibCompress_spec build input _ _ henabled₁ (hkept₁.dictSize.trans h.dictSize) hemitted₁
  obtain ⟨out₃, bytes, hout₃, hbuf, hlen, hdisabled, hkept₃, hbytes⟩ :=
    closeChunk_spec build flush adlerV hemitted₂ (hkept₂.compDisabled.trans henabled₁)
  have hkept := (hkept₁.trans hkept₂.byChunk).trans hkept₃
  refine ⟨out₃, _, ?_, hbuf, hlen, hdisabled, ⟨hkept.hashBits, hkept.dictSize⟩, ?_⟩
  · rw [encodeChunk_eq, hout₁]
    simp only [bind, Except.bind, hout₂, hout₃]
  · simp only [List.append_assoc, paddingBits_bytes] at hbytes
    obtain ⟨body, rfl, hbody⟩ := bytesBits_eq_append hbytes
    refine ⟨tokens, bits, body, htokens, hvalid, hexpand, rfl, ?_⟩
    simpa only [blockBits, List.append_assoc] using hbody

end ZephyrThrift.Muzic
