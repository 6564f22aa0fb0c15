import ZephyrThrift.Muzic.CodeLengths
import ZephyrThrift.Muzic.DeflateRuns

/-!
# What a chunk decodes to

The reference decoder reads what `deflate` makes of a chunk: a chunk that does not finish is two
blocks behind which the stream is still open (`openBlocks_chunk`), and one that finishes is a final
block and a checksum (`decodeBlocks_chunk`), in both cases with the chunk as its output.
-/

set_option autoImplicit false
set_option relaxedAutoImplicit false

namespace ZephyrThrift.Muzic

open Foundation

section Chunk

variable {tokens : List Token} {bits : List Bool} {input : List UInt8}

/-- The block in fixed codes, behind any output. -/
theorem decodeBlock_tokens (htokens : TokensBits fixedLiteralLengths fixedDistanceLengths tokens bits)
    (hvalid : ValidTokens 32768 [] tokens) (hexpand : expand [] tokens = input)
    (history : List UInt8) (rest : List Bool) :
    decodeBlock 1 history (bits ++ codeWord fixedLiteralLengths 256 ++ rest) =
      some (history ++ input, rest) := by
  have hbehind := expand_append_left history hvalid
  rw [List.append_nil, hexpand] at hbehind
  rw [List.append_assoc, ← hbehind.1]
  refine decodeSymbols_tokens kraftLe_fixedLiteralLengths kraftLe_fixedDistanceLengths
    (by decide +kernel) htokens rest hbehind.2 ?_
  have hle := htokens.length_le
  rw [List.length_append]
  omega

theorem takeBits_blockBits (final : Bool) (bits rest : List Bool) :
    ∃ bits₁, takeBits 1 (blockBits final bits ++ rest) = some (final.toNat, bits₁) ∧
      takeBits 2 bits₁ = some (1, bits ++ codeWord fixedLiteralLengths 256 ++ rest) := by
  have hbit : final.toNat % 2 ^ 1 = final.toNat := Nat.mod_eq_of_lt final.toNat_lt
  refine ⟨bitsOf 2 1 ++ (bits ++ codeWord fixedLiteralLengths 256 ++ rest), ?_,
    takeBits_bitsOf 2 1 _⟩
  rw [blockBits, List.append_assoc, List.append_assoc, takeBits_bitsOf, hbit]

/-- Behind the padding. -/
theorem alignBits_padding (bits : List Bool) (bytes : List UInt8) :
    alignBits (paddingBits bits ++ bytesBits bytes) = bytesBits bytes := by
  have hlength : (paddingBits bits).length = (8 - bits.length % 8) % 8 := List.length_replicate
  rw [alignBits, List.length_append, length_bytesBits, hlength]
  exact List.drop_left' (by rw [hlength]; omega)

/-- The empty stored block. -/
theorem decodeBlock_empty (history : List UInt8) (bits : List Bool) (more : List UInt8) :
    decodeBlock 0 history (paddingBits bits ++ bytesBits ([0x00, 0x00, 0xFF, 0xFF] ++ more)) =
      some (history, bytesBits more) := by
  have hzeros : valueOf (bytesBits [0x00, 0x00]) = 0 := by decide
  have hones : valueOf (bytesBits [0xFF, 0xFF]) = 2 ^ 16 - 1 - 0 := by decide
  have hlow := takeBits_append (bytesBits [0x00, 0x00]) (bytesBits [0xFF, 0xFF] ++ bytesBits more)
  have hhigh := takeBits_append (bytesBits [0xFF, 0xFF]) (bytesBits more)
  rw [hzeros, length_bytesBits] at hlow
  rw [hones, length_bytesBits] at hhigh
  have hsplit : bytesBits ([0x00, 0x00, 0xFF, 0xFF] ++ more) =
      bytesBits [0x00, 0x00] ++ (bytesBits [0xFF, 0xFF] ++ bytesBits more) := rfl
  simp only [decodeBlock, decodeStored, alignBits_padding]
  rw [hsplit]
  simp only [List.length_cons, List.length_nil] at hlow hhigh
  simp only [hlow, hhigh, bind, Option.bind]
  exact congrArg (fun output ↦ some (output, bytesBits more)) (List.append_nil history)

/-- A chunk that does not finish, behind the header of the stream or without one. -/
theorem openBlocks_chunk {flush : Flush} (hflush : flush ≠ .finish) {first : Bool} {adlerV : ℕ}
    {bytes : List UInt8} (h : ChunkBytes flush first adlerV input bytes) :
    ∃ body, bytes = chunkHeader flush first ++ body ∧ ∀ history more,
      OpenBlocks history (bytesBits (body ++ more)) (history ++ input) (bytesBits more) := by
  obtain ⟨tokens, bits, body, htokens, hvalid, hexpand, rfl, hbody⟩ := h
  rw [decide_eq_false hflush, closingBits, if_neg hflush] at hbody
  refine ⟨body ++ closingBytes flush adlerV, List.append_assoc _ _ _, fun history more ↦ ?_⟩
  rw [closingBytes, if_neg hflush, List.append_assoc, bytesBits_append, hbody, List.append_assoc,
    List.append_assoc]
  obtain ⟨bits₁, hfinal, htype⟩ := takeBits_blockBits false bits (bitsOf 3 0 ++
    (paddingBits (blockBits false bits ++ bitsOf 3 0) ++
      bytesBits ([0x00, 0x00, 0xFF, 0xFF] ++ more)))
  exact .cons hfinal htype (decodeBlock_tokens htokens hvalid hexpand history _)
    (.cons (takeBits_bitsOf 1 0 _) (takeBits_bitsOf 2 0 _) (decodeBlock_empty _ _ more) (.nil _ _))

/-- A chunk that finishes is a stream of its own, with a checksum at its end. -/
theorem decodeBlocks_chunk {first : Bool} {adlerV : ℕ} {bytes : List UInt8}
    (h : ChunkBytes .finish first adlerV input bytes) :
    ∃ body, bytes = 0x78 :: 0x01 :: body ∧ ∀ more, ∃ bits,
      (∀ fuel, decodeBlocks (fuel + 1) [] (bytesBits (body ++ more)) = some (input, bits)) ∧
        takeBytes 4 (alignBits bits) = some (closingBytes .finish adlerV, bytesBits more) := by
  obtain ⟨tokens, bits, body, htokens, hvalid, hexpand, rfl, hbody⟩ := h
  have hclosing : closingBits .finish = [] := rfl
  rw [decide_eq_true rfl, hclosing, List.append_nil] at hbody
  refine ⟨body ++ closingBytes .finish adlerV, rfl, fun more ↦
    ⟨paddingBits (blockBits true bits) ++ bytesBits (closingBytes .finish adlerV ++ more),
      fun fuel ↦ ?_, ?_⟩⟩
  · rw [List.append_assoc, bytesBits_append, hbody, List.append_assoc]
    obtain ⟨bits₁, hfinal, htype⟩ := takeBits_blockBits true bits
      (paddingBits (blockBits true bits) ++ bytesBits (closingBytes .finish adlerV ++ more))
    have hblock := decodeBlock_tokens htokens hvalid hexpand []
      (paddingBits (blockBits true bits) ++ bytesBits (closingBytes .finish adlerV ++ more))
    simp only [decodeBlocks, hfinal, htype, hblock, bind, Option.bind]
    rfl
  · rw [alignBits_padding]
    exact takeBytes_append (closingBytes .finish adlerV) more

end Chunk

end ZephyrThrift.Muzic
