import ZephyrThrift.Foundation.DeflateFormat

/-!
# The copies of a stream

The matches that the reference decoder finds in a stream, with the number of bytes in front of each:
what an implementation needs of its window to decode the stream.
-/

set_option autoImplicit false
set_option relaxedAutoImplicit false

namespace ZephyrThrift.Foundation

/-- A match: how many bytes are output in front of it, how far it reaches back and how many bytes it
copies. -/
structure Copy where
  front : ℕ
  back : ℕ
  count : ℕ
  deriving DecidableEq, Repr

/-- The copies of a compressed block, behind so many bytes. -/
def symbolCopies (literal distance : List ℕ) : ℕ → ℕ → List Bool → Option (List Copy)
  | 0, _, _ => none
  | fuel + 1, front, bits => do
    let (symbol, bits) ← takeSymbol literal bits
    if symbol < 256 then symbolCopies literal distance fuel (front + 1) bits
    else if symbol = 256 then return []
    else
      let ((count, back), bits) ← takeMatch distance symbol bits
      let copies ← symbolCopies literal distance fuel (front + count) bits
      return ⟨front, back, count⟩ :: copies

/-- The copies of a block of a given type. -/
def blockCopies (blockType front : ℕ) (bits : List Bool) : Option (List Copy) :=
  match blockType with
  | 0 => some []
  | 1 => symbolCopies fixedLiteralLengths fixedDistanceLengths (bits.length + 1) front bits
  | 2 =>
    match parseDynamicCodes bits with
    | .done (literal, distance) bits => symbolCopies literal distance (bits.length + 1) front bits
    | _ => none
  | _ => none

/-- The copies of the blocks up to the final one. -/
def blocksCopies : ℕ → List UInt8 → List Bool → Option (List Copy)
  | 0, _, _ => none
  | fuel + 1, output, bits => do
    let (final, bits) ← takeBits 1 bits
    let (blockType, bits) ← takeBits 2 bits
    let (output', bits') ← decodeBlock blockType output bits
    let copies ← blockCopies blockType output.length bits
    if final = 1 then return copies
    else
      let more ← blocksCopies fuel output' bits'
      return copies ++ more

/-- The copies of a zlib stream; there are none in one that is not well formed. -/
def zlibCopies : List UInt8 → List Copy
  | _ :: _ :: body => (blocksCopies (8 * body.length + 1) [] (bytesBits body)).getD []
  | _ => []

section Symbols

variable {literal distance : List ℕ} {bits bits' : List Bool} {symbol : ℕ} (fuel front : ℕ)

theorem symbolCopies_literal (htake : takeSymbol literal bits = some (symbol, bits'))
    (hlt : symbol < 256) : symbolCopies literal distance (fuel + 1) front bits =
      symbolCopies literal distance fuel (front + 1) bits' := by
  simp only [symbolCopies, htake, bind, Option.bind, if_pos hlt]

theorem symbolCopies_end (htake : takeSymbol literal bits = some (256, bits')) :
    symbolCopies literal distance (fuel + 1) front bits = some [] := by
  simp only [symbolCopies, htake, bind, Option.bind]
  rfl

theorem symbolCopies_match (htake : takeSymbol literal bits = some (symbol, bits'))
    (hlow : 256 < symbol) {count back : ℕ} {bits₁ : List Bool}
    (hmatch : takeMatch distance symbol bits' = some ((count, back), bits₁)) :
    symbolCopies literal distance (fuel + 1) front bits =
      (symbolCopies literal distance fuel (front + count) bits₁).map
        fun copies ↦ ⟨front, back, count⟩ :: copies := by
  simp only [symbolCopies, htake, hmatch, bind, Option.bind, if_neg (show ¬ symbol < 256 by omega),
    if_neg (show ¬ symbol = 256 by omega)]
  cases symbolCopies literal distance fuel (front + count) bits₁ <;> rfl

end Symbols

theorem blocksCopies_succ {fuel final blockType : ℕ} {output output' : List UInt8}
    {bits bits₁ bits₂ bits₃ : List Bool} {copies : List Copy}
    (hfinal : takeBits 1 bits = some (final, bits₁))
    (htype : takeBits 2 bits₁ = some (blockType, bits₂))
    (hblock : decodeBlock blockType output bits₂ = some (output', bits₃))
    (hcopies : blockCopies blockType output.length bits₂ = some copies) :
    blocksCopies (fuel + 1) output bits =
      if final = 1 then some copies
      else (blocksCopies fuel output' bits₃).map fun more ↦ copies ++ more := by
  simp only [blocksCopies, hfinal, htype, hblock, hcopies, bind, Option.bind]
  split
  · rfl
  · cases blocksCopies fuel output' bits₃ <;> rfl

/-! ### Well-formed streams -/

/-- Symbols that decode have copies. -/
theorem exists_symbolCopies {literal distance : List ℕ} (fuel : ℕ) :
    ∀ {history output : List UInt8} {bits rest : List Bool},
      decodeSymbols literal distance fuel history bits = some (output, rest) →
        ∃ copies, symbolCopies literal distance fuel history.length bits = some copies := by
  induction fuel with
  | zero => intro history output bits rest h; cases h
  | succ fuel ih =>
    intro history output bits rest h
    obtain ⟨symbol, bits', htake, ⟨hlt, h⟩ | ⟨rfl, -, -⟩ | ⟨hlow, count, back, bits₁, hmatch, -, h⟩⟩ :=
      decodeSymbols_succ h
    · obtain ⟨copies, hcopies⟩ := ih h
      rw [List.length_append, List.length_singleton] at hcopies
      exact ⟨copies, by rw [symbolCopies_literal fuel _ htake hlt, hcopies]⟩
    · exact ⟨[], symbolCopies_end fuel _ htake⟩
    · obtain ⟨copies, hcopies⟩ := ih h
      rw [List.length_append, length_overlap] at hcopies
      exact ⟨_, by rw [symbolCopies_match fuel _ htake hlow hmatch, hcopies]; rfl⟩

theorem decodeBlock_dynamic {history : List UInt8} {bits : List Bool}
    {result : List UInt8 × List Bool} (h : decodeBlock 2 history bits = some result) :
    ∃ literal distance bits', parseDynamicCodes bits = .done (literal, distance) bits' ∧
      decodeSymbols literal distance (bits'.length + 1) history bits' = some result := by
  simp only [decodeBlock] at h
  cases hparse : parseDynamicCodes bits with
  | done codes bits' =>
    simp only [hparse] at h
    exact ⟨codes.1, codes.2, bits', rfl, h⟩
  | short =>
    simp only [hparse] at h
    cases h
  | malformed =>
    simp only [hparse] at h
    cases h

theorem blockCopies_dynamic {front : ℕ} {bits bits' : List Bool} {literal distance : List ℕ}
    (h : parseDynamicCodes bits = .done (literal, distance) bits') :
    blockCopies 2 front bits = symbolCopies literal distance (bits'.length + 1) front bits' := by
  simp only [blockCopies, h]

theorem exists_blockCopies {blockType : ℕ} {history output : List UInt8} {bits rest : List Bool}
    (h : decodeBlock blockType history bits = some (output, rest)) :
    ∃ copies, blockCopies blockType history.length bits = some copies := by
  obtain rfl | rfl | rfl | hlarge : blockType = 0 ∨ blockType = 1 ∨ blockType = 2 ∨ 3 ≤ blockType := by
    omega
  · exact ⟨[], rfl⟩
  · exact exists_symbolCopies _ h
  · obtain ⟨literal, distance, bits', hparse, h⟩ := decodeBlock_dynamic h
    rw [blockCopies_dynamic hparse]
    exact exists_symbolCopies _ h
  · obtain ⟨more, rfl⟩ := Nat.exists_eq_add_of_le' hlarge
    cases h

theorem exists_blocksCopies (fuel : ℕ) :
    ∀ {history output : List UInt8} {bits rest : List Bool},
      decodeBlocks fuel history bits = some (output, rest) →
        ∃ copies, blocksCopies fuel history bits = some copies := by
  induction fuel with
  | zero => intro history output bits rest h; cases h
  | succ fuel ih =>
    intro history output bits rest h
    obtain ⟨final, bits₁, blockType, bits₂, middle, bits₃, hfinal, htype, hblock, hcases⟩ :=
      decodeBlocks_succ h
    obtain ⟨copies, hcopies⟩ := exists_blockCopies hblock
    rw [blocksCopies_succ hfinal htype hblock hcopies]
    rcases hcases with ⟨hlast, -⟩ | ⟨hmore, hrest⟩
    · exact ⟨copies, if_pos hlast⟩
    · obtain ⟨more, hmores⟩ := ih hrest
      rw [if_neg hmore, hmores]
      exact ⟨copies ++ more, rfl⟩

end ZephyrThrift.Foundation
