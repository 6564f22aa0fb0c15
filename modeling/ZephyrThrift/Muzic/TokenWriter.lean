import ZephyrThrift.Foundation.Tokens
import ZephyrThrift.Muzic.BitWriter

/-!
# Tokens in fixed Huffman codes

`zlib_literal` and `zlib_match` append the bits of their tokens in the fixed alphabets, whatever the
alignment: a literal one code word (`appends_zlibLiteral`), a match the code words and extra bits of
matches at the same distance that make up its length (`appends_zlibMatch`).
-/

set_option autoImplicit false
set_option relaxedAutoImplicit false
set_option maxRecDepth 10000

namespace ZephyrThrift.Muzic

open Foundation

/-! ### Code words -/

/-- The code words of the fixed codes, as the writer computes them. -/
theorem fixedCodeWords :
    ((∀ c < 144, bitsOf 8 (reverseByte (0x30 + c)) = codeWord fixedLiteralLengths c) ∧
      (∀ c < 112, bitsOf 9 (1 + 2 * reverseByte (0x90 - 144 + (c + 144))) =
        codeWord fixedLiteralLengths (c + 144)) ∧
      (∀ c < 24, bitsOf 7 (reverseByte ((c + 256 - 256) * 2)) =
        codeWord fixedLiteralLengths (c + 256)) ∧
      ∀ c < 8, bitsOf 8 (reverseByte (0xc0 + (c + 280) - 280)) =
        codeWord fixedLiteralLengths (c + 280)) ∧
    (∀ c < 30, bitsOf 5 (reverseByte (c * 8)) = codeWord fixedDistanceLengths c) ∧
    (∀ symbol < 288, 0 < lengthAt fixedLiteralLengths symbol) ∧
    (∀ symbol < 30, 0 < lengthAt fixedDistanceLengths symbol) ∧
    (∀ b < 256, reverseByte b < 2 ^ 8) ∧
    (∀ c < 24, reverseByte ((c + 256 - 256) * 2) < 2 ^ 7) ∧
    ∀ c < 30, reverseByte (c * 8) < 2 ^ 5 := by
  decide +kernel

theorem codeWord_below_144 :
    ∀ c < 144, bitsOf 8 (reverseByte (0x30 + c)) = codeWord fixedLiteralLengths c :=
  fixedCodeWords.1.1

theorem codeWord_from_144 : ∀ c < 112,
    bitsOf 9 (1 + 2 * reverseByte (0x90 - 144 + (c + 144))) =
      codeWord fixedLiteralLengths (c + 144) :=
  fixedCodeWords.1.2.1

theorem codeWord_from_256 : ∀ c < 24,
    bitsOf 7 (reverseByte ((c + 256 - 256) * 2)) = codeWord fixedLiteralLengths (c + 256) :=
  fixedCodeWords.1.2.2.1

theorem codeWord_from_280 : ∀ c < 8,
    bitsOf 8 (reverseByte (0xc0 + (c + 280) - 280)) = codeWord fixedLiteralLengths (c + 280) :=
  fixedCodeWords.1.2.2.2

theorem codeWord_fixedDistance :
    ∀ c < 30, bitsOf 5 (reverseByte (c * 8)) = codeWord fixedDistanceLengths c :=
  fixedCodeWords.2.1

theorem fixedLiteralLengths_pos : ∀ symbol < 288, 0 < lengthAt fixedLiteralLengths symbol :=
  fixedCodeWords.2.2.1

theorem fixedDistanceLengths_pos : ∀ symbol < 30, 0 < lengthAt fixedDistanceLengths symbol :=
  fixedCodeWords.2.2.2.1

theorem reverseByte_lt : ∀ b < 256, reverseByte b < 2 ^ 8 := fixedCodeWords.2.2.2.2.1

theorem reverseByte_lengthCode_lt : ∀ c < 24, reverseByte ((c + 256 - 256) * 2) < 2 ^ 7 :=
  fixedCodeWords.2.2.2.2.2.1

theorem reverseByte_distanceCode_lt : ∀ c < 30, reverseByte (c * 8) < 2 ^ 5 :=
  fixedCodeWords.2.2.2.2.2.2

/-! ### Literals -/

theorem appends_zlibLiteral (build : Build) (c : UInt8) :
    ∃ bits, TokenBits fixedLiteralLengths fixedDistanceLengths (.literal c) bits ∧
      Appends (fun out ↦ zlibLiteral build out c) bits := by
  have hc := c.toNat_lt
  refine ⟨codeWord fixedLiteralLengths c.toNat,
    TokenBits.literal ⟨fixedLiteralLengths_pos _ (by omega), rfl⟩, ?_⟩
  intro out before henabled hemitted
  simp only [zlibLiteral, henabled, Bool.false_eq_true, if_false]
  by_cases hlow : c.toNat ≤ 143
  · rw [if_pos hlow, ← codeWord_below_144 _ (by omega)]
    exact outbits_emitted build hemitted (reverseByte_lt _ (by omega)) (by norm_num)
  · obtain ⟨k, hk⟩ := Nat.exists_eq_add_of_le' (show 144 ≤ c.toNat by omega)
    have hvalue := reverseByte_lt (0x90 - 144 + c.toNat) (by omega)
    rw [if_neg hlow, hk, ← codeWord_from_144 k (by omega), ← hk]
    exact outbits_emitted build hemitted (by omega) (by norm_num)

/-! ### The bisection -/

/-- Records in order, so that the bisection can tell on which side a value lies. -/
def Ordered (codes : List CodeRecord) : Prop := codes.Pairwise fun first second ↦ first.max < second.min

instance (codes : List CodeRecord) : Decidable (Ordered codes) :=
  inferInstanceAs (Decidable (List.Pairwise _ codes))

/-- The bisection finds the record that holds the value, from any bounds around it. -/
theorem bisectCode_eq (build : Build) {codes : List CodeRecord} (hordered : Ordered codes)
    {value position : ℕ} {record : CodeRecord} (hrecord : codes[position]? = some record)
    (hmin : record.min ≤ value) (hmax : value ≤ record.max) (hproper : ∀ r ∈ codes, r.min ≤ r.max)
    (fuel : ℕ) :
    ∀ {i j : ℤ}, -1 ≤ i → j ≤ codes.length → i < position → position < j → j - i ≤ fuel + 1 →
      bisectCode build codes value fuel i j = .ok position := by
  induction fuel with
  | zero => intro i j _ _ hi hj hfuel; omega
  | succ fuel ih =>
    intro i j hi_low hj_high hi hj hfuel
    have hgap : decide (2 ≤ j - i) = true := by
      rw [decide_eq_true_eq]
      omega
    have hmiddle : ((j + i) / 2).toNat < codes.length := by omega
    have hposition := (List.getElem?_eq_some_iff.mp hrecord).1
    have hrecord_eq : codes[position] = record := (List.getElem?_eq_some_iff.mp hrecord).2
    have hpairs := List.pairwise_iff_getElem.mp hordered
    simp only [bisectCode, hgap, Build.assert_true, List.getElem?_eq_getElem hmiddle]
    rcases lt_trichotomy ((j + i) / 2).toNat position with hlt | heq | hgt
    · have hbelow := hpairs _ _ hmiddle hposition hlt
      have hrange := hproper _ (List.getElem_mem hmiddle)
      rw [hrecord_eq] at hbelow
      rw [if_neg (by omega), if_pos (by omega)]
      exact ih (by omega) hj_high (by omega) hj (by omega)
    · simp only [heq, hrecord_eq]
      rw [if_neg (by omega), if_neg (by omega)]
    · have habove := hpairs _ _ hposition hmiddle hgt
      rw [hrecord_eq] at habove
      rw [if_pos (by omega)]
      exact ih hi_low (by omega) hi (by omega) (by omega)

/-! ### Matches -/

/-- The extra bits of a record, of which there may be none. -/
theorem appends_extraBits (build : Build) {record : CodeRecord} {value : ℕ}
    (hvalue : value < 2 ^ record.extrabits) (hextra : record.extrabits ≤ 24) :
    Appends (fun out ↦ if record.extrabits ≠ 0 then outbits build out value record.extrabits
      else .ok out) (bitsOf record.extrabits value) := by
  by_cases hnone : record.extrabits = 0
  · simp only [hnone, ne_eq, not_true_eq_false, if_false]
    exact appends_ok
  · simp only [ne_eq, hnone, not_false_eq_true, if_true]
    exact appends_outbits build hvalue hextra

/-- The records of lengths, with the bounds as they are tested. -/
def testedLencodes : List CodeRecord :=
  lencodes.map fun record ↦ { record with min := record.min + 3, max := record.max + 3 }

theorem ordered_testedLencodes : Ordered testedLencodes := by decide

theorem ordered_distcodes : Ordered distcodes := by decide

theorem proper_testedLencodes : ∀ r ∈ testedLencodes, r.min ≤ r.max := by decide

theorem proper_distcodes : ∀ r ∈ distcodes, r.min ≤ r.max := by decide

/-- A record says how a number is coded. -/
def Codes (codes : List (ℕ × ℕ)) (position : ℕ) (record : CodeRecord) : Prop :=
  codes[position]? = some (record.extrabits, record.min) ∧
    record.max - record.min < 2 ^ record.extrabits ∧ record.extrabits ≤ 24

instance (codes : List (ℕ × ℕ)) (position : ℕ) (record : CodeRecord) :
    Decidable (Codes codes position record) := inferInstanceAs (Decidable (_ ∧ _ ∧ _))

theorem codes_testedLencodes : ∀ position : Fin testedLencodes.length,
    Codes lengthCodes position testedLencodes[position] := by decide

theorem codes_distcodes : ∀ position : Fin distcodes.length,
    Codes distanceCodes position distcodes[position] := by decide

/-- The record that holds a number: where it is, and how it codes the number. -/
structure Locates (records : List CodeRecord) (codes : List (ℕ × ℕ)) (number position : ℕ)
    (record : CodeRecord) : Prop where
  at_position : records[position]? = some record
  min : record.min ≤ number
  max : number ≤ record.max
  codes : Codes codes position record

theorem exists_locates {records : List CodeRecord} {codes : List (ℕ × ℕ)} {number : ℕ}
    (hcodes : ∀ position : Fin records.length, Codes codes position records[position])
    (hmem : ∃ record : CodeRecord, record ∈ records ∧ record.min ≤ number ∧ number ≤ record.max) :
    ∃ position record, Locates records codes number position record := by
  obtain ⟨record, hrecord, hmin, hmax⟩ := hmem
  obtain ⟨position, hlt, rfl⟩ := List.getElem_of_mem hrecord
  exact ⟨position, _, List.getElem?_eq_getElem hlt, hmin, hmax, hcodes ⟨position, hlt⟩⟩

theorem exists_lencode {len : ℕ} (hmin : 3 ≤ len) (hmax : len ≤ 258) :
    ∃ position record, Locates testedLencodes lengthCodes len position record := by
  refine exists_locates codes_testedLencodes ?_
  simp only [testedLencodes, lencodes, List.map_cons, List.map_nil, List.exists_mem_cons_iff,
    List.not_mem_nil, false_and, exists_false, or_false]
  omega

theorem exists_distcode {distance : ℕ} (hmin : 1 ≤ distance) (hmax : distance ≤ 32768) :
    ∃ position record, Locates distcodes distanceCodes distance position record := by
  refine exists_locates codes_distcodes ?_
  simp only [distcodes, List.exists_mem_cons_iff, List.not_mem_nil, false_and, exists_false,
    or_false]
  omega

/-- The extra bits that a record leaves to a number. -/
theorem Locates.extra {records : List CodeRecord} {codes : List (ℕ × ℕ)} {number position : ℕ}
    {record : CodeRecord} (h : Locates records codes number position record) :
    number - record.min < 2 ^ record.extrabits ∧
      ExtraBits codes position number (bitsOf record.extrabits (number - record.min)) := by
  have hlt : number - record.min < 2 ^ record.extrabits := by
    have hwidth := h.codes.2.1
    have hmax := h.max
    omega
  exact ⟨hlt, record.extrabits, record.min, h.codes.1, h.min, hlt, rfl⟩

/-- The bisection over a whole table. -/
theorem bisectCode_locates (build : Build) {records : List CodeRecord} {codes : List (ℕ × ℕ)}
    {number position : ℕ} {record : CodeRecord} (hordered : Ordered records)
    (hproper : ∀ r ∈ records, r.min ≤ r.max) (h : Locates records codes number position record) :
    bisectCode build records number (records.length + 1) (-1) records.length = .ok position := by
  have hlt := (List.getElem?_eq_some_iff.mp h.at_position).1
  exact bisectCode_eq build hordered h.at_position h.min h.max hproper _ le_rfl le_rfl (by omega)
    (by omega) (by omega)

theorem emitDistance_eq (build : Build) {distance position : ℕ} {record : CodeRecord}
    (h : Locates distcodes distanceCodes distance position record) :
    (fun out ↦ emitDistance build out distance) = fun out ↦
      outbits build out (reverseByte (position * 8)) 5 >>= fun out ↦
        if record.extrabits ≠ 0 then outbits build out (distance - record.min) record.extrabits
        else .ok out := by
  have hgetD : distcodes.getD position ⟨0, 0, 0⟩ = record := by
    rw [List.getD_eq_getElem?_getD, h.at_position]
    rfl
  funext out
  rw [emitDistance, bisectCode_locates build ordered_distcodes proper_distcodes h, ← hgetD]
  rfl

theorem appends_emitDistance (build : Build) {distance : ℕ} (hmin : 1 ≤ distance)
    (hmax : distance ≤ 32768) :
    ∃ symbol bits extra, SymbolBits fixedDistanceLengths symbol bits ∧
      ExtraBits distanceCodes symbol distance extra ∧
      Appends (fun out ↦ emitDistance build out distance) (bits ++ extra) := by
  obtain ⟨position, record, h⟩ := exists_distcode hmin hmax
  have hlt : position < 30 := (List.getElem?_eq_some_iff.mp h.at_position).1
  obtain ⟨hextra, hbits⟩ := h.extra
  refine ⟨position, _, _, ⟨fixedDistanceLengths_pos _ hlt, rfl⟩, hbits, ?_⟩
  rw [← codeWord_fixedDistance _ hlt, emitDistance_eq build h]
  exact (appends_outbits build (reverseByte_distanceCode_lt _ hlt) (by norm_num)).bind
    (appends_extraBits build hextra h.codes.2.2)

/-- The code word of a length symbol, which has 7 or 8 bits. -/
theorem appends_lengthSymbol (build : Build) {position : ℕ} (hlt : position < 29) :
    Appends (fun out ↦
        if position + 257 ≤ 279 then outbits build out (reverseByte ((position + 257 - 256) * 2)) 7
        else outbits build out (reverseByte (0xc0 + (position + 257) - 280)) 8)
      (codeWord fixedLiteralLengths (position + 257)) := by
  by_cases hshort : position + 257 ≤ 279
  · simp only [if_pos hshort]
    rw [show position + 257 = position + 1 + 256 by omega, ← codeWord_from_256 _ (by omega)]
    exact appends_outbits build (reverseByte_lengthCode_lt _ (by omega)) (by norm_num)
  · obtain ⟨k, hk⟩ := Nat.exists_eq_add_of_le' (show 280 ≤ position + 257 by omega)
    simp only [if_neg hshort]
    rw [hk, ← codeWord_from_280 k (by omega)]
    exact appends_outbits build (reverseByte_lt _ (by omega)) (by norm_num)

theorem emitLength_eq (build : Build) {thislen position : ℕ} {record : CodeRecord}
    (h : Locates testedLencodes lengthCodes thislen position record) :
    (fun out ↦ emitLength build out thislen) = fun out ↦
      (if position + 257 ≤ 279 then outbits build out (reverseByte ((position + 257 - 256) * 2)) 7
        else outbits build out (reverseByte (0xc0 + (position + 257) - 280)) 8) >>= fun out ↦
        if record.extrabits ≠ 0 then outbits build out (thislen - record.min) record.extrabits
        else .ok out := by
  obtain ⟨source, hsource, rfl⟩ : ∃ source, lencodes[position]? = some source ∧
      { source with min := source.min + 3, max := source.max + 3 } = record := by
    have hat := h.at_position
    rw [testedLencodes, List.getElem?_map] at hat
    exact Option.map_eq_some_iff.mp hat
  have hgetD : lencodes.getD position ⟨0, 0, 0⟩ = source := by
    rw [List.getD_eq_getElem?_getD, hsource]
    rfl
  have hbisect := bisectCode_locates build ordered_testedLencodes proper_testedLencodes h
  rw [show testedLencodes.length = lencodes.length from rfl, testedLencodes] at hbisect
  funext out
  rw [emitLength, hbisect, ← hgetD]
  by_cases hshort : position + 257 ≤ 279
  · rw [if_pos hshort]
    exact if_pos hshort
  · rw [if_neg hshort]
    exact if_neg hshort

theorem appends_emitLength (build : Build) {thislen : ℕ} (hmin : 3 ≤ thislen)
    (hmax : thislen ≤ 258) :
    ∃ symbol bits extra, SymbolBits fixedLiteralLengths (symbol + 257) bits ∧
      ExtraBits lengthCodes symbol thislen extra ∧
      Appends (fun out ↦ emitLength build out thislen) (bits ++ extra) := by
  obtain ⟨position, record, h⟩ := exists_lencode hmin hmax
  have hlt : position < 29 := (List.getElem?_eq_some_iff.mp h.at_position).1
  obtain ⟨hextra, hbits⟩ := h.extra
  refine ⟨position, _, _, ⟨fixedLiteralLengths_pos _ (by omega), rfl⟩, hbits, ?_⟩
  rw [emitLength_eq build h]
  exact (appends_lengthSymbol build hlt).bind (appends_extraBits build hextra h.codes.2.2)

/-- One turn of the loop of `zlib_match`. -/
theorem appends_turn (build : Build) {distance thislen : ℕ} (hpos : 1 ≤ distance)
    (hmax : distance ≤ 32768) (hmin : 3 ≤ thislen) (hlong : thislen ≤ 258) :
    ∃ bits, TokenBits fixedLiteralLengths fixedDistanceLengths (.copy distance thislen) bits ∧
      Appends (fun out ↦ emitLength build out thislen >>= (emitDistance build · distance)) bits := by
  obtain ⟨_, _, _, hsymbol, hextra, hlength⟩ := appends_emitLength build hmin hlong
  obtain ⟨_, _, _, hsymbol', hextra', hdistance⟩ := appends_emitDistance build hpos hmax
  exact ⟨_, TokenBits.copy hsymbol hextra hsymbol' hextra', hlength.bind hdistance⟩

theorem appends_matchLoop (build : Build) {distance : ℕ} (hpos : 1 ≤ distance)
    (hmax : distance ≤ 32768) (fuel : ℕ) :
    ∀ {len : ℕ}, len = 0 ∨ 3 ≤ len → len < fuel →
      ∃ (lengths : List ℕ) (bits : List Bool), lengths.sum = len ∧ (∀ length ∈ lengths, 3 ≤ length ∧ length ≤ 258) ∧
        TokensBits fixedLiteralLengths fixedDistanceLengths (lengths.map (Token.copy distance)) bits ∧
        Appends (fun out ↦ matchLoop build distance fuel len out) bits := by
  induction fuel with
  | zero => intro len _ hfuel; exact absurd hfuel (Nat.not_lt_zero _)
  | succ fuel ih =>
    intro len hlen hfuel
    by_cases hzero : len = 0
    · refine ⟨[], [], hzero.symm, by simp, TokensBits.nil, ?_⟩
      simp only [matchLoop, hzero, lt_irrefl, if_false]
      exact appends_ok
    · have hmin : 3 ≤ len := hlen.resolve_left hzero
      obtain ⟨hthis, hlong, hle, hrest⟩ : 3 ≤ thisLength len ∧ thisLength len ≤ 258 ∧
          thisLength len ≤ len ∧ (len - thisLength len = 0 ∨ 3 ≤ len - thisLength len) := by
        rw [thisLength]
        split_ifs <;> omega
      obtain ⟨lengths, bits', hsum, hlengths, htokens, hloop⟩ := ih hrest (by omega)
      obtain ⟨bits, htoken, hturn⟩ := appends_turn build hpos hmax hthis hlong
      refine ⟨thisLength len :: lengths, bits ++ bits', by rw [List.sum_cons, hsum]; omega, ?_,
        TokensBits.cons htoken htokens, ?_⟩
      · intro length hlength
        rcases List.mem_cons.mp hlength with rfl | hlater
        · exact ⟨hthis, hlong⟩
        · exact hlengths length hlater
      · intro out before henabled hemitted
        obtain ⟨out', hout, hemitted', hkept⟩ := (hturn.bind hloop) out before henabled hemitted
        refine ⟨out', ?_, hemitted', hkept⟩
        rw [← hout]
        simp only [matchLoop, if_pos (show 0 < len by omega)]
        cases emitLength build out (thisLength len) <;> rfl

theorem appends_zlibMatch (build : Build) {distance len : ℕ} (hpos : 1 ≤ distance)
    (hmax : distance ≤ 32768) (hlen : 3 ≤ len) :
    ∃ (lengths : List ℕ) (bits : List Bool), lengths.sum = len ∧ (∀ length ∈ lengths, 3 ≤ length ∧ length ≤ 258) ∧
      TokensBits fixedLiteralLengths fixedDistanceLengths (lengths.map (Token.copy distance)) bits ∧
      Appends (fun out ↦ zlibMatch build out distance len) bits := by
  obtain ⟨lengths, bits, hsum, hlengths, htokens, hloop⟩ :=
    appends_matchLoop build hpos hmax (len + 1) (.inr hlen) (Nat.lt_succ_self _)
  refine ⟨lengths, bits, hsum, hlengths, htokens, fun out before henabled hemitted ↦ ?_⟩
  simp only [zlibMatch, henabled, Bool.not_false, Build.assert_true, bind, Except.bind]
  exact hloop out before henabled hemitted

end ZephyrThrift.Muzic
