import ZephyrThrift.Foundation.DeflateFormat

/-!
# Literals and matches

LZ77 represents a byte sequence by tokens: literals, and matches that copy bytes from a distance back.
`expand` is what tokens stand for behind a history. In a compressed block a token is one code word,
or two with extra bits (`TokenBits`), and the symbols of a block decode to what its tokens stand for
(`decodeSymbols_tokens`).
-/

set_option autoImplicit false
set_option relaxedAutoImplicit false

namespace ZephyrThrift.Foundation

inductive Token
  | literal (byte : UInt8)
  | copy (distance length : ℕ)
  deriving DecidableEq, Repr

/-- What a token appends to a history. -/
def Token.bytes (history : List UInt8) : Token → List UInt8
  | .literal byte => [byte]
  | .copy distance length => overlap distance history length

/-- What tokens append to a history. -/
def expand (history : List UInt8) : List Token → List UInt8
  | [] => []
  | token :: tokens =>
    token.bytes history ++ expand (history ++ token.bytes history) tokens

theorem expand_append (first second : List Token) :
    ∀ history, expand history (first ++ second) =
      expand history first ++ expand (history ++ expand history first) second := by
  induction first with
  | nil => intro history; simp [expand]
  | cons token first ih =>
    intro history
    simp only [List.cons_append, expand, ih, List.append_assoc]

/-- A match of 3 to 258 bytes from within the history and the window. -/
def Token.Valid (window : ℕ) (history : List UInt8) : Token → Prop
  | .literal _ => True
  | .copy distance length =>
    3 ≤ length ∧ length ≤ 258 ∧ 0 < distance ∧ distance ≤ history.length ∧ distance ≤ window

/-- Every token is valid behind what the tokens before it append. -/
def ValidTokens (window : ℕ) : List UInt8 → List Token → Prop
  | _, [] => True
  | history, token :: tokens =>
    token.Valid window history ∧ ValidTokens window (history ++ token.bytes history) tokens

theorem ValidTokens.append {window : ℕ} {first second : List Token} :
    ∀ {history : List UInt8}, ValidTokens window history first →
      ValidTokens window (history ++ expand history first) second →
        ValidTokens window history (first ++ second) := by
  induction first with
  | nil => intro history _ h; simpa [expand] using h
  | cons token first ih =>
    rintro history ⟨hvalid, hfirst⟩ hsecond
    exact ⟨hvalid, ih hfirst (by rwa [List.append_assoc])⟩

/-- A history that lies farther back does not matter to a match. -/
theorem overlap_append_left (earlier : List UInt8) {distance : ℕ} (count : ℕ) :
    ∀ {history : List UInt8}, 0 < distance → distance ≤ history.length →
      overlap distance (earlier ++ history) count = overlap distance history count := by
  induction count with
  | zero => intro history _ _; rfl
  | succ count ih =>
    intro history hpos hdistance
    have hbyte : (earlier ++ history).getD ((earlier ++ history).length - distance) 0 =
        history.getD (history.length - distance) 0 := by
      rw [List.length_append, Nat.add_sub_assoc hdistance, List.getD_append_right _ _ _ _ (by omega),
        Nat.add_sub_cancel_left]
    rw [overlap, overlap, hbyte, List.append_assoc,
      ih hpos (by rw [List.length_append]; omega)]

theorem Token.bytes_append_left (earlier : List UInt8) {window : ℕ} {history : List UInt8}
    {token : Token} (h : token.Valid window history) :
    token.bytes (earlier ++ history) = token.bytes history := by
  cases token with
  | literal byte => rfl
  | copy distance length => exact overlap_append_left earlier length h.2.2.1 h.2.2.2.1

/-- Nor does it matter to tokens. -/
theorem expand_append_left (earlier : List UInt8) {window : ℕ} {tokens : List Token} :
    ∀ {history : List UInt8}, ValidTokens window history tokens →
      expand (earlier ++ history) tokens = expand history tokens ∧
        ValidTokens window (earlier ++ history) tokens := by
  induction tokens with
  | nil => intro history _; exact ⟨rfl, trivial⟩
  | cons token tokens ih =>
    rintro history ⟨hvalid, hvalids⟩
    have hbytes := token.bytes_append_left earlier hvalid
    obtain ⟨hexpand, hrest⟩ := ih hvalids
    refine ⟨?_, ?_, ?_⟩
    · rw [expand, expand, hbytes, List.append_assoc, hexpand]
    · cases token with
      | literal byte => trivial
      | copy distance length =>
        obtain ⟨hmin, hmax, hpos, hdistance, hwindow⟩ := hvalid
        exact ⟨hmin, hmax, hpos, by rw [List.length_append]; omega, hwindow⟩
    · rwa [hbytes, List.append_assoc]

/-- Where a source repeats itself at a distance, a match goes on from one prefix of it to a longer
one. -/
theorem overlap_take {source : List UInt8} {distance : ℕ} (hpos : 0 < distance) (count : ℕ) :
    ∀ {position : ℕ}, distance ≤ position → position + count ≤ source.length →
      (∀ k < count, source[position - distance + k]? = source[position + k]?) →
        source.take position ++ overlap distance (source.take position) count =
          source.take (position + count) := by
  induction count with
  | zero => intro position _ _ _; rw [overlap, List.append_nil, Nat.add_zero]
  | succ count ih =>
    intro position hdistance hroom hsame
    have hlt : position < source.length := by omega
    have hfirst := hsame 0 (Nat.succ_pos _)
    rw [Nat.add_zero, Nat.add_zero, List.getElem?_eq_getElem hlt] at hfirst
    have hlength : (source.take position).length = position := by
      rw [List.length_take, min_eq_left hlt.le]
    have hbyte : (source.take position).getD ((source.take position).length - distance) 0 =
        source[position] := by
      rw [hlength, List.getD_eq_getElem?_getD, List.getElem?_take_of_lt (by omega), hfirst]
      rfl
    have hnext : source.take position ++ [source[position]] = source.take (position + 1) := by
      rw [List.take_add_one, List.getElem?_eq_getElem hlt]
      rfl
    have hrest := @ih (position + 1) (by omega) (by omega) fun k hk ↦ by
      have := hsame (k + 1) (by omega)
      rw [show position + 1 - distance + k = position - distance + (k + 1) by omega, this]
      congr 1
      omega
    rw [overlap, hbyte, hnext, List.append_cons, hnext, hrest]
    congr 1
    omega

/-- Consecutive matches at the same distance copy as one. -/
theorem expand_copies (distance : ℕ) (lengths : List ℕ) :
    ∀ history, expand history (lengths.map (Token.copy distance)) =
      overlap distance history lengths.sum := by
  induction lengths with
  | nil => intro history; rfl
  | cons length lengths ih =>
    intro history
    rw [List.map_cons, expand, ih, List.sum_cons, overlap_add]
    rfl

theorem validTokens_copies {window distance : ℕ} (hpos : 0 < distance) (hwindow : distance ≤ window)
    {lengths : List ℕ} (hlengths : ∀ length ∈ lengths, 3 ≤ length ∧ length ≤ 258) :
    ∀ {history : List UInt8}, distance ≤ history.length →
      ValidTokens window history (lengths.map (Token.copy distance)) := by
  induction lengths with
  | nil => intro history _; trivial
  | cons length lengths ih =>
    intro history hdistance
    obtain ⟨hmin, hmax⟩ := hlengths length List.mem_cons_self
    exact ⟨⟨hmin, hmax, hpos, hdistance, hwindow⟩,
      ih (fun other hother ↦ hlengths other (List.mem_cons_of_mem _ hother))
        (by rw [List.length_append]; omega)⟩

/-! ### Splitting matches -/

/-- Every match is replaced by matches at the same distance, of 3 to 258 bytes each and as many bytes
together. -/
inductive Splits : List Token → List Token → Prop
  | nil : Splits [] []
  | literal {byte : UInt8} {tokens split : List Token} (h : Splits tokens split) :
      Splits (.literal byte :: tokens) (.literal byte :: split)
  | copy {distance length : ℕ} {lengths : List ℕ} {tokens split : List Token}
      (hsum : lengths.sum = length) (hlengths : ∀ part ∈ lengths, 3 ≤ part ∧ part ≤ 258)
      (h : Splits tokens split) :
      Splits (.copy distance length :: tokens) (lengths.map (Token.copy distance) ++ split)

theorem Splits.expand_eq {tokens split : List Token} (h : Splits tokens split) :
    ∀ history, expand history split = expand history tokens := by
  induction h with
  | nil => exact fun _ ↦ rfl
  | literal _ ih =>
    intro history
    rw [expand, expand, ih]
  | copy hsum _ _ ih =>
    intro history
    rw [expand_append, expand_copies, ih, hsum, expand, Token.bytes]

theorem Splits.valid {window : ℕ} {tokens split : List Token} (h : Splits tokens split) :
    ∀ {history : List UInt8}, ValidTokens window history tokens →
      ValidTokens window history split := by
  induction h with
  | nil => exact fun _ ↦ trivial
  | literal _ ih => exact fun hvalid ↦ ⟨trivial, ih hvalid.2⟩
  | copy hsum hlengths _ ih =>
    rintro history ⟨⟨-, -, hpos, hdistance, hwindow⟩, hvalid⟩
    refine (validTokens_copies hpos hwindow hlengths hdistance).append ?_
    rw [expand_copies, hsum]
    exact ih hvalid

section Blocks

variable {literal distance : List ℕ}

/-- The code word of a symbol of the alphabet. -/
def SymbolBits (lengths : List ℕ) (symbol : ℕ) (bits : List Bool) : Prop :=
  0 < lengthAt lengths symbol ∧ bits = codeWord lengths symbol

/-- The extra bits behind the symbol of a number. -/
def ExtraBits (codes : List (ℕ × ℕ)) (symbol number : ℕ) (bits : List Bool) : Prop :=
  ∃ extraBits first, codes[symbol]? = some (extraBits, first) ∧ first ≤ number ∧
    number - first < 2 ^ extraBits ∧ bits = bitsOf extraBits (number - first)

/-- The bits of a token in a compressed block. -/
inductive TokenBits (literal distance : List ℕ) : Token → List Bool → Prop
  | literal {byte : UInt8} {bits : List Bool} (h : SymbolBits literal byte.toNat bits) :
      TokenBits literal distance (.literal byte) bits
  | copy {back length lengthSymbol backSymbol : ℕ} {lengthBits lengthExtra backBits backExtra : List Bool}
      (hlength : SymbolBits literal (lengthSymbol + 257) lengthBits)
      (hlengthExtra : ExtraBits lengthCodes lengthSymbol length lengthExtra)
      (hback : SymbolBits distance backSymbol backBits)
      (hbackExtra : ExtraBits distanceCodes backSymbol back backExtra) :
      TokenBits literal distance (.copy back length)
        (lengthBits ++ lengthExtra ++ (backBits ++ backExtra))

/-- The bits of tokens one after the other. -/
inductive TokensBits (literal distance : List ℕ) : List Token → List Bool → Prop
  | nil : TokensBits literal distance [] []
  | cons {token : Token} {tokens : List Token} {bits rest : List Bool}
      (h : TokenBits literal distance token bits) (hrest : TokensBits literal distance tokens rest) :
      TokensBits literal distance (token :: tokens) (bits ++ rest)

theorem TokensBits.append {first second : List Token} {bits rest : List Bool}
    (h : TokensBits literal distance first bits) (h' : TokensBits literal distance second rest) :
    TokensBits literal distance (first ++ second) (bits ++ rest) := by
  induction h with
  | nil => exact h'
  | cons htoken _ ih =>
    rw [List.append_assoc]
    exact TokensBits.cons htoken ih

theorem TokensBits.single {token : Token} {bits : List Bool}
    (h : TokenBits literal distance token bits) : TokensBits literal distance [token] bits := by
  have hone := TokensBits.cons h TokensBits.nil
  rwa [List.append_nil] at hone

theorem SymbolBits.length_pos {lengths : List ℕ} {symbol : ℕ} {bits : List Bool}
    (h : SymbolBits lengths symbol bits) : 0 < bits.length := by
  rw [h.2, length_codeWord]
  exact h.1

theorem TokensBits.length_le {tokens : List Token} {bits : List Bool}
    (h : TokensBits literal distance tokens bits) : tokens.length ≤ bits.length := by
  induction h with
  | nil => exact le_rfl
  | cons htoken _ ih =>
    rw [List.length_cons, List.length_append]
    cases htoken with
    | literal hsymbol =>
      have := hsymbol.length_pos
      omega
    | copy hlength _ _ _ =>
      have := hlength.length_pos
      simp only [List.length_append]
      omega

theorem takeSymbol_symbolBits {lengths : List ℕ} {maxBits symbol : ℕ} {bits : List Bool}
    (hkraft : KraftLe maxBits lengths) (h : SymbolBits lengths symbol bits) (rest : List Bool) :
    takeSymbol lengths (bits ++ rest) = some (symbol, rest) := by
  obtain ⟨hpos, rfl⟩ := h
  exact takeSymbol_codeWord hkraft hpos rest

theorem takeExtra_extraBits {codes : List (ℕ × ℕ)} {symbol number : ℕ} {bits : List Bool}
    (h : ExtraBits codes symbol number bits) (rest : List Bool) :
    takeExtra codes symbol (bits ++ rest) = some (number, rest) := by
  obtain ⟨extraBits, first, hcode, hle, hlt, rfl⟩ := h
  simp only [takeExtra, hcode, takeBits_bitsOf, Nat.mod_eq_of_lt hlt, bind, Option.bind, pure]
  rw [Nat.add_sub_cancel' hle]

/-- The symbols of a block decode to what its tokens stand for. -/
theorem decodeSymbols_tokens {maxBits window : ℕ} (hliteral : KraftLe maxBits literal)
    (hdistance : KraftLe maxBits distance) (hend : 0 < lengthAt literal 256) {tokens : List Token}
    {bits : List Bool} (h : TokensBits literal distance tokens bits) (rest : List Bool) :
    ∀ {output : List UInt8} {fuel : ℕ}, ValidTokens window output tokens → tokens.length < fuel →
      decodeSymbols literal distance fuel output (bits ++ (codeWord literal 256 ++ rest)) =
        some (output ++ expand output tokens, rest) := by
  induction h with
  | nil =>
    intro output fuel _ hfuel
    obtain ⟨fuel, rfl⟩ := Nat.exists_eq_succ_of_ne_zero hfuel.ne'
    simp only [decodeSymbols, List.nil_append, takeSymbol_codeWord hliteral hend, bind, Option.bind,
      expand, List.append_nil]
    rfl
  | @cons token tokens bits bits' htoken _ ih =>
    rintro output fuel ⟨hvalid, hvalids⟩ hfuel
    obtain ⟨fuel, rfl⟩ := Nat.exists_eq_succ_of_ne_zero (Nat.ne_zero_of_lt hfuel)
    rw [List.length_cons, Nat.succ_lt_succ_iff] at hfuel
    have hrest := ih hvalids hfuel
    rw [List.append_assoc, expand, ← List.append_assoc output, ← hrest]
    cases htoken with
    | @literal byte _ hsymbol =>
      simp only [decodeSymbols, takeSymbol_symbolBits hliteral hsymbol, bind, Option.bind,
        if_pos byte.toNat_lt, Token.bytes, UInt8.ofNat_toNat]
    | @copy back length lengthSymbol backSymbol _ _ _ _ hlength hlengthExtra hback hbackExtra =>
      obtain ⟨-, -, hpos, hback_le, -⟩ := hvalid
      simp only [decodeSymbols, List.append_assoc, takeSymbol_symbolBits hliteral hlength, bind,
        Option.bind, takeMatch, Nat.add_sub_cancel, takeExtra_extraBits hlengthExtra,
        takeSymbol_symbolBits hdistance hback, takeExtra_extraBits hbackExtra, Token.bytes,
        if_neg (show ¬ lengthSymbol + 257 < 256 by omega),
        if_neg (show ¬ lengthSymbol + 257 = 256 by omega), guard, if_pos hback_le, pure]

end Blocks

end ZephyrThrift.Foundation
