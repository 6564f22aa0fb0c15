import ZephyrThrift.Foundation.CanonicalCode

/-!
# A reference decoder for zlib streams

RFC 1950 and RFC 1951 on bit lists. Every reader takes what it needs from the front of the unread
bits and returns `none` when the stream is not well formed: it ends too early, a code is not usable
or not assigned, a run of code lengths has nothing to repeat or does not end with the alphabets, a
match reaches back behind the start of the output, or the checksum differs. The header of a dynamic
block is parsed with three outcomes (`Parse`), so that a header that is still incomplete can be told
from one that no further bits can make usable.

The streams accepted are those of compression method 8 with a window of 32 KiB (first byte `0x78`)
and without a preset dictionary; the check bits of the second byte are not examined.
-/

set_option autoImplicit false
set_option relaxedAutoImplicit false

namespace ZephyrThrift.Foundation

/-! ### Numbers, bytes and symbols -/

/-- The number in the next `count` bits, least significant bit first. -/
def takeBits (count : ℕ) (bits : List Bool) : Option (ℕ × List Bool) :=
  if count ≤ bits.length then some (valueOf (bits.take count), bits.drop count) else none

theorem takeBits_eq_some {count value : ℕ} {bits rest : List Bool} :
    takeBits count bits = some (value, rest) ↔
      ∃ chunk, bits = chunk ++ rest ∧ chunk.length = count ∧ valueOf chunk = value := by
  rw [takeBits]
  constructor
  · intro h
    split at h
    · next hle =>
      injection h with h
      injection h with hvalue hrest
      exact ⟨bits.take count, by rw [← hrest, List.take_append_drop],
        by rw [List.length_take, min_eq_left hle], hvalue⟩
    · cases h
  · rintro ⟨chunk, rfl, rfl, rfl⟩
    rw [if_pos (by rw [List.length_append]; omega), List.take_left, List.drop_left]

theorem takeBits_append (chunk rest : List Bool) :
    takeBits chunk.length (chunk ++ rest) = some (valueOf chunk, rest) :=
  takeBits_eq_some.mpr ⟨chunk, rfl, rfl, rfl⟩

theorem takeBits_bitsOf (count value : ℕ) (rest : List Bool) :
    takeBits count (bitsOf count value ++ rest) = some (value % 2 ^ count, rest) :=
  takeBits_eq_some.mpr ⟨bitsOf count value, rfl, length_bitsOf _ _, valueOf_bitsOf _ _⟩

/-- The numbers in the next `count` groups of `width` bits. -/
def takeNumbers (width : ℕ) : ℕ → List Bool → Option (List ℕ × List Bool)
  | 0, bits => some ([], bits)
  | count + 1, bits => do
    let (value, bits) ← takeBits width bits
    let (values, bits) ← takeNumbers width count bits
    return (value :: values, bits)

/-- The next `count` bytes. -/
def takeBytes (count : ℕ) (bits : List Bool) : Option (List UInt8 × List Bool) := do
  let (values, bits) ← takeNumbers 8 count bits
  return (values.map UInt8.ofNat, bits)

theorem takeNumbers_bytesBits (count : ℕ) :
    ∀ {input : List UInt8} {values : List ℕ} {rest : List Bool},
      takeNumbers 8 count (bytesBits input) = some (values, rest) →
        ∃ bytes input', input = bytes ++ input' ∧ bytes.length = count ∧
          values = bytes.map UInt8.toNat ∧ rest = bytesBits input' := by
  induction count with
  | zero => intro input values rest h; cases h; exact ⟨[], input, rfl, rfl, rfl, rfl⟩
  | succ count ih =>
    intro input values rest h
    rw [takeNumbers] at h
    obtain ⟨⟨value, bits⟩, hvalue, h⟩ := Option.bind_eq_some_iff.mp h
    obtain ⟨⟨values', rest'⟩, hvalues, h⟩ := Option.bind_eq_some_iff.mp h
    cases h
    cases input with
    | nil => cases hvalue
    | cons byte input =>
      rw [bytesBits_cons, takeBits_bitsOf, Nat.mod_eq_of_lt byte.toNat_lt] at hvalue
      cases hvalue
      obtain ⟨bytes, input', rfl, rfl, rfl, rfl⟩ := ih hvalues
      exact ⟨byte :: bytes, input', rfl, rfl, rfl, rfl⟩

theorem takeBytes_bytesBits {count : ℕ} {input bytes : List UInt8} {rest : List Bool}
    (h : takeBytes count (bytesBits input) = some (bytes, rest)) :
    ∃ input', input = bytes ++ input' ∧ bytes.length = count ∧ rest = bytesBits input' := by
  obtain ⟨⟨values, rest'⟩, hvalues, h⟩ := Option.bind_eq_some_iff.mp h
  cases h
  obtain ⟨bytes, input', rfl, hlength, rfl, rfl⟩ := takeNumbers_bytesBits count hvalues
  have hsame : (bytes.map UInt8.toNat).map UInt8.ofNat = bytes := by
    rw [List.map_map]
    exact List.map_id'' (fun byte ↦ UInt8.ofNat_toNat) bytes
  rw [hsame]
  exact ⟨input', rfl, hlength, rfl⟩

theorem takeBytes_append (bytes more : List UInt8) :
    takeBytes bytes.length (bytesBits (bytes ++ more)) = some (bytes, bytesBits more) := by
  have hnumbers : takeNumbers 8 bytes.length (bytesBits (bytes ++ more)) =
      some (bytes.map UInt8.toNat, bytesBits more) := by
    induction bytes with
    | nil => rfl
    | cons byte bytes ih =>
      simp only [List.length_cons, List.cons_append, bytesBits_cons, takeNumbers, takeBits_bitsOf,
        Nat.mod_eq_of_lt byte.toNat_lt, ih, bind, Option.bind]
      rfl
  have hsame : (bytes.map UInt8.toNat).map UInt8.ofNat = bytes := by
    rw [List.map_map]
    exact List.map_id'' (fun byte ↦ UInt8.ofNat_toNat) bytes
  simp only [takeBytes, hnumbers, bind, Option.bind, hsame]
  rfl

/-- What is left behind the padding to the next byte boundary of a stream of whole bytes. -/
def alignBits (bits : List Bool) : List Bool := bits.drop (bits.length % 8)

/-- The symbol whose code word comes next. -/
def takeSymbol (lengths : List ℕ) (bits : List Bool) : Option (ℕ × List Bool) :=
  ((List.range lengths.length).find? fun symbol ↦
    decide (0 < lengthAt lengths symbol) && (codeWord lengths symbol).isPrefixOf bits).map
      fun symbol ↦ (symbol, bits.drop (lengthAt lengths symbol))

theorem takeSymbol_some {lengths : List ℕ} {bits rest : List Bool} {symbol : ℕ}
    (h : takeSymbol lengths bits = some (symbol, rest)) :
    0 < lengthAt lengths symbol ∧ bits = codeWord lengths symbol ++ rest := by
  obtain ⟨found, hfind, heq⟩ := Option.map_eq_some_iff.mp h
  injection heq with hsymbol hrest
  subst hsymbol
  have hholds := List.find?_some hfind
  rw [Bool.and_eq_true, decide_eq_true_eq, List.isPrefixOf_iff_prefix] at hholds
  obtain ⟨hpos, tail, htail⟩ := hholds
  refine ⟨hpos, ?_⟩
  rw [← hrest, ← htail, List.drop_left' (length_codeWord lengths found)]

theorem not_prefix_of_takeSymbol {lengths : List ℕ} {bits : List Bool}
    (h : takeSymbol lengths bits = none) {symbol : ℕ} (hpos : 0 < lengthAt lengths symbol) :
    ¬ codeWord lengths symbol <+: bits := by
  intro hbegins
  have hnone := List.find?_eq_none.mp (Option.map_eq_none_iff.mp h) symbol
    (List.mem_range.mpr (lt_length_of_lengthAt_pos hpos))
  rw [Bool.and_eq_true, decide_eq_true_eq, List.isPrefixOf_iff_prefix] at hnone
  exact hnone ⟨hpos, hbegins⟩

theorem takeSymbol_codeWord {lengths : List ℕ} {symbol maxBits : ℕ}
    (hkraft : KraftLe maxBits lengths) (hpos : 0 < lengthAt lengths symbol) (rest : List Bool) :
    takeSymbol lengths (codeWord lengths symbol ++ rest) = some (symbol, rest) := by
  have hsome : ((List.range lengths.length).find? fun other ↦
      decide (0 < lengthAt lengths other) &&
        (codeWord lengths other).isPrefixOf (codeWord lengths symbol ++ rest)).isSome := by
    rw [List.find?_isSome]
    refine ⟨symbol, List.mem_range.mpr (lt_length_of_lengthAt_pos hpos), ?_⟩
    rw [Bool.and_eq_true, decide_eq_true_eq, List.isPrefixOf_iff_prefix]
    exact ⟨hpos, List.prefix_append _ _⟩
  obtain ⟨found, hfound⟩ := Option.isSome_iff_exists.mp hsome
  have hholds := List.find?_some hfound
  rw [Bool.and_eq_true, decide_eq_true_eq, List.isPrefixOf_iff_prefix] at hholds
  have heq := codeWord_unique hkraft hpos hholds.1 (List.prefix_append _ _) hholds.2
  rw [takeSymbol, hfound, ← heq, Option.map_some, List.drop_left' (length_codeWord lengths symbol)]

/-! ### The header of a dynamic block -/

/-- A code length that is not zero. -/
def HasCode (lengths : List ℕ) : Prop := ∃ length ∈ lengths, length ≠ 0

instance (lengths : List ℕ) : Decidable (HasCode lengths) :=
  inferInstanceAs (Decidable (∃ length ∈ lengths, length ≠ 0))

/-- Code lengths of a prefix code with at least one code word. -/
def Usable (lengths : List ℕ) : Prop := KraftLe 15 lengths ∧ HasCode lengths

instance (lengths : List ℕ) : Decidable (Usable lengths) := inferInstanceAs (Decidable (_ ∧ _))

/-- RFC 1951, 3.2.7: the order in which the code lengths of the code length alphabet are sent. -/
def codeLengthOrder : List ℕ := [16, 17, 18, 0, 8, 7, 9, 6, 10, 5, 11, 4, 12, 3, 13, 2, 14, 1, 15]

/-- The code lengths of the code length alphabet, from those that were sent. -/
def codeLengthLengths (sent : List ℕ) : List ℕ :=
  (List.range 19).map fun symbol ↦ sent.getD (codeLengthOrder.idxOf symbol) 0

/-- What comes of reading the front of an unfinished bit list: a value and the bits behind it, not
enough bits, or something that no further bits can mend. -/
inductive Parse (α : Type)
  | done (value : α) (rest : List Bool)
  | short
  | malformed
  deriving DecidableEq, Repr

def Parse.bind {α β : Type} (first : Parse α) (second : α → List Bool → Parse β) : Parse β :=
  match first with
  | .done value rest => second value rest
  | .short => .short
  | .malformed => .malformed

@[simp] theorem Parse.done_bind {α β : Type} (value : α) (rest : List Bool)
    (second : α → List Bool → Parse β) : (Parse.done value rest).bind second = second value rest :=
  rfl

@[simp] theorem Parse.short_bind {α β : Type} (second : α → List Bool → Parse β) :
    (Parse.short : Parse α).bind second = .short := rfl

@[simp] theorem Parse.malformed_bind {α β : Type} (second : α → List Bool → Parse β) :
    (Parse.malformed : Parse α).bind second = .malformed := rfl

theorem Parse.bind_eq_done {α β : Type} {first : Parse α} {second : α → List Bool → Parse β}
    {value : β} {rest : List Bool} (h : first.bind second = .done value rest) :
    ∃ middle bits, first = .done middle bits ∧ second middle bits = .done value rest := by
  cases first with
  | done middle bits => exact ⟨middle, bits, rfl, h⟩
  | short => cases h
  | malformed => cases h

theorem Parse.bind_eq_short {α β : Type} {first : Parse α} {second : α → List Bool → Parse β}
    (h : first.bind second = .short) :
    first = .short ∨ ∃ middle bits, first = .done middle bits ∧ second middle bits = .short := by
  cases first with
  | done middle bits => exact .inr ⟨middle, bits, rfl, h⟩
  | short => exact .inl rfl
  | malformed => cases h

def parseBits (count : ℕ) (bits : List Bool) : Parse ℕ :=
  match takeBits count bits with
  | some (value, rest) => .done value rest
  | none => .short

theorem parseBits_eq_done {count value : ℕ} {bits rest : List Bool} :
    parseBits count bits = .done value rest ↔ takeBits count bits = some (value, rest) := by
  rw [parseBits]
  cases takeBits count bits with
  | none => simp
  | some taken => simp [Prod.ext_iff]

theorem parseBits_lt {count value : ℕ} {bits rest : List Bool}
    (h : parseBits count bits = .done value rest) : value < 2 ^ count := by
  obtain ⟨chunk, -, rfl, rfl⟩ := takeBits_eq_some.mp (parseBits_eq_done.mp h)
  exact valueOf_lt chunk

/-- Two numbers that follow each other are read as one. -/
theorem parseBits_add {α : Type} (first second : ℕ) (bits : List Bool)
    (next : ℕ → List Bool → Parse α) :
    (parseBits (first + second) bits).bind next =
      (parseBits first bits).bind fun low bits ↦
        (parseBits second bits).bind fun high bits ↦ next (low + 2 ^ first * high) bits := by
  simp only [parseBits, takeBits]
  by_cases hfirst : first ≤ bits.length
  · by_cases hsecond : second ≤ bits.length - first
    · have htake : (bits.take first).length = first := by rw [List.length_take, min_eq_left hfirst]
      simp only [if_pos (show first + second ≤ bits.length by omega), if_pos hfirst,
        List.length_drop, if_pos hsecond, Parse.done_bind, List.take_add, valueOf_append, htake,
        List.drop_drop]
    · simp only [if_neg (show ¬ first + second ≤ bits.length by omega), if_pos hfirst,
        List.length_drop, if_neg hsecond, Parse.done_bind, Parse.short_bind]
  · simp only [if_neg (show ¬ first + second ≤ bits.length by omega), if_neg hfirst,
      Parse.short_bind]

/-- Two numbers that follow each other are taken as one. -/
theorem takeBits_add {first second low high : ℕ} {bits bits₁ rest : List Bool}
    (hlow : takeBits first bits = some (low, bits₁)) (hhigh : takeBits second bits₁ = some (high, rest)) :
    takeBits (first + second) bits = some (low + 2 ^ first * high, rest) := by
  have h := parseBits_add first second bits fun value rest ↦ Parse.done value rest
  rw [parseBits_eq_done.mpr hlow, Parse.done_bind, parseBits_eq_done.mpr hhigh, Parse.done_bind] at h
  obtain ⟨value, bits', hparse, heq⟩ := Parse.bind_eq_done h
  cases heq
  exact parseBits_eq_done.mp hparse

/-- The numbers in the next `count` groups of `width` bits. -/
def parseNumbers (width : ℕ) : ℕ → List Bool → Parse (List ℕ)
  | 0, bits => .done [] bits
  | count + 1, bits =>
    (parseBits width bits).bind fun value bits ↦
      (parseNumbers width count bits).bind fun values bits ↦ .done (value :: values) bits

/-- Numbers are never malformed. -/
theorem parseNumbers_cases (width count : ℕ) :
    ∀ bits, parseNumbers width count bits = .short ∨
      ∃ values rest, parseNumbers width count bits = .done values rest ∧
        ∀ value ∈ values, value < 2 ^ width := by
  induction count with
  | zero => exact fun bits ↦ .inr ⟨[], bits, rfl, by simp⟩
  | succ count ih =>
    intro bits
    rw [parseNumbers]
    cases hvalue : parseBits width bits with
    | malformed =>
      rw [parseBits] at hvalue
      split at hvalue <;> cases hvalue
    | short => exact .inl rfl
    | done value middle =>
      rw [Parse.done_bind]
      rcases ih middle with hshort | ⟨values, rest, hvalues, hlt⟩
      · rw [hshort]
        exact .inl rfl
      · rw [hvalues]
        exact .inr ⟨value :: values, rest, rfl, List.forall_mem_cons.mpr ⟨parseBits_lt hvalue, hlt⟩⟩

/-- The bits are the beginning of a code word. -/
def BeginsCode (lengths : List ℕ) (bits : List Bool) : Prop :=
  ∃ symbol ∈ List.range lengths.length,
    0 < lengthAt lengths symbol ∧ bits <+: codeWord lengths symbol

instance (lengths : List ℕ) (bits : List Bool) : Decidable (BeginsCode lengths bits) :=
  inferInstanceAs (Decidable (∃ symbol ∈ List.range lengths.length, _ ∧ _))

def parseSymbol (lengths : List ℕ) (bits : List Bool) : Parse ℕ :=
  match takeSymbol lengths bits with
  | some (symbol, rest) => .done symbol rest
  | none => if BeginsCode lengths bits then .short else .malformed

/-- RFC 1951, 3.2.7: what a symbol of the code length alphabet adds to the code lengths so far. -/
def parseRun (symbol : ℕ) (lengths : List ℕ) (bits : List Bool) : Parse (List ℕ) :=
  match symbol with
  | 16 =>
    match lengths.getLast? with
    | none => .malformed
    | some previous =>
      (parseBits 2 bits).bind fun extra bits ↦ .done (List.replicate (3 + extra) previous) bits
  | 17 => (parseBits 3 bits).bind fun extra bits ↦ .done (List.replicate (3 + extra) 0) bits
  | 18 => (parseBits 7 bits).bind fun extra bits ↦ .done (List.replicate (11 + extra) 0) bits
  | length => .done [length] bits

/-- At least `enough` of the code lengths of both alphabets, which are `count` in all, behind the
`lengths` so far. -/
def parseLengths (codeLengths : List ℕ) (enough count : ℕ) :
    ℕ → List ℕ → List Bool → Parse (List ℕ)
  | 0, _, _ => .malformed
  | fuel + 1, lengths, bits =>
    if count < lengths.length then .malformed
    else if enough ≤ lengths.length then .done lengths bits
    else
      (parseSymbol codeLengths bits).bind fun symbol bits ↦
        (parseRun symbol lengths bits).bind fun run bits ↦
          parseLengths codeLengths enough count fuel (lengths ++ run) bits

/-- What the parser of code lengths gets goes on from the lengths so far, and is long enough but not
longer than both alphabets. -/
theorem parseLengths_done {codeLengths : List ℕ} {enough count : ℕ} (fuel : ℕ) :
    ∀ {lengths total : List ℕ} {bits rest : List Bool},
      parseLengths codeLengths enough count fuel lengths bits = .done total rest →
        lengths <+: total ∧ enough ≤ total.length ∧ total.length ≤ count := by
  induction fuel with
  | zero => intro lengths total bits rest h; cases h
  | succ fuel ih =>
    intro lengths total bits rest h
    rw [parseLengths] at h
    by_cases hover : count < lengths.length
    · rw [if_pos hover] at h
      cases h
    rw [if_neg hover] at h
    by_cases henough : enough ≤ lengths.length
    · rw [if_pos henough] at h
      cases h
      exact ⟨List.prefix_refl _, henough, not_lt.mp hover⟩
    · rw [if_neg henough] at h
      obtain ⟨symbol, bits₁, -, h⟩ := Parse.bind_eq_done h
      obtain ⟨run, bits₂, -, h⟩ := Parse.bind_eq_done h
      obtain ⟨hfront, hlong, hle⟩ := ih h
      exact ⟨(List.prefix_append _ _).trans hfront, hlong, hle⟩

/-- The code lengths of a literal alphabet and of a distance alphabet behind it. A run may go on
from the literal to the distance alphabet, but not beyond it. -/
def parseAlphabets (codeLengths : List ℕ) (literalCount distanceCount : ℕ) (bits : List Bool) :
    Parse (List ℕ × List ℕ) :=
  let count := literalCount + distanceCount
  if Usable codeLengths then
    (parseLengths codeLengths literalCount count (literalCount + 1) [] bits).bind
      fun lengths bits ↦
        if Usable (lengths.take literalCount) then
          (parseLengths codeLengths count count (count + 1) lengths bits).bind fun lengths bits ↦
            if Usable (lengths.drop literalCount) then
              .done (lengths.take literalCount, lengths.drop literalCount) bits
            else .malformed
        else .malformed
  else .malformed

/-- The code lengths of the literal and of the distance alphabet of a dynamic block. -/
def parseDynamicCodes (bits : List Bool) : Parse (List ℕ × List ℕ) :=
  (parseBits 5 bits).bind fun hlit bits ↦
    (parseBits 5 bits).bind fun hdist bits ↦
      (parseBits 4 bits).bind fun hclen bits ↦
        (parseNumbers 3 (hclen + 4) bits).bind fun sent bits ↦
          parseAlphabets (codeLengthLengths sent) (hlit + 257) (hdist + 1) bits

theorem Parse.bind_congr {α β : Type} {first : Parse α} {second second' : α → List Bool → Parse β}
    (h : ∀ value rest, first = .done value rest → second value rest = second' value rest) :
    first.bind second = first.bind second' := by
  cases first with
  | done value rest => exact h value rest rfl
  | short => rfl
  | malformed => rfl

/-- The three counts in front of a dynamic header, read as one number. -/
theorem parseDynamicCodes_eq (bits : List Bool) :
    parseDynamicCodes bits =
      (parseBits 14 bits).bind fun counts bits ↦
        (parseNumbers 3 (counts / 2 ^ 10 % 2 ^ 4 + 4) bits).bind fun sent bits ↦
          parseAlphabets (codeLengthLengths sent) (counts % 2 ^ 5 + 257)
            (counts / 2 ^ 5 % 2 ^ 5 + 1) bits := by
  rw [show 14 = 5 + (5 + 4) by norm_num, parseBits_add, parseDynamicCodes]
  refine Parse.bind_congr fun hlit bits₁ hfirst ↦ ?_
  rw [parseBits_add]
  refine Parse.bind_congr fun hdist bits₂ hsecond ↦ Parse.bind_congr fun hclen bits₃ hthird ↦ ?_
  have hlit_lt := parseBits_lt hfirst
  have hdist_lt := parseBits_lt hsecond
  have hclen_lt := parseBits_lt hthird
  rw [show (hlit + 2 ^ 5 * (hdist + 2 ^ 5 * hclen)) / 2 ^ 10 % 2 ^ 4 = hclen by omega,
    show (hlit + 2 ^ 5 * (hdist + 2 ^ 5 * hclen)) % 2 ^ 5 = hlit by omega,
    show (hlit + 2 ^ 5 * (hdist + 2 ^ 5 * hclen)) / 2 ^ 5 % 2 ^ 5 = hdist by omega]

/-! ### Blocks -/

/-- RFC 1951, 3.2.5: extra bits and first length of the length symbols from 257 on. -/
def lengthCodes : List (ℕ × ℕ) :=
  [(0, 3), (0, 4), (0, 5), (0, 6), (0, 7), (0, 8), (0, 9), (0, 10), (1, 11), (1, 13), (1, 15),
   (1, 17), (2, 19), (2, 23), (2, 27), (2, 31), (3, 35), (3, 43), (3, 51), (3, 59), (4, 67), (4, 83),
   (4, 99), (4, 115), (5, 131), (5, 163), (5, 195), (5, 227), (0, 258)]

/-- RFC 1951, 3.2.5: extra bits and first distance of the distance symbols. -/
def distanceCodes : List (ℕ × ℕ) :=
  [(0, 1), (0, 2), (0, 3), (0, 4), (1, 5), (1, 7), (2, 9), (2, 13), (3, 17), (3, 25), (4, 33),
   (4, 49), (5, 65), (5, 97), (6, 129), (6, 193), (7, 257), (7, 385), (8, 513), (8, 769), (9, 1025),
   (9, 1537), (10, 2049), (10, 3073), (11, 4097), (11, 6145), (12, 8193), (12, 12289), (13, 16385),
   (13, 24577)]

/-- RFC 1951, 3.2.6: the code lengths of the fixed literal and length alphabet. -/
def fixedLiteralLengths : List ℕ :=
  List.replicate 144 8 ++ List.replicate 112 9 ++ List.replicate 24 7 ++ List.replicate 8 8

/-- RFC 1951, 3.2.6: the code lengths of the fixed distance alphabet. -/
def fixedDistanceLengths : List ℕ := List.replicate 32 5

/-- The bytes of a match, copied one at a time: the source may run into what is being copied. -/
def overlap (distance : ℕ) : List UInt8 → ℕ → List UInt8
  | _, 0 => []
  | history, count + 1 =>
    let c := history.getD (history.length - distance) 0
    c :: overlap distance (history ++ [c]) count

@[simp] theorem length_overlap (distance : ℕ) (history : List UInt8) (count : ℕ) :
    (overlap distance history count).length = count := by
  induction count generalizing history with
  | zero => rfl
  | succ count ih => rw [overlap, List.length_cons, ih]

theorem overlap_add (distance : ℕ) (first second : ℕ) :
    ∀ history : List UInt8, overlap distance history (first + second) =
      overlap distance history first ++
        overlap distance (history ++ overlap distance history first) second := by
  induction first with
  | zero => intro history; simp [overlap]
  | succ first ih =>
    intro history
    rw [Nat.add_right_comm]
    simp only [overlap, ih, List.cons_append, List.append_assoc, List.nil_append]

/-- Each byte of a match is the byte at the distance before it. -/
theorem getElem?_overlap {distance : ℕ} (hpos : 0 < distance) (count : ℕ) :
    ∀ {history : List UInt8} {i : ℕ}, distance ≤ history.length → i < count →
      (overlap distance history count)[i]? =
        (history ++ overlap distance history count)[history.length - distance + i]? := by
  induction count with
  | zero => intro history i _ hi; exact absurd hi (Nat.not_lt_zero i)
  | succ count ih =>
    intro history i hdistance hi
    have hfirst : history.length - distance < history.length := by omega
    rw [overlap]
    cases i with
    | zero =>
      rw [List.getElem?_cons_zero, Nat.add_zero, List.getElem?_append_left hfirst,
        List.getElem?_eq_getElem hfirst, List.getD_eq_getElem _ _ hfirst]
    | succ i =>
      have hrest := @ih (history ++ [history.getD (history.length - distance) 0]) i
        (by rw [List.length_append]; omega) (by omega)
      rw [List.length_append, List.length_singleton, List.append_assoc, List.singleton_append]
        at hrest
      rw [List.getElem?_cons_succ, hrest]
      congr 1
      omega

/-- A match that does not run into itself is a part of the history. -/
theorem overlap_eq_take {distance count : ℕ} {history : List UInt8} (hpos : 0 < distance)
    (hdistance : distance ≤ history.length) (hcount : count ≤ distance) :
    overlap distance history count = (history.drop (history.length - distance)).take count := by
  apply List.ext_getElem?
  intro i
  by_cases hi : i < count
  · rw [getElem?_overlap hpos count hdistance hi, List.getElem?_append_left (by omega),
      List.getElem?_take_of_lt hi, List.getElem?_drop]
  · rw [List.getElem?_eq_none (by rw [length_overlap]; omega),
      List.getElem?_eq_none (by rw [List.length_take]; omega)]

/-- The number coded by a symbol with extra bits. -/
def takeExtra (codes : List (ℕ × ℕ)) (symbol : ℕ) (bits : List Bool) :
    Option (ℕ × List Bool) := do
  let (extraBits, first) ← codes[symbol]?
  let (extra, bits) ← takeBits extraBits bits
  return (first + extra, bits)

/-- The length and the distance of a match, behind its length symbol. -/
def takeMatch (distance : List ℕ) (symbol : ℕ) (bits : List Bool) :
    Option ((ℕ × ℕ) × List Bool) := do
  let (count, bits) ← takeExtra lengthCodes (symbol - 257) bits
  let (distanceSymbol, bits) ← takeSymbol distance bits
  let (back, bits) ← takeExtra distanceCodes distanceSymbol bits
  return ((count, back), bits)

/-- The symbols of a compressed block, up to the end of the block, behind the output so far. -/
def decodeSymbols (literal distance : List ℕ) :
    ℕ → List UInt8 → List Bool → Option (List UInt8 × List Bool)
  | 0, _, _ => none
  | fuel + 1, output, bits => do
    let (symbol, bits) ← takeSymbol literal bits
    if symbol < 256 then decodeSymbols literal distance fuel (output ++ [UInt8.ofNat symbol]) bits
    else if symbol = 256 then return (output, bits)
    else
      let ((count, back), bits) ← takeMatch distance symbol bits
      guard (back ≤ output.length)
      decodeSymbols literal distance fuel (output ++ overlap back output count) bits

/-- A stored block, behind the output so far. -/
def decodeStored (output : List UInt8) (bits : List Bool) : Option (List UInt8 × List Bool) := do
  let (count, bits) ← takeBits 16 (alignBits bits)
  let (complement, bits) ← takeBits 16 bits
  guard (complement = 2 ^ 16 - 1 - count)
  let (bytes, bits) ← takeBytes count bits
  return (output ++ bytes, bits)

/-- A block of a given type, behind the output so far. -/
def decodeBlock (blockType : ℕ) (output : List UInt8) (bits : List Bool) :
    Option (List UInt8 × List Bool) :=
  match blockType with
  | 0 => decodeStored output bits
  | 1 => decodeSymbols fixedLiteralLengths fixedDistanceLengths (bits.length + 1) output bits
  | 2 =>
    match parseDynamicCodes bits with
    | .done (literal, distance) bits =>
      decodeSymbols literal distance (bits.length + 1) output bits
    | _ => none
  | _ => none

/-- The blocks up to the final one. -/
def decodeBlocks : ℕ → List UInt8 → List Bool → Option (List UInt8 × List Bool)
  | 0, _, _ => none
  | fuel + 1, output, bits => do
    let (final, bits) ← takeBits 1 bits
    let (blockType, bits) ← takeBits 2 bits
    let (output, bits) ← decodeBlock blockType output bits
    if final = 1 then return (output, bits) else decodeBlocks fuel output bits

theorem takeExtra_some {codes : List (ℕ × ℕ)} {symbol number : ℕ} {bits rest : List Bool}
    (h : takeExtra codes symbol bits = some (number, rest)) :
    ∃ extraBits first extra, codes[symbol]? = some (extraBits, first) ∧
      takeBits extraBits bits = some (extra, rest) ∧ number = first + extra := by
  rw [takeExtra] at h
  obtain ⟨⟨extraBits, first⟩, hcode, h⟩ := Option.bind_eq_some_iff.mp h
  obtain ⟨⟨extra, rest'⟩, htake, h⟩ := Option.bind_eq_some_iff.mp h
  cases h
  exact ⟨extraBits, first, extra, hcode, htake, rfl⟩

theorem takeMatch_some {distance : List ℕ} {symbol count back : ℕ} {bits rest : List Bool}
    (h : takeMatch distance symbol bits = some ((count, back), rest)) :
    ∃ bits₁ distanceSymbol bits₂, takeExtra lengthCodes (symbol - 257) bits = some (count, bits₁) ∧
      takeSymbol distance bits₁ = some (distanceSymbol, bits₂) ∧
      takeExtra distanceCodes distanceSymbol bits₂ = some (back, rest) := by
  rw [takeMatch] at h
  obtain ⟨⟨count', bits₁⟩, hcount, h⟩ := Option.bind_eq_some_iff.mp h
  obtain ⟨⟨distanceSymbol, bits₂⟩, hsymbol, h⟩ := Option.bind_eq_some_iff.mp h
  obtain ⟨⟨back', rest'⟩, hback, h⟩ := Option.bind_eq_some_iff.mp h
  cases h
  exact ⟨bits₁, distanceSymbol, bits₂, hcount, hsymbol, hback⟩

/-- What the next symbol of a block can be. -/
theorem decodeSymbols_succ {literal distance : List ℕ} {fuel : ℕ} {history output : List UInt8}
    {bits rest : List Bool}
    (h : decodeSymbols literal distance (fuel + 1) history bits = some (output, rest)) :
    ∃ symbol bits', takeSymbol literal bits = some (symbol, bits') ∧
      (symbol < 256 ∧ decodeSymbols literal distance fuel (history ++ [UInt8.ofNat symbol]) bits' =
          some (output, rest) ∨
        symbol = 256 ∧ output = history ∧ rest = bits' ∨
        256 < symbol ∧ ∃ count back bits₁,
          takeMatch distance symbol bits' = some ((count, back), bits₁) ∧ back ≤ history.length ∧
          decodeSymbols literal distance fuel (history ++ overlap back history count) bits₁ =
            some (output, rest)) := by
  rw [decodeSymbols] at h
  obtain ⟨⟨symbol, bits'⟩, hsymbol, h⟩ := Option.bind_eq_some_iff.mp h
  refine ⟨symbol, bits', hsymbol, ?_⟩
  dsimp only at h
  by_cases hliteral : symbol < 256
  · rw [if_pos hliteral] at h
    exact .inl ⟨hliteral, h⟩
  rw [if_neg hliteral] at h
  by_cases hend : symbol = 256
  · rw [if_pos hend] at h
    cases h
    exact .inr (.inl ⟨hend, rfl, rfl⟩)
  · rw [if_neg hend] at h
    obtain ⟨⟨⟨count, back⟩, bits₁⟩, hmatch, h⟩ := Option.bind_eq_some_iff.mp h
    obtain ⟨_, hguard, h⟩ := Option.bind_eq_some_iff.mp h
    have hback := (Option.guard_eq_some' _).mp hguard
    exact .inr (.inr ⟨by omega, count, back, bits₁, hmatch, hback, h⟩)

theorem decodeSymbols_grows {literal distance : List ℕ} (fuel : ℕ) :
    ∀ {history output : List UInt8} {bits rest : List Bool},
      decodeSymbols literal distance fuel history bits = some (output, rest) →
        history <+: output := by
  induction fuel with
  | zero => intro history output bits rest h; cases h
  | succ fuel ih =>
    intro history output bits rest h
    obtain ⟨symbol, bits', -, ⟨-, h⟩ | ⟨-, rfl, -⟩ | ⟨-, count, back, bits₁, -, -, h⟩⟩ :=
      decodeSymbols_succ h
    · exact (List.prefix_append _ _).trans (ih h)
    · exact List.prefix_refl _
    · exact (List.prefix_append _ _).trans (ih h)

theorem decodeStored_some {history output : List UInt8} {bits rest : List Bool}
    (h : decodeStored history bits = some (output, rest)) :
    ∃ count bits₁ bits₂ bytes, takeBits 16 (alignBits bits) = some (count, bits₁) ∧
      takeBits 16 bits₁ = some (2 ^ 16 - 1 - count, bits₂) ∧
      takeBytes count bits₂ = some (bytes, rest) ∧ output = history ++ bytes := by
  rw [decodeStored] at h
  obtain ⟨⟨count, bits₁⟩, hcount, h⟩ := Option.bind_eq_some_iff.mp h
  obtain ⟨⟨complement, bits₂⟩, hcomplement, h⟩ := Option.bind_eq_some_iff.mp h
  obtain ⟨_, hguard, h⟩ := Option.bind_eq_some_iff.mp h
  obtain ⟨⟨bytes, rest'⟩, hbytes, h⟩ := Option.bind_eq_some_iff.mp h
  cases h
  have hsame := (Option.guard_eq_some' _).mp hguard
  exact ⟨count, bits₁, bits₂, bytes, hcount, hsame ▸ hcomplement, hbytes, rfl⟩

theorem decodeBlock_grows {blockType : ℕ} {history output : List UInt8} {bits rest : List Bool}
    (h : decodeBlock blockType history bits = some (output, rest)) : history <+: output := by
  unfold decodeBlock at h
  split at h
  · obtain ⟨_, _, _, bytes, -, -, -, rfl⟩ := decodeStored_some h
    exact List.prefix_append _ _
  · exact decodeSymbols_grows _ h
  · split at h
    · exact decodeSymbols_grows _ h
    · cases h
  · cases h

theorem decodeBlocks_succ {fuel : ℕ} {history output : List UInt8} {bits rest : List Bool}
    (h : decodeBlocks (fuel + 1) history bits = some (output, rest)) :
    ∃ final bits₁ blockType bits₂ output' bits₃, takeBits 1 bits = some (final, bits₁) ∧
      takeBits 2 bits₁ = some (blockType, bits₂) ∧
      decodeBlock blockType history bits₂ = some (output', bits₃) ∧
      (final = 1 ∧ output' = output ∧ bits₃ = rest ∨
        final ≠ 1 ∧ decodeBlocks fuel output' bits₃ = some (output, rest)) := by
  rw [decodeBlocks] at h
  obtain ⟨⟨final, bits₁⟩, hfinal, h⟩ := Option.bind_eq_some_iff.mp h
  obtain ⟨⟨blockType, bits₂⟩, htype, h⟩ := Option.bind_eq_some_iff.mp h
  obtain ⟨⟨output', bits₃⟩, hblock, h⟩ := Option.bind_eq_some_iff.mp h
  refine ⟨final, bits₁, blockType, bits₂, output', bits₃, hfinal, htype, hblock, ?_⟩
  dsimp only at h
  by_cases hlast : final = 1
  · rw [if_pos hlast] at h
    cases h
    exact .inl ⟨hlast, rfl, rfl⟩
  · rw [if_neg hlast] at h
    exact .inr ⟨hlast, h⟩

theorem decodeBlocks_grows (fuel : ℕ) :
    ∀ {history output : List UInt8} {bits rest : List Bool},
      decodeBlocks fuel history bits = some (output, rest) → history <+: output := by
  induction fuel with
  | zero => intro history output bits rest h; cases h
  | succ fuel ih =>
    intro history output bits rest h
    obtain ⟨_, _, _, _, output', _, -, -, hblock, ⟨-, rfl, -⟩ | ⟨-, h⟩⟩ := decodeBlocks_succ h
    · exact decodeBlock_grows hblock
    · exact (decodeBlock_grows hblock).trans (ih h)

/-- Blocks none of which is the final one, behind the output so far: what they output, and what they
leave. -/
inductive OpenBlocks : List UInt8 → List Bool → List UInt8 → List Bool → Prop
  | nil (history : List UInt8) (bits : List Bool) : OpenBlocks history bits history bits
  | cons {history middle output : List UInt8} {blockType : ℕ} {bits bits₁ bits₂ bits₃ rest : List Bool}
      (hfinal : takeBits 1 bits = some (0, bits₁)) (htype : takeBits 2 bits₁ = some (blockType, bits₂))
      (hblock : decodeBlock blockType history bits₂ = some (middle, bits₃))
      (hrest : OpenBlocks middle bits₃ output rest) : OpenBlocks history bits output rest

theorem OpenBlocks.trans {history middle output : List UInt8} {bits bits₁ rest : List Bool}
    (h : OpenBlocks history bits middle bits₁) :
    OpenBlocks middle bits₁ output rest → OpenBlocks history bits output rest := by
  induction h with
  | nil => exact id
  | cons hfinal htype hblock _ ih => exact fun h ↦ .cons hfinal htype hblock (ih h)

theorem OpenBlocks.grows {history output : List UInt8} {bits rest : List Bool}
    (h : OpenBlocks history bits output rest) : history <+: output := by
  induction h with
  | nil => exact List.prefix_refl _
  | cons _ _ hblock _ ih => exact (decodeBlock_grows hblock).trans ih

theorem OpenBlocks.bits_ne_nil {history output : List UInt8} {bits rest : List Bool}
    (h : OpenBlocks history bits output rest) (houtput : output ≠ history) : bits ≠ [] := by
  rintro rfl
  cases h with
  | nil => exact houtput rfl
  | cons hfinal _ _ _ => cases hfinal

/-! ### Streams -/

/-- RFC 1950, 8.2: the Adler-32 checksum. -/
def adler32 (bytes : List UInt8) : ℕ :=
  let sums := bytes.foldl
    (fun (sums : ℕ × ℕ) byte ↦
      let s1 := (sums.1 + byte.toNat) % 65521
      (s1, (sums.2 + s1) % 65521))
    (1, 0)
  sums.2 * 2 ^ 16 + sums.1

/-- The four bytes of a number, most significant byte first. -/
def bigEndian (value : ℕ) : List UInt8 :=
  [UInt8.ofNat (value / 2 ^ 24), UInt8.ofNat (value / 2 ^ 16), UInt8.ofNat (value / 2 ^ 8),
    UInt8.ofNat value]

/-- What a zlib stream without its header decodes to. -/
def decodeBody (body : List UInt8) : Option (List UInt8) := do
  let (output, bits) ← decodeBlocks (8 * body.length + 1) [] (bytesBits body)
  let (trailer, bits) ← takeBytes 4 (alignBits bits)
  guard (trailer = bigEndian (adler32 output) ∧ bits = [])
  return output

theorem decodeBody_some {body output : List UInt8} (h : decodeBody body = some output) :
    ∃ bits trailer, decodeBlocks (8 * body.length + 1) [] (bytesBits body) = some (output, bits) ∧
      takeBytes 4 (alignBits bits) = some (trailer, []) ∧ trailer = bigEndian (adler32 output) := by
  obtain ⟨⟨output', bits⟩, hblocks, h⟩ := Option.bind_eq_some_iff.mp h
  obtain ⟨⟨trailer, rest⟩, htrailer, h⟩ := Option.bind_eq_some_iff.mp h
  obtain ⟨_, hguard, h⟩ := Option.bind_eq_some_iff.mp h
  cases h
  obtain ⟨hsum, hend⟩ := (Option.guard_eq_some' _).mp hguard
  exact ⟨bits, trailer, hblocks, hend ▸ htrailer, hsum⟩

/-- What a zlib stream decodes to; `none` when it is not well formed. -/
def decodeZlib : List UInt8 → Option (List UInt8)
  | cmf :: flg :: body => do
    guard (cmf = 0x78 ∧ flg.toNat / 2 ^ 5 % 2 = 0)
    decodeBody body
  | _ => none

theorem decodeZlib_some {stream output : List UInt8} (h : decodeZlib stream = some output) :
    ∃ flg body, stream = 0x78 :: flg :: body ∧ decodeBody body = some output := by
  unfold decodeZlib at h
  split at h
  · next cmf flg body =>
    obtain ⟨_, hguard, h⟩ := Option.bind_eq_some_iff.mp h
    have hcmf := ((Option.guard_eq_some' _).mp hguard).1
    exact ⟨flg, body, by rw [hcmf], h⟩
  · cases h

end ZephyrThrift.Foundation
