import ZephyrThrift.Muzic.BitStream

/-!
# Decoder tables

`inflater.c`, `Inf_Huff_FillTable` and `Inf_Huff_MakeDecoder`: from a list of symbols sorted by code
length to a main table of 256 entries, indexed by the next eight bits, and subtables behind it for
the codes longer than eight bits. A `NULL`-terminated chain of `InfSymlen` is a list.
-/

set_option autoImplicit false
set_option relaxedAutoImplicit false

namespace ZephyrThrift.Muzic

/-- `Inf_Reverse`, the bytes with their bits reversed. -/
def infReverse : List ℕ :=
  [0x00, 0x80, 0x40, 0xC0, 0x20, 0xA0, 0x60, 0xE0, 0x10, 0x90, 0x50, 0xD0, 0x30, 0xB0, 0x70,
   0xF0, 0x08, 0x88, 0x48, 0xC8, 0x28, 0xA8, 0x68, 0xE8, 0x18, 0x98, 0x58, 0xD8, 0x38, 0xB8,
   0x78, 0xF8, 0x04, 0x84, 0x44, 0xC4, 0x24, 0xA4, 0x64, 0xE4, 0x14, 0x94, 0x54, 0xD4, 0x34,
   0xB4, 0x74, 0xF4, 0x0C, 0x8C, 0x4C, 0xCC, 0x2C, 0xAC, 0x6C, 0xEC, 0x1C, 0x9C, 0x5C, 0xDC,
   0x3C, 0xBC, 0x7C, 0xFC, 0x02, 0x82, 0x42, 0xC2, 0x22, 0xA2, 0x62, 0xE2, 0x12, 0x92, 0x52,
   0xD2, 0x32, 0xB2, 0x72, 0xF2, 0x0A, 0x8A, 0x4A, 0xCA, 0x2A, 0xAA, 0x6A, 0xEA, 0x1A, 0x9A,
   0x5A, 0xDA, 0x3A, 0xBA, 0x7A, 0xFA, 0x06, 0x86, 0x46, 0xC6, 0x26, 0xA6, 0x66, 0xE6, 0x16,
   0x96, 0x56, 0xD6, 0x36, 0xB6, 0x76, 0xF6, 0x0E, 0x8E, 0x4E, 0xCE, 0x2E, 0xAE, 0x6E, 0xEE,
   0x1E, 0x9E, 0x5E, 0xDE, 0x3E, 0xBE, 0x7E, 0xFE, 0x01, 0x81, 0x41, 0xC1, 0x21, 0xA1, 0x61,
   0xE1, 0x11, 0x91, 0x51, 0xD1, 0x31, 0xB1, 0x71, 0xF1, 0x09, 0x89, 0x49, 0xC9, 0x29, 0xA9,
   0x69, 0xE9, 0x19, 0x99, 0x59, 0xD9, 0x39, 0xB9, 0x79, 0xF9, 0x05, 0x85, 0x45, 0xC5, 0x25,
   0xA5, 0x65, 0xE5, 0x15, 0x95, 0x55, 0xD5, 0x35, 0xB5, 0x75, 0xF5, 0x0D, 0x8D, 0x4D, 0xCD,
   0x2D, 0xAD, 0x6D, 0xED, 0x1D, 0x9D, 0x5D, 0xDD, 0x3D, 0xBD, 0x7D, 0xFD, 0x03, 0x83, 0x43,
   0xC3, 0x23, 0xA3, 0x63, 0xE3, 0x13, 0x93, 0x53, 0xD3, 0x33, 0xB3, 0x73, 0xF3, 0x0B, 0x8B,
   0x4B, 0xCB, 0x2B, 0xAB, 0x6B, 0xEB, 0x1B, 0x9B, 0x5B, 0xDB, 0x3B, 0xBB, 0x7B, 0xFB, 0x07,
   0x87, 0x47, 0xC7, 0x27, 0xA7, 0x67, 0xE7, 0x17, 0x97, 0x57, 0xD7, 0x37, 0xB7, 0x77, 0xF7,
   0x0F, 0x8F, 0x4F, 0xCF, 0x2F, 0xAF, 0x6F, 0xEF, 0x1F, 0x9F, 0x5F, 0xDF, 0x3F, 0xBF, 0x7F,
   0xFF]

/-- A read of `Inf_Reverse[index]`. -/
def reverseAt (index : ℕ) : Except Fault ℕ :=
  match infReverse[index]? with
  | some reversed => .ok reversed
  | none => .error .reverseIndex

/-- `InfSymlen`; `next` is the index of the successor in `Inf_SLList.elements`. -/
structure InfSymlen where
  symbol : ℕ
  huffmanLength : ℕ
  next : Option ℕ
  deriving DecidableEq, Repr

/-- A write of `table[index]`. -/
def HuffTable.set (table : HuffTable) (index : ℕ) (data : InfHuff) : Except Fault HuffTable :=
  if index < infHuffTableSize then .ok fun i ↦ if i = index then data else table i
  else .error .tableIndex

/-- `Inf_Huff_NextCanonical`, the value it assigns to `huffman`. -/
def nextCanonical (huffman currentLength newLength : ℕ) : ℕ :=
  (huffman + 1) <<< (newLength - currentLength)

/-- The loop of `Inf_Huff_FillTable` over the values of the unknown bits. -/
def fillLoop (base tableSize known unknownStep : ℕ) (data : InfHuff) :
    ℕ → ℕ → HuffTable → Except Fault HuffTable
  | 0, _, table => .ok table
  | fuel + 1, unknownBits, table =>
    if unknownBits < tableSize then
      match table.set (base + (unknownBits ||| known)) data with
      | .error fault => .error fault
      | .ok table => fillLoop base tableSize known unknownStep data fuel (unknownBits + unknownStep)
          table
    else .ok table

/-- `Inf_Huff_FillTable` on the table that starts at index `base`. -/
def infHuffFillTable (build : Build) (table : HuffTable) (base tableSize huffman huffmanLength
    byte discardedBits : ℕ) : Except Fault HuffTable := do
  let low ← reverseAt (huffman % 256)
  let high ← reverseAt (huffman >>> 8)
  let unknownStep := 1 <<< (huffmanLength - discardedBits)
  let reverseHuffman := ((low <<< 8) ||| high) >>> (16 - huffmanLength)
  build.assert (discardedBits < huffmanLength && reverseHuffman < 1 <<< huffmanLength)
  fillLoop base tableSize (reverseHuffman >>> discardedBits) unknownStep
    (InfHuff.value huffmanLength byte) tableSize 0 table

/-- The code of the element after `element`, where there is one. -/
def advanceCanonical (huffman : ℕ) (element : InfSymlen) : List InfSymlen → ℕ
  | [] => huffman
  | following :: _ => nextCanonical huffman element.huffmanLength following.huffmanLength

/-- The loop of `Inf_Huff_MakeDecoder` over the lengths from 1 to 8. -/
def fillMainTable (build : Build) (table : HuffTable) (huffman : ℕ) :
    List InfSymlen → Except Fault (HuffTable × ℕ × List InfSymlen)
  | [] => .ok (table, huffman, [])
  | symlen :: next =>
    if symlen.huffmanLength ≤ 8 then
      match infHuffFillTable build table 0 infMainTableSize huffman symlen.huffmanLength
          symlen.symbol 0 with
      | .error fault => .error fault
      | .ok table => fillMainTable build table (advanceCanonical huffman symlen next) next
    else .ok (table, huffman, symlen :: next)

/-- What the look-ahead of `Inf_Huff_MakeDecoder` finds: the elements that share a subtable, the
length of the last of them, and where the next subtable starts. -/
structure SubtableSpan where
  members : List InfSymlen
  lastLength : ℕ
  nextHuffman : ℕ
  remaining : List InfSymlen

/-- The look-ahead that calculates the size of a subtable. -/
def spanSubtable (index huffman : ℕ) : List InfSymlen → SubtableSpan
  | [] => ⟨[], 0, huffman, []⟩
  | [symlen] => ⟨[symlen], symlen.huffmanLength, huffman, []⟩
  | symlen :: following :: next =>
    let advanced := nextCanonical huffman symlen.huffmanLength following.huffmanLength
    if advanced >>> (following.huffmanLength - 8) = index then
      let span := spanSubtable index advanced (following :: next)
      { span with members := symlen :: span.members }
    else ⟨[symlen], symlen.huffmanLength, advanced, following :: next⟩

/-- The loop that fills one subtable with its members. -/
def fillSubtable (build : Build) (base subtableSize : ℕ) (table : HuffTable) (huffman : ℕ) :
    List InfSymlen → Except Fault HuffTable
  | [] => .ok table
  | symlen :: next =>
    match infHuffFillTable build table base subtableSize huffman symlen.huffmanLength
        symlen.symbol 8 with
    | .error fault => .error fault
    | .ok table =>
      fillSubtable build base subtableSize table (advanceCanonical huffman symlen next) next

/-- The loop of `Inf_Huff_MakeDecoder` over the lengths from 9, one subtable a turn. -/
def makeSubtables (build : Build) :
    ℕ → HuffTable → ℕ → ℕ → List InfSymlen → Except Fault HuffTable
  | _, table, _, _, [] => .ok table
  | 0, table, _, _, _ => .ok table
  | fuel + 1, table, subtableIndex, huffman, symlen :: next => do
    let index := huffman >>> (symlen.huffmanLength - 8)
    let span := spanSubtable index huffman (symlen :: next)
    let subtableSize := 1 <<< (span.lastLength - 8)
    build.assert (subtableIndex + subtableSize ≤ infHuffTableSize)
    let slot ← reverseAt index
    let table ← table.set slot (InfHuff.tableRef subtableIndex (subtableSize - 1))
    let table ← fillSubtable build subtableIndex subtableSize table huffman span.members
    makeSubtables build fuel table (subtableIndex + subtableSize) span.nextHuffman span.remaining

/-- `Inf_Huff_MakeDecoder`. -/
def infHuffMakeDecoder (build : Build) (table : HuffTable) (symlen : List InfSymlen) :
    Except Fault HuffTable := do
  build.assert (symlen ≠ [])
  if symlen = [] then throw .unsetPointer
  -- the main table is reset, the subtables keep what they held
  let reset : HuffTable := fun i ↦
    if i < infMainTableSize then InfHuff.value infInvalidLength 0 else table i
  let (table, huffman, symlen) ← fillMainTable build reset 0 symlen
  makeSubtables build symlen.length table infMainTableSize huffman symlen

end ZephyrThrift.Muzic
