import ZephyrThrift.Muzic.Stream

/-!
# Emitting fixed Huffman codes

`defl_static.c`: the bit writer of the compressor, which appends to a buffer that grows on demand,
and the fixed Huffman codes of literals and matches. The code tables are records with a minimum and
a maximum, searched by bisection. `MZ_OPTIMIZE_SIZE` is on, so bytes are reversed by shifting.
-/

set_option autoImplicit false
set_option relaxedAutoImplicit false

namespace ZephyrThrift.Muzic

/-- A pointer into a block obtained from the allocator: the bytes written to the block so far, how
far behind the start of the block it points, and whether the block is still allocated. -/
structure OutPtr where
  block : List UInt8
  offset : ℤ
  live : Bool
  deriving DecidableEq, Repr

/-- `realloc` of the output buffer; only the start of a live block, or `NULL`, may be passed. -/
def reallocOut : Option OutPtr → Except Fault OutPtr
  | none => .ok ⟨[], 0, true⟩
  | some out => if out.live ∧ out.offset = 0 then .ok out else .error .badFree

/-- `free` of the output buffer. -/
def freeOut (out : OutPtr) : Except Fault OutPtr :=
  if out.live ∧ out.offset = 0 then .ok { out with live := false } else .error .badFree

/-- `memcpy` of `count` bytes from the output buffer to the caller. -/
def OutPtr.read (out : OutPtr) (count : ℕ) : Except Fault (List UInt8) :=
  if out.live ∧ 0 ≤ out.offset ∧ out.offset.toNat + count ≤ out.block.length then
    .ok ((out.block.drop out.offset.toNat).take count)
  else .error .heapRange

/-- `struct uzlib_comp`; a position in the source is an index, `none` is `NULL`. -/
structure UzlibComp where
  outbuf : Option OutPtr
  outlen : ℕ
  outsize : ℕ
  outbits : ℕ
  noutbits : ℕ
  compDisabled : Bool
  hashTable : ℕ → Option ℕ
  hashBits : ℕ
  dictSize : ℕ

/-- `outbuf[outlen++] = byte` on a buffer of `outsize` bytes. -/
def appendByte (out : UzlibComp) (byte : UInt8) : Except Fault UzlibComp :=
  match out.outbuf with
  | none => .error .unsetPointer
  | some ptr =>
    if ptr.live ∧ ptr.offset = 0 ∧ out.outlen = ptr.block.length ∧ out.outlen < out.outsize then
      .ok { out with
        outbuf := some { ptr with block := ptr.block ++ [byte] }
        outlen := out.outlen + 1 }
    else .error .heapRange

/-- The growth of the buffer in `outbits`, 64 bytes at a time. -/
def growOutbuf (out : UzlibComp) : Except Fault UzlibComp :=
  if out.outsize ≤ out.outlen then
    match reallocOut out.outbuf with
    | .error fault => .error fault
    | .ok ptr => .ok { out with outsize := out.outlen + 64, outbuf := some ptr }
  else .ok out

/-- The loop of `outbits` that flushes whole bytes. -/
def flushBytes : ℕ → UzlibComp → Except Fault UzlibComp
  | 0, _ => .error .endlessLoop
  | fuel + 1, out =>
    if 8 ≤ out.noutbits then
      match growOutbuf out with
      | .error fault => .error fault
      | .ok out =>
        match appendByte out (UInt8.ofNat (out.outbits % 256)) with
        | .error fault => .error fault
        | .ok out =>
          flushBytes fuel { out with outbits := out.outbits >>> 8, noutbits := out.noutbits - 8 }
    else .ok out

/-- `outbits`. -/
def outbits (build : Build) (out : UzlibComp) (bits nbits : ℕ) : Except Fault UzlibComp :=
  match build.assert (out.noutbits + nbits ≤ 32) with
  | .error fault => .error fault
  | .ok () =>
    flushBytes (out.noutbits + nbits + 1)
      { out with
        outbits := out.outbits ||| (bits <<< out.noutbits)
        noutbits := out.noutbits + nbits }

/-- `reverseByte`. -/
def reverseByte (b : ℕ) : ℕ :=
  let b := (b &&& 0xF0) >>> 4 ||| (b &&& 0x0F) <<< 4
  let b := (b &&& 0xCC) >>> 2 ||| (b &&& 0x33) <<< 2
  (b &&& 0xAA) >>> 1 ||| (b &&& 0x55) <<< 1

/-- `len_coderecord` and `dist_coderecord`; the code of a record is its position in the table. -/
structure CodeRecord where
  extrabits : ℕ
  min : ℕ
  max : ℕ
  deriving DecidableEq, Repr

/-- `lencodes`, whose bounds are stored less 3. -/
def lencodes : List CodeRecord :=
  [⟨0, 0, 0⟩, ⟨0, 1, 1⟩, ⟨0, 2, 2⟩, ⟨0, 3, 3⟩, ⟨0, 4, 4⟩, ⟨0, 5, 5⟩, ⟨0, 6, 6⟩, ⟨0, 7, 7⟩,
   ⟨1, 8, 9⟩, ⟨1, 10, 11⟩, ⟨1, 12, 13⟩, ⟨1, 14, 15⟩, ⟨2, 16, 19⟩, ⟨2, 20, 23⟩, ⟨2, 24, 27⟩,
   ⟨2, 28, 31⟩, ⟨3, 32, 39⟩, ⟨3, 40, 47⟩, ⟨3, 48, 55⟩, ⟨3, 56, 63⟩, ⟨4, 64, 79⟩, ⟨4, 80, 95⟩,
   ⟨4, 96, 111⟩, ⟨4, 112, 127⟩, ⟨5, 128, 159⟩, ⟨5, 160, 191⟩, ⟨5, 192, 223⟩, ⟨5, 224, 254⟩,
   ⟨0, 255, 255⟩]

def distcodes : List CodeRecord :=
  [⟨0, 1, 1⟩, ⟨0, 2, 2⟩, ⟨0, 3, 3⟩, ⟨0, 4, 4⟩, ⟨1, 5, 6⟩, ⟨1, 7, 8⟩, ⟨2, 9, 12⟩, ⟨2, 13, 16⟩,
   ⟨3, 17, 24⟩, ⟨3, 25, 32⟩, ⟨4, 33, 48⟩, ⟨4, 49, 64⟩, ⟨5, 65, 96⟩, ⟨5, 97, 128⟩, ⟨6, 129, 192⟩,
   ⟨6, 193, 256⟩, ⟨7, 257, 384⟩, ⟨7, 385, 512⟩, ⟨8, 513, 768⟩, ⟨8, 769, 1024⟩, ⟨9, 1025, 1536⟩,
   ⟨9, 1537, 2048⟩, ⟨10, 2049, 3072⟩, ⟨10, 3073, 4096⟩, ⟨11, 4097, 6144⟩, ⟨11, 6145, 8192⟩,
   ⟨12, 8193, 12288⟩, ⟨12, 12289, 16384⟩, ⟨13, 16385, 24576⟩, ⟨13, 24577, 32768⟩]

/-- `zlib_literal`. -/
def zlibLiteral (build : Build) (out : UzlibComp) (c : UInt8) : Except Fault UzlibComp :=
  if out.compDisabled then outbits build out c.toNat 8
  else if c.toNat ≤ 143 then outbits build out (reverseByte (0x30 + c.toNat)) 8
  else outbits build out (1 + 2 * reverseByte (0x90 - 144 + c.toNat)) 9

/-- The bisection of `zlib_match`: the position of the record that holds `value`. -/
def bisectCode (build : Build) (codes : List CodeRecord) (value : ℕ) :
    ℕ → ℤ → ℤ → Except Fault ℕ
  | 0, _, _ => .error .endlessLoop
  | fuel + 1, i, j =>
    match build.assert (2 ≤ j - i) with
    | .error fault => .error fault
    | .ok () =>
      let k := (j + i) / 2
      match codes[k.toNat]? with
      | none => .error .tableIndex
      | some record =>
        if value < record.min then bisectCode build codes value fuel i k
        else if record.max < value then bisectCode build codes value fuel k j
        else .ok k.toNat

/-- What one turn of the loop of `zlib_match` transmits of a match that long: at most 258, and never
so much that 1 or 2 remain. -/
def thisLength (len : ℕ) : ℕ := if 260 < len then 258 else if len ≤ 258 then len else len - 3

/-- The part of a turn that transmits the length. -/
def emitLength (build : Build) (out : UzlibComp) (thislen : ℕ) : Except Fault UzlibComp := do
  -- the bounds in `lencodes` are stored less 3
  let position ← bisectCode build
    (lencodes.map fun record ↦ { record with min := record.min + 3, max := record.max + 3 })
    thislen (lencodes.length + 1) (-1) lencodes.length
  let record := lencodes.getD position ⟨0, 0, 0⟩
  let lcode := position + 257
  let out ←
    if lcode ≤ 279 then outbits build out (reverseByte ((lcode - 256) * 2)) 7
    else outbits build out (reverseByte (0xc0 + lcode - 280)) 8
  if record.extrabits ≠ 0 then outbits build out (thislen - (record.min + 3)) record.extrabits
  else return out

/-- The part of a turn that transmits the distance. -/
def emitDistance (build : Build) (out : UzlibComp) (distance : ℕ) : Except Fault UzlibComp := do
  let code ← bisectCode build distcodes distance (distcodes.length + 1) (-1) distcodes.length
  let record := distcodes.getD code ⟨0, 0, 0⟩
  let out ← outbits build out (reverseByte (code * 8)) 5
  if record.extrabits ≠ 0 then outbits build out (distance - record.min) record.extrabits
  else return out

/-- The loop of `zlib_match`. -/
def matchLoop (build : Build) (distance : ℕ) : ℕ → ℕ → UzlibComp → Except Fault UzlibComp
  | 0, _, _ => .error .endlessLoop
  | fuel + 1, len, out =>
    if 0 < len then do
      let out ← emitLength build out (thisLength len)
      let out ← emitDistance build out distance
      matchLoop build distance fuel (len - thisLength len) out
    else .ok out

/-- `zlib_match`. -/
def zlibMatch (build : Build) (out : UzlibComp) (distance len : ℕ) : Except Fault UzlibComp := do
  build.assert (!out.compDisabled)
  matchLoop build distance (len + 1) len out

/-- `zlib_start_block`. -/
def zlibStartBlock (build : Build) (out : UzlibComp) : Except Fault UzlibComp := do
  let out ← outbits build out 1 1
  outbits build out 1 2

/-- `zlib_finish_block`. -/
def zlibFinishBlock (build : Build) (out : UzlibComp) : Except Fault UzlibComp := do
  let out ← outbits build out 0 7
  outbits build out 0 7

end ZephyrThrift.Muzic
