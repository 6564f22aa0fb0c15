import ZephyrThrift.Muzic.Stream

/-!
# The bit buffer of the inflater

`inflater.c`, `Inf_BS_*` and `Inf_Huff_Decode`: a 32-bit buffer filled byte by byte from the unread
input, and the two-level table look-up on its low bits. A reader returns `none` where the source
returns `Inf_FALSE`: the input ended before enough bits were loaded, and the bits loaded so far stay
in the buffer.
-/

set_option autoImplicit false
set_option relaxedAutoImplicit false

namespace ZephyrThrift.Muzic

def infMainTableSize : ℕ := 256

def infHuffTableSize : ℕ := 2 * 1024

def infInvalidLength : ℕ := 24

/-- `Inf_Huff`: the two views of the union share their three bit fields, `value.length` with
`subtable.mask`, `value.isvalid` with `subtable.error`, and `value.code` with `subtable.index`. -/
structure InfHuff where
  length : ℕ
  isvalid : Bool
  code : ℕ
  deriving DecidableEq, Repr

def InfHuff.mask (entry : InfHuff) : ℕ := entry.length

def InfHuff.index (entry : InfHuff) : ℕ := entry.code

/-- `Inf_HuffConst` and `Inf_Huff_SetValue`. -/
def InfHuff.value (length code : ℕ) : InfHuff := ⟨length, true, code⟩

/-- `Inf_Huff_SetTableRef`. -/
def InfHuff.tableRef (index mask : ℕ) : InfHuff := ⟨mask, false, index⟩

/-- A decoder table; only the indices below `infHuffTableSize` belong to it. -/
abbrev HuffTable := ℕ → InfHuff

/-- A read of `table[index]`. -/
def HuffTable.get (table : HuffTable) (index : ℕ) : Except Fault InfHuff :=
  if index < infHuffTableSize then .ok (table index) else .error .tableIndex

/-- `Inf_Huff_Decode`. -/
def infHuffDecode (table : HuffTable) (bitbuffer : ℕ) : Except Fault InfHuff :=
  let entry := table (bitbuffer % 256)
  if entry.isvalid then .ok entry
  else table.get (entry.index + ((bitbuffer >>> 8) &&& entry.mask))

/-- `Inf_BS`; `input` holds the bytes from `inputPtr` up to `inputEnd`. -/
structure InfBS where
  bits : ℕ
  size : ℕ
  input : List UInt8
  deriving DecidableEq, Repr

namespace InfBS

/-- `bits |= byte << size` on a 32-bit buffer. -/
def loadByte (bits size : ℕ) (byte : UInt8) : Except Fault ℕ :=
  if size < 32 then .ok (bits ||| (byte.toNat <<< size) % 2 ^ 32) else .error .shiftWidth

/-- The loop `while (size < count) if (!Inf_BS_LoadNextByte(bitstream)) return Inf_FALSE;`. -/
def loadUpTo (count : ℕ) (bits size : ℕ) : List UInt8 → Except Fault (Bool × InfBS)
  | [] => .ok (decide (count ≤ size), ⟨bits, size, []⟩)
  | byte :: rest =>
    if size < count then
      match loadByte bits size byte with
      | .error fault => .error fault
      | .ok bits => loadUpTo count bits (size + 8) rest
    else .ok (true, ⟨bits, size, byte :: rest⟩)

/-- `Inf_BS_ReadBits`. -/
def readBits (numberOfBitsToRead : ℕ) (bitstream : InfBS) : Except Fault (Option ℕ × InfBS) :=
  match loadUpTo numberOfBitsToRead bitstream.bits bitstream.size bitstream.input with
  | .error fault => .error fault
  | .ok (false, bitstream) => .ok (none, bitstream)
  | .ok (true, bitstream) =>
    .ok (some (bitstream.bits &&& (1 <<< numberOfBitsToRead - 1)),
      { bitstream with
        bits := bitstream.bits >>> numberOfBitsToRead
        size := bitstream.size - numberOfBitsToRead })

/-- `bits >>= count` on a 32-bit buffer. -/
def dropBits (bits count : ℕ) : Except Fault ℕ :=
  if count < 32 then .ok (bits >>> count) else .error .shiftWidth

/-- The end of `Inf_BS_ReadEncodedBits`: hand out the code found and drop its bits. -/
def takeCode (data : InfHuff) (bitstream : InfBS) : Except Fault (Option ℕ × InfBS) :=
  match dropBits bitstream.bits data.length with
  | .error fault => .error fault
  | .ok bits =>
    .ok (some data.code, { bitstream with bits := bits, size := bitstream.size - data.length })

/-- The loop of `Inf_BS_ReadEncodedBits`: decode, and load another byte while the entry found is
longer than the buffer. -/
def readEncodedLoop (decoder : HuffTable) (bits size : ℕ) :
    List UInt8 → Except Fault (Option ℕ × InfBS)
  | [] =>
    match infHuffDecode decoder bits with
    | .error fault => .error fault
    | .ok data =>
      if size < data.length then .ok (none, ⟨bits, size, []⟩) else takeCode data ⟨bits, size, []⟩
  | byte :: rest =>
    match infHuffDecode decoder bits with
    | .error fault => .error fault
    | .ok data =>
      if size < data.length then
        match loadByte bits size byte with
        | .error fault => .error fault
        | .ok bits => readEncodedLoop decoder bits (size + 8) rest
      else takeCode data ⟨bits, size, byte :: rest⟩

/-- `Inf_BS_ReadEncodedBits`. -/
def readEncodedBits (decoder : HuffTable) (bitstream : InfBS) :
    Except Fault (Option ℕ × InfBS) :=
  if bitstream.size = 0 then
    match bitstream.input with
    | [] => .ok (none, bitstream)
    | byte :: rest =>
      match loadByte bitstream.bits 0 byte with
      | .error fault => .error fault
      | .ok bits => readEncodedLoop decoder bits 8 rest
  else readEncodedLoop decoder bitstream.bits bitstream.size bitstream.input

/-- `Inf_BS_ReadDWord`: drop the padding bits up to the byte border and read 32 bits. -/
def readDWord (build : Build) (bitstream : InfBS) : Except Fault (Option ℕ × InfBS) :=
  let bitsToSkip := bitstream.size % 8
  match loadUpTo 32 (bitstream.bits >>> bitsToSkip) (bitstream.size - bitsToSkip)
      bitstream.input with
  | .error fault => .error fault
  | .ok (false, bitstream) => .ok (none, bitstream)
  | .ok (true, bitstream) =>
    match build.assert (bitstream.size == 32) with
    | .error fault => .error fault
    | .ok () => .ok (some bitstream.bits, ⟨0, 0, bitstream.input⟩)

/-- `Inf_BS_ReadBytes`: the bytes copied, whether they are all that was asked for, and what is
left. -/
def readBytes (build : Build) (count : ℕ) (bitstream : InfBS) :
    Except Fault (List UInt8 × Bool × InfBS) :=
  match build.assert (bitstream.size == 0) with
  | .error fault => .error fault
  | .ok () =>
    let successfulBytes := min count bitstream.input.length
    .ok (bitstream.input.take successfulBytes, successfulBytes == count,
      { bitstream with input := bitstream.input.drop successfulBytes })

end InfBS

end ZephyrThrift.Muzic
