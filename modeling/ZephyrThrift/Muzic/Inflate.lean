import ZephyrThrift.Foundation.Transducer
import ZephyrThrift.Muzic.SymlenList
import ZephyrThrift.Muzic.OutputWindow

/-!
# The inflater

`inflater.c`, `inflateInit` and `inflate`: the block decoder is a loop over the steps of `InfStep`.
One pass of `inflateStep` is one case of the switch; `inf__fallthrough` and `inf__goto` both set the
step and proceed, `inf__FILL_INPUT_BUFFER` and `inf__USE_OUTPUT_BUFFER_CONTENT` suspend. Around the
loop, `inflate` strips the header and keeps the accounts of the caller's `z_stream`.

The macros of `mz_config.h` are on: the stream has a header and a checksum.
-/

set_option autoImplicit false
set_option relaxedAutoImplicit false

namespace ZephyrThrift.Muzic

open Foundation

inductive InfAction
  | finish
  | fillInputBuffer
  | useOutputBufferContent
  | feed2ndZlibHeaderByte
  | processNextChunk
  | init
  deriving DecidableEq, Repr

inductive InfStep
  | start
  | processNextBlock
  | readBlockHeader
  | processUncompressedBlock
  | outputUncompressedBlock
  | loadFixedHuffmanDecoders
  | loadDynamicHuffmanDecoders
  | loadFrontDecoder
  | loadLiteralDecoder
  | loadDistanceDecoder
  | processCompressedBlock
  | readLiteralOrLength
  | readLiteralOrLength2
  | readLengthBits
  | readDistance
  | readDistanceBits
  | outputSequence
  | fatalError
  | adler32Checksum
  | end
  deriving DecidableEq, Repr

/-- The tables that a decoder pointer can point to. -/
inductive DecoderRef
  | huffmanTableA
  | huffmanTableB
  | fixedLiteral
  | fixedDistance
  deriving DecidableEq, Repr

/-- The static variables of the two functions that make the fixed decoders. -/
structure Statics where
  cachedLiteral : Option HuffTable
  cachedDistance : Option HuffTable

/-- The part of `Inf_State` that the block decoder works on, with the statics it shares. -/
structure InfCore where
  bits : ℕ
  size : ℕ
  sllist : InfSLList
  step : InfStep
  isLastBlock : ℕ
  symcount : ℕ
  literal : ℕ
  sequenceDist : ℕ
  sequenceLen : ℕ
  frontDecoder : Option DecoderRef
  literalDecoder : Option DecoderRef
  distanceDecoder : Option DecoderRef
  huffmanTableA : HuffTable
  huffmanTableB : HuffTable
  outputBuf : InfOutbuf
  statics : Statics

/-- How the block decoder ends: `Z_STREAM_END`, or `Z_DATA_ERROR` with the message it sets. -/
inductive BlockResult
  | streamEnd
  | dataError (msg : Option String)
  deriving DecidableEq, Repr

abbrev InfPass := Pass InfCore UInt8

abbrev InfEffect := Effect InfCore UInt8 UInt8 BlockResult

/-! ### The passes -/

section Passes

variable (build : Build)

def bitstreamOf (p : InfPass) : InfBS := ⟨p.state.bits, p.state.size, p.input⟩

/-- The pass after a reader left `bitstream` behind. -/
def withBitstream (p : InfPass) (bitstream : InfBS) : InfPass :=
  { p with
    state := { p.state with bits := bitstream.bits, size := bitstream.size }
    input := bitstream.input }

/-- The pass with a changed state. -/
def withState (p : InfPass) (change : InfCore → InfCore) : InfPass :=
  { p with state := change p.state }

/-- `inf__goto` and `inf__fallthrough`. -/
def goto (p : InfPass) (step : InfStep) : Except Fault InfEffect :=
  .ok ⟨withState p fun st ↦ { st with step := step }, [], .proceed⟩

/-- The error exits: step `FATAL_ERROR`, action `Finish`, result `Z_DATA_ERROR`. -/
def fatal (p : InfPass) (stored : List UInt8) (msg : Option String) : Except Fault InfEffect :=
  .ok ⟨withState p fun st ↦ { st with step := .fatalError }, stored, .halt (.dataError msg)⟩

/-- `if (!read) { inf__FILL_INPUT_BUFFER(); }`, and what follows it. -/
def reading {α : Type} (p : InfPass) (read : Except Fault (Option α × InfBS))
    (next : α → InfPass → Except Fault InfEffect) : Except Fault InfEffect :=
  match read with
  | .error fault => .error fault
  | .ok (none, bitstream) => .ok ⟨withBitstream p bitstream, [], .needInput⟩
  | .ok (some value, bitstream) => next value (withBitstream p bitstream)

/-- The same for the functions that also work on the symbol-length list. -/
def listing (p : InfPass) (read : Except Fault (Bool × InfSLList × InfBS))
    (next : InfPass → Except Fault InfEffect) : Except Fault InfEffect :=
  match read with
  | .error fault => .error fault
  | .ok (false, list, bitstream) =>
    .ok ⟨withState (withBitstream p bitstream) fun st ↦ { st with sllist := list }, [], .needInput⟩
  | .ok (true, list, bitstream) =>
    next (withState (withBitstream p bitstream) fun st ↦ { st with sllist := list })

/-- The table behind a decoder pointer. -/
def InfCore.decoder (st : InfCore) (ref : Option DecoderRef) : Except Fault HuffTable :=
  match ref with
  | none => .error .unsetPointer
  | some .huffmanTableA => .ok st.huffmanTableA
  | some .huffmanTableB => .ok st.huffmanTableB
  | some .fixedLiteral => st.statics.cachedLiteral.elim (.error .unsetPointer) .ok
  | some .fixedDistance => st.statics.cachedDistance.elim (.error .unsetPointer) .ok

/-- A read of one of the static arrays of `inflate`. -/
def staticEntry (array : List ℕ) (index : ℕ) : Except Fault ℕ :=
  match array[index]? with
  | some entry => .ok entry
  | none => .error .tableIndex

def lengthStarts : List ℕ :=
  [3, 4, 5, 6, 7, 8, 9, 10, 11, 13, 15, 17, 19, 23, 27,
   31, 35, 43, 51, 59, 67, 83, 99, 115, 131, 163, 195, 227, 258]

def lengthExtraBits : List ℕ :=
  [0, 0, 0, 0, 0, 0, 0, 0, 1, 1, 1, 1, 2, 2, 2, 2, 3, 3, 3, 3, 4, 4, 4, 4, 5, 5, 5, 5, 0]

def distanceStarts : List ℕ :=
  [1, 2, 3, 4, 5, 7, 9, 13, 17, 25, 33, 49, 65, 97, 129,
   193, 257, 385, 513, 769, 1025, 1537, 2049, 3073, 4097, 6145, 8193, 12289, 16385, 24577]

def distanceExtraBits : List ℕ :=
  [0, 0, 0, 0, 1, 1, 2, 2, 3, 3, 4, 4, 5, 5, 6,
   6, 7, 7, 8, 8, 9, 9, 10, 10, 11, 11, 12, 12, 13, 13]

/-- The initial contents of a static table. -/
def staticTable : HuffTable := fun _ ↦ ⟨0, false, 0⟩

/-- `Inf_Huff_MakeFixedLiteralDecoder`: the cached table, or the table made now. -/
def infHuffMakeFixedLiteralDecoder (cachedDecoder : Option HuffTable) (tmplist : InfSLList) :
    Except Fault (HuffTable × InfSLList) :=
  match cachedDecoder with
  | some table => .ok (table, tmplist)
  | none => do
    let tmplist ← infSLListAddRange build 0 8 144 tmplist
    let tmplist ← infSLListAddRange build 144 9 112 tmplist
    let tmplist ← infSLListAddRange build 256 7 24 tmplist
    let tmplist ← infSLListAddRange build 280 8 8 tmplist
    let (sorted, tmplist) ← infSLListGetSorted tmplist true
    let table ← infHuffMakeDecoder build staticTable sorted
    return (table, tmplist)

/-- `Inf_Huff_MakeFixedDistanceDecoder`. -/
def infHuffMakeFixedDistanceDecoder (cachedDecoder : Option HuffTable) (tmplist : InfSLList) :
    Except Fault (HuffTable × InfSLList) :=
  match cachedDecoder with
  | some table => .ok (table, tmplist)
  | none => do
    let tmplist ← infSLListAddRange build 0 5 32 tmplist
    let (sorted, tmplist) ← infSLListGetSorted tmplist true
    let table ← infHuffMakeDecoder build staticTable sorted
    return (table, tmplist)

def passStart (p : InfPass) : Except Fault InfEffect :=
  goto (withState p fun st ↦ { st with isLastBlock := 0 }) .processNextBlock

def passProcessNextBlock (p : InfPass) : Except Fault InfEffect :=
  if p.state.isLastBlock ≠ 0 then
    -- the field now counts the bytes of the checksum that are still expected
    goto (withState p fun st ↦ { st with isLastBlock := 4 }) .adler32Checksum
  else goto p .readBlockHeader

def passReadBlockHeader (p : InfPass) : Except Fault InfEffect :=
  reading p ((bitstreamOf p).readBits 3) fun temp p ↦
    let p := withState p fun st ↦ { st with isLastBlock := temp &&& 0x01 }
    match temp >>> 1 with
    | 0 => goto p .processUncompressedBlock
    | 1 => goto p .loadFixedHuffmanDecoders
    | 2 => goto p .loadDynamicHuffmanDecoders
    | _ => fatal p [] (some "invalid block type")

def passProcessUncompressedBlock (p : InfPass) : Except Fault InfEffect :=
  reading p ((bitstreamOf p).readDWord build) fun temp p ↦
    let p := withState p fun st ↦ { st with sequenceLen := temp &&& 0xFFFF }
    if p.state.sequenceLen ≠ (2 ^ 32 - 1 - temp) >>> 16 then
      fatal p [] (some "invalid stored block lengths")
    else goto p .outputUncompressedBlock

def passOutputUncompressedBlock (p : InfPass) : Except Fault InfEffect :=
  match (bitstreamOf p).readBytes build (min p.state.sequenceLen p.free) with
  | .error fault => .error fault
  | .ok (bytes, canReadAll, bitstream) =>
    let p := withBitstream { p with free := p.free - bytes.length } bitstream
    let p := withState p fun st ↦
      { st with
        outputBuf := infOutbufWrite st.outputBuf bytes
        sequenceLen := st.sequenceLen - bytes.length }
    if canReadAll = false then .ok ⟨p, bytes, .needInput⟩
    else if 0 < p.state.sequenceLen then .ok ⟨p, bytes, .needOutput⟩
    else .ok ⟨withState p fun st ↦ { st with step := .processNextBlock }, bytes, .proceed⟩

def passLoadFixedHuffmanDecoders (p : InfPass) : Except Fault InfEffect := do
  let (literal, list) ←
    infHuffMakeFixedLiteralDecoder build p.state.statics.cachedLiteral p.state.sllist
  let (distance, list) ←
    infHuffMakeFixedDistanceDecoder build p.state.statics.cachedDistance list
  let p := withState p fun st ↦
    { st with
      sllist := list
      statics := ⟨some literal, some distance⟩
      literalDecoder := some .fixedLiteral
      distanceDecoder := some .fixedDistance }
  goto p .processCompressedBlock

def passLoadDynamicHuffmanDecoders (p : InfPass) : Except Fault InfEffect :=
  reading p ((bitstreamOf p).readBits (5 + 5 + 4)) fun symcount p ↦
    goto (withState p fun st ↦ { st with symcount := symcount }) .loadFrontDecoder

def passLoadFrontDecoder (p : InfPass) : Except Fault InfEffect :=
  listing p (infSLListAdd3BitSymlens build p.state.sllist (bitstreamOf p)
      (((p.state.symcount >>> 10) &&& 0x0F) + 4)) fun p ↦ do
    let (sorted, list) ← infSLListGetSorted p.state.sllist true
    let table ← infHuffMakeDecoder build p.state.huffmanTableA sorted
    let p := withState p fun st ↦
      { st with sllist := list, huffmanTableA := table, frontDecoder := some .huffmanTableA }
    goto p .loadLiteralDecoder

def passLoadLiteralDecoder (p : InfPass) : Except Fault InfEffect := do
  let decoder ← p.state.decoder p.state.frontDecoder
  listing p (infSLListAddEncodedSymlens build p.state.sllist (bitstreamOf p)
      ((p.state.symcount &&& 0x1F) + 257) decoder) fun p ↦ do
    let (sorted, list) ← infSLListGetSorted p.state.sllist false
    let table ← infHuffMakeDecoder build p.state.huffmanTableB sorted
    let p := withState p fun st ↦
      { st with sllist := list, huffmanTableB := table, literalDecoder := some .huffmanTableB }
    goto p .loadDistanceDecoder

def passLoadDistanceDecoder (p : InfPass) : Except Fault InfEffect := do
  let decoder ← p.state.decoder p.state.frontDecoder
  listing p (infSLListAddEncodedSymlens build p.state.sllist (bitstreamOf p)
      (((p.state.symcount >>> 5) &&& 0x1F) + 1) decoder) fun p ↦ do
    let (sorted, list) ← infSLListGetSorted p.state.sllist true
    let table ← infHuffMakeDecoder build p.state.huffmanTableA sorted
    let p := withState p fun st ↦
      { st with sllist := list, huffmanTableA := table, distanceDecoder := some .huffmanTableA }
    goto p .processCompressedBlock

/-- The steps `PROCESS_COMPRESSED_BLOCK` and `Read_LiteralOrLength`. -/
def passReadLiteralOrLength (p : InfPass) : Except Fault InfEffect := do
  let decoder ← p.state.decoder p.state.literalDecoder
  reading p ((bitstreamOf p).readEncodedBits decoder) fun literal p ↦
    goto (withState p fun st ↦ { st with literal := literal }) .readLiteralOrLength2

def passReadLiteralOrLength2 (p : InfPass) : Except Fault InfEffect :=
  if p.state.literal < 256 then
    if p.free = 0 then .ok ⟨p, [], .needOutput⟩
    else
      let c := UInt8.ofNat p.state.literal
      match infOutbufPutc build p.state.outputBuf c with
      | .error fault => .error fault
      | .ok outputBuf =>
        let p := withState { p with free := p.free - 1 } fun st ↦
          { st with outputBuf := outputBuf, step := .readLiteralOrLength }
        .ok ⟨p, [c], .proceed⟩
  else if p.state.literal = 256 then goto p .processNextBlock
  else if 285 < p.state.literal then fatal p [] (some "too many length or distance symbols")
  else goto (withState p fun st ↦ { st with literal := st.literal - 257 }) .readLengthBits

def passReadLengthBits (p : InfPass) : Except Fault InfEffect := do
  let extraBits ← staticEntry lengthExtraBits p.state.literal
  let start ← staticEntry lengthStarts p.state.literal
  reading p ((bitstreamOf p).readBits extraBits) fun temp p ↦ do
    build.assert (temp + start < 32 * 1024)
    goto (withState p fun st ↦ { st with sequenceLen := temp + start }) .readDistance

def passReadDistance (p : InfPass) : Except Fault InfEffect := do
  let decoder ← p.state.decoder p.state.distanceDecoder
  reading p ((bitstreamOf p).readEncodedBits decoder) fun literal p ↦
    let p := withState p fun st ↦ { st with literal := literal }
    if 29 < p.state.literal then fatal p [] (some "too many length or distance symbols")
    else goto p .readDistanceBits

def passReadDistanceBits (p : InfPass) : Except Fault InfEffect := do
  let extraBits ← staticEntry distanceExtraBits p.state.literal
  let start ← staticEntry distanceStarts p.state.literal
  reading p ((bitstreamOf p).readBits extraBits) fun temp p ↦ do
    build.assert (temp + start < 32 * 1024)
    goto (withState p fun st ↦ { st with sequenceDist := temp + start }) .outputSequence

def passOutputSequence (p : InfPass) : Except Fault InfEffect :=
  let wanted := min p.state.sequenceLen p.free
  match infOutbufRead build p.state.outputBuf p.state.sequenceDist wanted with
  | .error fault => .error fault
  | .ok (succ, bytes, outputBuf) =>
    let full := decide (p.state.sequenceLen ≤ p.free)
    let p := withState { p with free := p.free - wanted } fun st ↦
      { st with outputBuf := outputBuf, sequenceLen := st.sequenceLen - wanted }
    if succ = false then fatal p bytes none
    else if full then
      .ok ⟨withState p fun st ↦ { st with step := .readLiteralOrLength }, bytes, .proceed⟩
    else .ok ⟨p, bytes, .needOutput⟩

def passAdler32Checksum (p : InfPass) : Except Fault InfEffect :=
  let byteRead := min p.state.isLastBlock p.input.length
  let p := withState { p with input := p.input.drop byteRead } fun st ↦
    { st with isLastBlock := st.isLastBlock - byteRead }
  if p.state.isLastBlock = 0 then goto p .end else .ok ⟨p, [], .needInput⟩

/-- One pass of the loop of `inflate`. -/
def inflateStep (p : InfPass) : Except Fault InfEffect :=
  match p.state.step with
  | .start => passStart p
  | .processNextBlock => passProcessNextBlock p
  | .readBlockHeader => passReadBlockHeader p
  | .processUncompressedBlock => passProcessUncompressedBlock build p
  | .outputUncompressedBlock => passOutputUncompressedBlock build p
  | .loadFixedHuffmanDecoders => passLoadFixedHuffmanDecoders build p
  | .loadDynamicHuffmanDecoders => passLoadDynamicHuffmanDecoders p
  | .loadFrontDecoder => passLoadFrontDecoder build p
  | .loadLiteralDecoder => passLoadLiteralDecoder build p
  | .loadDistanceDecoder => passLoadDistanceDecoder build p
  | .processCompressedBlock => passReadLiteralOrLength p
  | .readLiteralOrLength => passReadLiteralOrLength p
  | .readLiteralOrLength2 => passReadLiteralOrLength2 build p
  | .readLengthBits => passReadLengthBits build p
  | .readDistance => passReadDistance p
  | .readDistanceBits => passReadDistanceBits build p
  | .outputSequence => passOutputSequence build p
  | .fatalError => .ok ⟨p, [], .proceed⟩
  | .adler32Checksum => passAdler32Checksum p
  | .end => .ok ⟨p, [], .halt .streamEnd⟩

end Passes

/-! ### The calls -/

/-- `Inf_State`: the decoder, and what `inflate` keeps between calls. -/
structure InfState where
  core : InfCore
  action : InfAction
  inputPtr : ℕ
  inputEnd : ℕ

/-- The state that `inflateInit` leaves in the memory it obtained, whose earlier contents are
`heap`. -/
def inflateInit (statics : Statics) (heap : InfState) : InfState :=
  { heap with
    action := .init
    core := { heap.core with
      step := .start
      bits := 0
      size := 0
      sllist := { heap.core.sllist with
        command := 0
        huffmanLength := 0
        repetitions := 0
        symbol := 0
        elementIndex := 0
        headPtr := fun _ ↦ none
        tailPtr := fun _ ↦ none }
      outputBuf := { heap.core.outputBuf with ptr := 0 }
      statics := statics } }

/-- What a call of `inflate` returns and leaves behind; `stored` are the bytes it stored from
`next_out` on. -/
structure InflateResult where
  code : ZCode
  strm : ZStream
  state : InfState
  stored : List UInt8

/-- A bound on the passes of one call: every pass consumes input, fills the window or lowers the
rank of the step. -/
def passBound (p : InfPass) : ℕ := 16 * (8 * p.input.length + p.state.size + p.free) + 16

/-- A difference of two pointers or counters, as an `unsigned int`. -/
def unsignedSub (a b : ℕ) : ℕ := (((a : ℤ) - (b : ℤ)) % 2 ^ 32).toNat

/-- The action that an exit of the loop leaves behind. -/
def actionAfter : Signal BlockResult → InfAction
  | .proceed => .processNextChunk
  | .needInput => .fillInputBuffer
  | .needOutput => .useOutputBufferContent
  | .halt .streamEnd => .init
  | .halt (.dataError _) => .finish

def codeAfter : Signal BlockResult → ZCode
  | .halt .streamEnd => .streamEnd
  | .halt (.dataError _) => .dataError
  | _ => .ok

def msgAfter (msg : Option String) : Signal BlockResult → Option String
  | .halt (.dataError (some text)) => some text
  | _ => msg

/-- The exit accounting of `inflate`; `inputBuffer` is where the call started to read. -/
def closeCall (strm : ZStream) (st : InfState) (inputBuffer : ℕ) (e : InfEffect) : InflateResult :=
  let inputPtr := st.inputEnd - e.pass.input.length
  let consumed := unsignedSub inputPtr inputBuffer
  let produced := strm.availOut - e.pass.free
  { code := codeAfter e.signal
    strm := { strm with
      nextIn := inputPtr
      availIn := unsignedSub strm.availIn consumed
      totalIn := strm.totalIn + consumed
      totalOut := strm.totalOut + produced
      nextOut := strm.nextOut + produced
      availOut := if e.signal = .needOutput then 0 else strm.availOut - produced
      msg := msgAfter strm.msg e.signal }
    state := { st with core := e.pass.state, action := actionAfter e.signal, inputPtr := inputPtr }
    stored := e.stored }

/-- The main part of `inflate`, behind the switch on the action. -/
def decodeBuffer (build : Build) (memory : Memory) (strm : ZStream) (st : InfState)
    (inputBuffer : ℕ) : Except Fault InflateResult := do
  build.assert (0 < strm.availOut)
  build.assert (st.inputPtr ≤ st.inputEnd)
  -- without the assertion, a pointer behind its end runs through memory
  if st.inputEnd < st.inputPtr then throw .inputRange
  let p : InfPass :=
    ⟨st.core, memory.bytes st.inputPtr (st.inputEnd - st.inputPtr), strm.availOut⟩
  let e ← run (inflateStep build) .endlessLoop (passBound p + 1) p
  return closeCall strm st inputBuffer e

/-- `inflate`; it ignores its flush argument. -/
def inflate (build : Build) (memory : Memory) (strm : ZStream) (st : InfState) :
    Except Fault InflateResult := do
  build.assert (0 < strm.availIn)
  match st.action with
  | .init =>
    let st := { st with inputPtr := strm.nextIn, inputEnd := strm.nextIn + strm.availIn }
    if memory strm.nextIn ≠ 0x78 then
      return ⟨.dataError, { strm with msg := some "incorrect header check" },
        { st with action := .init }, []⟩
    else if strm.availIn = 1 then
      return ⟨.ok, { strm with nextIn := strm.nextIn + 1, availIn := 0, totalIn := 1 },
        { st with action := .feed2ndZlibHeaderByte }, []⟩
    else if strm.availIn = 2 then
      return ⟨.ok, { strm with nextIn := strm.nextIn + 2, availIn := 0, totalIn := 2 },
        { st with action := .fillInputBuffer }, []⟩
    else
      decodeBuffer build memory { strm with totalIn := 2, availIn := strm.availIn - 2 }
        { st with inputPtr := strm.nextIn + 2 } (strm.nextIn + 2)
  | .feed2ndZlibHeaderByte =>
    if strm.availIn = 1 then
      return ⟨.ok, { strm with nextIn := strm.nextIn + 1, availIn := 0, totalIn := 2 },
        { st with action := .fillInputBuffer }, []⟩
    else
      -- `inputEnd` keeps the value of the call before
      decodeBuffer build memory { strm with totalIn := 2, availIn := strm.availIn - 1 }
        { st with inputPtr := strm.nextIn + 1 } (strm.nextIn + 1)
  | .fillInputBuffer =>
    decodeBuffer build memory strm
      { st with inputPtr := strm.nextIn, inputEnd := strm.nextIn + strm.availIn } strm.nextIn
  | .useOutputBufferContent => decodeBuffer build memory strm st strm.nextIn
  | .processNextChunk => decodeBuffer build memory strm st strm.nextIn
  | .finish => return ⟨.ok, strm, st, []⟩

/-! ### An inflater in cleared memory -/

/-- Memory that holds zeros, before `inflateInit`. -/
def zeroHeap : InfState where
  core :=
    { bits := 0, size := 0
      sllist := ⟨0, 0, 0, 0, fun _ ↦ 0, fun _ ↦ none, fun _ ↦ none, fun _ ↦ ⟨0, 0, none⟩, 0⟩
      step := .start, isLastBlock := 0, symcount := 0, literal := 0, sequenceDist := 0
      sequenceLen := 0, frontDecoder := none, literalDecoder := none, distanceDecoder := none
      huffmanTableA := fun _ ↦ ⟨0, false, 0⟩, huffmanTableB := fun _ ↦ ⟨0, false, 0⟩
      outputBuf := ⟨fun _ ↦ 0, 0⟩, statics := ⟨none, none⟩ }
  action := .finish
  inputPtr := 0
  inputEnd := 0

/-- An inflater in such memory. -/
def freshInflater : InfState := inflateInit ⟨none, none⟩ zeroHeap

/-- Memory that holds the given bytes from address 0 on. -/
def memoryOf (bytes : List UInt8) : Memory := fun address ↦ bytes.getD address 0

/-- A stream record for `availIn` bytes at address 0 and a window of `availOut` bytes. -/
def streamOf (availIn availOut : ℕ) : ZStream := ⟨0, availIn, 0, 0, availOut, 0, none, 0⟩

end ZephyrThrift.Muzic
