import ZephyrThrift.Muzic.Matcher

/-!
# The deflater

`zlib_comp.c`: the checksum, and `deflate`, which compresses all of its input into a buffer of its
own and delivers the buffer through the caller's windows. The macros of `mz_config.h` are on:
`MZ_ZLIB_HEADER`, `MZ_ZLIB_CHECKSUM` and `MZ_NO_EMPTY_BLOCK`. Memory is never exhausted.
-/

set_option autoImplicit false
set_option relaxedAutoImplicit false

namespace ZephyrThrift.Muzic

/-! ### The checksum -/

def a32Base : ℕ := 65521

def a32Nmax : ℕ := 5552

/-- `s1 += byte; s2 += s1;` on `unsigned int`. -/
def adlerByte (sums : ℕ × ℕ) (byte : UInt8) : ℕ × ℕ :=
  let s1 := (sums.1 + byte.toNat) % 2 ^ 32
  (s1, (sums.2 + s1) % 2 ^ 32)

/-- The unrolled loop of `muzic_adler32`, sixteen bytes a turn. -/
def adlerSixteens : ℕ → List UInt8 → ℕ × ℕ → ℕ × ℕ
  | 0, _, sums => sums
  | turns + 1, buf, sums => adlerSixteens turns (buf.drop 16) ((buf.take 16).foldl adlerByte sums)

/-- The loop of `muzic_adler32` over blocks of at most `A32_NMAX` bytes. -/
def adlerBlocks : ℕ → List UInt8 → ℕ × ℕ → ℕ × ℕ
  | 0, _, sums => sums
  | fuel + 1, buf, sums =>
    if 0 < buf.length then
      let k := min buf.length a32Nmax
      let sums := adlerSixteens (k / 16) buf sums
      let sums := ((buf.drop (16 * (k / 16))).take (k % 16)).foldl adlerByte sums
      adlerBlocks fuel (buf.drop k) (sums.1 % a32Base, sums.2 % a32Base)
    else sums

/-- `muzic_adler32`. -/
def muzicAdler32 (data : List UInt8) (prevSum : ℕ) : ℕ :=
  let sums := adlerBlocks (data.length + 1) data (prevSum &&& 0xffff, prevSum >>> 16)
  (sums.2 <<< 16) % 2 ^ 32 ||| sums.1

/-! ### The calls -/

/-- `out4bytes`. -/
def out4bytes (out : UzlibComp) (st nd rd th : UInt8) : Except Fault UzlibComp := do
  let newlen := out.outlen + 4
  let out ←
    if out.outsize < newlen then do
      let ptr ← reallocOut out.outbuf
      pure { out with outsize := newlen, outbuf := some ptr }
    else pure out
  let out ← appendByte out st
  let out ← appendByte out nd
  let out ← appendByte out rd
  appendByte out th

/-- `deflateInit`: the part of `z_stream` it sets, and the state in memory that held `heap`. -/
def deflateInit (strm : ZStream) (heap : UzlibComp) : ZStream × UzlibComp :=
  ({ strm with msg := none, adler := 1 },
    { heap with dictSize := 32768, hashBits := 12, outbuf := none, compDisabled := true })

/-- The byte of a 32-bit value that starts at bit `shift`. -/
def byteAt (value shift : ℕ) : UInt8 := UInt8.ofNat ((value >>> shift) &&& 0xFF)

/-- The middle part of `deflate`: everything that one chunk adds to the output buffer. -/
def encodeChunk (build : Build) (ustate : UzlibComp) (input : List UInt8) (flush : Flush)
    (adlerV : ℕ) : Except Fault UzlibComp := do
  let ustate := { ustate with
    outlen := 0, outsize := 0, outbits := 0, noutbits := 0, hashTable := fun _ ↦ none }
  -- a finishing call always starts a new stream
  let ustate ←
    if flush = .finish ∨ ustate.compDisabled then do
      let ustate ← outbits build ustate 0x78 8
      outbits build ustate 0x01 8
    else pure ustate
  let ustate := { ustate with compDisabled := false }
  let ustate ←
    if flush ≠ .finish then do
      let ustate ← outbits build ustate 0 1
      outbits build ustate 1 2
    else zlibStartBlock build ustate
  let ustate ← uzlibCompress build ustate input
  if flush ≠ .finish then do
    let ustate ← outbits build ustate 0 7
    let ustate ← outbits build ustate 0 3
    let ustate ← outbits build ustate 0 7
    out4bytes ustate 0x00 0x00 0xFF 0xFF
  else do
    let ustate ← zlibFinishBlock build ustate
    let ustate ←
      out4bytes ustate (byteAt adlerV 24) (byteAt adlerV 16) (byteAt adlerV 8) (byteAt adlerV 0)
    return { ustate with compDisabled := true }

/-- What a call of `deflate` returns and leaves behind; `stored` are the bytes it stored from
`next_out` on. -/
structure DeflateResult where
  code : ZCode
  strm : ZStream
  state : UzlibComp
  stored : List UInt8

/-- The output buffer of a state, where there must be one. -/
def UzlibComp.out (ustate : UzlibComp) : Except Fault OutPtr :=
  match ustate.outbuf with
  | some ptr => .ok ptr
  | none => .error .unsetPointer

/-- The last part of `deflate`: deliver the new output, or as much of it as fits. -/
def deliverChunk (strm : ZStream) (ustate : UzlibComp) (flush : Flush) :
    Except Fault DeflateResult := do
  let out ← ustate.out
  if strm.availOut < ustate.outlen then
    if flush = .finish then
      let freed ← freeOut out
      return ⟨.bufError, strm, { ustate with outbuf := some freed }, []⟩
    else
      let bytes ← out.read strm.availOut
      return ⟨.ok,
        { strm with
          nextOut := strm.nextOut + strm.availOut, totalOut := strm.availOut, availOut := 0 },
        { ustate with
          outbuf := some { out with offset := out.offset + strm.availOut }
          outlen := ustate.outlen - strm.availOut },
        bytes⟩
  else
    let bytes ← out.read ustate.outlen
    let _ ← freeOut out
    return ⟨if flush = .finish then .streamEnd else .ok,
      { strm with
        totalOut := if flush = .finish then ustate.outlen else strm.totalOut + ustate.outlen
        availOut := strm.availOut - ustate.outlen
        nextOut := strm.nextOut + ustate.outlen },
      { ustate with outbuf := none },
      bytes⟩

/-- `deflate` when no output is pending. -/
def deflateChunk (build : Build) (memory : Memory) (strm : ZStream) (ustate : UzlibComp)
    (flush : Flush) : Except Fault DeflateResult :=
  if strm.availIn = 0 ∧ flush ≠ .finish then .ok ⟨.ok, strm, ustate, []⟩
  else do
    let input := memory.bytes strm.nextIn strm.availIn
    let adlerV := muzicAdler32 input strm.adler
    let ustate ← encodeChunk build ustate input flush adlerV
    deliverChunk
      { strm with
        adler := if flush ≠ .finish then adlerV else strm.adler
        totalIn := if flush = .finish then strm.availIn else strm.totalIn + strm.availIn
        nextIn := strm.nextIn + strm.availIn
        availIn := 0 }
      ustate flush

/-- `deflate`: first the output pending from earlier calls, then the new chunk. -/
def deflate (build : Build) (memory : Memory) (strm : ZStream) (ustate : UzlibComp)
    (flush : Flush) : Except Fault DeflateResult :=
  match ustate.outbuf with
  | none => deflateChunk build memory strm ustate flush
  | some out =>
    if strm.availOut < ustate.outlen then do
      let bytes ← out.read strm.availOut
      return ⟨.ok,
        { strm with
          nextOut := strm.nextOut + strm.availOut
          totalOut := strm.totalOut + strm.availOut
          availOut := 0 },
        { ustate with
          outbuf := some { out with offset := out.offset + strm.availOut }
          outlen := ustate.outlen - strm.availOut },
        bytes⟩
    else do
      let bytes ← out.read ustate.outlen
      let strm' := { strm with
        availOut := strm.availOut - ustate.outlen
        nextOut := strm.nextOut + ustate.outlen
        totalOut := strm.totalOut + ustate.outlen }
      let _ ← freeOut { out with offset := out.offset - strm.totalOut }
      let ustate := { ustate with outbuf := none }
      if strm.availIn = 0 then return ⟨.ok, strm', ustate, bytes⟩
      else
        let r ← deflateChunk build memory strm' ustate flush
        return { r with stored := bytes ++ r.stored }

end ZephyrThrift.Muzic
