import ZephyrThrift.Muzic.Stream

/-!
# The window ring of the inflater

`inflater.c`, `Inf_Outbuf_*`: the last 32 KiB of output, in a ring whose write pointer wraps lazily
(it may rest at the end of the ring). A `memcpy` copies what its source holds when it is called.
-/

set_option autoImplicit false
set_option relaxedAutoImplicit false

namespace ZephyrThrift.Muzic

def infOutbufSize : ℕ := 1024 * 32

/-- `Inf_Outbuf`; `ptr` is `seqence_ptr - seqence_buf`. -/
structure InfOutbuf where
  ring : ℕ → UInt8
  ptr : ℕ

/-- `memcpy(ring + offset, bytes, length of bytes)`. -/
def copyInto (ring : ℕ → UInt8) (offset : ℕ) (bytes : List UInt8) : ℕ → UInt8 := fun i ↦
  if offset ≤ i ∧ i < offset + bytes.length then bytes.getD (i - offset) 0 else ring i

/-- `Inf_Outbuf_putc`. -/
def infOutbufPutc (build : Build) (infbuf : InfOutbuf) (c : UInt8) : Except Fault InfOutbuf :=
  match build.assert (infbuf.ptr ≤ infOutbufSize) with
  | .error fault => .error fault
  | .ok () =>
    let ptr := if infbuf.ptr = infOutbufSize then 0 else infbuf.ptr
    .ok ⟨Function.update infbuf.ring ptr c, ptr + 1⟩

/-- The loop of `Inf_Outbuf_write`: as long as the bytes do not fit before the end of the ring, fill
the ring up and start again at its beginning. -/
def writeLoop : ℕ → InfOutbuf → List UInt8 → InfOutbuf
  | 0, infbuf, _ => infbuf
  | fuel + 1, infbuf, buf =>
    let restBytes := infOutbufSize - infbuf.ptr
    if restBytes < buf.length then
      writeLoop fuel ⟨copyInto infbuf.ring infbuf.ptr (buf.take restBytes), 0⟩ (buf.drop restBytes)
    else ⟨copyInto infbuf.ring infbuf.ptr buf, infbuf.ptr + buf.length⟩

/-- `Inf_Outbuf_write`. Every turn but the first takes a full ring of bytes. -/
def infOutbufWrite (infbuf : InfOutbuf) (buf : List UInt8) : InfOutbuf :=
  writeLoop (buf.length + 2) infbuf buf

/-- A read of the ring at an offset; behind the ring the build decides. -/
def readRing (build : Build) (infbuf : InfOutbuf) (offset : ℕ) : Except Fault UInt8 :=
  if offset < infOutbufSize then .ok (infbuf.ring offset)
  else match build.behindRing with
    | some behind => .ok (behind offset)
    | none => .error .ringIndex

/-- `memcpy` from the ring to the caller. -/
def ringBytes (infbuf : InfOutbuf) (offset count : ℕ) : List UInt8 :=
  (List.range count).map fun i ↦ infbuf.ring (offset + i)

/-- The byte-by-byte loop at the end of `Inf_Outbuf_read`. -/
def copyLoop (build : Build) :
    ℕ → ℕ → InfOutbuf → Except Fault (List UInt8 × InfOutbuf)
  | 0, _, infbuf => .ok ([], infbuf)
  | len + 1, sequencePtr, infbuf => do
    let c ← readRing build infbuf sequencePtr
    let infbuf ← infOutbufPutc build infbuf c
    let dest ← readRing build infbuf sequencePtr
    let (rest, infbuf) ← copyLoop build len (sequencePtr + 1) infbuf
    return (dest :: rest, infbuf)

/-- `Inf_Outbuf_read`: whether it succeeds, the bytes stored in `dest`, and the ring after it. -/
def infOutbufRead (build : Build) (infbuf : InfOutbuf) (distance len : ℕ) :
    Except Fault (Bool × List UInt8 × InfOutbuf) :=
  if infbuf.ptr < distance then
    if infbuf.ptr + infOutbufSize < distance then .error .ringIndex
    else
      let sequencePtr := infbuf.ptr + infOutbufSize - distance
      let restBytes := infOutbufSize - sequencePtr
      if len ≤ restBytes then
        let bytes := ringBytes infbuf sequencePtr len
        .ok (true, bytes, infOutbufWrite infbuf bytes)
      else
        let bytes := ringBytes infbuf sequencePtr restBytes
        let infbuf := infOutbufWrite infbuf bytes
        if infbuf.ptr < len - restBytes then .ok (false, bytes, infbuf)
        else
          match copyLoop build (len - restBytes) 0 infbuf with
          | .error fault => .error fault
          | .ok (rest, infbuf) => .ok (true, bytes ++ rest, infbuf)
  else
    match copyLoop build len (infbuf.ptr - distance) infbuf with
    | .error fault => .error fault
    | .ok (bytes, infbuf) => .ok (true, bytes, infbuf)

end ZephyrThrift.Muzic
