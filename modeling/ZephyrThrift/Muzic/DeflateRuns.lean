import ZephyrThrift.Muzic.ChunkEncoding

/-!
# Runs of the deflater

A caller hands `deflate` a chunk and a window and finds out how much of both is used. `DeflateRun` are
the histories that start with `deflateInit`. `deflate_cases` lists what a call does in a state of such
a history, where the output that is pending lies `total_out` bytes behind the start of its block
(`Delivering`).
-/

set_option autoImplicit false
set_option relaxedAutoImplicit false

namespace ZephyrThrift.Muzic

open Foundation

/-! ### One chunk -/

/-- The stream record behind a chunk that has been read. -/
def ZStream.chunkRead (strm : ZStream) (flush : Flush) (adlerV : ℕ) : ZStream :=
  { strm with
    adler := if flush ≠ .finish then adlerV else strm.adler
    totalIn := if flush = .finish then strm.availIn else strm.totalIn + strm.availIn
    nextIn := strm.nextIn + strm.availIn
    availIn := 0 }

/-- What a chunk is encoded to. -/
structure Encoded (build : Build) (ustate : UzlibComp) (input : List UInt8) (flush : Flush)
    (adlerV : ℕ) (encoded : UzlibComp) (bytes : List UInt8) : Prop where
  encodes : encodeChunk build ustate input flush adlerV = .ok encoded
  outbuf : encoded.outbuf = some ⟨bytes, 0, true⟩
  outlen : encoded.outlen = bytes.length
  compDisabled : encoded.compDisabled = decide (flush = .finish)
  kept : KeptByChunk ustate encoded
  chunk : ChunkBytes flush ustate.compDisabled adlerV input bytes

/-- What a call does with a chunk when no output is pending. -/
inductive ChunkCall (build : Build) (memory : Memory) (strm : ZStream) (ustate : UzlibComp)
    (flush : Flush) : DeflateResult → Prop
  | nothing (hin : strm.availIn = 0) (hflush : flush ≠ .finish) :
      ChunkCall build memory strm ustate flush ⟨.ok, strm, ustate, []⟩
  | delivers {encoded : UzlibComp} {bytes : List UInt8} {adlerV : ℕ}
      (hadler : adlerV = muzicAdler32 (memory.bytes strm.nextIn strm.availIn) strm.adler)
      (hencoded : Encoded build ustate (memory.bytes strm.nextIn strm.availIn) flush adlerV encoded
        bytes)
      (hin : strm.availIn ≠ 0 ∨ flush = .finish) (hroom : bytes.length ≤ strm.availOut) :
      ChunkCall build memory strm ustate flush
        ⟨if flush = .finish then .streamEnd else .ok,
          { strm.chunkRead flush adlerV with
            totalOut := if flush = .finish then bytes.length else strm.totalOut + bytes.length
            availOut := strm.availOut - bytes.length
            nextOut := strm.nextOut + bytes.length },
          { encoded with outbuf := none, outlen := bytes.length }, bytes⟩
  | spills {encoded : UzlibComp} {bytes : List UInt8} {adlerV : ℕ}
      (hadler : adlerV = muzicAdler32 (memory.bytes strm.nextIn strm.availIn) strm.adler)
      (hencoded : Encoded build ustate (memory.bytes strm.nextIn strm.availIn) flush adlerV encoded
        bytes)
      (hin : strm.availIn ≠ 0) (hflush : flush ≠ .finish) (hroom : strm.availOut < bytes.length) :
      ChunkCall build memory strm ustate flush
        ⟨.ok,
          { strm.chunkRead flush adlerV with
            nextOut := strm.nextOut + strm.availOut, totalOut := strm.availOut, availOut := 0 },
          { encoded with
            outbuf := some ⟨bytes, strm.availOut, true⟩, outlen := bytes.length - strm.availOut },
          bytes.take strm.availOut⟩
  | refuses {encoded : UzlibComp} {bytes : List UInt8} {adlerV : ℕ}
      (hadler : adlerV = muzicAdler32 (memory.bytes strm.nextIn strm.availIn) strm.adler)
      (hencoded : Encoded build ustate (memory.bytes strm.nextIn strm.availIn) flush adlerV encoded
        bytes)
      (hflush : flush = .finish) (hroom : strm.availOut < bytes.length) :
      ChunkCall build memory strm ustate flush
        ⟨.bufError, strm.chunkRead flush adlerV,
          { encoded with outbuf := some ⟨bytes, 0, false⟩, outlen := bytes.length }, []⟩

theorem OutPtr.read_eq {block : List UInt8} {offset count : ℕ}
    (h : offset + count ≤ block.length) :
    OutPtr.read ⟨block, offset, true⟩ count = .ok ((block.drop offset).take count) := by
  rw [OutPtr.read]
  exact if_pos ⟨rfl, Int.natCast_nonneg offset, h⟩

theorem freeOut_eq (block : List UInt8) : freeOut ⟨block, 0, true⟩ = .ok ⟨block, 0, false⟩ := rfl

theorem deflateChunk_cases (build : Build) (memory : Memory) (strm : ZStream) {ustate : UzlibComp}
    (h : Idle ustate) (flush : Flush) :
    ∃ r, deflateChunk build memory strm ustate flush = .ok r ∧
      ChunkCall build memory strm ustate flush r := by
  by_cases hnothing : strm.availIn = 0 ∧ flush ≠ .finish
  · exact ⟨_, if_pos hnothing, .nothing hnothing.1 hnothing.2⟩
  obtain ⟨encoded, bytes, hencode, hbuf, hlen, hdisabled, hkept, hchunk⟩ :=
    encodeChunk_spec build h (memory.bytes strm.nextIn strm.availIn) flush
      (muzicAdler32 (memory.bytes strm.nextIn strm.availIn) strm.adler)
  have hencoded := Encoded.mk hencode hbuf hlen hdisabled hkept hchunk
  have hout : encoded.out = .ok ⟨bytes, 0, true⟩ := by rw [UzlibComp.out, hbuf]
  have hread : ∀ count ≤ bytes.length,
      OutPtr.read ⟨bytes, 0, true⟩ count = .ok (bytes.take count) := by
    intro count hcount
    have hread := @OutPtr.read_eq bytes 0 count (by omega)
    rwa [List.drop_zero] at hread
  rw [deflateChunk, if_neg hnothing]
  simp only [hencode, deliverChunk, hout, hlen, bind, Except.bind]
  by_cases hroom : strm.availOut < bytes.length
  · by_cases hfinish : flush = .finish
    · refine ⟨_, ?_, .refuses rfl hencoded hfinish hroom⟩
      simp only [if_pos hroom, if_pos hfinish, freeOut_eq, ZStream.chunkRead]
      rfl
    · have hin : strm.availIn ≠ 0 := fun hzero ↦ hnothing ⟨hzero, hfinish⟩
      refine ⟨_, ?_, .spills rfl hencoded hin hfinish hroom⟩
      simp only [if_pos hroom, if_neg hfinish, hread _ hroom.le, ZStream.chunkRead, zero_add]
      rfl
  · have hin : strm.availIn ≠ 0 ∨ flush = .finish := by
      by_cases hfinish : flush = .finish
      · exact .inr hfinish
      · exact .inl fun hzero ↦ hnothing ⟨hzero, hfinish⟩
    refine ⟨_, ?_, .delivers rfl hencoded hin (not_lt.mp hroom)⟩
    simp only [if_neg hroom, hread _ le_rfl, List.take_length, freeOut_eq, ZStream.chunkRead]
    rfl

/-! ### One call -/

/-- A state of the compressor between calls: no buffer, or a live block with the output that is still
pending, `offset` bytes behind its start. -/
structure Delivering (ustate : UzlibComp) (offset : ℕ) (pending : List UInt8) : Prop where
  dictSize : ustate.dictSize = 32768
  outbuf : ustate.outbuf = none ∧ pending = [] ∨
    pending ≠ [] ∧ ustate.outlen = pending.length ∧
      ∃ block, ustate.outbuf = some ⟨block, offset, true⟩ ∧ block.drop offset = pending

theorem Delivering.idle {ustate : UzlibComp} {offset : ℕ} (h : Delivering ustate offset []) :
    Idle ustate := by
  rcases h.outbuf with ⟨hnone, -⟩ | ⟨hpending, -⟩
  · exact ⟨hnone, h.dictSize⟩
  · exact absurd rfl hpending

theorem Idle.delivering {ustate : UzlibComp} (h : Idle ustate) (offset : ℕ) :
    Delivering ustate offset [] := ⟨h.dictSize, .inl ⟨h.outbuf, rfl⟩⟩

/-- The stream record behind the delivery of pending output. -/
def ZStream.drained (strm : ZStream) (count : ℕ) : ZStream :=
  { strm with
    availOut := strm.availOut - count
    nextOut := strm.nextOut + count
    totalOut := strm.totalOut + count }

/-- What a call does when `pending` is the output left from earlier calls. -/
inductive DeflateStep (build : Build) (memory : Memory) (strm : ZStream) (ustate : UzlibComp)
    (flush : Flush) (pending : List UInt8) : DeflateResult → Prop
  | stays {block : List UInt8} (hblock : ustate.outbuf = some ⟨block, strm.totalOut, true⟩)
      (hdrop : block.drop strm.totalOut = pending) (hroom : strm.availOut < pending.length) :
      DeflateStep build memory strm ustate flush pending
        ⟨.ok, strm.drained strm.availOut,
          { ustate with
            outbuf := some ⟨block, (strm.totalOut : ℤ) + strm.availOut, true⟩
            outlen := pending.length - strm.availOut },
          pending.take strm.availOut⟩
  | drains (hpending : pending ≠ []) (hroom : pending.length ≤ strm.availOut)
      (hin : strm.availIn = 0) :
      DeflateStep build memory strm ustate flush pending
        ⟨.ok, strm.drained pending.length,
          { ustate with outbuf := none, outlen := pending.length }, pending⟩
  | continues {r : DeflateResult} (hpending : pending ≠ []) (hroom : pending.length ≤ strm.availOut)
      (hin : strm.availIn ≠ 0)
      (hchunk : ChunkCall build memory (strm.drained pending.length)
        { ustate with outbuf := none, outlen := pending.length } flush r) :
      DeflateStep build memory strm ustate flush pending { r with stored := pending ++ r.stored }
  | fresh {r : DeflateResult} (hpending : pending = [])
      (hchunk : ChunkCall build memory strm ustate flush r) :
      DeflateStep build memory strm ustate flush pending r

/-- No call fails in such a state. -/
theorem deflate_cases (build : Build) (memory : Memory) {strm : ZStream} {ustate : UzlibComp}
    (flush : Flush) {pending : List UInt8} (h : Delivering ustate strm.totalOut pending) :
    ∃ r, deflate build memory strm ustate flush = .ok r ∧
      DeflateStep build memory strm ustate flush pending r := by
  rcases h.outbuf with ⟨hnone, hempty⟩ | ⟨hpending, hlen, block, hblock, hdrop⟩
  · obtain ⟨r, hr, hchunk⟩ :=
      deflateChunk_cases build memory strm (Idle.mk hnone h.dictSize) flush
    exact ⟨r, by rw [deflate, hnone]; exact hr, .fresh hempty hchunk⟩
  · have hlength := congrArg List.length hdrop
    rw [List.length_drop] at hlength
    have hpos := List.length_pos_iff.mpr hpending
    have hread : ∀ count ≤ pending.length,
        OutPtr.read ⟨block, strm.totalOut, true⟩ count = .ok (pending.take count) := by
      intro count hcount
      rw [OutPtr.read_eq (by omega), hdrop]
    rw [deflate, hblock]
    simp only [hlen]
    by_cases hroom : strm.availOut < pending.length
    · refine ⟨_, ?_, .stays hblock hdrop hroom⟩
      simp only [if_pos hroom, hread _ hroom.le, bind, Except.bind, pure, Except.pure,
        ZStream.drained, Nat.sub_self]
    · have hfree : freeOut { (⟨block, strm.totalOut, true⟩ : OutPtr) with
          offset := (strm.totalOut : ℤ) - strm.totalOut } = .ok ⟨block, 0, false⟩ := by
        rw [Int.sub_self]
        rfl
      have hidle : Idle { ustate with outbuf := none, outlen := pending.length } :=
        ⟨rfl, h.dictSize⟩
      simp only [if_neg hroom, hread _ le_rfl, List.take_length, bind, Except.bind, hfree]
      by_cases hin : strm.availIn = 0
      · refine ⟨_, ?_, .drains hpending (not_lt.mp hroom) hin⟩
        rw [if_pos hin]
        simp only [pure, Except.pure, ZStream.drained]
      · obtain ⟨r, hr, hchunk⟩ := deflateChunk_cases build memory (strm.drained pending.length)
          hidle flush
        refine ⟨_, ?_, .continues hpending (not_lt.mp hroom) hin hchunk⟩
        rw [if_neg hin]
        simp only [ZStream.drained] at hr
        simp only [hr]
        rfl

/-! ### Histories -/

/-- A call of `deflate`: the memory, the stream record, the state and the flush mode it is given, and
its result. -/
structure DeflateCall where
  memory : Memory
  strm : ZStream
  state : UzlibComp
  flush : Flush
  result : DeflateResult

/-- The caller may change what it offers, but not what `deflate` keeps in the stream record. -/
structure Hands (strm strm' : ZStream) : Prop where
  totalIn : strm'.totalIn = strm.totalIn
  totalOut : strm'.totalOut = strm.totalOut
  adler : strm'.adler = strm.adler

/-- The histories of one `z_stream`: where it starts, the calls made so far, and where it is. -/
inductive DeflateRun (build : Build) (start : ZStream) :
    List DeflateCall → ZStream → UzlibComp → Prop
  | init (heap : UzlibComp) :
      DeflateRun build start [] (deflateInit start heap).1 (deflateInit start heap).2
  | call {calls : List DeflateCall} {strm strm' : ZStream} {ustate : UzlibComp} {memory : Memory}
      {flush : Flush} {r : DeflateResult} (h : DeflateRun build start calls strm ustate)
      (hstrm : Hands strm strm') (hr : deflate build memory strm' ustate flush = .ok r) :
      DeflateRun build start (calls ++ [⟨memory, strm', ustate, flush, r⟩]) r.strm r.state

/-- The input that a call consumes: all that it is offered, or nothing. -/
def DeflateCall.consumed (call : DeflateCall) : List UInt8 :=
  if call.result.strm.availIn = call.strm.availIn then []
  else call.memory.bytes call.strm.nextIn call.strm.availIn

/-- All that the calls have stored in the caller's windows. -/
def delivered (calls : List DeflateCall) : List UInt8 := calls.flatMap fun call ↦ call.result.stored

theorem delivered_append (calls : List DeflateCall) (call : DeflateCall) :
    delivered (calls ++ [call]) = delivered calls ++ call.result.stored := by
  rw [delivered, List.flatMap_append, List.flatMap_singleton]
  rfl

end ZephyrThrift.Muzic
