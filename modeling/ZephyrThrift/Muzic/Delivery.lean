import ZephyrThrift.Muzic.DeflateRuns

/-!
# Deflate delivers every byte once

In every history of calls that do not finish, what has been stored in the caller's windows and what is
still pending are together the encodings of the chunks consumed so far, whatever the windows were
(`deflate_delivers`).
-/

set_option autoImplicit false
set_option relaxedAutoImplicit false

namespace ZephyrThrift.Muzic

open Foundation

/-- The contents of the output buffer for chunks that do not finish, one after the other, and the
compressor behind them. The checksum only goes into chunks that finish. -/
def encodeAll (build : Build) : UzlibComp → List (List UInt8 × Flush) →
    Except Fault (List UInt8 × UzlibComp)
  | ustate, [] => .ok ([], ustate)
  | ustate, (input, flush) :: chunks => do
    let encoded ← encodeChunk build ustate input flush 0
    let out ← encoded.out
    let (bytes, ustate) ← encodeAll build { encoded with outbuf := none } chunks
    return (out.block ++ bytes, ustate)

/-- The chunks that the calls have consumed. -/
def consumedChunks (calls : List DeflateCall) : List (List UInt8 × Flush) :=
  calls.flatMap fun call ↦ if call.consumed = [] then [] else [(call.consumed, call.flush)]

/-- Two states that encode alike. -/
structure Alike (first second : UzlibComp) : Prop where
  compDisabled : second.compDisabled = first.compDisabled
  hashBits : second.hashBits = first.hashBits
  dictSize : second.dictSize = first.dictSize

theorem Alike.trans {first second third : UzlibComp} (h : Alike first second)
    (h' : Alike second third) : Alike first third :=
  ⟨h'.compDisabled.trans h.compDisabled, h'.hashBits.trans h.hashBits,
    h'.dictSize.trans h.dictSize⟩

theorem encodeChunk_congr (build : Build) {first second : UzlibComp} (h : Alike first second)
    (hfirst : first.outbuf = none) (hsecond : second.outbuf = none) (input : List UInt8)
    {flush : Flush} (hflush : flush ≠ .finish) (adlerV adlerV' : ℕ) :
    encodeChunk build second input flush adlerV = encodeChunk build first input flush adlerV' := by
  have hreset : ({ second with
      outlen := 0, outsize := 0, outbits := 0, noutbits := 0,
      hashTable := fun _ ↦ none } : UzlibComp) = { first with
      outlen := 0, outsize := 0, outbits := 0, noutbits := 0, hashTable := fun _ ↦ none } := by
    rw [hfirst, hsecond, h.compDisabled, h.hashBits, h.dictSize]
  rw [encodeChunk_eq, encodeChunk_eq, hreset, h.compDisabled]
  simp only [closeChunk, if_neg hflush]

theorem encodeAll_append (build : Build) (first second : List (List UInt8 × Flush)) :
    ∀ ustate, encodeAll build ustate (first ++ second) = do
      let (bytes, ustate) ← encodeAll build ustate first
      let (bytes', ustate) ← encodeAll build ustate second
      return (bytes ++ bytes', ustate) := by
  induction first with
  | nil =>
    intro ustate
    rw [List.nil_append, encodeAll]
    simp only [bind, Except.bind, List.nil_append]
    cases encodeAll build ustate second <;> rfl
  | cons chunk first ih =>
    intro ustate
    obtain ⟨input, flush⟩ := chunk
    rw [List.cons_append, encodeAll, encodeAll]
    cases encodeChunk build ustate input flush 0 with
    | error fault => rfl
    | ok encoded =>
      simp only [bind, Except.bind]
      cases encoded.out with
      | error fault => rfl
      | ok out =>
        simp only [ih, bind, Except.bind]
        cases encodeAll build { encoded with outbuf := none } first with
        | error fault => rfl
        | ok result =>
          simp only [pure, Except.pure]
          cases encodeAll build result.2 second with
          | error fault => rfl
          | ok result' => simp only [List.append_assoc]

theorem encodeAll_single (build : Build) {ustate encoded : UzlibComp} {input bytes : List UInt8}
    {flush : Flush} (hencode : encodeChunk build ustate input flush 0 = .ok encoded)
    (hout : encoded.outbuf = some ⟨bytes, 0, true⟩) :
    encodeAll build ustate [(input, flush)] = .ok (bytes, { encoded with outbuf := none }) := by
  have hptr : encoded.out = .ok ⟨bytes, 0, true⟩ := by rw [UzlibComp.out, hout]
  simp only [encodeAll, hencode, hptr, bind, Except.bind, pure, Except.pure, List.append_nil]

/-- What is delivered and what is pending are the encodings of what is consumed. -/
structure Accounted (build : Build) (fresh : UzlibComp) (calls : List DeflateCall)
    (ustate : UzlibComp) (offset : ℕ) (pending : List UInt8) : Prop where
  encodings : ∃ behind, encodeAll build fresh (consumedChunks calls) =
      .ok (delivered calls ++ pending, behind) ∧ behind.outbuf = none ∧ Alike behind ustate
  delivering : Delivering ustate offset pending

section Calls

variable {build : Build} {fresh ustate : UzlibComp} {calls : List DeflateCall} {memory : Memory}
  {strm : ZStream} {flush : Flush} {pending : List UInt8} {r : DeflateResult}

theorem consumedChunks_append (calls : List DeflateCall) (call : DeflateCall) :
    consumedChunks (calls ++ [call]) = consumedChunks calls ++
      if call.consumed = [] then [] else [(call.consumed, call.flush)] := by
  rw [consumedChunks, List.flatMap_append, List.flatMap_singleton]
  rfl

/-- A call that consumes nothing and moves on in what is pending. -/
theorem Accounted.move (h : Accounted build fresh calls ustate strm.totalOut pending)
    {pending' : List UInt8} (hin : r.strm.availIn = strm.availIn)
    (hstored : r.stored ++ pending' = pending) (halike : Alike ustate r.state)
    (hdelivering : Delivering r.state r.strm.totalOut pending') :
    Accounted build fresh (calls ++ [⟨memory, strm, ustate, flush, r⟩]) r.state r.strm.totalOut
      pending' := by
  obtain ⟨behind, hall, hnone, hbehind⟩ := h.encodings
  refine ⟨⟨behind, ?_, hnone, hbehind.trans halike⟩, hdelivering⟩
  rw [consumedChunks_append, delivered_append, DeflateCall.consumed, if_pos hin, if_pos rfl,
    List.append_nil, hall, List.append_assoc, hstored]

/-- A call that drains what is pending and encodes a chunk. -/
theorem Accounted.chunk (h : Accounted build fresh calls ustate strm.totalOut pending)
    {rested encoded : UzlibComp} {bytes pending' : List UInt8} {adlerV : ℕ}
    (hrested : Alike ustate rested) (hnone : rested.outbuf = none) (hflush : flush ≠ .finish)
    (hencoded : Encoded build rested (memory.bytes strm.nextIn strm.availIn) flush adlerV encoded
      bytes)
    (hin : strm.availIn ≠ 0) (hread : r.strm.availIn = 0)
    (hstored : r.stored ++ pending' = pending ++ bytes) (halike : Alike encoded r.state)
    (hdelivering : Delivering r.state r.strm.totalOut pending') :
    Accounted build fresh (calls ++ [⟨memory, strm, ustate, flush, r⟩]) r.state r.strm.totalOut
      pending' := by
  obtain ⟨behind, hall, hbehind_none, hbehind⟩ := h.encodings
  have hencode : encodeChunk build behind (memory.bytes strm.nextIn strm.availIn) flush 0 =
      .ok encoded := by
    rw [← hencoded.encodes]
    exact (encodeChunk_congr build (hbehind.trans hrested) hbehind_none hnone _ hflush _ _).symm
  have hconsumed : (DeflateCall.mk memory strm ustate flush r).consumed =
      memory.bytes strm.nextIn strm.availIn := by
    rw [DeflateCall.consumed, if_neg (by rw [hread]; exact Ne.symm hin)]
  have hsome : memory.bytes strm.nextIn strm.availIn ≠ [] := by
    intro hnil
    have hlength := congrArg List.length hnil
    rw [Memory.length_bytes] at hlength
    exact hin hlength
  refine ⟨⟨{ encoded with outbuf := none }, ?_, rfl,
    ⟨halike.compDisabled, halike.hashBits, halike.dictSize⟩⟩, hdelivering⟩
  rw [consumedChunks_append, delivered_append, hconsumed, if_neg hsome, encodeAll_append, hall]
  simp only [bind, Except.bind, encodeAll_single build hencode hencoded.outbuf, pure, Except.pure]
  rw [List.append_assoc, List.append_assoc, hstored]

/-- A chunk behind the output that was pending, in a state at rest. -/
theorem Accounted.chunkCall (h : Accounted build fresh calls ustate strm.totalOut pending)
    {rested : UzlibComp} {strm' : ZStream} (hchunk : ChunkCall build memory strm' rested flush r)
    (hrested : Alike ustate rested) (hidle : Idle rested) (hflush : flush ≠ .finish)
    (hnext : strm'.nextIn = strm.nextIn) (havail : strm'.availIn = strm.availIn) :
    ∃ pending', Accounted build fresh
      (calls ++ [⟨memory, strm, ustate, flush, { r with stored := pending ++ r.stored }⟩]) r.state
        r.strm.totalOut pending' := by
  cases hchunk with
  | nothing hin _ =>
    exact ⟨[], h.move (r := ⟨.ok, strm', rested, pending ++ []⟩) havail (by simp) hrested
      (hidle.delivering _)⟩
  | @delivers encoded bytes adlerV hadler hencoded hin hroom =>
    rw [hnext, havail] at hencoded
    have hdict := hencoded.kept.dictSize.trans hidle.dictSize
    exact ⟨[], h.chunk hrested hidle.outbuf hflush hencoded
      (havail ▸ hin.resolve_right hflush) rfl (List.append_nil _) ⟨rfl, rfl, rfl⟩
      ⟨hdict, .inl ⟨rfl, rfl⟩⟩⟩
  | @spills encoded bytes adlerV hadler hencoded hin _ hroom =>
    rw [hnext, havail] at hencoded
    have hdict := hencoded.kept.dictSize.trans hidle.dictSize
    have hlength : (bytes.drop strm'.availOut).length = bytes.length - strm'.availOut :=
      List.length_drop
    have hpending : bytes.drop strm'.availOut ≠ [] := by
      rw [← List.length_pos_iff, hlength]
      omega
    refine ⟨bytes.drop strm'.availOut, h.chunk hrested hidle.outbuf hflush hencoded (havail ▸ hin) rfl
      ?_ ⟨rfl, rfl, rfl⟩ ⟨hdict, .inr ⟨hpending, hlength.symm, bytes, rfl, rfl⟩⟩⟩
    rw [List.append_assoc, List.take_append_drop]
  | refuses hadler hencoded hfinish hroom => exact absurd hfinish hflush

/-- What every call keeps. -/
theorem Accounted.call (h : Accounted build fresh calls ustate strm.totalOut pending)
    (hflush : flush ≠ .finish) (hr : deflate build memory strm ustate flush = .ok r) :
    ∃ pending', Accounted build fresh (calls ++ [⟨memory, strm, ustate, flush, r⟩]) r.state r.strm.totalOut
      pending' := by
  obtain ⟨r', hr', hstep⟩ := deflate_cases build memory flush h.delivering
  rw [hr'] at hr
  injection hr with hr
  subst hr
  cases hstep with
  | @stays block hblock hdrop hroom =>
    have hlength : (pending.drop strm.availOut).length = pending.length - strm.availOut :=
      List.length_drop
    have hpending : pending.drop strm.availOut ≠ [] := by
      rw [← List.length_pos_iff, hlength]
      omega
    refine ⟨pending.drop strm.availOut, h.move rfl (List.take_append_drop _ _) ⟨rfl, rfl, rfl⟩
      ⟨h.delivering.dictSize, .inr ⟨hpending, hlength.symm, block, ?_, ?_⟩⟩⟩
    · simp only [ZStream.drained, Nat.cast_add]
    · rw [ZStream.drained, ← hdrop, List.drop_drop]
  | drains hpending hroom hin =>
    exact ⟨[], h.move rfl (List.append_nil _) ⟨rfl, rfl, rfl⟩
      ⟨h.delivering.dictSize, .inl ⟨rfl, rfl⟩⟩⟩
  | continues hpending hroom hin hchunk =>
    exact h.chunkCall hchunk ⟨rfl, rfl, rfl⟩ ⟨rfl, h.delivering.dictSize⟩ hflush rfl rfl
  | fresh hpending hchunk =>
    subst hpending
    exact h.chunkCall hchunk ⟨rfl, rfl, rfl⟩ h.delivering.idle hflush rfl rfl

end Calls

/-- The state of a history, at every moment: everything consumed has been delivered or is pending, a
buffer is kept exactly when something is pending, the pending output lies `total_out` bytes behind the
start of its block, and the next call succeeds, without consuming input when it cannot drain what is
pending. -/
structure Delivers (build : Build) (fresh : UzlibComp) (calls : List DeflateCall) (strm : ZStream)
    (ustate : UzlibComp) (pending : List UInt8) : Prop where
  encodings : ∃ behind, encodeAll build fresh (consumedChunks calls) =
    .ok (delivered calls ++ pending, behind)
  buffer : ustate.outbuf = none ↔ pending = []
  place : ∀ out, ustate.outbuf = some out →
    out.live = true ∧ out.offset = strm.totalOut ∧ out.block.drop strm.totalOut = pending ∧
      ustate.outlen = pending.length
  next : ∀ memory strm' flush, Hands strm strm' → flush ≠ .finish →
    ∃ r, deflate build memory strm' ustate flush = .ok r ∧
      (strm'.availOut < pending.length →
        r.strm.availIn = strm'.availIn ∧ r.strm.nextIn = strm'.nextIn)

theorem Accounted.delivers {build : Build} {fresh ustate : UzlibComp} {calls : List DeflateCall}
    {strm : ZStream} {pending : List UInt8}
    (h : Accounted build fresh calls ustate strm.totalOut pending) :
    Delivers build fresh calls strm ustate pending := by
  obtain ⟨behind, hall, -⟩ := h.encodings
  refine ⟨⟨behind, hall⟩, ?_, fun out hout ↦ ?_, fun memory strm' flush hstrm hflush ↦ ?_⟩
  · rcases h.delivering.outbuf with ⟨hnone, hempty⟩ | ⟨hpending, -, block, hblock, -⟩
    · exact ⟨fun _ ↦ hempty, fun _ ↦ hnone⟩
    · exact ⟨fun hnone ↦ by (rw [hblock] at hnone; cases hnone), fun hempty ↦ absurd hempty hpending⟩
  · rcases h.delivering.outbuf with ⟨hnone, -⟩ | ⟨-, hlen, block, hblock, hdrop⟩
    · rw [hnone] at hout
      cases hout
    · rw [hblock] at hout
      cases hout
      exact ⟨rfl, rfl, hdrop, hlen⟩
  · obtain ⟨r, hr, hstep⟩ := deflate_cases build memory flush
      (show Delivering ustate strm'.totalOut pending by rw [hstrm.totalOut]; exact h.delivering)
    refine ⟨r, hr, fun hroom ↦ ?_⟩
    cases hstep with
    | stays _ _ _ => exact ⟨rfl, rfl⟩
    | drains _ hroom' _ => exact absurd hroom (not_lt.mpr hroom')
    | continues _ hroom' _ _ => exact absurd hroom (not_lt.mpr hroom')
    | fresh hpending _ =>
      rw [hpending] at hroom
      exact absurd hroom (Nat.not_lt_zero _)

/-- In every history of calls that do not finish, the output is delivered once and in order. -/
theorem deflate_delivers {build : Build} {start strm : ZStream} {calls : List DeflateCall}
    {ustate : UzlibComp} (hrun : DeflateRun build start calls strm ustate)
    (hflush : ∀ call ∈ calls, call.flush ≠ .finish) (heap : UzlibComp) :
    ∃ pending, Delivers build (deflateInit start heap).2 calls strm ustate pending := by
  have haccounted : ∃ pending,
      Accounted build (deflateInit start heap).2 calls ustate strm.totalOut pending := by
    induction hrun with
    | init heap' =>
      exact ⟨[], ⟨_, rfl, rfl, ⟨rfl, rfl, rfl⟩⟩, Idle.delivering ⟨rfl, rfl⟩ _⟩
    | @call calls strm strm' ustate memory flush r _ hstrm hr ih =>
      obtain ⟨pending, h⟩ := ih fun call hcall ↦ hflush call (List.mem_append_left _ hcall)
      rw [← hstrm.totalOut] at h
      exact h.call (hflush _ (List.mem_append_right _ (List.mem_singleton.mpr rfl))) hr
  obtain ⟨pending, h⟩ := haccounted
  exact ⟨pending, h.delivers⟩

/-- A stream record that offers one byte and a window of five bytes. -/
def letterStrm : ZStream := ⟨0, 1, 0, 0, 5, 0, none, 1⟩

/-- The state that `deflateInit` leaves in memory that held zeros. -/
def letterState : UzlibComp :=
  (deflateInit letterStrm ⟨none, 0, 0, 0, 0, false, fun _ ↦ none, 0, 0⟩).2

/-- The letter `a`, flushed through a window of five bytes: four bytes stay behind. -/
theorem deflate_delivers_letter : ∃ r pending, r.stored = [0x78, 0x01, 0x4A, 0x04, 0x00] ∧
    Delivers ⟨false, none⟩ letterState [⟨fun _ ↦ 97, letterStrm, letterState, .syncFlush, r⟩] r.strm
      r.state pending := by
  have hstored : (deflate ⟨false, none⟩ (fun _ ↦ 97) letterStrm letterState .syncFlush).map
      (·.stored) = .ok [0x78, 0x01, 0x4A, 0x04, 0x00] := by decide +kernel
  obtain ⟨r, hr, hbytes⟩ := map_ok hstored
  have hrun : DeflateRun ⟨false, none⟩ letterStrm
      [⟨fun _ ↦ 97, letterStrm, letterState, .syncFlush, r⟩] r.strm r.state :=
    .call (.init _) ⟨rfl, rfl, rfl⟩ hr
  obtain ⟨pending, hdelivers⟩ := deflate_delivers hrun (by simp) _
  exact ⟨r, pending, hbytes, hdelivers⟩

end ZephyrThrift.Muzic
