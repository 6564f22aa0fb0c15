import ZephyrThrift.Muzic.RoundTrip

/-!
# Consecutive streams

After a finishing call, `deflate` starts a new stream. An inflater that has reached the end of a
stream reads the header of the next one, but is still at the step of the end: it reports the end of
the stream again and then rejects what follows (`decodesInOrder_iff`).
-/

set_option autoImplicit false
set_option relaxedAutoImplicit false

namespace ZephyrThrift.Muzic

open Foundation

/-- A caller that goes on behind the end of a stream with the input that is left, until there is
none or a call returns something else. Every call is given a window of `room` bytes. -/
def inflateStreams (build : Build) (memory : Memory) (room : ℕ) :
    ℕ → ZStream → InfState → Except Fault (List InflateResult)
  | 0, _, _ => .ok []
  | fuel + 1, strm, st =>
    if strm.availIn = 0 then .ok []
    else do
      let r ← inflate build memory { strm with availOut := room } st
      if r.code = .streamEnd then
        let results ← inflateStreams build memory room fuel r.strm r.state
        return r :: results
      else return [r]

/-- The calls return `Z_STREAM_END` once for each of the finishing calls, and write the chunks in
order. Every call consumes input, so the number of bytes bounds the number of calls. -/
def DecodesInOrder (build : Build) (memory : Memory) (room : ℕ) (strm : ZStream) (st : InfState)
    (calls : List DeflateCall) : Prop :=
  ∃ results, inflateStreams build memory room strm.availIn strm st = .ok results ∧
    results.map (·.code) = List.replicate calls.length .streamEnd ∧
    results.flatMap (·.stored) = offered calls

section Calls

variable {build : Build} {memory : Memory} {room : ℕ} {strm : ZStream} {st : InfState}

theorem inflateStreams_end {fuel : ℕ} {r : InflateResult} (hin : 0 < strm.availIn)
    (hr : inflate build memory { strm with availOut := room } st = .ok r)
    (hcode : r.code = .streamEnd) :
    inflateStreams build memory room (fuel + 1) strm st =
      (inflateStreams build memory room fuel r.strm r.state).map (r :: ·) := by
  rw [inflateStreams, if_neg hin.ne', hr]
  simp only [bind, Except.bind, hcode, if_true]
  cases inflateStreams build memory room fuel r.strm r.state <;> rfl

theorem inflateStreams_stop {fuel : ℕ} {r : InflateResult} (hin : 0 < strm.availIn)
    (hr : inflate build memory { strm with availOut := room } st = .ok r)
    (hcode : r.code ≠ .streamEnd) :
    inflateStreams build memory room (fuel + 1) strm st = .ok [r] := by
  rw [inflateStreams, if_neg hin.ne', hr]
  simp only [bind, Except.bind, if_neg hcode]
  rfl

theorem inflateStreams_empty (fuel : ℕ) (hin : strm.availIn = 0) :
    inflateStreams build memory room fuel strm st = .ok [] := by
  cases fuel with
  | zero => rfl
  | succ fuel => rw [inflateStreams, if_pos hin]

/-- The bytes behind the first ones. -/
theorem bytes_behind {address count : ℕ} {first second : List UInt8}
    (h : memory.bytes address count = first ++ second) :
    memory.bytes (address + first.length) second.length = second := by
  have hcount : count = first.length + second.length := by
    rw [← List.length_append, ← h, Memory.length_bytes]
  rw [hcount, Memory.bytes_add] at h
  exact List.append_inj_right h (Memory.length_bytes _ _ _)

theorem head_bytes {address count : ℕ} {byte : UInt8} {rest : List UInt8}
    (h : memory.bytes address count = byte :: rest) : memory address = byte := by
  have hpos : 0 < (memory.bytes address count).length := by
    rw [h]
    exact Nat.succ_pos _
  have hget := Memory.getElem_bytes memory address count 0 hpos
  simp only [h, List.getElem_cons_zero, Nat.add_zero] at hget
  exact hget.symm

/-- Behind the end of a stream, the header of the next one is consumed, and the end is reported
again. -/
theorem inflate_restarted (haction : st.action = .init) (hstep : st.core.step = .end)
    {flg : UInt8} {body : List UInt8} (hbody : body ≠ [])
    (hinput : memory.bytes strm.nextIn strm.availIn = 0x78 :: flg :: body)
    (hlength : strm.availIn < 2 ^ 32) (hout : 0 < strm.availOut) :
    ∃ r, inflate build memory strm st = .ok r ∧ r.code = .streamEnd ∧ r.stored = [] ∧
      r.strm.nextIn = strm.nextIn + 2 ∧ r.strm.availIn = body.length ∧ r.state.action = .init := by
  have hend : inflateStep build ⟨st.core, body, strm.availOut⟩ =
      .ok ⟨⟨st.core, body, strm.availOut⟩, [], .halt .streamEnd⟩ := by
    simp only [inflateStep, hstep]
  have hrun : runLoop build ⟨st.core, body, strm.availOut⟩ =
      .ok ⟨⟨st.core, body, strm.availOut⟩, [], .halt .streamEnd⟩ := by
    rw [runLoop, run, hend]
  have havail : strm.availIn = body.length + 2 := by
    rw [← Memory.length_bytes memory strm.nextIn strm.availIn, hinput, List.length_cons,
      List.length_cons]
  have hconsumed : unsignedSub (strm.nextIn + strm.availIn - body.length) (strm.nextIn + 2) = 0 := by
    rw [unsignedSub_of_le (by omega) (by omega)]
    omega
  rw [inflate_headed haction hbody hinput hout, hrun]
  refine ⟨_, rfl, rfl, rfl, ?_, ?_, rfl⟩
  · simp only [closeCall]
    omega
  · simp only [closeCall, hconsumed]
    rw [unsignedSub_of_le (Nat.zero_le _) (by omega), Nat.sub_zero]

/-- A call that expects a header and finds none. -/
theorem inflate_unheaded (haction : st.action = .init) (hin : 0 < strm.availIn)
    (hcmf : memory strm.nextIn ≠ 0x78) :
    ∃ r, inflate build memory strm st = .ok r ∧ r.code = .dataError := by
  simp only [inflate, haction, decide_eq_true hin, Build.assert_true, bind, Except.bind, if_pos hcmf]
  exact ⟨_, rfl, rfl⟩

end Calls

/-- What a final block begins with is no header. -/
theorem head_of_final {body input : List UInt8} {bits : List Bool}
    (h : decodeBlocks 1 [] (bytesBits body) = some (input, bits)) :
    ∃ byte rest, body = byte :: rest ∧ byte ≠ 0x78 := by
  obtain ⟨final, bits₁, _, _, _, _, hfinal, -, -, ⟨rfl, -⟩ | ⟨-, hnone⟩⟩ := decodeBlocks_succ h
  · cases body with
    | nil => cases hfinal
    | cons byte rest =>
      refine ⟨byte, rest, rfl, ?_⟩
      rintro rfl
      cases hfinal
  · cases hnone

section Streams

variable (build : Build) {start strm' : ZStream} {calls : List DeflateCall} {ustate : UzlibComp}
  {statics : Statics} {memory : Memory} {strm : ZStream} {room : ℕ}

/-- The first call, and the stream behind the one it decodes. -/
theorem inflate_first {call : DeflateCall} {first : Bool} {adlerV : ℕ}
    (hchunk : ChunkBytes .finish first adlerV call.offered call.result.stored)
    (hsize : call.offered.length ≤ 32768) (hstatics : SoundStatics statics) (heap : InfState)
    (hinput : memory.bytes strm.nextIn strm.availIn = call.result.stored ++ delivered calls)
    (hlength : strm.availIn < 2 ^ 32) (hpos : 0 < room) (hroom : call.offered.length ≤ room) :
    ∃ r, inflate build memory { strm with availOut := room } (inflateInit statics heap) = .ok r ∧
      r.code = .streamEnd ∧ r.stored = call.offered ∧
      memory.bytes r.strm.nextIn r.strm.availIn = delivered calls ∧
      r.state.action = .init ∧ r.state.core.step = .end := by
  obtain ⟨body, hstored, hstream⟩ := decodeBlocks_chunk hchunk
  obtain ⟨bits, hblocks, htrailer⟩ := hstream (delivered calls)
  have hheaded : memory.bytes { strm with availOut := room }.nextIn
      { strm with availOut := room }.availIn = 0x78 :: 0x01 :: (body ++ delivered calls) := by
    simp only [hinput, hstored, List.cons_append]
  obtain ⟨r, hr, hcode, hout, hnext, havail, haction, hend⟩ := inflate_closed build
    hstatics heap hheaded hlength (hblocks 0) htrailer (hsize.trans (by decide)) hpos hroom
  refine ⟨r, hr, hcode, hout, ?_, haction, hend⟩
  have hcount := congrArg List.length hinput
  rw [Memory.length_bytes, List.length_append] at hcount
  have hplace : r.strm.nextIn = strm.nextIn + call.result.stored.length := by
    simp only at hnext
    omega
  rw [hplace, havail]
  exact bytes_behind hinput

variable {build} in
/-- With the output of finishing calls in one buffer, an inflater decodes stream after stream if and
only if there is at most one. -/
theorem decodesInOrder_iff (hrun : DeflateRun build start calls strm' ustate)
    (hample : ∀ call ∈ calls, call.result.state.outbuf = none)
    (hfinish : ∀ call ∈ calls, call.flush = .finish) (hsize : (offered calls).length ≤ 32768)
    (hstatics : SoundStatics statics) (heap : InfState)
    (hinput : memory.bytes strm.nextIn strm.availIn = delivered calls)
    (hlength : strm.availIn < 2 ^ 32) (hpos : 0 < room) (hroom : (offered calls).length ≤ room) :
    DecodesInOrder build memory room strm (inflateInit statics heap) calls ↔ calls.length ≤ 1 := by
  have hchunks := (hrun.finished hample).2
  have hcount := congrArg List.length hinput
  rw [Memory.length_bytes] at hcount
  rcases calls with _ | ⟨call, _ | ⟨second, rest⟩⟩
  · exact ⟨fun _ ↦ Nat.zero_le 1, fun _ ↦ ⟨[], inflateStreams_empty _ hcount, rfl, rfl⟩⟩
  · refine ⟨fun _ ↦ le_rfl, fun _ ↦ ?_⟩
    have hmem : call ∈ [call] := List.mem_singleton.mpr rfl
    obtain ⟨first, adlerV, hchunk⟩ := hchunks call hmem (hfinish call hmem)
    have hoffered : offered [call] = call.offered := List.flatMap_singleton _ _
    rw [hoffered] at hsize hroom
    have hwhole : memory.bytes strm.nextIn strm.availIn = call.result.stored ++ delivered [] := hinput
    obtain ⟨r, hr, hcode, hstored, hbehind, -⟩ := inflate_first build hchunk hsize hstatics heap hwhole
      hlength hpos hroom
    obtain ⟨body, hbytes, -⟩ := decodeBlocks_chunk hchunk
    have hlong : (delivered [call]).length = body.length + 2 := by
      simp [delivered, hbytes]
    have hnone := congrArg List.length hbehind
    rw [Memory.length_bytes] at hnone
    refine ⟨[r], ?_, by simp [hcode], by simp [hstored, hoffered]⟩
    rw [hcount, hlong, inflateStreams_end (by omega) hr hcode, inflateStreams_empty _ hnone]
    rfl
  · refine ⟨fun hdecodes ↦ ?_, fun hle ↦ absurd hle (by simp)⟩
    obtain ⟨results, hresults, hcodes, -⟩ := hdecodes
    have hmem : call ∈ call :: second :: rest := List.mem_cons_self
    have hmem' : second ∈ call :: second :: rest := List.mem_cons_of_mem _ List.mem_cons_self
    obtain ⟨first, adlerV, hchunk⟩ := hchunks call hmem (hfinish call hmem)
    obtain ⟨first', adlerV', hchunk'⟩ := hchunks second hmem' (hfinish second hmem')
    have hoffered : offered (call :: second :: rest) = call.offered ++ offered (second :: rest) := rfl
    rw [hoffered, List.length_append] at hsize hroom
    have hwhole : memory.bytes strm.nextIn strm.availIn =
        call.result.stored ++ delivered (second :: rest) := hinput
    obtain ⟨r₁, hr₁, hcode₁, -, hbehind, haction₁, hend₁⟩ := inflate_first build hchunk (by omega)
      hstatics heap hwhole hlength hpos (by omega)
    -- the header of the second stream is consumed, its body is not
    obtain ⟨body, hbytes, -⟩ := decodeBlocks_chunk hchunk
    obtain ⟨body', hbytes', hstream⟩ := decodeBlocks_chunk hchunk'
    obtain ⟨bits, hblocks, -⟩ := hstream (delivered rest)
    obtain ⟨byte, tail, hbody, hcmf⟩ := head_of_final (hblocks 0)
    have hsecond : delivered (second :: rest) = 0x78 :: 0x01 :: byte :: tail := by
      rw [← hbody, ← List.cons_append, ← List.cons_append, ← hbytes']
      rfl
    have hall : (delivered (call :: second :: rest)).length = body.length + tail.length + 5 := by
      have hsplit : delivered (call :: second :: rest) =
          call.result.stored ++ delivered (second :: rest) := rfl
      rw [hsplit, hsecond, hbytes]
      simp only [List.length_append, List.length_cons]
      omega
    rw [hsecond] at hbehind
    have havail₁ := congrArg List.length hbehind
    simp only [Memory.length_bytes, List.length_cons] at havail₁
    obtain ⟨r₂, hr₂, hcode₂, -, hnext₂, havail₂, haction₂⟩ := @inflate_restarted build memory
      { r₁.strm with availOut := room } r₁.state haction₁ hend₁ 0x01 _ (List.cons_ne_nil byte tail)
      hbehind (by simp only; omega) hpos
    have hbody₂ := @bytes_behind memory _ _ [0x78, 0x01] (byte :: tail) hbehind
    have hbyte : memory { r₂.strm with availOut := room }.nextIn = byte := by
      simp only [hnext₂]
      exact head_bytes hbody₂
    obtain ⟨r₃, hr₃, hcode₃⟩ := @inflate_unheaded build memory
      { r₂.strm with availOut := room } r₂.state haction₂
      (by simp only [havail₂, List.length_cons]; omega) (by rw [hbyte]; exact hcmf)
    rw [hcount, hall, inflateStreams_end (by omega) hr₁ hcode₁,
      inflateStreams_end (by omega) hr₂ hcode₂,
      inflateStreams_stop (by rw [havail₂, List.length_cons]; omega) hr₃ (by rw [hcode₃]; decide)]
      at hresults
    cases hresults
    have hlast : ZCode.dataError ∈ [r₁, r₂, r₃].map (·.code) := by simp [hcode₃]
    rw [hcodes] at hlast
    exact absurd (List.eq_of_mem_replicate hlast) (by decide)

end Streams

/-- One stream. -/
theorem decodesInOrder_letter : ∃ calls, calls.length = 1 ∧
    (DecodesInOrder ⟨false, none⟩ (memoryOf letterStream) 1 (streamOf 9 0) freshInflater calls ↔
      calls.length ≤ 1) := by
  obtain ⟨r, hr, hample, hstored⟩ := finish_letter
  have hhands : Hands (deflateInit letterStrm letterState).1 { letterStrm with availOut := 10 } :=
    ⟨rfl, rfl, rfl⟩
  have hrun : DeflateRun ⟨false, none⟩ letterStrm
      [⟨fun _ ↦ 97, { letterStrm with availOut := 10 }, letterState, .finish, r⟩] r.strm r.state :=
    .call (.init letterState) hhands hr
  have hinput : (memoryOf letterStream).bytes (streamOf 9 0).nextIn (streamOf 9 0).availIn =
      delivered [⟨fun _ ↦ 97, { letterStrm with availOut := 10 }, letterState, .finish, r⟩] := by
    simp only [delivered, List.flatMap_cons, List.flatMap_nil, hstored]
    decide
  exact ⟨_, rfl, decodesInOrder_iff hrun (by simpa using hample) (by simp)
    (show 1 ≤ 32768 by decide) soundStatics_none zeroHeap hinput (by decide) Nat.one_pos
    (show 1 ≤ 1 from le_rfl)⟩

/-- Two streams: the third call finds the rest of the second one in place of a header. -/
theorem not_decodesInOrder_twice : ∃ calls strm ustate,
    DeflateRun ⟨false, none⟩ letterStrm calls strm ustate ∧
      (∀ call ∈ calls, call.result.state.outbuf = none ∧ call.flush = .finish) ∧
      offered calls = [97, 97] ∧
      ¬ DecodesInOrder ⟨false, none⟩ (memoryOf (delivered calls)) 10 (streamOf 18 0) freshInflater
        calls := by
  have hall : (deflate ⟨false, none⟩ (fun _ ↦ 97) { letterStrm with availOut := 10 } letterState
      .finish >>= fun first ↦ (deflate ⟨false, none⟩ (fun _ ↦ 97)
        { first.strm with availIn := 1, availOut := 10 } first.state .finish).map fun second ↦
          (first.state.outbuf, second.state.outbuf, first.stored, second.stored)) =
      .ok (none, none, letterStream, letterStream) := by
    decide +kernel
  obtain ⟨first, hfirst, hrest⟩ := bind_ok hall
  obtain ⟨second, hsecond, hvalues⟩ := map_ok hrest
  simp only [Prod.mk.injEq] at hvalues
  obtain ⟨hout₁, hout₂, hstored₁, hstored₂⟩ := hvalues
  have hhands₁ : Hands (deflateInit letterStrm letterState).1 { letterStrm with availOut := 10 } :=
    ⟨rfl, rfl, rfl⟩
  have hrun₁ : DeflateRun ⟨false, none⟩ letterStrm
      [⟨fun _ ↦ 97, { letterStrm with availOut := 10 }, letterState, .finish, first⟩] first.strm
      first.state := .call (.init letterState) hhands₁ hfirst
  have hhands₂ : Hands first.strm { first.strm with availIn := 1, availOut := 10 } :=
    ⟨rfl, rfl, rfl⟩
  have hcodes : (inflateStreams ⟨false, none⟩ (memoryOf (letterStream ++ letterStream)) 10 18
      (streamOf 18 0) freshInflater).map (fun results ↦ results.map (·.code)) =
      .ok [.streamEnd, .streamEnd, .dataError] := by
    decide +kernel
  refine ⟨_, _, _, hrun₁.call hhands₂ hsecond, by simp [hout₁, hout₂], rfl, ?_⟩
  rintro ⟨results, hresults, hsame, -⟩
  have hdelivered : delivered
      ([⟨fun _ ↦ 97, { letterStrm with availOut := 10 }, letterState, .finish, first⟩] ++
        [⟨fun _ ↦ 97, { first.strm with availIn := 1, availOut := 10 }, first.state, .finish,
          second⟩]) = letterStream ++ letterStream := by
    simp [delivered, hstored₁, hstored₂]
  rw [hdelivered] at hresults
  have hthree : results.map (·.code) = [.streamEnd, .streamEnd, .dataError] := by
    have hmap : (Except.ok results : Except Fault _).map (fun results ↦ results.map (·.code)) =
        .ok [.streamEnd, .streamEnd, .dataError] := hresults ▸ hcodes
    injection hmap
  rw [hthree] at hsame
  cases hsame

end ZephyrThrift.Muzic
