import ZephyrThrift.Muzic.BlockDecoding
import ZephyrThrift.Muzic.ChunkDecoding
import ZephyrThrift.Muzic.Delivery

/-!
# Round trips

What `deflate` makes of chunks, given to a fresh inflater in one call, comes out again: flushed chunks
are a stream that is still open, and a finishing call makes a stream of its own
(`deflate_inflate`). Behind flushed chunks, a finishing call does not close their stream
(`flushed_then_finished`).
-/

set_option autoImplicit false
set_option relaxedAutoImplicit false

namespace ZephyrThrift.Muzic

open Foundation

/-! ### Histories with ample output -/

/-- The chunk that a call is given. -/
def DeflateCall.offered (call : DeflateCall) : List UInt8 :=
  call.memory.bytes call.strm.nextIn call.strm.availIn

/-- The chunks that the calls are given, one after the other. -/
def offered (calls : List DeflateCall) : List UInt8 := calls.flatMap DeflateCall.offered

theorem offered_append (calls : List DeflateCall) (call : DeflateCall) :
    offered (calls ++ [call]) = offered calls ++ call.offered := by
  rw [offered, List.flatMap_append, List.flatMap_singleton]
  rfl

/-- What a call does whose output fits into its window: it stores the chunk, or has nothing to do. -/
inductive Stores (flush : Flush) (first : Bool) (input : List UInt8) (r : DeflateResult) : Prop
  | nothing (hinput : input = []) (hflush : flush ≠ .finish) (hstored : r.stored = [])
      (hsame : r.state.compDisabled = first)
  | chunk {adlerV : ℕ} (hchunk : ChunkBytes flush first adlerV input r.stored)
      (hnext : r.state.compDisabled = decide (flush = .finish))

theorem ample_stores {build : Build} {memory : Memory} {strm : ZStream} {ustate : UzlibComp}
    {flush : Flush} {r : DeflateResult} (hidle : Idle ustate)
    (hr : deflate build memory strm ustate flush = .ok r) (hample : r.state.outbuf = none) :
    Idle r.state ∧
      Stores flush ustate.compDisabled (memory.bytes strm.nextIn strm.availIn) r := by
  obtain ⟨r', hr', hstep⟩ := deflate_cases build memory flush (hidle.delivering strm.totalOut)
  rw [hr'] at hr
  injection hr with hr
  subst hr
  cases hstep with
  | stays _ _ hroom => exact absurd hroom (Nat.not_lt_zero _)
  | drains hpending _ _ => exact absurd rfl hpending
  | continues hpending _ _ _ => exact absurd rfl hpending
  | fresh _ hchunk =>
    cases hchunk with
    | nothing hin hflush => exact ⟨hidle, .nothing (by rw [hin]; rfl) hflush rfl rfl⟩
    | @delivers encoded bytes adlerV _ hencoded _ _ =>
      have hidle' : Idle { encoded with outbuf := none, outlen := bytes.length } :=
        ⟨rfl, hencoded.kept.dictSize.trans hidle.dictSize⟩
      exact ⟨hidle', Stores.chunk hencoded.chunk hencoded.compDisabled⟩
    | spills _ _ _ _ _ => cases hample
    | refuses _ _ _ _ => cases hample

section Histories

variable {build : Build} {start strm : ZStream} {calls : List DeflateCall} {ustate : UzlibComp}

/-- Every finishing call stores a stream of its own. -/
theorem DeflateRun.finished (hrun : DeflateRun build start calls strm ustate)
    (hample : ∀ call ∈ calls, call.result.state.outbuf = none) :
    Idle ustate ∧ ∀ call ∈ calls, call.flush = .finish →
      ∃ first adlerV, ChunkBytes .finish first adlerV call.offered call.result.stored := by
  induction hrun with
  | init heap => exact ⟨⟨rfl, rfl⟩, fun _ hcall ↦ absurd hcall List.not_mem_nil⟩
  | @call calls strm strm' ustate memory flush r _ _ hr ih =>
    obtain ⟨hidle, hfinished⟩ := ih fun call hcall ↦ hample call (List.mem_append_left _ hcall)
    obtain ⟨hidle', hstores⟩ := ample_stores hidle hr
      (hample _ (List.mem_append_right _ (List.mem_singleton.mpr rfl)))
    refine ⟨hidle', fun call hcall hfinish ↦ ?_⟩
    rcases List.mem_append.mp hcall with hcall | hcall
    · exact hfinished call hcall hfinish
    · obtain rfl := List.mem_singleton.mp hcall
      obtain rfl : flush = .finish := hfinish
      cases hstores with
      | nothing _ hflush _ _ => exact absurd rfl hflush
      | chunk hchunk _ => exact ⟨_, _, hchunk⟩

/-- Flushed chunks, as far as a call stored any: one stream, which is open. -/
inductive OpenStream (calls : List DeflateCall) (first : Bool) : Prop
  | none (hnothing : delivered calls = []) (hempty : offered calls = []) (hfirst : first = true)
  | some {body : List UInt8} (hstream : delivered calls = 0x78 :: 0x01 :: body)
      (hopen : ∀ more, OpenBlocks [] (bytesBits (body ++ more)) (offered calls) (bytesBits more))
      (hfirst : first = false)

theorem OpenStream.call {first : Bool} {call : DeflateCall} (h : OpenStream calls first)
    (hflush : call.flush ≠ .finish) (hstores : Stores call.flush first call.offered call.result) :
    OpenStream (calls ++ [call]) call.result.state.compDisabled := by
  cases hstores with
  | nothing hinput _ hstored hsame =>
    rw [hsame]
    cases h with
    | none hnothing hempty hfirst =>
      exact .none (by rw [delivered_append, hnothing, hstored]; rfl)
        (by rw [offered_append, hempty, hinput]; rfl) hfirst
    | some hstream hopen hfirst =>
      refine .some (by rw [delivered_append, hstream, hstored, List.append_nil]) ?_ hfirst
      rw [offered_append, hinput, List.append_nil]
      exact hopen
  | chunk hchunk hnext =>
    rw [hnext, decide_eq_false hflush]
    obtain ⟨body, hbytes, hblocks⟩ := openBlocks_chunk hflush hchunk
    cases h with
    | none hnothing hempty hfirst =>
      refine @OpenStream.some _ _ body ?_ (fun more ↦ ?_) rfl
      · rw [delivered_append, hnothing, hbytes, chunkHeader, if_pos (.inr hfirst)]
        rfl
      · rw [offered_append, hempty]
        exact hblocks [] more
    | @some body' hstream hopen hfirst =>
      refine @OpenStream.some _ _ (body' ++ body) ?_ (fun more ↦ ?_) rfl
      · rw [delivered_append, hstream, hbytes, chunkHeader, if_neg (by simp [hflush, hfirst])]
        rfl
      · rw [List.append_assoc, offered_append]
        exact (hopen (body ++ more)).trans (hblocks _ more)

theorem DeflateRun.openStream (hrun : DeflateRun build start calls strm ustate)
    (hample : ∀ call ∈ calls, call.result.state.outbuf = none)
    (hflush : ∀ call ∈ calls, call.flush ≠ .finish) :
    Idle ustate ∧ OpenStream calls ustate.compDisabled := by
  induction hrun with
  | init heap => exact ⟨⟨rfl, rfl⟩, .none rfl rfl rfl⟩
  | @call calls strm strm' ustate memory flush r _ _ hr ih =>
    obtain ⟨hidle, hopen⟩ := ih (fun call hcall ↦ hample call (List.mem_append_left _ hcall))
      fun call hcall ↦ hflush call (List.mem_append_left _ hcall)
    have hlast := List.mem_append_right calls (List.mem_singleton.mpr
      (rfl : DeflateCall.mk memory strm' ustate flush r = _))
    obtain ⟨hidle', hstores⟩ := ample_stores hidle hr (hample _ hlast)
    exact ⟨hidle', @OpenStream.call _ _ ⟨memory, strm', ustate, flush, r⟩ hopen (hflush _ hlast) hstores⟩

/-! ### One call for the whole output -/

variable {statics : Statics} {memory : Memory} {strm' : ZStream}

/-- A stream that flushed chunks made. -/
theorem inflate_flushed (hrun : DeflateRun build start calls strm ustate)
    (hample : ∀ call ∈ calls, call.result.state.outbuf = none)
    (hflush : ∀ call ∈ calls, call.flush ≠ .finish) (hnonempty : offered calls ≠ [])
    (hsize : (offered calls).length ≤ 32768) (hstatics : SoundStatics statics) (heap : InfState)
    (hinput : memory.bytes strm'.nextIn strm'.availIn = delivered calls)
    (hlength : strm'.availIn < 2 ^ 32) (hpos : 0 < strm'.availOut)
    (hout : (offered calls).length ≤ strm'.availOut) :
    ∃ r, inflate build memory strm' (inflateInit statics heap) = .ok r ∧ r.code = .ok ∧
      r.stored = offered calls ∧ r.strm.availIn = 0 := by
  obtain ⟨-, hopen⟩ := hrun.openStream hample hflush
  cases hopen with
  | none _ hempty _ => exact absurd hempty hnonempty
  | some hstream hblocks _ =>
    have hall := hblocks []
    rw [List.append_nil] at hall
    rw [hstream] at hinput
    have hbits := hall.bits_ne_nil hnonempty
    obtain ⟨r, hr, hcode, hstored, havail⟩ := inflate_open build hstatics heap hinput
      hlength (fun hnil ↦ hbits (by rw [hnil]; rfl)) hall (hsize.trans (by decide)) hpos hout
    exact ⟨r, hr, hcode, hstored, havail⟩

/-- The stream that a finishing call made. -/
theorem inflate_finished_chunk {first : Bool} {adlerV : ℕ} {input bytes : List UInt8}
    (hchunk : ChunkBytes .finish first adlerV input bytes) (hsize : input.length ≤ 32768)
    (hstatics : SoundStatics statics) (heap : InfState)
    (hinput : memory.bytes strm'.nextIn strm'.availIn = bytes) (hlength : strm'.availIn < 2 ^ 32)
    (hpos : 0 < strm'.availOut) (hout : input.length ≤ strm'.availOut) :
    ∃ r, inflate build memory strm' (inflateInit statics heap) = .ok r ∧ r.code = .streamEnd ∧
      r.stored = input ∧ r.strm.availIn = 0 := by
  obtain ⟨body, rfl, hstream⟩ := decodeBlocks_chunk hchunk
  obtain ⟨bits, hblocks, htrailer⟩ := hstream []
  rw [List.append_nil] at hblocks
  obtain ⟨r, hr, hcode, hstored, -, havail, -⟩ := inflate_closed build hstatics heap
    hinput hlength (hblocks 0) htrailer (hsize.trans (by decide)) hpos hout
  exact ⟨r, hr, hcode, hstored, havail⟩

/-- The output of flushed chunks that are not all empty, or of one finishing call, given to a fresh
inflater in one call: the chunks come out, every byte is consumed, and the call returns `Z_OK` or
`Z_STREAM_END`. -/
theorem deflate_inflate (hrun : DeflateRun build start calls strm ustate)
    (hample : ∀ call ∈ calls, call.result.state.outbuf = none) {code : ZCode}
    (hkind : (∀ call ∈ calls, call.flush ≠ .finish) ∧ offered calls ≠ [] ∧ code = .ok ∨
      (∃ call, calls = [call] ∧ call.flush = .finish) ∧ code = .streamEnd)
    (hsize : (offered calls).length ≤ 32768) (hstatics : SoundStatics statics) (heap : InfState)
    (hinput : memory.bytes strm'.nextIn strm'.availIn = delivered calls)
    (hlength : strm'.availIn < 2 ^ 32) (hpos : 0 < strm'.availOut)
    (hout : (offered calls).length ≤ strm'.availOut) :
    ∃ r, inflate build memory strm' (inflateInit statics heap) = .ok r ∧ r.code = code ∧
      r.stored = offered calls ∧ r.strm.availIn = 0 := by
  rcases hkind with ⟨hflush, hnonempty, rfl⟩ | ⟨⟨call, rfl, hfinish⟩, rfl⟩
  · exact inflate_flushed hrun hample hflush hnonempty hsize hstatics heap hinput hlength hpos hout
  · have hmem : call ∈ [call] := List.mem_singleton.mpr rfl
    obtain ⟨first, adlerV, hchunk⟩ := (hrun.finished hample).2 call hmem hfinish
    have hoffered : offered [call] = call.offered := List.flatMap_singleton _ _
    have hdelivered : delivered [call] = call.result.stored := List.flatMap_singleton _ _
    rw [hoffered] at hsize hout ⊢
    exact inflate_finished_chunk hchunk hsize hstatics heap (hinput.trans hdelivered) hlength hpos
      hout

/-- Behind flushed chunks, a finishing call makes a stream of its own: the chunks in front of it are
one stream that stays open, and its own chunk is another one that is complete. -/
theorem flushed_then_finished (hrun : DeflateRun build start calls strm ustate)
    (hample : ∀ call ∈ calls, call.result.state.outbuf = none)
    (hflush : ∀ call ∈ calls, call.flush ≠ .finish) (hnonempty : offered calls ≠ [])
    {last : DeflateCall}
    (hlast : deflate build last.memory last.strm ustate .finish = .ok last.result)
    (hroom : last.result.state.outbuf = none)
    (hsize : (offered calls ++ last.offered).length ≤ 32768) (hstatics : SoundStatics statics)
    (heap : InfState) :
    (∀ {memory : Memory} {strm' : ZStream},
      memory.bytes strm'.nextIn strm'.availIn = delivered calls → strm'.availIn < 2 ^ 32 →
      0 < strm'.availOut → (offered calls).length ≤ strm'.availOut →
        ∃ r, inflate build memory strm' (inflateInit statics heap) = .ok r ∧ r.code = .ok ∧
          r.stored = offered calls ∧ r.strm.availIn = 0) ∧
    ∀ {memory : Memory} {strm' : ZStream},
      memory.bytes strm'.nextIn strm'.availIn = last.result.stored → strm'.availIn < 2 ^ 32 →
      0 < strm'.availOut → last.offered.length ≤ strm'.availOut →
        ∃ r, inflate build memory strm' (inflateInit statics heap) = .ok r ∧ r.code = .streamEnd ∧
          r.stored = last.offered ∧ r.strm.availIn = 0 := by
  rw [List.length_append] at hsize
  refine ⟨fun hinput hlength hpos hout ↦ ?_, fun hinput hlength hpos hout ↦ ?_⟩
  · exact inflate_flushed hrun hample hflush hnonempty (by omega) hstatics heap hinput hlength hpos
      hout
  · have hidle := (hrun.finished hample).1
    cases (ample_stores hidle hlast hroom).2 with
    | nothing _ hflush' _ _ => exact absurd rfl hflush'
    | chunk hchunk _ =>
      exact inflate_finished_chunk hchunk (show last.offered.length ≤ 32768 by omega) hstatics heap
        hinput hlength hpos hout

end Histories

/-- The stream of the letter `a` in a finishing call. -/
def letterStream : List UInt8 := [0x78, 0x01, 0x4B, 0x04, 0x00, 0x00, 0x62, 0x00, 0x62]

theorem finish_letter : ∃ r, deflate ⟨false, none⟩ (fun _ ↦ 97) { letterStrm with availOut := 10 }
    letterState .finish = .ok r ∧ r.state.outbuf = none ∧ r.stored = letterStream := by
  have hvalues : (deflate ⟨false, none⟩ (fun _ ↦ 97) { letterStrm with availOut := 10 } letterState
      .finish).map (fun r ↦ (r.state.outbuf, r.stored)) = .ok (none, letterStream) := by
    decide +kernel
  obtain ⟨r, hr, hvalues⟩ := map_ok hvalues
  exact ⟨r, hr, (Prod.mk.inj hvalues).1, (Prod.mk.inj hvalues).2⟩

/-- The letter `a` there and back. -/
theorem deflate_inflate_letter : ∃ r,
    inflate ⟨false, none⟩ (memoryOf letterStream) (streamOf 9 1) freshInflater = .ok r ∧
      r.code = .streamEnd ∧ r.stored = [97] ∧ r.strm.availIn = 0 := by
  obtain ⟨r, hr, hample, hstored⟩ := finish_letter
  have hhands : Hands (deflateInit letterStrm letterState).1 { letterStrm with availOut := 10 } :=
    ⟨rfl, rfl, rfl⟩
  have hrun : DeflateRun ⟨false, none⟩ letterStrm
      [⟨fun _ ↦ 97, { letterStrm with availOut := 10 }, letterState, .finish, r⟩] r.strm r.state :=
    .call (.init letterState) hhands hr
  have hinput : (memoryOf letterStream).bytes (streamOf 9 1).nextIn (streamOf 9 1).availIn =
      delivered [⟨fun _ ↦ 97, { letterStrm with availOut := 10 }, letterState, .finish, r⟩] := by
    simp only [delivered, List.flatMap_cons, List.flatMap_nil, hstored]
    decide
  exact deflate_inflate hrun (by simpa using hample) (.inr ⟨⟨_, rfl, rfl⟩, rfl⟩)
    (show 1 ≤ 32768 by decide) soundStatics_none zeroHeap hinput (by decide) (by decide)
    (show 1 ≤ 1 from le_rfl)

/-- The letter `a` flushed, and then the letter `a` in a finishing call. -/
theorem flush_finish_letters : ∃ first second,
    deflate ⟨false, none⟩ (fun _ ↦ 97) { letterStrm with availOut := 10 } letterState .syncFlush =
        .ok first ∧
      deflate ⟨false, none⟩ (fun _ ↦ 97) { first.strm with availIn := 1, availOut := 10 } first.state
        .finish = .ok second ∧
      first.state.outbuf = none ∧ second.state.outbuf = none ∧
      first.stored = [0x78, 0x01, 0x4A, 0x04, 0x00, 0x00, 0x00, 0xFF, 0xFF] ∧
      second.stored = [0x78, 0x01, 0x4B, 0x04, 0x00, 0x01, 0x25, 0x00, 0xC3] := by
  have hall : (deflate ⟨false, none⟩ (fun _ ↦ 97) { letterStrm with availOut := 10 } letterState
      .syncFlush >>= fun first ↦ (deflate ⟨false, none⟩ (fun _ ↦ 97)
        { first.strm with availIn := 1, availOut := 10 } first.state .finish).map fun second ↦
          (first.state.outbuf, second.state.outbuf, first.stored, second.stored)) =
      .ok (none, none, [0x78, 0x01, 0x4A, 0x04, 0x00, 0x00, 0x00, 0xFF, 0xFF],
        [0x78, 0x01, 0x4B, 0x04, 0x00, 0x01, 0x25, 0x00, 0xC3]) := by
    decide +kernel
  obtain ⟨first, hfirst, hrest⟩ := bind_ok hall
  obtain ⟨second, hsecond, hvalues⟩ := map_ok hrest
  simp only [Prod.mk.injEq] at hvalues
  obtain ⟨hout₁, hout₂, hstored₁, hstored₂⟩ := hvalues
  exact ⟨first, second, hfirst, hsecond, hout₁, hout₂, hstored₁, hstored₂⟩

/-- The two streams of these calls, each in a fresh inflater. -/
theorem flushed_then_finished_letters : ∃ first second,
    inflate ⟨false, none⟩ (memoryOf [0x78, 0x01, 0x4A, 0x04, 0x00, 0x00, 0x00, 0xFF, 0xFF])
        (streamOf 9 1) freshInflater = .ok first ∧ first.code = .ok ∧ first.stored = [97] ∧
      inflate ⟨false, none⟩ (memoryOf [0x78, 0x01, 0x4B, 0x04, 0x00, 0x01, 0x25, 0x00, 0xC3])
        (streamOf 9 1) freshInflater = .ok second ∧ second.code = .streamEnd ∧
        second.stored = [97] := by
  obtain ⟨first, second, hfirst, hsecond, hout₁, hout₂, hstored₁, hstored₂⟩ := flush_finish_letters
  have hhands : Hands (deflateInit letterStrm letterState).1 { letterStrm with availOut := 10 } :=
    ⟨rfl, rfl, rfl⟩
  have hrun : DeflateRun ⟨false, none⟩ letterStrm
      [⟨fun _ ↦ 97, { letterStrm with availOut := 10 }, letterState, .syncFlush, first⟩] first.strm
      first.state := .call (.init letterState) hhands hfirst
  obtain ⟨hopen, hclosed⟩ := @flushed_then_finished _ _ _ _ _ ⟨none, none⟩ hrun
    (by simpa using hout₁) (by simp) (show [97] ≠ [] by simp)
    ⟨fun _ ↦ 97, { first.strm with availIn := 1, availOut := 10 }, first.state, .finish, second⟩
    hsecond hout₂ (show 2 ≤ 32768 by decide) soundStatics_none zeroHeap
  obtain ⟨r₁, hr₁, hcode₁, hstored₁', -⟩ := @hopen
    (memoryOf [0x78, 0x01, 0x4A, 0x04, 0x00, 0x00, 0x00, 0xFF, 0xFF]) (streamOf 9 1)
    (by
      simp only [delivered, List.flatMap_cons, List.flatMap_nil, hstored₁]
      decide) (by decide) (by decide) (show 1 ≤ 1 from le_rfl)
  obtain ⟨r₂, hr₂, hcode₂, hstored₂', -⟩ := @hclosed
    (memoryOf [0x78, 0x01, 0x4B, 0x04, 0x00, 0x01, 0x25, 0x00, 0xC3]) (streamOf 9 1)
    (by
      simp only [hstored₂]
      decide) (by decide) (by decide) (show 1 ≤ 1 from le_rfl)
  exact ⟨r₁, r₂, hr₁, hcode₁, hstored₁', hr₂, hcode₂, hstored₂'⟩

/-- As one stream, the output of these calls is rejected: the second header is read as that of a
stored block. -/
theorem not_closed_by_finish :
    (deflate ⟨false, none⟩ (fun _ ↦ 97) { letterStrm with availOut := 10 } letterState
      .syncFlush >>= fun first ↦ deflate ⟨false, none⟩ (fun _ ↦ 97)
        { first.strm with availIn := 1, availOut := 10 } first.state .finish >>= fun second ↦
          (inflate ⟨false, none⟩ (memoryOf (first.stored ++ second.stored)) (streamOf 18 10)
            freshInflater).map fun r ↦ (r.code, r.stored, r.strm.availIn)) =
      .ok (.dataError, [97], 4) := by
  decide +kernel

end ZephyrThrift.Muzic
