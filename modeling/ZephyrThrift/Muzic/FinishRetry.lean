import ZephyrThrift.Muzic.ChunkSize
import ZephyrThrift.Muzic.Counters

/-!
# A finish that does not fit

Where the window is too small for what a finishing call makes of its input, `deflate` frees the buffer
and returns `Z_BUF_ERROR`. It has consumed the input, and `outbuf` still points to the buffer, so
the call cannot be made up for (`retriesFinish_iff`). Elsewhere `free` is followed by the assignment of
`NULL`.
-/

set_option autoImplicit false
set_option relaxedAutoImplicit false

namespace ZephyrThrift.Muzic

/-- A call can be made up for: no buffer that was freed is referred to, and with enough room a
finishing call on the input that is left stores what is missing of the output that this call would
have made with that room. -/
structure DeflateCall.Retryable (build : Build) (call : DeflateCall) : Prop where
  outbuf : ∀ out, call.result.state.outbuf = some out → out.live = true
  output : ∃ room, ∀ nextOut availOut, room ≤ availOut → ∃ whole later,
    deflate build call.memory { call.strm with availOut := availOut } call.state .finish =
        .ok whole ∧
      deflate build call.memory
        { call.result.strm with nextOut := nextOut, availOut := availOut } call.result.state
        .finish = .ok later ∧
      call.result.stored ++ later.stored = whole.stored

/-- A finishing call that is refused can be made up for. -/
def DeflateCall.RetriesFinish (build : Build) (call : DeflateCall) : Prop :=
  call.flush = .finish → call.result.code = .bufError → call.Retryable build

/-- Where a finishing call gets to its input, the window is large enough for what is pending and the
stream that the call makes of the input. -/
def DeflateCall.FitsFinish (call : DeflateCall) : Prop :=
  call.flush = .finish → call.Encodes →
    call.waiting + finishSize call.state (call.memory.bytes call.strm.nextIn call.strm.availIn) ≤
      call.strm.availOut

section Calls

variable {build : Build} {ustate : UzlibComp} {memory : Memory} {strm : ZStream} {flush : Flush}
  {pending : List UInt8}

/-- A call that reaches no chunk, or does not finish, is neither refused nor bound to fit. -/
theorem retriesFinish_iff_of_not_encodes {r : DeflateResult} (hcode : r.code ≠ .bufError)
    (h : ¬ (DeflateCall.mk memory strm ustate flush r).Encodes) :
    (DeflateCall.mk memory strm ustate flush r).RetriesFinish build ↔
      (DeflateCall.mk memory strm ustate flush r).FitsFinish :=
  iff_of_true (fun _ herror ↦ absurd herror hcode) fun _ hencodes ↦ absurd hencodes h

/-- A chunk behind the output that was pending, in a state at rest. -/
theorem retriesFinish_iff_of_chunk {rested : UzlibComp} {r : DeflateResult} {stored : List UInt8}
    (h : Delivering ustate strm.totalOut pending) (hroom : pending.length ≤ strm.availOut)
    (hsome : strm.availIn ≠ 0 ∨ ustate.outbuf = none) (hdict : rested.dictSize = ustate.dictSize)
    (hbits : rested.hashBits = ustate.hashBits)
    (hchunk : ChunkCall build memory (strm.drained pending.length) rested flush r) :
    (DeflateCall.mk memory strm ustate flush { r with stored := stored }).RetriesFinish build ↔
      (DeflateCall.mk memory strm ustate flush { r with stored := stored }).FitsFinish := by
  by_cases hfinish : flush = .finish
  · subst hfinish
    have hencodes : (DeflateCall.mk memory strm ustate .finish { r with stored := stored }).Encodes := by
      refine ⟨by rw [waiting_eq memory _ _ h]; exact hroom, ?_⟩
      rcases hsome with hin | hnone
      · exact .inl hin
      · exact .inr ⟨rfl, hnone⟩
    have hfits : (DeflateCall.mk memory strm ustate .finish { r with stored := stored }).FitsFinish ↔
        pending.length + finishSize ustate (memory.bytes strm.nextIn strm.availIn) ≤
          strm.availOut := by
      rw [← waiting_eq memory .finish { r with stored := stored } h]
      exact ⟨fun hfits ↦ hfits rfl hencodes, fun hfits _ _ ↦ hfits⟩
    have hsize : ∀ {encoded bytes adlerV}, Encoded build rested
        (memory.bytes strm.nextIn strm.availIn) .finish adlerV encoded bytes →
          bytes.length = finishSize ustate (memory.bytes strm.nextIn strm.availIn) := by
      intro encoded bytes adlerV hencoded
      rw [← hencoded.outlen, encodeChunk_size (hdict.trans h.dictSize) hencoded.encodes]
      exact finishSize_congr hbits hdict (hdict.trans h.dictSize) _
    rw [hfits]
    cases hchunk with
    | nothing _ hflush => exact absurd rfl hflush
    | delivers _ hencoded _ hfit =>
      have hlength := hsize hencoded
      simp only [ZStream.drained] at hfit
      refine iff_of_true (fun _ herror ↦ ?_) (by omega)
      simp only [if_true] at herror
      cases herror
    | spills _ _ _ hflush _ => exact absurd rfl hflush
    | refuses _ hencoded _ hfull =>
      have hlength := hsize hencoded
      simp only [ZStream.drained] at hfull
      refine iff_of_false (fun hretries ↦ ?_) (by omega)
      have hlive := (hretries rfl rfl).outbuf _ rfl
      cases hlive
  · exact iff_of_true (fun hflush ↦ absurd hflush hfinish) fun hflush ↦ absurd hflush hfinish

theorem retriesFinish_iff_of_step {r : DeflateResult} (h : Delivering ustate strm.totalOut pending)
    (hstep : DeflateStep build memory strm ustate flush pending r) :
    (DeflateCall.mk memory strm ustate flush r).RetriesFinish build ↔
      (DeflateCall.mk memory strm ustate flush r).FitsFinish := by
  cases hstep with
  | stays _ _ hroom =>
    refine retriesFinish_iff_of_not_encodes ZCode.noConfusion fun hencodes ↦ ?_
    have hdrained := hencodes.1
    rw [waiting_eq memory flush _ h] at hdrained
    exact absurd hdrained (not_le.mpr hroom)
  | drains hpending _ hin =>
    refine retriesFinish_iff_of_not_encodes ZCode.noConfusion fun hencodes ↦ ?_
    rcases hencodes.2 with hsome | ⟨-, hnone⟩
    · exact hsome hin
    · rcases h.outbuf with ⟨-, hempty⟩ | ⟨-, -, block, hblock, -⟩
      · exact hpending hempty
      · rw [show ustate.outbuf = none from hnone] at hblock
        cases hblock
  | continues _ hroom hin hchunk =>
    refine retriesFinish_iff_of_chunk h hroom (.inl hin) ?_ ?_ hchunk <;> rfl
  | @fresh r hpending hchunk =>
    subst hpending
    refine retriesFinish_iff_of_chunk h (Nat.zero_le _) (.inr h.idle.outbuf) ?_ ?_ hchunk <;> rfl

end Calls

/-- Every call of a history is made in a state where output may be pending. -/
theorem DeflateRun.steps {build : Build} {start strm : ZStream} {calls : List DeflateCall}
    {ustate : UzlibComp} (hrun : DeflateRun build start calls strm ustate) :
    ∀ call ∈ calls, ∃ pending, Delivering call.state call.strm.totalOut pending ∧
      DeflateStep build call.memory call.strm call.state call.flush pending call.result := by
  induction hrun with
  | init heap => exact fun _ hcall ↦ absurd hcall List.not_mem_nil
  | @call calls strm strm' ustate memory flush r hearlier hstrm hr ih =>
    intro call hcall
    rcases List.mem_append.mp hcall with hcall | hcall
    · exact ih call hcall
    rw [List.mem_singleton.mp hcall]
    rcases hearlier.between.1 with ⟨⟨pending, hdelivering⟩, -⟩ | ⟨⟨block, hfreed⟩, -⟩
    · rw [← hstrm.totalOut] at hdelivering
      obtain ⟨r', hr', hstep⟩ := deflate_cases build memory flush hdelivering
      rw [hr'] at hr
      cases hr
      exact ⟨pending, hdelivering, hstep⟩
    · exact absurd hr (not_deflate_of_freed hfreed)

/-- A finishing call can be made up for exactly where it need not be: where it gets to its input, what
it makes of it fits. -/
theorem retriesFinish_iff {build : Build} {start strm : ZStream} {calls : List DeflateCall}
    {ustate : UzlibComp} (hrun : DeflateRun build start calls strm ustate) {call : DeflateCall}
    (hcall : call ∈ calls) : call.RetriesFinish build ↔ call.FitsFinish := by
  obtain ⟨pending, hdelivering, hstep⟩ := hrun.steps call hcall
  exact retriesFinish_iff_of_step hdelivering hstep

/-- The letter `a`, finished into a window of ten bytes. -/
theorem retriesFinish_iff_letter : ∃ r, r.stored = [0x78, 0x01, 0x4B, 0x04, 0x00, 0x00, 0x62, 0x00, 0x62] ∧
    ((DeflateCall.mk (fun _ ↦ 97) { letterStrm with availOut := 10 } letterState .finish
        r).RetriesFinish ⟨false, none⟩ ↔
      (DeflateCall.mk (fun _ ↦ 97) { letterStrm with availOut := 10 } letterState .finish
        r).FitsFinish) := by
  have hstored : (deflate ⟨false, none⟩ (fun _ ↦ 97) { letterStrm with availOut := 10 } letterState
      .finish).map (·.stored) = .ok [0x78, 0x01, 0x4B, 0x04, 0x00, 0x00, 0x62, 0x00, 0x62] := by
    decide +kernel
  obtain ⟨r, hr, hstored⟩ := map_ok hstored
  have hhands : Hands (deflateInit letterStrm letterState).1 { letterStrm with availOut := 10 } :=
    ⟨rfl, rfl, rfl⟩
  have hrun : DeflateRun ⟨false, none⟩ letterStrm
      [⟨fun _ ↦ 97, { letterStrm with availOut := 10 }, letterState, .finish, r⟩] r.strm r.state :=
    .call (.init letterState) hhands hr
  exact ⟨r, hstored, retriesFinish_iff hrun (List.mem_singleton.mpr rfl)⟩

/-- The letter `a`, finished into a window of four bytes: the call returns `Z_BUF_ERROR`, the input is
consumed, and `outbuf` points to the buffer that was freed. -/
theorem not_retriesFinish_letter : ∃ call strm ustate,
    DeflateRun ⟨false, none⟩ letterStrm [call] strm ustate ∧ call.flush = .finish ∧
      call.strm.availIn = 1 ∧ call.strm.availOut = 4 ∧ call.result.code = .bufError ∧
      call.result.strm.availIn = 0 ∧ ¬ call.RetriesFinish ⟨false, none⟩ := by
  have hvalues : (deflate ⟨false, none⟩ (fun _ ↦ 97) { letterStrm with availOut := 4 } letterState
      .finish).map (fun r ↦ (r.code, r.strm.availIn, r.state.outbuf.map OutPtr.live)) =
        .ok (.bufError, 0, some false) := by decide +kernel
  obtain ⟨r, hr, hvalues⟩ := map_ok hvalues
  simp only [Prod.mk.injEq] at hvalues
  obtain ⟨hcode, hread, hfreed⟩ := hvalues
  have hhands : Hands (deflateInit letterStrm letterState).1 { letterStrm with availOut := 4 } :=
    ⟨rfl, rfl, rfl⟩
  have hrun : DeflateRun ⟨false, none⟩ letterStrm
      [⟨fun _ ↦ 97, { letterStrm with availOut := 4 }, letterState, .finish, r⟩] r.strm r.state :=
    .call (.init letterState) hhands hr
  refine ⟨_, _, _, hrun, rfl, rfl, rfl, hcode, hread, fun hretries ↦ ?_⟩
  obtain ⟨out, hout, hdead⟩ := Option.map_eq_some_iff.mp hfreed
  have hlive := (hretries rfl hcode).outbuf out hout
  rw [hlive] at hdead
  cases hdead

end ZephyrThrift.Muzic
