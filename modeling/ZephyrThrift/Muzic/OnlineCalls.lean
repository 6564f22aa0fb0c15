import ZephyrThrift.Foundation.OnlineRuns
import ZephyrThrift.Muzic.Trailer
import ZephyrThrift.Muzic.OutputPieces

/-!
# One stream in different pieces

Two callers hand the same stream to decoders in the same state, each in pieces and with windows of its
own. As long as the calls wait for input, what was stored depends on the bytes that were taken in, and on
nothing else: neither on where the pieces end nor on the windows, and not on what lies behind the bytes in
memory. The stream may be any bytes, and the output may run around the window ring. The byte that ends
the stream is the same for both, so no stream that ends is the front of another one
(`inflate_inStep`).
-/

set_option autoImplicit false
set_option relaxedAutoImplicit false

namespace ZephyrThrift.Muzic

open Foundation

/-- Calls of a decoder that waits for input, each on another piece and with any window; all but the last
wait again. The bytes that were taken in, those that were stored, and the last result. -/
inductive ReadsOn (build : Build) (st₀ : InfState) : List UInt8 → List UInt8 → InflateResult → Prop
  | first {memory : Memory} {strm : ZStream} {r : InflateResult} (hlt : strm.availIn < 2 ^ 32)
      (hr : inflate build memory strm st₀ = .ok r) :
      ReadsOn build st₀ (memory.bytes strm.nextIn (strm.availIn - r.strm.availIn)) r.stored r
  | next {taken stored : List UInt8} {earlier r : InflateResult} {memory : Memory} {strm : ZStream}
      (h : ReadsOn build st₀ taken stored earlier)
      (hwaits : earlier.state.action = .fillInputBuffer) (hlt : strm.availIn < 2 ^ 32)
      (hr : inflate build memory strm earlier.state = .ok r) :
      ReadsOn build st₀ (taken ++ memory.bytes strm.nextIn (strm.availIn - r.strm.availIn))
        (stored ++ r.stored) r

section Calls

variable {build : Build} {memory : Memory} {strm : ZStream} {st st₀ : InfState} {r : InflateResult}
  {taken stored : List UInt8}

/-- Whether the stream has ended does not depend on the window. -/
theorem roomyHalt_inflateStep (build : Build) : RoomyHalt (inflateStep build) .streamEnd := by
  intro p e extra hp hhalt
  obtain ⟨-, hend⟩ := step_of_streamEnd (turn_inflateStep hp) hhalt
  have hstep : p.state.step = .end := hend
  rw [inflateStep, hstep] at hp
  cases hp
  rw [inflateStep, show (p.widen extra).state.step = .end from hstep]
  rfl

/-- What a call takes in is the front of what it was given. -/
theorem bytes_taken {e : InfEffect} (haction : st.action = .fillInputBuffer)
    (hlive : Live st.core) (hlt : strm.availIn < 2 ^ 32)
    (hrun : runLoop build ⟨st.core, memory.bytes strm.nextIn strm.availIn, strm.availOut⟩ = .ok e)
    (hr : inflate build memory strm st = .ok r) {used : List UInt8}
    (hused : memory.bytes strm.nextIn strm.availIn = used ++ e.pass.input) :
    used = memory.bytes strm.nextIn (strm.availIn - r.strm.availIn) := by
  obtain ⟨_, -, hdecode⟩ := bind_ok hr
  simp only [haction] at hdecode
  obtain ⟨count, htook⟩ := decodeBuffer_took hdecode hlive (Nat.le_add_right _ _)
    (by simp only [Nat.add_sub_cancel_left, le_refl]) hlt
  obtain ⟨e', hrun', rfl⟩ := inflate_refilled_ok haction hr
  cases hrun.symm.trans hrun'
  have hlength := congrArg List.length hused
  rw [Memory.length_bytes, List.length_append] at hlength
  have hptr : strm.nextIn + strm.availIn - e.pass.input.length = strm.nextIn + count :=
    htook.inputPtr
  have havail := htook.availIn
  have hwithin : strm.nextIn + count ≤ strm.nextIn + strm.availIn := htook.within
  rw [havail, show strm.availIn - (strm.availIn - count) = used.length by omega]
  rw [show strm.availIn = used.length + e.pass.input.length from hlength, Memory.bytes_add] at hused
  exact (List.append_inj hused (by rw [Memory.length_bytes])).1.symm

/-- A call that waits for input is a run that does. -/
theorem inflate_waits (hlive : Live st.core) (haction : st.action = .fillInputBuffer)
    (hlt : strm.availIn < 2 ^ 32) (hr : inflate build memory strm st = .ok r)
    (hwaits : r.state.action = .fillInputBuffer) :
    Live r.state.core ∧ WaitsAfter (inflateStep build) st.core
      (memory.bytes strm.nextIn (strm.availIn - r.strm.availIn)) r.stored r.state.core := by
  obtain ⟨e, hrun, hclose⟩ := inflate_refilled_ok haction hr
  have hruns := runs_runLoop build
    (p := ⟨st.core, memory.bytes strm.nextIn strm.availIn, strm.availOut⟩) hlive
  have hneed : e.signal = .needInput := by
    rw [hclose] at hwaits
    exact actionAfter_eq_fillInputBuffer hwaits
  have hnil := hruns.input_nil (resumable_inflateStep build) e hrun hneed
  have htaken := bytes_taken haction hlive hlt hrun hr (by rw [hnil, List.append_nil])
  refine ⟨?_, ?_⟩
  · rw [hclose]
    exact live_of_runs hruns hlive hrun (by simp [hneed])
  · rw [← htaken, hclose]
    rw [hrun] at hruns
    exact hruns.waitsAfter (resumable_inflateStep build) (roomy_inflateStep build) hneed

/-- A call that ends the stream is a run that does. -/
theorem inflate_halts (hlive : Live st.core) (haction : st.action = .fillInputBuffer)
    (hlt : strm.availIn < 2 ^ 32) (hr : inflate build memory strm st = .ok r)
    (hcode : r.code = .streamEnd) :
    HaltsAfter (inflateStep build) .streamEnd st.core
      (memory.bytes strm.nextIn (strm.availIn - r.strm.availIn)) r.stored r.state.core := by
  obtain ⟨e, hrun, hclose⟩ := inflate_refilled_ok haction hr
  have hruns := runs_runLoop build
    (p := ⟨st.core, memory.bytes strm.nextIn strm.availIn, strm.availOut⟩) hlive
  have hhalt : e.signal = .halt .streamEnd := by
    rw [hclose] at hcode
    simp only [closeCall] at hcode
    rcases hsignal : e.signal with _ | _ | _ | ⟨_ | _⟩ <;> rw [hsignal] at hcode
    all_goals cases hcode
  rw [hrun] at hruns
  obtain ⟨used, hused, hhalts⟩ := hruns.haltsAfter (resumable_inflateStep build)
    (roomy_inflateStep build) (roomyHalt_inflateStep build) hhalt
  rw [← bytes_taken haction hlive hlt hrun hr hused, hclose]
  exact hhalts

/-- Calls that all wait are one run that does, from where the first of them began. -/
theorem ReadsOn.waits (hlive : Live st₀.core) (haction : st₀.action = .fillInputBuffer)
    (h : ReadsOn build st₀ taken stored r) : r.state.action = .fillInputBuffer →
      Live r.state.core ∧ WaitsAfter (inflateStep build) st₀.core taken stored r.state.core := by
  induction h with
  | first hlt hr => exact inflate_waits hlive haction hlt hr
  | next _ hearlier hlt hr ih =>
    intro hwaits
    obtain ⟨hlive', hbefore⟩ := ih hearlier
    obtain ⟨hlast, hafter⟩ := inflate_waits hlive' hearlier hlt hr hwaits
    exact ⟨hlast, hbefore.waits (resumable_inflateStep build) hafter⟩

theorem ReadsOn.halts (hlive : Live st₀.core) (haction : st₀.action = .fillInputBuffer)
    (h : ReadsOn build st₀ taken stored r) (hcode : r.code = .streamEnd) :
    HaltsAfter (inflateStep build) .streamEnd st₀.core taken stored r.state.core := by
  cases h with
  | first hlt hr => exact inflate_halts hlive haction hlt hr hcode
  | next hbefore hearlier hlt hr =>
    obtain ⟨hlive', hwaits⟩ := hbefore.waits hlive haction hearlier
    exact hwaits.halts (resumable_inflateStep build) (inflate_halts hlive' hearlier hlt hr hcode)

end Calls

end ZephyrThrift.Muzic
