import ZephyrThrift.Muzic.Calls

/-!
# Input in two calls

The input may be cut anywhere behind the header: a call that ends waiting for input, followed by a
call with more, does what one call with all of the input does. The output space must be enough, in
the sense that more of it would change nothing (`EnoughSpace`).
-/

set_option autoImplicit false
set_option relaxedAutoImplicit false

namespace ZephyrThrift.Muzic

open Foundation

/-- More output space would be left over, and change nothing else. -/
def EnoughSpace (build : Build) (memory : Memory) (strm : ZStream) (st : InfState) : Prop :=
  ∀ extra, inflate build memory { strm with availOut := strm.availOut + extra } st =
    (inflate build memory strm st).map fun r ↦
      { r with strm := { r.strm with availOut := r.strm.availOut + extra } }

/-- What one call shows of the stream and leaves in the decoder. -/
structure Outcome where
  stored : List UInt8
  code : ZCode
  totalIn : ℕ
  totalOut : ℕ
  core : InfCore
  action : InfAction

/-- The outcome of a call, reported after `earlier` had been stored. -/
def outcomeAfter (earlier : List UInt8) (r : InflateResult) : Outcome :=
  ⟨earlier ++ r.stored, r.code, r.strm.totalIn, r.strm.totalOut, r.state.core, r.state.action⟩

/-- The outcome of a call is what it is with more space. -/
theorem EnoughSpace.outcome {build : Build} {memory : Memory} {strm : ZStream} {st : InfState}
    (h : EnoughSpace build memory strm st) (extra : ℕ) (earlier : List UInt8) :
    (inflate build memory strm st).map (outcomeAfter earlier) =
      (inflate build memory { strm with availOut := strm.availOut + extra } st).map
        (outcomeAfter earlier) := by
  rw [h extra]
  cases inflate build memory strm st <;> rfl

/-- A call that ends waiting for input has had enough space. -/
theorem enoughSpace_of_waiting {build : Build} {memory : Memory} {strm : ZStream} {st : InfState}
    {r : InflateResult} (hlive : Live st.core) (haction : st.action = .fillInputBuffer)
    (hin : 0 < strm.availIn) (hout : 0 < strm.availOut)
    (hr : inflate build memory strm st = .ok r) (hwaits : r.state.action = .fillInputBuffer) :
    EnoughSpace build memory strm st := by
  intro extra
  obtain ⟨e, hrun, rfl⟩ := inflate_refilled_ok haction hr
  have hneed := actionAfter_eq_fillInputBuffer hwaits
  have hruns := runs_runLoop build
    (p := ⟨st.core, memory.bytes strm.nextIn strm.availIn, strm.availOut⟩) hlive
  have hwide := runs_runLoop build
    (p := ⟨st.core, memory.bytes strm.nextIn strm.availIn, strm.availOut + extra⟩) hlive
  have hfree := free_le_of_runs hruns hlive e hrun
  have hsame := hwide.unique (hruns.widen (roomy_inflateStep build) extra e hrun hneed)
  rw [hr, inflate_refilled haction { strm with availOut := strm.availOut + extra } hin
    (Nat.add_pos_left hout extra), hsame]
  simp only [Except.map, closeCall, Effect.widen, Pass.widen, hneed,
    show strm.availOut + extra - (e.pass.free + extra) = strm.availOut - e.pass.free by omega]
  simp only at hfree
  congr 3
  simp only [reduceCtorEq, if_false]
  omega

/-- The accounts of two calls, the first of which consumed all of its input, are those of one. -/
theorem outcome_eq {strm₁ strm₂ strm : ZStream} {st₁ st₂ st : InfState} {e₁ e₂ : InfEffect}
    {p q : List UInt8} (hlength : (p ++ q).length < 2 ^ 32)
    (hend₁ : st₁.inputEnd = strm₁.nextIn + p.length)
    (hend₂ : st₂.inputEnd = strm₂.nextIn + q.length)
    (hend : st.inputEnd = strm.nextIn + (p ++ q).length) (hinput₁ : e₁.pass.input = [])
    (hinput₂ : e₂.pass.input.length ≤ q.length) (hfree₁ : e₁.pass.free ≤ strm₁.availOut)
    (hfree₂ : e₂.pass.free ≤ strm₂.availOut)
    (havail : strm.availOut + e₁.pass.free = strm₁.availOut + strm₂.availOut)
    (hstart : strm.totalIn = strm₁.totalIn ∧ strm.totalOut = strm₁.totalOut)
    (hnext : strm₂.totalIn = (closeCall strm₁ st₁ strm₁.nextIn e₁).strm.totalIn ∧
      strm₂.totalOut = (closeCall strm₁ st₁ strm₁.nextIn e₁).strm.totalOut) :
    outcomeAfter e₁.stored (closeCall strm₂ st₂ strm₂.nextIn e₂) =
      outcomeAfter [] (closeCall strm st strm.nextIn (e₂.after e₁.stored)) := by
  rw [List.length_append] at hlength hend
  have hfirst : unsignedSub (st₁.inputEnd - e₁.pass.input.length) strm₁.nextIn = p.length := by
    rw [hend₁, hinput₁, List.length_nil, unsignedSub_of_le] <;> omega
  have hsecond : unsignedSub (st₂.inputEnd - e₂.pass.input.length) strm₂.nextIn =
      q.length - e₂.pass.input.length := by
    rw [hend₂, unsignedSub_of_le] <;> omega
  have hboth : unsignedSub (st.inputEnd - e₂.pass.input.length) strm.nextIn =
      p.length + (q.length - e₂.pass.input.length) := by
    rw [hend, unsignedSub_of_le] <;> omega
  simp only [outcomeAfter, closeCall, Effect.after_pass, Effect.after_signal, Effect.after_stored,
    List.nil_append, Outcome.mk.injEq, true_and, and_true, hsecond, hboth] at hnext ⊢
  rw [hfirst] at hnext
  refine ⟨?_, ?_⟩ <;> omega

/-- Behind the header, the input may be cut anywhere: where the call on a first piece ends waiting
for input, a call on the second piece gives, together with it, what one call on both gives. -/
theorem inflate_cut (build : Build) {st : InfState} (hreach : Reachable build st)
    (haction : st.action = .fillInputBuffer) {p q : List UInt8} (hp : p ≠ []) (hq : q ≠ [])
    (hlength : (p ++ q).length < 2 ^ 32) {memory₁ memory₂ memory : Memory}
    {strm₁ strm₂ strm : ZStream} (hinput₁ : memory₁.bytes strm₁.nextIn strm₁.availIn = p)
    (hinput₂ : memory₂.bytes strm₂.nextIn strm₂.availIn = q)
    (hinput : memory.bytes strm.nextIn strm.availIn = p ++ q) {r₁ : InflateResult}
    (hr₁ : inflate build memory₁ strm₁ st = .ok r₁) (hwaits : r₁.state.action = .fillInputBuffer)
    (hstart : strm.totalIn = strm₁.totalIn ∧ strm.totalOut = strm₁.totalOut)
    (hnext : strm₂.totalIn = r₁.strm.totalIn ∧ strm₂.totalOut = r₁.strm.totalOut)
    (hspace₂ : EnoughSpace build memory₂ strm₂ r₁.state)
    (hspace : EnoughSpace build memory strm st) :
    (inflate build memory₂ strm₂ r₁.state).map (outcomeAfter r₁.stored) =
      (inflate build memory strm st).map (outcomeAfter []) := by
  have hlive := hreach.live (by rw [haction]; simp)
  have havail₁ : strm₁.availIn = p.length := by rw [← hinput₁, Memory.length_bytes]
  have havail₂ : strm₂.availIn = q.length := by rw [← hinput₂, Memory.length_bytes]
  have havail : strm.availIn = (p ++ q).length := by rw [← hinput, Memory.length_bytes]
  have hppos := List.length_pos_of_ne_nil hp
  have hqpos := List.length_pos_of_ne_nil hq
  obtain ⟨e₁, hrun₁, rfl⟩ := inflate_refilled_ok haction hr₁
  rw [hinput₁] at hrun₁
  have hneed := actionAfter_eq_fillInputBuffer hwaits
  have hruns₁ := runs_runLoop build (p := ⟨st.core, p, strm₁.availOut⟩) hlive
  have hnil := hruns₁.input_nil (resumable_inflateStep build) e₁ hrun₁ hneed
  have hfree₁ := free_le_of_runs hruns₁ hlive e₁ hrun₁
  have hlive₁ : Live e₁.pass.state := live_of_runs hruns₁ hlive hrun₁ (by simp [hneed])
  -- both sides are compared in front of so much space that the windows agree
  rw [hspace₂.outcome (e₁.pass.free + strm.availOut + 1),
    hspace.outcome (strm₁.availOut + strm₂.availOut + 1),
    inflate_refilled hwaits _ (by simp only; omega) (by simp only; omega),
    inflate_refilled haction _ (by simp only; rw [havail, List.length_append]; omega)
      (by simp only; omega)]
  simp only [hinput, hinput₂]
  have hruns₂ := runs_runLoop build
    (p := ⟨e₁.pass.state, q, strm₂.availOut + (e₁.pass.free + strm.availOut + 1)⟩) hlive₁
  have hruns := runs_runLoop build
    (p := ⟨st.core, p ++ q, strm.availOut + (strm₁.availOut + strm₂.availOut + 1)⟩) hlive
  have hwide := hruns₁.widen (roomy_inflateStep build) (strm₂.availOut + strm.availOut + 1) e₁ hrun₁
    hneed
  have hsplice : runLoop build
        ⟨st.core, p ++ q, strm.availOut + (strm₁.availOut + strm₂.availOut + 1)⟩ =
      reportAfter e₁.stored (runLoop build
        ⟨e₁.pass.state, q, strm₂.availOut + (e₁.pass.free + strm.availOut + 1)⟩) := by
    refine hruns.unique ?_
    have hentry : (e₁.widen (strm₂.availOut + strm.availOut + 1)).pass.feed q =
        ⟨e₁.pass.state, q, strm₂.availOut + (e₁.pass.free + strm.availOut + 1)⟩ := by
      simp only [Effect.widen, Pass.widen, Pass.feed, hnil, List.nil_append, Pass.mk.injEq,
        true_and]
      omega
    have hresume := hwide.resume (resumable_inflateStep build) _ rfl hneed
      (by rw [hentry]; exact hruns₂)
    have hwhole : ((Pass.mk st.core p strm₁.availOut).widen
          (strm₂.availOut + strm.availOut + 1)).feed q =
        ⟨st.core, p ++ q, strm.availOut + (strm₁.availOut + strm₂.availOut + 1)⟩ := by
      simp only [Pass.widen, Pass.feed, Pass.mk.injEq, true_and]
      omega
    rw [hwhole] at hresume
    exact hresume
  rw [hsplice]
  simp only [closeCall] at hruns₂ ⊢
  cases hrun₂ : runLoop build
      ⟨e₁.pass.state, q, strm₂.availOut + (e₁.pass.free + strm.availOut + 1)⟩ with
  | error fault => rfl
  | ok e₂ =>
    obtain ⟨used, hused⟩ := hruns₂.suffix (resumable_inflateStep build) e₂ hrun₂
    have hfree₂ := free_le_of_runs hruns₂ hlive₁ e₂ hrun₂
    have hleft : e₂.pass.input.length ≤ q.length := by
      simp only at hused
      rw [hused, List.length_append]
      omega
    have hend₁ : { st with inputPtr := strm₁.nextIn, inputEnd := strm₁.nextIn + strm₁.availIn
        : InfState }.inputEnd = strm₁.nextIn + p.length := by rw [havail₁]
    refine congrArg Except.ok (outcome_eq hlength hend₁ (by simp only [havail₂]) (by simp only [havail]) hnil hleft hfree₁ hfree₂ ?_
      hstart hnext)
    simp only
    omega

/-- The header of a stored block and the first of its length bytes, in two calls and in one. -/
theorem inflate_cut_stored :
    ∃ st r₁, Reachable ⟨false, none⟩ st ∧
      inflate ⟨false, none⟩ (memoryOf [0x01]) (streamOf 1 1) st = .ok r₁ ∧
      (inflate ⟨false, none⟩ (memoryOf [0x00])
          { streamOf 1 1 with totalIn := r₁.strm.totalIn, totalOut := r₁.strm.totalOut }
          r₁.state).map (outcomeAfter r₁.stored) =
        (inflate ⟨false, none⟩ (memoryOf [0x01, 0x00]) (streamOf 2 1) st).map (outcomeAfter []) := by
  have hrun : (inflate ⟨false, none⟩ (memoryOf [0x78, 0x01]) (streamOf 2 1) freshInflater >>= fun r₀ ↦
      inflate ⟨false, none⟩ (memoryOf [0x01]) (streamOf 1 1) r₀.state >>= fun r₁ ↦
        inflate ⟨false, none⟩ (memoryOf [0x00])
            { streamOf 1 1 with totalIn := r₁.strm.totalIn, totalOut := r₁.strm.totalOut }
            r₁.state >>= fun r₂ ↦
          (inflate ⟨false, none⟩ (memoryOf [0x01, 0x00]) (streamOf 2 1) r₀.state).map fun r ↦
            (r₀.state.action, r₁.state.action, r₂.state.action, r.state.action)) =
      .ok (.fillInputBuffer, .fillInputBuffer, .fillInputBuffer, .fillInputBuffer) := by
    decide +kernel
  obtain ⟨r₀, hr₀, hrun⟩ := bind_ok hrun
  obtain ⟨r₁, hr₁, hrun⟩ := bind_ok hrun
  obtain ⟨r₂, hr₂, hrun⟩ := bind_ok hrun
  obtain ⟨r, hr, hactions⟩ := map_ok hrun
  simp only [Prod.mk.injEq] at hactions
  obtain ⟨hwaits₀, hwaits₁, hwaits₂, hwaits⟩ := hactions
  have hreach : Reachable ⟨false, none⟩ r₀.state := .call (.init ⟨none, none⟩ zeroHeap) hr₀
  have hreach₁ : Reachable ⟨false, none⟩ r₁.state := .call hreach hr₁
  refine ⟨r₀.state, r₁, hreach, hr₁, ?_⟩
  exact inflate_cut ⟨false, none⟩ hreach hwaits₀ (p := [0x01]) (q := [0x00]) (by simp) (by simp)
    (by simp) (by decide) (by simp only; decide) (by decide) hr₁ hwaits₁ ⟨rfl, rfl⟩ ⟨rfl, rfl⟩
    (enoughSpace_of_waiting (hreach₁.live (by rw [hwaits₁]; simp)) hwaits₁ Nat.one_pos Nat.one_pos
      hr₂ hwaits₂)
    (enoughSpace_of_waiting (hreach.live (by rw [hwaits₀]; simp)) hwaits₀ Nat.two_pos Nat.one_pos hr
      hwaits)

end ZephyrThrift.Muzic
