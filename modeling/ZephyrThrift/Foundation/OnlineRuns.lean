import ZephyrThrift.Foundation.Transducer

/-!
# Runs as functions of their input

A resumable pass decides with what it has read, and a roomy one does not look at the space it leaves. So
with enough space, what a run stores and where it stops depend on its input only. `WaitsAfter` is the run
that waits for more behind some input, and `HaltsAfter` the run that halts behind it, whatever follows.
Both are put together from runs on parts of the input. The output of runs that wait grows with the
input (`WaitsAfter.front`), and of the inputs behind which a run halts none is the front of another
(`HaltsAfter.unique`).
-/

set_option autoImplicit false
set_option relaxedAutoImplicit false

namespace ZephyrThrift.Foundation

universe u

variable {σ α β ρ ε : Type u} {step : Pass σ α → Except ε (Effect σ α β ρ)}

/-- The result does not depend on the space that is left over. -/
def RoomyHalt (step : Pass σ α → Except ε (Effect σ α β ρ)) (result : ρ) : Prop :=
  ∀ p e extra, step p = .ok e → e.signal = .halt result → step (p.widen extra) = .ok (e.widen extra)

/-- A run that ends with such a result is not affected by a wider window. -/
theorem Runs.widen_halt (roomy : Roomy step) {result : ρ} (halts : RoomyHalt step result) (extra : ℕ)
    {p : Pass σ α} {r : Except ε (Effect σ α β ρ)} (h : Runs step p r) :
    ∀ e, r = .ok e → e.signal = .halt result → Runs step (p.widen extra) (.ok (e.widen extra)) := by
  induction h with
  | fault _ => intro e he; cases he
  | stop hp hstop =>
    intro e he hhalt
    cases he
    exact Runs.stop (halts _ _ extra hp hhalt) hstop
  | @next p e₁ r hp hproceed _ ih =>
    intro e he hhalt
    cases r with
    | error fault => cases he
    | ok last =>
      cases he
      exact Runs.next (roomy p e₁ extra hp (.inl hproceed)) hproceed (ih last rfl hhalt)

/-- A run that does not wait is settled by the input it consumes. -/
theorem Runs.settle (law : Resumable step) {p : Pass σ α} {r : Except ε (Effect σ α β ρ)}
    (h : Runs step p r) : ∀ e, r = .ok e → e.signal ≠ .needInput →
      ∃ used, p.input = used ++ e.pass.input ∧
        ∀ rest, Runs step (p.facing (used ++ rest)) (.ok (e.leaving rest)) := by
  induction h with
  | fault _ => intro e he; cases he
  | @stop p e hp hstop =>
    intro e' he hneed
    cases he
    obtain ⟨used, hused, hsame⟩ := law.settle p e hp hneed
    exact ⟨used, hused, fun rest ↦ Runs.stop (hsame rest) hstop⟩
  | @next p e₁ r hp hproceed _ ih =>
    intro e he hneed
    cases r with
    | error fault => cases he
    | ok last =>
      cases he
      obtain ⟨first, hfirst, hsame⟩ := law.settle p e₁ hp (by rw [hproceed]; simp)
      obtain ⟨second, hsecond, hrest⟩ := ih last rfl hneed
      refine ⟨first ++ second, by rw [hfirst, hsecond, List.append_assoc]; rfl, fun rest ↦ ?_⟩
      have hpass := hsame (second ++ rest)
      rw [← List.append_assoc] at hpass
      exact Runs.next hpass hproceed (hrest rest)

/-- With enough space, the run on this input waits for more, behind this output and in this state. -/
def WaitsAfter (step : Pass σ α → Except ε (Effect σ α β ρ)) (st : σ) (input : List α)
    (output : List β) (st' : σ) : Prop :=
  ∃ enough left, ∀ extra, Runs step ⟨st, input, enough + extra⟩
    (.ok ⟨⟨st', [], left + extra⟩, output, .needInput⟩)

/-- With enough space, the run on this input halts and does not look at what follows. -/
def HaltsAfter (step : Pass σ α → Except ε (Effect σ α β ρ)) (result : ρ) (st : σ) (input : List α)
    (output : List β) (st' : σ) : Prop :=
  ∃ enough left, ∀ extra more, Runs step ⟨st, input ++ more, enough + extra⟩
    (.ok ⟨⟨st', more, left + extra⟩, output, .halt result⟩)

section Build

variable {st : σ} {input : List α} {free : ℕ} {e : Effect σ α β ρ} {result : ρ}

theorem Runs.waitsAfter (resumable : Resumable step) (roomy : Roomy step)
    (h : Runs step ⟨st, input, free⟩ (.ok e)) (hneed : e.signal = .needInput) :
    WaitsAfter step st input e.stored e.pass.state := by
  refine ⟨free, e.pass.free, fun extra ↦ ?_⟩
  have hnil := h.input_nil resumable e rfl hneed
  have hwide := h.widen roomy extra e rfl hneed
  obtain ⟨⟨st', rest, left⟩, stored, signal⟩ := e
  cases hnil
  cases hneed
  exact hwide

theorem Runs.haltsAfter (resumable : Resumable step) (roomy : Roomy step)
    (halts : RoomyHalt step result) (h : Runs step ⟨st, input, free⟩ (.ok e))
    (hhalt : e.signal = .halt result) : ∃ used, input = used ++ e.pass.input ∧
      HaltsAfter step result st used e.stored e.pass.state := by
  obtain ⟨used, hused, hsame⟩ := h.settle resumable e rfl (by rw [hhalt]; simp)
  refine ⟨used, hused, free, e.pass.free, fun extra more ↦ ?_⟩
  have hwide := (hsame more).widen_halt roomy halts extra _ rfl hhalt
  obtain ⟨⟨st', rest, left⟩, stored, signal⟩ := e
  cases hhalt
  exact hwide

end Build

/-! ### Input in parts -/

section Parts

variable {st st' st'' : σ} {first second : List α} {earlier later : List β} {result : ρ}

theorem WaitsAfter.waits (resumable : Resumable step) (h : WaitsAfter step st first earlier st')
    (hnext : WaitsAfter step st' second later st'') :
    WaitsAfter step st (first ++ second) (earlier ++ later) st'' := by
  obtain ⟨enough, left, hfirst⟩ := h
  obtain ⟨enough', left', hsecond⟩ := hnext
  refine ⟨enough + enough', left' + left, fun extra ↦ ?_⟩
  -- both runs get the space that the other one needs
  have hrun := hfirst (enough' + extra)
  have hrest := hsecond (left + extra)
  rw [show enough' + (left + extra) = left + (enough' + extra) by omega] at hrest
  have hboth := hrun.resume resumable _ rfl rfl hrest
  rwa [show enough + (enough' + extra) = enough + enough' + extra by omega,
    ← Nat.add_assoc left'] at hboth

theorem WaitsAfter.halts (resumable : Resumable step) (h : WaitsAfter step st first earlier st')
    (hnext : HaltsAfter step result st' second later st'') :
    HaltsAfter step result st (first ++ second) (earlier ++ later) st'' := by
  obtain ⟨enough, left, hfirst⟩ := h
  obtain ⟨enough', left', hsecond⟩ := hnext
  refine ⟨enough + enough', left' + left, fun extra more ↦ ?_⟩
  have hrun := hfirst (enough' + extra)
  have hrest := hsecond (left + extra) more
  rw [show enough' + (left + extra) = left + (enough' + extra) by omega] at hrest
  have hboth := hrun.resume resumable _ rfl rfl hrest
  rw [List.append_assoc]
  rwa [show enough + (enough' + extra) = enough + enough' + extra by omega,
    ← Nat.add_assoc left'] at hboth

end Parts

/-! ### Two runs on one input -/

section Compared

variable {st st₁ st₂ : σ} {input more : List α} {output₁ output₂ : List β} {result : ρ}

theorem WaitsAfter.unique (h₁ : WaitsAfter step st input output₁ st₁)
    (h₂ : WaitsAfter step st input output₂ st₂) : output₁ = output₂ ∧ st₁ = st₂ := by
  obtain ⟨enough₁, left₁, hruns₁⟩ := h₁
  obtain ⟨enough₂, left₂, hruns₂⟩ := h₂
  have hboth := hruns₂ enough₁
  rw [Nat.add_comm enough₂] at hboth
  have hsame := (hruns₁ enough₂).unique hboth
  simp only [Except.ok.injEq, Effect.mk.injEq, Pass.mk.injEq] at hsame
  exact ⟨hsame.2.1, hsame.1.1⟩

/-- What was stored before the run waited comes first in every run on more input. -/
theorem WaitsAfter.front (resumable : Resumable step) (h : WaitsAfter step st input output₁ st₁)
    (more : List α) : ∃ enough, ∀ extra e,
      Runs step ⟨st, input ++ more, enough + extra⟩ (.ok e) → output₁ <+: e.stored := by
  obtain ⟨enough, left, hruns⟩ := h
  refine ⟨enough, fun extra e he ↦ ?_⟩
  rcases he.split resumable ⟨st, input, enough + extra⟩ rfl with
    ⟨first, s, hfirst, -, -, heq⟩ | ⟨s, hfirst, hs, -⟩
  · have hsame := (hruns extra).unique hfirst
    injection hsame with hsame
    cases s with
    | error fault => cases heq
    | ok last =>
      injection heq with heq
      rw [heq, ← hsame]
      exact List.prefix_append _ _
  · exact absurd rfl (hs _ ((hruns extra).unique hfirst).symm)

theorem WaitsAfter.grows (resumable : Resumable step) (h₁ : WaitsAfter step st input output₁ st₁)
    (h₂ : WaitsAfter step st (input ++ more) output₂ st₂) : output₁ <+: output₂ := by
  obtain ⟨enough₁, hfront⟩ := h₁.front resumable more
  obtain ⟨enough₂, left₂, hruns⟩ := h₂
  have hboth := hruns enough₁
  rw [Nat.add_comm enough₂] at hboth
  exact hfront enough₂ _ hboth

/-- No input that a run halts on is the front of another one. -/
theorem HaltsAfter.unique (h₁ : HaltsAfter step result st input output₁ st₁)
    (h₂ : HaltsAfter step result st (input ++ more) output₂ st₂) :
    more = [] ∧ output₁ = output₂ ∧ st₁ = st₂ := by
  obtain ⟨enough₁, left₁, hruns₁⟩ := h₁
  obtain ⟨enough₂, left₂, hruns₂⟩ := h₂
  have hboth := hruns₂ enough₁ []
  rw [Nat.add_comm enough₂, List.append_nil] at hboth
  have hsame := (hruns₁ enough₂ more).unique hboth
  simp only [Except.ok.injEq, Effect.mk.injEq, Pass.mk.injEq] at hsame
  exact ⟨hsame.1.2.1, hsame.2.1, hsame.1.1⟩

end Compared

end ZephyrThrift.Foundation
