import Mathlib

/-!
# Suspendable transducers

A decoder that reads a stream in pieces and writes into windows is a loop of passes. A pass looks at
the state, the unread input and the free space of the window, stores some output, and tells the loop
to proceed, to suspend for input, to suspend for output space, or to halt with a result.

`run` is the loop with a bound on the number of passes, `Runs` its bound-free big-step form and
`Reaches` its finite prefixes. `Resumable` is the law of a pass that looks at no more input than it
consumes and keeps its partial progress when the input ends: feeding more input to the suspended
pass is the same as having had that input from the start. `Drainable` is the law of a pass that
keeps its partial progress when the window is full. `Runs.resume` and `Runs.drain` lift the two laws
from one pass to a whole run.

Nothing here knows what is being decoded: state, input symbols, output symbols, results and faults
are arbitrary types.
-/

set_option autoImplicit false
set_option relaxedAutoImplicit false

namespace ZephyrThrift.Foundation

universe u

/-- What a pass tells the loop to do next. -/
inductive Signal (ρ : Type u)
  | proceed
  | needInput
  | needOutput
  | halt (result : ρ)
  deriving DecidableEq, Repr

/-- What a pass looks at: the state, the unread input and the number of free output cells. -/
structure Pass (σ α : Type u) where
  state : σ
  input : List α
  free : ℕ

/-- What a pass leaves behind: the next pass, the output stored by it, and its signal. -/
structure Effect (σ α β ρ : Type u) where
  pass : Pass σ α
  stored : List β
  signal : Signal ρ

section Passes

variable {σ α β ρ ε : Type u}

/-- More input arrives behind the unread input. -/
def Pass.feed (p : Pass σ α) (more : List α) : Pass σ α := { p with input := p.input ++ more }

/-- The window grows by `extra` cells. -/
def Pass.widen (p : Pass σ α) (extra : ℕ) : Pass σ α := { p with free := p.free + extra }

def Effect.feed (e : Effect σ α β ρ) (more : List α) : Effect σ α β ρ :=
  { e with pass := e.pass.feed more }

def Effect.widen (e : Effect σ α β ρ) (extra : ℕ) : Effect σ α β ρ :=
  { e with pass := e.pass.widen extra }

/-- The same effect, reported after `earlier` had been stored. -/
def Effect.after (earlier : List β) (e : Effect σ α β ρ) : Effect σ α β ρ :=
  { e with stored := earlier ++ e.stored }

@[simp] theorem Effect.after_nil (e : Effect σ α β ρ) : e.after [] = e := rfl

@[simp] theorem Effect.after_pass (earlier : List β) (e : Effect σ α β ρ) :
    (e.after earlier).pass = e.pass := rfl

@[simp] theorem Effect.after_signal (earlier : List β) (e : Effect σ α β ρ) :
    (e.after earlier).signal = e.signal := rfl

@[simp] theorem Effect.after_stored (earlier : List β) (e : Effect σ α β ρ) :
    (e.after earlier).stored = earlier ++ e.stored := rfl

theorem Effect.after_after (first second : List β) (e : Effect σ α β ρ) :
    (e.after second).after first = e.after (first ++ second) := by
  simp [Effect.after, List.append_assoc]

@[simp] theorem Pass.feed_nil (p : Pass σ α) : p.feed [] = p := by simp [Pass.feed]

theorem Pass.feed_feed (p : Pass σ α) (first second : List α) :
    (p.feed first).feed second = p.feed (first ++ second) := by
  simp [Pass.feed, List.append_assoc]

@[simp] theorem Pass.widen_zero (p : Pass σ α) : p.widen 0 = p := rfl

theorem Pass.widen_feed (p : Pass σ α) (more : List α) (extra : ℕ) :
    (p.feed more).widen extra = (p.widen extra).feed more := rfl

/-- Results reported after `earlier` had been stored; a fault stores nothing. -/
def reportAfter (earlier : List β) (r : Except ε (Effect σ α β ρ)) : Except ε (Effect σ α β ρ) :=
  r.map (Effect.after earlier)

@[simp] theorem reportAfter_ok (earlier : List β) (e : Effect σ α β ρ) :
    reportAfter earlier (.ok e : Except ε (Effect σ α β ρ)) = .ok (e.after earlier) := rfl

@[simp] theorem reportAfter_error (earlier : List β) (fault : ε) :
    reportAfter earlier (.error fault : Except ε (Effect σ α β ρ)) = .error fault := rfl

@[simp] theorem reportAfter_nil (r : Except ε (Effect σ α β ρ)) : reportAfter [] r = r := by
  cases r <;> rfl

theorem reportAfter_reportAfter (first second : List β) (r : Except ε (Effect σ α β ρ)) :
    reportAfter first (reportAfter second r) = reportAfter (first ++ second) r := by
  cases r with
  | error fault => rfl
  | ok e => simp [Effect.after_after]

end Passes

section Loop

variable {σ α β ρ ε : Type u} (step : Pass σ α → Except ε (Effect σ α β ρ))

/-- The loop, for at most `fuel` passes; `spin` is reported when they do not suffice. -/
def run (spin : ε) : ℕ → Pass σ α → Except ε (Effect σ α β ρ)
  | 0, _ => .error spin
  | fuel + 1, p =>
    match step p with
    | .error fault => .error fault
    | .ok e =>
      match e.signal with
      | .proceed => reportAfter e.stored (run spin fuel e.pass)
      | _ => .ok e

/-- A test of every pass that the loop comes to, if it stops within `fuel` passes. -/
def runChecks (test : Pass σ α → Bool) : ℕ → Pass σ α → Bool
  | 0, _ => false
  | fuel + 1, p => test p &&
    match step p with
    | .error _ => true
    | .ok e =>
      match e.signal with
      | .proceed => runChecks test fuel e.pass
      | _ => true

/-- The loop without a bound: it stops at the first pass that faults or does not proceed. -/
inductive Runs : Pass σ α → Except ε (Effect σ α β ρ) → Prop
  | fault {p : Pass σ α} {fault : ε} (h : step p = .error fault) : Runs p (.error fault)
  | stop {p : Pass σ α} {e : Effect σ α β ρ} (h : step p = .ok e) (hs : e.signal ≠ .proceed) :
      Runs p (.ok e)
  | next {p : Pass σ α} {e : Effect σ α β ρ} {r : Except ε (Effect σ α β ρ)}
      (h : step p = .ok e) (hs : e.signal = .proceed) (hr : Runs e.pass r) :
      Runs p (reportAfter e.stored r)

/-- Finitely many proceeding passes, with all that they stored. -/
inductive Reaches : Pass σ α → List β → Pass σ α → Prop
  | refl (p : Pass σ α) : Reaches p [] p
  | step {p q : Pass σ α} {e : Effect σ α β ρ} {o : List β} (h : step p = .ok e)
      (hs : e.signal = .proceed) (hr : Reaches e.pass o q) : Reaches p (e.stored ++ o) q

variable {step}

theorem Reaches.single {p : Pass σ α} {e : Effect σ α β ρ} (h : step p = .ok e)
    (hs : e.signal = .proceed) : Reaches step p e.stored e.pass := by
  have hone := Reaches.step h hs (Reaches.refl e.pass)
  rwa [List.append_nil] at hone

theorem Reaches.trans {p q r : Pass σ α} {first second : List β} (h : Reaches step p first q) :
    Reaches step q second r → Reaches step p (first ++ second) r := by
  induction h with
  | refl p => intro hr; exact hr
  | step h hs _ ih =>
    intro hr
    rw [List.append_assoc]
    exact Reaches.step h hs (ih hr)

theorem Reaches.checked {test : Pass σ α → Bool} {p q : Pass σ α} {o : List β}
    (h : Reaches step p o q) : ∀ fuel, runChecks step test fuel p = true → test q = true := by
  induction h with
  | refl p =>
    intro fuel hchecks
    cases fuel with
    | zero => cases hchecks
    | succ fuel => exact (Bool.and_eq_true_iff.mp hchecks).1
  | @step p q e o hp hs _ ih =>
    intro fuel hchecks
    cases fuel with
    | zero => cases hchecks
    | succ fuel =>
      rw [runChecks, hp] at hchecks
      simp only [hs] at hchecks
      exact ih fuel (Bool.and_eq_true_iff.mp hchecks).2

/-- A run is a finite prefix followed by a run. -/
theorem Reaches.runs {p q : Pass σ α} {o : List β} {r : Except ε (Effect σ α β ρ)}
    (h : Reaches step p o q) : Runs step q r → Runs step p (reportAfter o r) := by
  induction h with
  | refl p => intro hr; rwa [reportAfter_nil]
  | step h hs _ ih =>
    intro hr
    rw [← reportAfter_reportAfter]
    exact Runs.next h hs (ih hr)

theorem Runs.unique {p : Pass σ α} {first second : Except ε (Effect σ α β ρ)}
    (hfirst : Runs step p first) (hsecond : Runs step p second) : first = second := by
  induction hfirst generalizing second with
  | fault h =>
    cases hsecond with
    | fault h' => rw [h] at h'; injection h' with h'; rw [h']
    | stop h' _ => rw [h] at h'; cases h'
    | next h' _ _ => rw [h] at h'; cases h'
  | stop h hs =>
    cases hsecond with
    | fault h' => rw [h] at h'; cases h'
    | stop h' _ => rw [h] at h'; injection h' with h'; rw [h']
    | next h' hs' _ => rw [h] at h'; injection h' with h'; exact absurd (h' ▸ hs') hs
  | next h hs _ ih =>
    cases hsecond with
    | fault h' => rw [h] at h'; cases h'
    | stop h' hs' => rw [h] at h'; injection h' with h'; exact absurd (h' ▸ hs) hs'
    | next h' _ hr' =>
      rw [h] at h'
      injection h' with h'
      subst h'
      rw [ih hr']

/-- A run faults if and only if it reaches a pass that faults. -/
theorem Runs.eq_error_iff {p : Pass σ α} {r : Except ε (Effect σ α β ρ)} {fault : ε}
    (h : Runs step p r) :
    r = .error fault ↔ ∃ stored q, Reaches step p stored q ∧ step q = .error fault := by
  constructor
  · induction h with
    | @fault p _ hp => rintro heq; cases heq; exact ⟨[], p, Reaches.refl p, hp⟩
    | stop => rintro heq; cases heq
    | @next p e r hp hs hr ih =>
      intro heq
      cases r with
      | ok later => cases heq
      | error fault' =>
        obtain ⟨stored, q, hreach, hq⟩ := ih heq
        exact ⟨_, q, Reaches.step hp hs hreach, hq⟩
  · rintro ⟨stored, q, hreach, hq⟩
    exact h.unique (hreach.runs (Runs.fault hq))

/-- Where every proceeding pass keeps `inv` and lowers `measure`, the bounded loop is the loop. -/
theorem run_runs_of_measure (spin : ε) (inv : Pass σ α → Prop) (measure : Pass σ α → ℕ)
    (hstep : ∀ p e, inv p → step p = .ok e → e.signal = .proceed →
      inv e.pass ∧ measure e.pass < measure p) :
    ∀ (fuel : ℕ) (p : Pass σ α), inv p → measure p < fuel → Runs step p (run step spin fuel p) := by
  intro fuel
  induction fuel with
  | zero => intro p _ hlt; exact absurd hlt (Nat.not_lt_zero _)
  | succ fuel ih =>
    intro p hinv hlt
    rcases hp : step p with fault | e
    · simp only [run, hp]
      exact Runs.fault hp
    · by_cases hs : e.signal = .proceed
      · obtain ⟨hinv', hlower⟩ := hstep p e hinv hp hs
        simp only [run, hp, hs]
        exact Runs.next hp hs (ih e.pass hinv' (by omega))
      · have hrun : run step spin (fuel + 1) p = .ok e := by
          simp only [run, hp]
        rw [hrun]
        exact Runs.stop hp hs

/-- An invariant of proceeding passes that also holds of the last one. -/
theorem Runs.invariant {inv : Pass σ α → Prop} (final : Effect σ α β ρ → Prop)
    (hproceed : ∀ p e, inv p → step p = .ok e → e.signal = .proceed → inv e.pass)
    (hstop : ∀ p e, inv p → step p = .ok e → e.signal ≠ .proceed → final e)
    (hafter : ∀ e earlier, final e → final (e.after earlier))
    {p : Pass σ α} {r : Except ε (Effect σ α β ρ)} (h : Runs step p r) :
    inv p → ∀ e, r = .ok e → final e := by
  induction h with
  | fault _ => intro _ e he; cases he
  | stop hp hs => intro hinv e he; cases he; exact hstop _ _ hinv hp hs
  | @next p e r hp hs hr ih =>
    intro hinv e' he'
    cases r with
    | error fault => cases he'
    | ok last =>
      cases he'
      exact hafter _ _ (ih (hproceed _ _ hinv hp hs) last rfl)

/-- Where every pass pays for what it stores, a run does. -/
theorem Runs.pays {inv : Pass σ α → Prop} {funds : Pass σ α → ℕ}
    (hproceed : ∀ p e, inv p → step p = .ok e → e.signal = .proceed → inv e.pass)
    (hpays : ∀ p e, inv p → step p = .ok e → e.stored.length + funds e.pass ≤ funds p)
    {p : Pass σ α} {r : Except ε (Effect σ α β ρ)} (h : Runs step p r) :
    inv p → ∀ e, r = .ok e → e.stored.length + funds e.pass ≤ funds p := by
  induction h with
  | fault _ => intro _ e he; cases he
  | stop hp _ => intro hinv e he; cases he; exact hpays _ _ hinv hp
  | @next p e r hp hs hr ih =>
    intro hinv e' he'
    cases r with
    | error fault => cases he'
    | ok last =>
      cases he'
      have hfirst := hpays _ _ hinv hp
      have hrest := ih (hproceed _ _ hinv hp hs) last rfl
      rw [Effect.after_stored, List.length_append, Effect.after_pass]
      omega

end Loop

/-! ### Input in pieces -/

section Resume

variable {σ α β ρ ε : Type u} {step : Pass σ α → Except ε (Effect σ α β ρ)}

/-- The same pass in front of other input. -/
def Pass.facing (p : Pass σ α) (input : List α) : Pass σ α := { p with input := input }

/-- The same effect with other input left unread. -/
def Effect.leaving (e : Effect σ α β ρ) (input : List α) : Effect σ α β ρ :=
  { e with pass := e.pass.facing input }

@[simp] theorem Pass.facing_state (p : Pass σ α) (input : List α) :
    (p.facing input).state = p.state := rfl

@[simp] theorem Pass.facing_input (p : Pass σ α) (input : List α) :
    (p.facing input).input = input := rfl

@[simp] theorem Pass.facing_free (p : Pass σ α) (input : List α) :
    (p.facing input).free = p.free := rfl

@[simp] theorem Pass.facing_self (p : Pass σ α) : p.facing p.input = p := rfl

@[simp] theorem Pass.facing_facing (p : Pass σ α) (first second : List α) :
    (p.facing first).facing second = p.facing second := rfl

theorem Pass.feed_eq_facing (p : Pass σ α) (more : List α) :
    p.feed more = p.facing (p.input ++ more) := rfl

/-- A pass whose effect is settled by the input it consumes, and that keeps its partial progress when
the input ends too early. -/
structure Resumable (step : Pass σ α → Except ε (Effect σ α β ρ)) : Prop where
  fault : ∀ p fault more, step p = .error fault → step (p.feed more) = .error fault
  settle : ∀ p e, step p = .ok e → e.signal ≠ .needInput →
    ∃ used, p.input = used ++ e.pass.input ∧
      ∀ rest, step (p.facing (used ++ rest)) = .ok (e.leaving rest)
  suspend : ∀ p e more, step p = .ok e → e.signal = .needInput →
    e.pass.input = [] ∧ step (p.feed more) = reportAfter e.stored (step (e.pass.feed more))

/-- A pass that does not suspend for input is not affected by input that arrives behind it. -/
theorem Resumable.feed (law : Resumable step) {p : Pass σ α} {e : Effect σ α β ρ}
    (more : List α) (h : step p = .ok e) (hs : e.signal ≠ .needInput) :
    step (p.feed more) = .ok (e.feed more) := by
  obtain ⟨used, hused, hsame⟩ := law.settle p e h hs
  have hmore := hsame (e.pass.input ++ more)
  rw [← List.append_assoc, ← hused] at hmore
  exact hmore

/-- Passes that proceed are settled by the input they consume. -/
theorem Reaches.settle (law : Resumable step) {p q : Pass σ α} {o : List β}
    (h : Reaches step p o q) :
    ∃ used, p.input = used ++ q.input ∧
      ∀ rest, Reaches step (p.facing (used ++ rest)) o (q.facing rest) := by
  induction h with
  | refl p => exact ⟨[], rfl, fun rest ↦ Reaches.refl _⟩
  | @step p q e o hp hs _ ih =>
    obtain ⟨first, hfirst, hsame⟩ := law.settle p e hp (by rw [hs]; simp)
    obtain ⟨second, hsecond, hrest⟩ := ih
    refine ⟨first ++ second, by rw [hfirst, hsecond, List.append_assoc], fun rest ↦ ?_⟩
    have hpass := hsame (second ++ rest)
    rw [← List.append_assoc] at hpass
    exact Reaches.step (e := e.leaving (second ++ rest)) hpass hs (hrest rest)

/-- A run that does not suspend for input is not affected by input that arrives behind it. -/
theorem Runs.feed (law : Resumable step) (more : List α) {p : Pass σ α}
    {r : Except ε (Effect σ α β ρ)} (h : Runs step p r) :
    (∀ e, r = .ok e → e.signal ≠ .needInput) →
      Runs step (p.feed more) (r.map (Effect.feed · more)) := by
  induction h with
  | fault hp => intro _; exact Runs.fault (law.fault _ _ more hp)
  | stop hp hs =>
    intro hr
    exact Runs.stop (law.feed more hp (hr _ rfl)) hs
  | @next p e r hp hs _ ih =>
    intro hr
    have hstep := law.feed more hp (by rw [hs]; simp)
    have hrest := ih fun e' he' ↦ hr (e'.after e.stored) (by rw [he', reportAfter_ok])
    have hnext := Runs.next hstep hs hrest
    cases r <;> exact hnext

/-- Input in two pieces: where the first piece ends in a suspension, resuming with the second piece
gives what the run on both pieces gives. -/
theorem Runs.resume (law : Resumable step) {more : List α} {p : Pass σ α}
    {r s : Except ε (Effect σ α β ρ)} (h : Runs step p r) :
    ∀ e, r = .ok e → e.signal = .needInput → Runs step (e.pass.feed more) s →
      Runs step (p.feed more) (reportAfter e.stored s) := by
  induction h with
  | fault _ => intro e he; cases he
  | stop hp _ =>
    intro e he hneed hs
    cases he
    obtain ⟨_, hstep⟩ := law.suspend _ _ more hp hneed
    cases hs with
    | fault hq => exact Runs.fault (by rw [hstep, hq, reportAfter_error])
    | stop hq hstop => exact Runs.stop (by rw [hstep, hq, reportAfter_ok]) hstop
    | next hq hproceed hr =>
      rw [hq, reportAfter_ok] at hstep
      rw [reportAfter_reportAfter]
      exact Runs.next hstep hproceed hr
  | @next p e₁ r hp hproceed _ ih =>
    intro e he hneed hs
    cases r with
    | error fault => cases he
    | ok last =>
      cases he
      have hstep := law.feed more hp (by rw [hproceed]; simp)
      have hrest := ih last rfl hneed hs
      have hnext := Runs.next hstep hproceed hrest
      rw [reportAfter_reportAfter] at hnext
      exact hnext

/-- Where a pass does what another one does behind some output, so do the runs. -/
theorem Runs.of_step_eq {p q : Pass σ α} {earlier : List β} {r : Except ε (Effect σ α β ρ)}
    (h : Runs step q r) (hstep : step q = reportAfter earlier (step p)) :
    ∃ s, Runs step p s ∧ r = reportAfter earlier s := by
  rcases hp : step p with fault | e
  · rw [hp, reportAfter_error] at hstep
    exact ⟨_, Runs.fault hp, h.unique (Runs.fault hstep)⟩
  · rw [hp, reportAfter_ok] at hstep
    cases h with
    | fault hq =>
      rw [hq] at hstep
      cases hstep
    | stop hq hstop =>
      rw [hq] at hstep
      injection hstep with hstep
      subst hstep
      exact ⟨_, Runs.stop hp hstop, rfl⟩
    | next hq hproceed hrest =>
      rw [hq] at hstep
      injection hstep with hstep
      subst hstep
      exact ⟨_, Runs.next hp hproceed hrest, (reportAfter_reportAfter _ _ _).symm⟩

/-- A run on more input is a run on what comes first, which goes on with the rest if it waits. -/
theorem Runs.split (law : Resumable step) {more : List α} {q : Pass σ α}
    {r : Except ε (Effect σ α β ρ)} (h : Runs step q r) :
    ∀ p : Pass σ α, q = p.feed more →
      (∃ e s, Runs step p (.ok e) ∧ e.signal = .needInput ∧ Runs step (e.pass.feed more) s ∧
        r = reportAfter e.stored s) ∨
      (∃ s, Runs step p s ∧ (∀ e, s = .ok e → e.signal ≠ .needInput) ∧
        r = s.map (Effect.feed · more)) := by
  -- a first pass that waits is where the run is cut
  have hwaits : ∀ {p : Pass σ α} {e : Effect σ α β ρ} {r : Except ε (Effect σ α β ρ)},
      step p = .ok e → e.signal = .needInput → Runs step (p.feed more) r →
        ∃ e s, Runs step p (.ok e) ∧ e.signal = .needInput ∧ Runs step (e.pass.feed more) s ∧
          r = reportAfter e.stored s := by
    intro p e r hp hneed hr
    obtain ⟨s, hs, hresult⟩ := hr.of_step_eq (law.suspend p e more hp hneed).2
    exact ⟨e, s, .stop hp (by rw [hneed]; simp), hneed, hs, hresult⟩
  induction h with
  | @fault q fault hq =>
    rintro p rfl
    rcases hp : step p with fault' | e
    · have hsame := law.fault p fault' more hp
      rw [hq] at hsame
      injection hsame with hsame
      exact .inr ⟨_, Runs.fault hp, fun _ he ↦ (by cases he), by rw [hsame]; rfl⟩
    · by_cases hneed : e.signal = .needInput
      · exact .inl (hwaits hp hneed (Runs.fault hq))
      · have hsame := law.feed more hp hneed
        rw [hq] at hsame
        cases hsame
  | @stop q e' hq hstop =>
    rintro p rfl
    rcases hp : step p with fault' | e
    · have hsame := law.fault p fault' more hp
      rw [hq] at hsame
      cases hsame
    · by_cases hneed : e.signal = .needInput
      · exact .inl (hwaits hp hneed (Runs.stop hq hstop))
      · have hsame := law.feed more hp hneed
        rw [hq] at hsame
        injection hsame with hsame
        subst hsame
        exact .inr ⟨_, Runs.stop hp hstop, fun _ he ↦ (by cases he; exact hneed), rfl⟩
  | @next q e' r hq hproceed hr ih =>
    rintro p rfl
    rcases hp : step p with fault' | e
    · have hsame := law.fault p fault' more hp
      rw [hq] at hsame
      cases hsame
    · by_cases hneed : e.signal = .needInput
      · exact .inl (hwaits hp hneed (Runs.next hq hproceed hr))
      · have hsame := law.feed more hp hneed
        rw [hq] at hsame
        injection hsame with hsame
        subst hsame
        rcases ih e.pass rfl with ⟨e₁, s, hfirst, hneed₁, hrest, hresult⟩ | ⟨s, hfirst, hs, hresult⟩
        · refine .inl ⟨e₁.after e.stored, s, Runs.next hp hproceed hfirst, hneed₁, hrest, ?_⟩
          rw [hresult, reportAfter_reportAfter]
          rfl
        · refine .inr ⟨_, Runs.next hp hproceed hfirst, fun e₁ he ↦ ?_, ?_⟩
          · cases s with
            | error fault => cases he
            | ok last =>
              cases he
              exact hs last rfl
          · rw [hresult]
            cases s <;> rfl

/-- A run that ends waiting for input has consumed all of it. -/
theorem Runs.input_nil (law : Resumable step) {p : Pass σ α} {r : Except ε (Effect σ α β ρ)}
    (h : Runs step p r) : ∀ e, r = .ok e → e.signal = .needInput → e.pass.input = [] := by
  induction h with
  | fault _ => intro e he; cases he
  | stop hp _ =>
    intro e he hneed
    cases he
    exact (law.suspend _ _ [] hp hneed).1
  | @next p e₁ r _ _ _ ih =>
    intro e he hneed
    cases r with
    | error fault => cases he
    | ok last => cases he; exact ih last rfl hneed

/-- What a run leaves unread is the end of what it was given. -/
theorem Runs.suffix (law : Resumable step) {p : Pass σ α} {r : Except ε (Effect σ α β ρ)}
    (h : Runs step p r) : ∀ e, r = .ok e → ∃ used, p.input = used ++ e.pass.input := by
  induction h with
  | fault _ => intro e he; cases he
  | @stop p e hp _ =>
    intro e' he
    cases he
    by_cases hneed : e.signal = .needInput
    · exact ⟨p.input, by rw [(law.suspend _ _ [] hp hneed).1, List.append_nil]⟩
    · obtain ⟨used, hused, _⟩ := law.settle _ _ hp hneed
      exact ⟨used, hused⟩
  | @next p e₁ r hp hproceed _ ih =>
    intro e he
    cases r with
    | error fault => cases he
    | ok last =>
      cases he
      obtain ⟨first, hfirst, _⟩ := law.settle _ _ hp (by rw [hproceed]; simp)
      obtain ⟨second, hsecond⟩ := ih last rfl
      exact ⟨first ++ second, by rw [hfirst, hsecond, List.append_assoc]; rfl⟩

variable (step) in
/-- The run over input in pieces: a piece is handed over when the run before it waits for input. -/
inductive RunsOver : Pass σ α → List (List α) → Except ε (Effect σ α β ρ) → Prop
  | last {p : Pass σ α} {r : Except ε (Effect σ α β ρ)} (h : Runs step p r) : RunsOver p [] r
  | done {p : Pass σ α} {pieces : List (List α)} {r : Except ε (Effect σ α β ρ)}
      (h : Runs step p r) (hr : ∀ e, r = .ok e → e.signal ≠ .needInput) : RunsOver p pieces r
  | more {p : Pass σ α} {e : Effect σ α β ρ} {piece : List α} {pieces : List (List α)}
      {r : Except ε (Effect σ α β ρ)} (h : Runs step p (.ok e)) (hneed : e.signal = .needInput)
      (hr : RunsOver (e.pass.feed piece) pieces r) :
      RunsOver p (piece :: pieces) (reportAfter e.stored r)

/-- A run on all the input ends as the run over its pieces. -/
theorem Runs.over (law : Resumable step) (pieces : List (List α)) :
    ∀ {p : Pass σ α} {e : Effect σ α β ρ}, Runs step (p.feed pieces.flatten) (.ok e) →
      ∃ e', RunsOver step p pieces (.ok e') ∧ e'.signal = e.signal ∧ e'.stored = e.stored := by
  induction pieces with
  | nil =>
    intro p e h
    rw [List.flatten_nil, Pass.feed_nil] at h
    exact ⟨e, .last h, rfl, rfl⟩
  | cons piece pieces ih =>
    intro p e h
    rcases h.split law p rfl with ⟨e₁, s, hfirst, hneed, hrest, hresult⟩ | ⟨s, hfirst, hs, hresult⟩
    · cases s with
      | error fault => cases hresult
      | ok last =>
        rw [reportAfter_ok] at hresult
        injection hresult with hresult
        subst hresult
        rw [List.flatten_cons, ← Pass.feed_feed] at hrest
        obtain ⟨e', hover, hsignal, hstored⟩ := ih hrest
        refine ⟨e'.after e₁.stored, .more hfirst hneed hover, hsignal, ?_⟩
        rw [Effect.after_stored, Effect.after_stored, hstored]
    · cases s with
      | error fault => cases hresult
      | ok last =>
        injection hresult with hresult
        subst hresult
        exact ⟨last, .done hfirst hs, rfl, rfl⟩

/-- What holds of the end of every run holds of the end of every run over pieces. -/
theorem RunsOver.final {final : Effect σ α β ρ → Prop}
    (hruns : ∀ p e, Runs step p (.ok e) → final e)
    (hafter : ∀ e earlier, final e → final (e.after earlier)) {p : Pass σ α}
    {pieces : List (List α)} {r : Except ε (Effect σ α β ρ)} (h : RunsOver step p pieces r) :
    ∀ e, r = .ok e → final e := by
  induction h with
  | last h => intro e he; exact hruns _ e (he ▸ h)
  | done h _ => intro e he; exact hruns _ e (he ▸ h)
  | @more p e₁ piece pieces r _ _ _ ih =>
    intro e he
    cases r with
    | error fault => cases he
    | ok last =>
      cases he
      exact hafter _ _ (ih last rfl)

end Resume

/-! ### Output in windows -/

section Drain

variable {σ α β ρ ε : Type u} {step : Pass σ α → Except ε (Effect σ α β ρ)}

/-- A pass that is not affected by a wider window when it goes on or waits for input. -/
def Roomy (step : Pass σ α → Except ε (Effect σ α β ρ)) : Prop :=
  ∀ p e extra, step p = .ok e → e.signal = .proceed ∨ e.signal = .needInput →
    step (p.widen extra) = .ok (e.widen extra)

/-- A run that ends waiting for input is not affected by a wider window. -/
theorem Runs.widen (law : Roomy step) (extra : ℕ) {p : Pass σ α}
    {r : Except ε (Effect σ α β ρ)} (h : Runs step p r) :
    ∀ e, r = .ok e → e.signal = .needInput → Runs step (p.widen extra) (.ok (e.widen extra)) := by
  induction h with
  | fault _ => intro e he; cases he
  | stop hp hstop =>
    intro e he hneed
    cases he
    exact Runs.stop (law _ _ extra hp (.inr hneed)) hstop
  | @next p e₁ r hp hproceed _ ih =>
    intro e he hneed
    cases r with
    | error fault => cases he
    | ok last =>
      cases he
      exact Runs.next (law p e₁ extra hp (.inl hproceed)) hproceed (ih last rfl hneed)

/-- A pass that is not affected by a wider window unless it asks for one, and that keeps its partial
progress when the window is full. -/
structure Drainable (step : Pass σ α → Except ε (Effect σ α β ρ)) : Prop where
  fault : ∀ p fault extra, step p = .error fault → step (p.widen extra) = .error fault
  settle : ∀ p e extra, step p = .ok e → e.signal ≠ .needOutput →
    step (p.widen extra) = .ok (e.widen extra)
  suspend : ∀ p e extra, step p = .ok e → e.signal = .needOutput →
    e.pass.free = 0 ∧ step (p.widen extra) = reportAfter e.stored (step (e.pass.widen extra))

/-- A run that does not ask for output space is not affected by a wider window. -/
theorem Runs.widen_of_drainable (law : Drainable step) (extra : ℕ) {p : Pass σ α}
    {r : Except ε (Effect σ α β ρ)} (h : Runs step p r) :
    (∀ e, r = .ok e → e.signal ≠ .needOutput) →
      Runs step (p.widen extra) (r.map (Effect.widen · extra)) := by
  induction h with
  | fault hp => intro _; exact Runs.fault (law.fault _ _ extra hp)
  | stop hp hstop =>
    intro hr
    exact Runs.stop (law.settle _ _ extra hp (hr _ rfl)) hstop
  | @next p e r hp hproceed _ ih =>
    intro hr
    have hstep := law.settle _ _ extra hp (by rw [hproceed]; simp)
    have hrest := ih fun e' he' ↦ hr (e'.after e.stored) (by rw [he', reportAfter_ok])
    have hnext := Runs.next hstep hproceed hrest
    cases r <;> exact hnext

/-- Output in two windows: where the first window is filled, going on with the second gives what the
run with both gives. -/
theorem Runs.drain (law : Drainable step) {extra : ℕ} {p : Pass σ α}
    {r s : Except ε (Effect σ α β ρ)} (h : Runs step p r) :
    ∀ e, r = .ok e → e.signal = .needOutput → Runs step (e.pass.widen extra) s →
      Runs step (p.widen extra) (reportAfter e.stored s) := by
  induction h with
  | fault _ => intro e he; cases he
  | stop hp _ =>
    intro e he hfull hs
    cases he
    obtain ⟨_, hstep⟩ := law.suspend _ _ extra hp hfull
    cases hs with
    | fault hq => exact Runs.fault (by rw [hstep, hq, reportAfter_error])
    | stop hq hstop => exact Runs.stop (by rw [hstep, hq, reportAfter_ok]) hstop
    | next hq hproceed hr =>
      rw [hq, reportAfter_ok] at hstep
      rw [reportAfter_reportAfter]
      exact Runs.next hstep hproceed hr
  | @next p e₁ r hp hproceed _ ih =>
    intro e he hfull hs
    cases r with
    | error fault => cases he
    | ok last =>
      cases he
      have hstep := law.settle _ _ extra hp (by rw [hproceed]; simp)
      have hnext := Runs.next hstep hproceed (ih last rfl hfull hs)
      rw [reportAfter_reportAfter] at hnext
      exact hnext

/-- A run that ends asking for output space has filled its window. -/
theorem Runs.free_zero (law : Drainable step) {p : Pass σ α} {r : Except ε (Effect σ α β ρ)}
    (h : Runs step p r) : ∀ e, r = .ok e → e.signal = .needOutput → e.pass.free = 0 := by
  induction h with
  | fault _ => intro e he; cases he
  | stop hp _ =>
    intro e he hfull
    cases he
    exact (law.suspend _ _ 0 hp hfull).1
  | @next p e₁ r _ _ _ ih =>
    intro e he hfull
    cases r with
    | error fault => cases he
    | ok last => cases he; exact ih last rfl hfull

end Drain

end ZephyrThrift.Foundation
