import ZephyrThrift.Foundation.Transducer

/-!
# Transducers in lockstep

Two computations that may fault are matched when they fault alike or return related values (`Matched`).
Where the passes of a transducer on related states are matched, with the same output and the same signal,
so are its runs (`Lockstep.run`). Where the events of one owner are matched with the same events elsewhere,
and the events of the others keep the relation, its results in any interleaving are those of its own events
alone (`Interleaved.alone`).
-/

set_option autoImplicit false
set_option relaxedAutoImplicit false

namespace ZephyrThrift.Foundation

universe u

section Matched

variable {α β γ δ ε : Type u}

/-- The same fault, or related values. -/
inductive Matched (R : α → β → Prop) : Except ε α → Except ε β → Prop
  | fault (fault : ε) : Matched R (.error fault) (.error fault)
  | ok {a : α} {b : β} (h : R a b) : Matched R (.ok a) (.ok b)

variable {R : α → β → Prop} {S : γ → δ → Prop} {x : Except ε α} {y : Except ε β}

theorem Matched.bind {f : α → Except ε γ} {g : β → Except ε δ} (h : Matched R x y)
    (hnext : ∀ a b, R a b → Matched S (f a) (g b)) : Matched S (x >>= f) (y >>= g) := by
  cases h with
  | fault fault => exact .fault fault
  | ok hab => exact hnext _ _ hab

theorem Matched.mono {R' : α → β → Prop} (h : Matched R x y) (hle : ∀ a b, R a b → R' a b) :
    Matched R' x y := by
  cases h with
  | fault fault => exact .fault fault
  | ok hab => exact .ok (hle _ _ hab)

/-- One computation, matched with itself. -/
theorem Matched.refl {R : α → α → Prop} (x : Except ε α) (h : ∀ a, x = .ok a → R a a) :
    Matched R x x := by
  cases x with
  | error fault => exact .fault fault
  | ok a => exact .ok (h a rfl)

theorem Matched.map {f : α → γ} {g : β → δ} (h : Matched R x y)
    (hnext : ∀ a b, R a b → S (f a) (g b)) : Matched S (x.map f) (y.map g) := by
  cases h with
  | fault fault => exact .fault fault
  | ok hab => exact .ok (hnext _ _ hab)

theorem Matched.of_ok {a : α} (h : Matched R x y) (hx : x = .ok a) : ∃ b, y = .ok b ∧ R a b := by
  cases h with
  | fault fault => cases hx
  | ok hab => cases hx; exact ⟨_, rfl, hab⟩

theorem Matched.of_error {fault : ε} (h : Matched R x y) (hx : x = .error fault) :
    y = .error fault := by
  cases h with
  | fault fault => cases hx; rfl
  | ok hab => cases hx

end Matched

section Lockstep

variable {σ α β ρ ε : Type u}

/-- The same pass in another state. -/
def Pass.inState (p : Pass σ α) (st : σ) : Pass σ α := { p with state := st }

/-- Effects that differ in their states, which are related. -/
structure Effect.Alike (R : σ → σ → Prop) (e e' : Effect σ α β ρ) : Prop where
  state : R e.pass.state e'.pass.state
  pass : e'.pass = e.pass.inState e'.pass.state
  stored : e'.stored = e.stored
  signal : e'.signal = e.signal

/-- Passes on related states are matched. -/
def Lockstep (step : Pass σ α → Except ε (Effect σ α β ρ)) (R : σ → σ → Prop) : Prop :=
  ∀ p st, R p.state st → Matched (Effect.Alike R) (step p) (step (p.inState st))

/-- So are the loops. -/
theorem Lockstep.run {step : Pass σ α → Except ε (Effect σ α β ρ)} {R : σ → σ → Prop}
    (law : Lockstep step R) (spin : ε) (fuel : ℕ) :
    ∀ p st, R p.state st →
      Matched (Effect.Alike R) (run step spin fuel p) (run step spin fuel (p.inState st)) := by
  induction fuel with
  | zero => intro p st _; exact .fault spin
  | succ fuel ih =>
    intro p st h
    rw [Foundation.run, Foundation.run]
    generalize hx : step p = x
    generalize hy : step (p.inState st) = y
    have hmatched := law p st h
    rw [hx, hy] at hmatched
    cases hmatched with
    | fault fault => exact .fault fault
    | @ok e e' hsame =>
      simp only [hsame.signal]
      cases e.signal with
      | proceed =>
        have hrest := ih e.pass e'.pass.state hsame.state
        rw [← hsame.pass] at hrest
        refine hrest.map fun last last' hlast ↦ ⟨hlast.state, hlast.pass, ?_, hlast.signal⟩
        rw [Effect.after_stored, Effect.after_stored, hsame.stored, hlast.stored]
      | needInput | needOutput | halt => exact .ok hsame

/-- What every pass keeps, the loop keeps. -/
theorem run_invariant {step : Pass σ α → Except ε (Effect σ α β ρ)} {inv : σ → Prop}
    (hstep : ∀ p e, inv p.state → step p = .ok e → inv e.pass.state) (spin : ε) (fuel : ℕ) :
    ∀ p e, inv p.state → run step spin fuel p = .ok e → inv e.pass.state := by
  induction fuel with
  | zero => intro p e _ hrun; cases hrun
  | succ fuel ih =>
    intro p e hinv hrun
    rw [Foundation.run] at hrun
    split at hrun
    · cases hrun
    · next first hfirst =>
      have hnext := hstep p first hinv hfirst
      split at hrun
      · generalize hrest : Foundation.run step spin fuel first.pass = rest at hrun
        cases rest with
        | error fault => cases hrun
        | ok last =>
          cases hrun
          exact ih first.pass last hnext hrest
      · cases hrun
        exact hnext

end Lockstep

section Interleaved

variable {σ ε : Type} {event ι : Type*}

/-- A machine with events of many owners: the events of an owner are matched in related states, and those
of the others keep the relation. -/
structure Interleaved (step : σ → event → Except ε σ) (owner : event → ι) (R : ι → σ → σ → Prop) :
    Prop where
  own : ∀ s s' e, R (owner e) s s' → Matched (R (owner e)) (step s e) (step s' e)
  others : ∀ {s next s' : σ} {e : event} {i : ι}, owner e ≠ i → R i s s' → step s e = .ok next →
    R i next s'

variable [DecidableEq ι] {step : σ → event → Except ε σ} {owner : event → ι} {R : ι → σ → σ → Prop}

/-- The events of one owner. -/
def eventsOf (owner : event → ι) (i : ι) (events : List event) : List event :=
  events.filter fun e ↦ owner e = i

theorem eventsOf_cons_own (owner : event → ι) (e : event) (events : List event) :
    eventsOf owner (owner e) (e :: events) = e :: eventsOf owner (owner e) events := by
  rw [eventsOf, List.filter_cons_of_pos (by simp)]
  rfl

theorem eventsOf_cons_other {i : ι} {e : event} (h : owner e ≠ i) (events : List event) :
    eventsOf owner i (e :: events) = eventsOf owner i events := by
  rw [eventsOf, List.filter_cons_of_neg (by simpa using h)]
  rfl

/-- A run that does not fault, beside the run of one owner's events. -/
theorem Interleaved.alone (law : Interleaved step owner R) (i : ι) (events : List event) :
    ∀ {s s' last : σ}, R i s s' → events.foldlM step s = .ok last →
      ∃ last', (eventsOf owner i events).foldlM step s' = .ok last' ∧ R i last last' := by
  induction events with
  | nil => intro s s' last h hrun; cases hrun; exact ⟨s', rfl, h⟩
  | cons e events ih =>
    intro s s' last h hrun
    rw [List.foldlM_cons] at hrun
    rcases hstep : step s e with fault | next
    · rw [hstep] at hrun
      cases hrun
    · rw [hstep] at hrun
      by_cases howner : owner e = i
      · subst howner
        obtain ⟨next', hstep', hnext⟩ := (law.own s s' e h).of_ok hstep
        obtain ⟨last', hrun', hlast⟩ := ih hnext hrun
        refine ⟨last', ?_, hlast⟩
        rw [eventsOf_cons_own, List.foldlM_cons, hstep']
        exact hrun'
      · rw [eventsOf_cons_other howner]
        exact ih (law.others howner h hstep) hrun

/-- A run that faults: the owner of the event that faults faults alone. -/
theorem Interleaved.fault (law : Interleaved step owner R) {fault : ε} (events : List event) :
    ∀ {s : σ} {s' : ι → σ}, (∀ i, R i s (s' i)) → events.foldlM step s = .error fault →
      ∃ i, (eventsOf owner i events).foldlM step (s' i) = .error fault := by
  induction events with
  | nil => intro s s' _ hrun; cases hrun
  | cons e events ih =>
    intro s s' h hrun
    rw [List.foldlM_cons] at hrun
    rcases hstep : step s e with early | next
    · rw [hstep] at hrun
      cases hrun
      refine ⟨owner e, ?_⟩
      rw [eventsOf_cons_own, List.foldlM_cons, (law.own s _ e (h (owner e))).of_error hstep]
      rfl
    · rw [hstep] at hrun
      obtain ⟨nextOwn, hown, hnext⟩ := (law.own s _ e (h (owner e))).of_ok hstep
      obtain ⟨i, hi⟩ := @ih next (Function.update s' (owner e) nextOwn) (fun i ↦ by
        by_cases howner : owner e = i
        · subst howner
          rwa [Function.update_self]
        · rw [Function.update_of_ne (Ne.symm howner)]
          exact law.others howner (h i) hstep) hrun
      refine ⟨i, ?_⟩
      by_cases howner : owner e = i
      · subst howner
        rw [Function.update_self] at hi
        rw [eventsOf_cons_own, List.foldlM_cons, hown]
        exact hi
      · rw [Function.update_of_ne (Ne.symm howner)] at hi
        rwa [eventsOf_cons_other howner]

end Interleaved

end ZephyrThrift.Foundation
