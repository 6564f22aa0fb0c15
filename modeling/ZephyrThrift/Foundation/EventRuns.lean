import Mathlib

/-!
# Runs over events

A state machine that refuses an event by returning `none`, and what holds over a whole list of
events.
-/

set_option autoImplicit false
set_option relaxedAutoImplicit false

namespace ZephyrThrift.Foundation

variable {σ ε : Type*} {step : σ → ε → Option σ}

theorem foldlM_cons_some {s s' : σ} {event : ε} {events : List ε}
    (h : (event :: events).foldlM step s = some s') :
    ∃ middle, step s event = some middle ∧ events.foldlM step middle = some s' := by
  rw [List.foldlM_cons] at h
  exact Option.bind_eq_some_iff.mp h

/-- What every allowed event preserves, a run of allowed events preserves. -/
theorem foldlM_invariant {P : σ → Prop} {Allowed : ε → Prop}
    (hstep : ∀ s s' event, P s → Allowed event → step s event = some s' → P s') (events : List ε) :
    ∀ {s s' : σ}, P s → (∀ event ∈ events, Allowed event) → events.foldlM step s = some s' → P s' := by
  induction events with
  | nil => intro s s' h _ hrun; cases hrun; exact h
  | cons event events ih =>
    intro s s' h hallowed hrun
    obtain ⟨middle, hfirst, hrest⟩ := foldlM_cons_some hrun
    exact ih (hstep _ _ _ h (hallowed event List.mem_cons_self) hfirst)
      (fun later hlater ↦ hallowed later (List.mem_cons_of_mem _ hlater)) hrest

/-- A run that has not ended at a dead state holds none of the events that lead to one. -/
theorem foldlM_alive {Dead : σ → Prop} {Fatal : ε → Prop}
    (hfatal : ∀ s s' event, Fatal event → step s event = some s' → Dead s')
    (hdead : ∀ s s' event, Dead s → step s event = some s' → Dead s') (events : List ε) :
    ∀ {s s' : σ}, events.foldlM step s = some s' → ¬ Dead s' → ¬ Dead s ∧
      ∀ event ∈ events, ¬ Fatal event := by
  induction events with
  | nil => intro s s' hrun halive; cases hrun; exact ⟨halive, fun _ h ↦ absurd h List.not_mem_nil⟩
  | cons event events ih =>
    intro s s' hrun halive
    obtain ⟨middle, hfirst, hrest⟩ := foldlM_cons_some hrun
    obtain ⟨hmiddle, hlater⟩ := ih hrest halive
    refine ⟨fun h ↦ hmiddle (hdead _ _ _ h hfirst), fun e he ↦ ?_⟩
    rcases List.mem_cons.mp he with rfl | he
    · exact fun h ↦ hmiddle (hfatal _ _ _ h hfirst)
    · exact hlater e he

end ZephyrThrift.Foundation
