import ZephyrThrift.Foundation.Transducer

/-!
# Input and output in pieces

A pass that may be cut at the end of a window does in two windows what it does in one, as long as what
it stores stays within a bound of its state (`Divisible`). Where runs on all of the input and with
enough space come to a result (`Completes`), a run on any piece of the input and with any window comes
to it as well, or stops at the end of its piece or of its window, in a state from which what is left is
completed (`Completes.serve`). Where they only come to the end of the input and wait there (`Rests`),
runs in pieces leave the same output (`Rests.serve`).
-/

set_option autoImplicit false
set_option relaxedAutoImplicit false

namespace ZephyrThrift.Foundation

universe u

variable {σ α β ρ ε : Type u} {step : Pass σ α → Except ε (Effect σ α β ρ)}

/-- A pass that may be cut at the end of a window, as long as the state fits what it stores; of the
results it may halt with, only the sound ones are promised to be the same. -/
structure Divisible (step : Pass σ α → Except ε (Effect σ α β ρ)) (fits : σ → ℕ → Prop)
    (sound : ρ → Prop) : Prop where
  mono : ∀ st first second, fits st (first + second) → fits st first
  advance : ∀ p e count, step p = .ok e → fits p.state (e.stored.length + count) →
    fits e.pass.state count
  cut : ∀ p extra e, step (p.widen extra) = .ok e → fits p.state e.stored.length →
    e.signal ≠ .needOutput → (∀ r, e.signal = .halt r → sound r) →
      (∃ e', step p = .ok e' ∧ e = e'.widen extra) ∨
        ∃ e', step p = .ok e' ∧ e'.signal = .needOutput ∧ e'.pass.free = 0 ∧
          step (p.widen extra) = reportAfter e'.stored (step (e'.pass.widen extra))

section Cuts

variable {fits : σ → ℕ → Prop} {sound : ρ → Prop}

theorem Divisible.advance_runs (law : Divisible step fits sound) {p : Pass σ α}
    {r : Except ε (Effect σ α β ρ)} (h : Runs step p r) :
    ∀ e count, r = .ok e → fits p.state (e.stored.length + count) → fits e.pass.state count := by
  induction h with
  | fault _ => intro e count he; cases he
  | stop hp _ => intro e count he hfits; cases he; exact law.advance _ _ _ hp hfits
  | @next p e r hp _ _ ih =>
    intro last count hlast hfits
    cases r with
    | error fault => cases hlast
    | ok later =>
      cases hlast
      rw [Effect.after_stored, List.length_append, Nat.add_assoc] at hfits
      exact ih later count rfl (law.advance _ _ _ hp hfits)

/-- A run in a wide window, in the first part of it: it is the same, or it is cut at the end of that
part and goes on with the rest. -/
theorem Runs.cut (law : Divisible step fits sound) {extra : ℕ} {q : Pass σ α}
    {r : Except ε (Effect σ α β ρ)} (h : Runs step q r) :
    ∀ p e, q = p.widen extra → r = .ok e → fits p.state e.stored.length → e.signal ≠ .needOutput →
      (∀ result, e.signal = .halt result → sound result) →
        (∃ e', Runs step p (.ok e') ∧ e = e'.widen extra) ∨
          ∃ e' later, Runs step p (.ok e') ∧ e'.signal = .needOutput ∧ e'.pass.free = 0 ∧
            Runs step (e'.pass.widen extra) (.ok later) ∧ e = later.after e'.stored := by
  -- a pass that is cut is where the run is cut
  have hcut : ∀ {p : Pass σ α} {e e' : Effect σ α β ρ}, Runs step (p.widen extra) (.ok e) →
      step p = .ok e' → e'.signal = .needOutput → e'.pass.free = 0 →
      step (p.widen extra) = reportAfter e'.stored (step (e'.pass.widen extra)) →
        ∃ e' later, Runs step p (.ok e') ∧ e'.signal = .needOutput ∧ e'.pass.free = 0 ∧
          Runs step (e'.pass.widen extra) (.ok later) ∧ e = later.after e'.stored := by
    intro p e e' hruns hp hfull hfree hsame
    obtain ⟨s, hs, hresult⟩ := hruns.of_step_eq hsame
    cases s with
    | error fault => cases hresult
    | ok later =>
      injection hresult with hresult
      exact ⟨e', later, .stop hp (by rw [hfull]; simp), hfull, hfree, hs, hresult⟩
  induction h with
  | fault _ => intro p e _ he; cases he
  | @stop q e hq hs =>
    rintro p _ rfl he hfits hsignal hsound
    cases he
    rcases law.cut p extra e hq hfits hsignal hsound with ⟨e', hp, rfl⟩ | ⟨e', hp, hfull, hfree, hsame⟩
    · exact .inl ⟨e', .stop hp hs, rfl⟩
    · exact .inr (hcut (.stop hq hs) hp hfull hfree hsame)
  | @next q e r hq hs hr ih =>
    rintro p last rfl hlast hfits hsignal hsound
    have hrun := Runs.next hq hs hr
    rw [hlast] at hrun
    cases r with
    | error fault => cases hlast
    | ok later =>
      cases hlast
      rw [Effect.after_stored, List.length_append] at hfits
      rcases law.cut p extra e hq (law.mono _ _ _ hfits) (by rw [hs]; simp)
        (fun r hhalt ↦ by rw [hs] at hhalt; cases hhalt) with
        ⟨e', hp, rfl⟩ | ⟨e', hp, hfull, hfree, hsame⟩
      · have hnext := law.advance p e' later.stored.length hp hfits
        rcases ih e'.pass later rfl rfl hnext hsignal hsound with
          ⟨last, hlast, rfl⟩ | ⟨last, rest, hlast, hfull, hfree, hrest, rfl⟩
        · exact .inl ⟨last.after e'.stored, .next hp hs hlast, rfl⟩
        · refine .inr ⟨last.after e'.stored, rest, .next hp hs hlast, hfull, hfree, hrest, ?_⟩
          exact Effect.after_after _ _ _
      · exact .inr (hcut hrun hp hfull hfree hsame)

end Cuts

/-! ### Results -/

/-- From a state and some input, runs with enough space come to a result and leave the same output and
the same input. -/
def Completes (step : Pass σ α → Except ε (Effect σ α β ρ)) (st : σ) (input : List α) (left : List β)
    (result : ρ) (rest : List α) : Prop :=
  ∃ enough, ∀ free, enough ≤ free → ∃ e, Runs step ⟨st, input, free⟩ (.ok e) ∧
    e.signal = .halt result ∧ e.stored = left ∧ e.pass.input = rest

/-- How a run on a piece of the input and with some window ends: with the result, or at the end of its
piece or of its window, and then what is left is completed from where it ends. -/
inductive Served (step : Pass σ α → Except ε (Effect σ α β ρ)) (more : List α) (left : List β)
    (result : ρ) (rest : List α) (e : Effect σ α β ρ) : Prop
  | completed (hsignal : e.signal = .halt result) (hstored : e.stored = left)
      (hinput : e.pass.input ++ more = rest)
  | suspended {later : List β}
      (hsignal : e.signal = .needInput ∧ e.pass.input = [] ∧ more ≠ [] ∨
        e.signal = .needOutput ∧ e.pass.free = 0)
      (hstored : left = e.stored ++ later)
      (hlater : Completes step e.pass.state (e.pass.input ++ more) later result rest)

section Serves

variable {fits : σ → ℕ → Prop} {sound : ρ → Prop} {more : List α} {result : ρ}

/-- A run on a piece of the input and in a part of the window. -/
theorem Runs.serve (resumable : Resumable step) (law : Divisible step fits sound) {p : Pass σ α}
    {extra : ℕ} {e : Effect σ α β ρ} (h : Runs step ((p.widen extra).feed more) (.ok e))
    (hresult : e.signal = .halt result) (hsound : sound result)
    (hfits : fits p.state e.stored.length) :
    ∃ e', Runs step p (.ok e') ∧
      (e'.signal = .halt result ∧ e'.stored = e.stored ∧ e'.pass.input ++ more = e.pass.input ∨
        (e'.signal = .needInput ∧ e'.pass.input = [] ∨
          e'.signal = .needOutput ∧ e'.pass.free = 0) ∧
        ∃ later, Runs step ((e'.pass.widen extra).feed more) (.ok later) ∧
          e = later.after e'.stored) := by
  rcases h.split resumable (p.widen extra) rfl with
    ⟨first, s, hfirst, hneed, hrest, heq⟩ | ⟨s, hfirst, hs, heq⟩
  · cases s with
    | error fault => cases heq
    | ok later =>
      injection heq with heq
      subst heq
      rw [Effect.after_stored, List.length_append] at hfits
      rcases hfirst.cut law p first rfl rfl (law.mono _ _ _ hfits) (by rw [hneed]; simp)
        (fun r hhalt ↦ by rw [hneed] at hhalt; cases hhalt) with
        ⟨e', hp, rfl⟩ | ⟨e', middle, hp, hfull, hfree, hmiddle, rfl⟩
      · exact ⟨e', hp, .inr ⟨.inl ⟨hneed, hp.input_nil resumable e' rfl hneed⟩, later, hrest, rfl⟩⟩
      · refine ⟨e', hp, .inr ⟨.inr ⟨hfull, hfree⟩, later.after middle.stored, ?_, ?_⟩⟩
        · exact hmiddle.resume resumable middle rfl hneed hrest
        · exact (Effect.after_after _ _ _).symm
  · cases s with
    | error fault => cases heq
    | ok whole =>
      injection heq with heq
      subst heq
      rcases hfirst.cut law p whole rfl rfl hfits (by rw [show whole.signal = _ from hresult]; simp)
        (fun r hhalt ↦ by
          rw [show whole.signal = _ from hresult] at hhalt
          cases hhalt
          exact hsound) with
        ⟨e', hp, rfl⟩ | ⟨e', later, hp, hfull, hfree, hlater, rfl⟩
      · exact ⟨e', hp, .inl ⟨hresult, rfl, rfl⟩⟩
      · refine ⟨e', hp, .inr ⟨.inr ⟨hfull, hfree⟩, later.feed more, ?_, rfl⟩⟩
        exact hlater.feed resumable more fun e he ↦ by
          cases he
          rw [show later.signal = _ from hresult]
          simp

/-- What is completed with enough space and all of the input is completed in pieces. -/
theorem Completes.serve (resumable : Resumable step) (roomy : Roomy step)
    (law : Divisible step fits sound) {st : σ} {piece : List α} {left : List β} {rest : List α}
    (h : Completes step st (piece ++ more) left result rest) (hsound : sound result)
    (hfits : fits st left.length) (window : ℕ) :
    ∃ e, Runs step ⟨st, piece, window⟩ (.ok e) ∧ Served step more left result rest e := by
  obtain ⟨enough, hall⟩ := h
  have hserve : ∀ extra, enough ≤ window + extra → ∃ whole e,
      Runs step ((Pass.mk st piece (window + extra)).feed more) (.ok whole) ∧
      whole.signal = .halt result ∧ whole.stored = left ∧ whole.pass.input = rest ∧
      Runs step ⟨st, piece, window⟩ (.ok e) ∧
      (e.signal = .halt result ∧ e.stored = whole.stored ∧ e.pass.input ++ more = whole.pass.input ∨
        (e.signal = .needInput ∧ e.pass.input = [] ∨ e.signal = .needOutput ∧ e.pass.free = 0) ∧
        ∃ later, Runs step ((e.pass.widen extra).feed more) (.ok later) ∧
          whole = later.after e.stored) := by
    intro extra hextra
    obtain ⟨whole, hwhole, hsignal, hstored, hinput⟩ := hall (window + extra) hextra
    obtain ⟨e, he, hcases⟩ := Runs.serve (p := ⟨st, piece, window⟩) resumable law hwhole hsignal
      hsound (by rw [hstored]; exact hfits)
    exact ⟨whole, e, hwhole, hsignal, hstored, hinput, he, hcases⟩
  obtain ⟨whole, e, hwhole, hsignal, hstored, hinput, he, hcases⟩ := hserve enough (by omega)
  refine ⟨e, he, ?_⟩
  rcases hcases with ⟨hhalt, hsame, hleft⟩ | ⟨hstops, later, hlater, rfl⟩
  · exact .completed hhalt (hsame.trans hstored) (hleft.trans hinput)
  · refine .suspended ?_ (show left = e.stored ++ later.stored from hstored.symm)
      ⟨e.pass.free + enough, ?_⟩
    · rcases hstops with ⟨hneed, hnil⟩ | hfull
      · refine .inl ⟨hneed, hnil, ?_⟩
        rintro rfl
        rw [Pass.feed_nil] at hwhole
        have hsame := hwhole.unique (he.widen roomy enough e rfl hneed)
        injection hsame with hsame
        rw [hsame] at hsignal
        exact absurd (hneed.symm.trans hsignal) (by simp)
      · exact .inr hfull
    · intro free hfree
      obtain ⟨whole', e', -, hsignal', hstored', hinput', he', hcases'⟩ :=
        hserve (free - e.pass.free) (by omega)
      have hsame := he'.unique he
      injection hsame with hsame
      subst hsame
      rcases hcases' with ⟨hhalt, -⟩ | ⟨-, later', hlater', rfl⟩
      · rcases hstops with ⟨hneed, -⟩ | ⟨hfull, -⟩
        · rw [hneed] at hhalt
          cases hhalt
        · rw [hfull] at hhalt
          cases hhalt
      · refine ⟨later', ?_, hsignal', ?_, hinput'⟩
        · have hpass : (e'.pass.widen (free - e'.pass.free)).feed more =
              ⟨e'.pass.state, e'.pass.input ++ more, free⟩ := by
            simp only [Pass.widen, Pass.feed, Pass.mk.injEq, true_and]
            omega
          rwa [hpass] at hlater'
        · rw [Effect.after_stored] at hstored hstored'
          exact List.append_cancel_left (hstored'.trans hstored.symm)

/-! ### Open streams -/

/-- From a state and some input, runs with enough space come to the end of the input, wait there, and
leave the same output. -/
def Rests (step : Pass σ α → Except ε (Effect σ α β ρ)) (st : σ) (input : List α)
    (left : List β) : Prop :=
  ∃ enough, ∀ free, enough ≤ free → ∃ e, Runs step ⟨st, input, free⟩ (.ok e) ∧
    e.signal = .needInput ∧ e.stored = left

/-- How a run on a piece of such input ends, with some window: at the end of the piece or of the window,
with the rest of the output still to come. Where it waits and no input is left, there is none to
come. -/
structure Suspends (step : Pass σ α → Except ε (Effect σ α β ρ)) (more : List α) (left : List β)
    (e : Effect σ α β ρ) (later : List β) : Prop where
  signal : e.signal = .needInput ∧ e.pass.input = [] ∨ e.signal = .needOutput ∧ e.pass.free = 0
  stored : left = e.stored ++ later
  rests : Rests step e.pass.state (e.pass.input ++ more) later
  last : e.signal = .needInput → more = [] → later = []

/-- A run that waits for input, on a piece of its input and in a part of its window. -/
theorem Runs.suspended (resumable : Resumable step) (law : Divisible step fits sound) {p : Pass σ α}
    {extra : ℕ} {e : Effect σ α β ρ} (h : Runs step ((p.widen extra).feed more) (.ok e))
    (hneed : e.signal = .needInput) (hfits : fits p.state e.stored.length) :
    ∃ e', Runs step p (.ok e') ∧
      (e'.signal = .needInput ∧ e'.pass.input = [] ∨ e'.signal = .needOutput ∧ e'.pass.free = 0) ∧
      ∃ later, Runs step ((e'.pass.widen extra).feed more) (.ok later) ∧ e = later.after e'.stored := by
  rcases h.split resumable (p.widen extra) rfl with
    ⟨first, s, hfirst, hwaits, hrest, heq⟩ | ⟨s, hfirst, hs, heq⟩
  · cases s with
    | error fault => cases heq
    | ok later =>
      injection heq with heq
      subst heq
      rw [Effect.after_stored, List.length_append] at hfits
      rcases hfirst.cut law p first rfl rfl (law.mono _ _ _ hfits) (by rw [hwaits]; simp)
        (fun r hhalt ↦ by rw [hwaits] at hhalt; cases hhalt) with
        ⟨e', hp, rfl⟩ | ⟨e', middle, hp, hfull, hfree, hmiddle, rfl⟩
      · exact ⟨e', hp, .inl ⟨hwaits, hp.input_nil resumable e' rfl hwaits⟩, later, hrest, rfl⟩
      · refine ⟨e', hp, .inr ⟨hfull, hfree⟩, later.after middle.stored, ?_, ?_⟩
        · exact hmiddle.resume resumable middle rfl hwaits hrest
        · exact (Effect.after_after _ _ _).symm
  · cases s with
    | error fault => cases heq
    | ok whole =>
      injection heq with heq
      subst heq
      exact absurd hneed (hs whole rfl)

/-- What comes to rest with enough space and all of the input comes to rest in pieces. -/
theorem Rests.serve (resumable : Resumable step) (roomy : Roomy step)
    (law : Divisible step fits sound) {st : σ} {piece : List α} {left : List β}
    (h : Rests step st (piece ++ more) left) (hfits : fits st left.length) (window : ℕ) :
    ∃ e later, Runs step ⟨st, piece, window⟩ (.ok e) ∧ Suspends step more left e later := by
  obtain ⟨enough, hall⟩ := h
  have hserve : ∀ extra, enough ≤ window + extra → ∃ e later, Runs step ⟨st, piece, window⟩ (.ok e) ∧
      (e.signal = .needInput ∧ e.pass.input = [] ∨ e.signal = .needOutput ∧ e.pass.free = 0) ∧
      Runs step ((e.pass.widen extra).feed more) (.ok later) ∧ later.signal = .needInput ∧
      left = e.stored ++ later.stored := by
    intro extra hextra
    obtain ⟨whole, hwhole, hsignal, rfl⟩ := hall (window + extra) hextra
    obtain ⟨e, he, hstops, later, hlater, rfl⟩ := Runs.suspended (p := ⟨st, piece, window⟩) resumable
      law hwhole hsignal hfits
    exact ⟨e, later, he, hstops, hlater, hsignal, Effect.after_stored _ _⟩
  obtain ⟨e, later, he, hstops, hlater, hsignal, hstored⟩ := hserve enough (by omega)
  refine ⟨e, later.stored, he, hstops, hstored, ⟨e.pass.free + enough, fun free hfree ↦ ?_⟩,
    fun hneed hmore ↦ ?_⟩
  · obtain ⟨e', later', he', -, hlater', hsignal', hstored'⟩ :=
      hserve (free - e.pass.free) (by omega)
    have hsame := he'.unique he
    injection hsame with hsame
    subst hsame
    refine ⟨later', ?_, hsignal', List.append_cancel_left (hstored'.symm.trans hstored)⟩
    have hpass : (e'.pass.widen (free - e'.pass.free)).feed more =
        ⟨e'.pass.state, e'.pass.input ++ more, free⟩ := by
      simp only [Pass.widen, Pass.feed, Pass.mk.injEq, true_and]
      omega
    rwa [hpass] at hlater'
  · -- the run on the piece is the whole run, but for the window
    subst hmore
    obtain ⟨whole, hwhole, -, hleft⟩ := hall (window + enough) (by omega)
    rw [List.append_nil] at hwhole
    have hsame := hwhole.unique (he.widen roomy enough e rfl hneed)
    injection hsame with hsame
    rw [hsame] at hleft
    exact List.append_right_eq_self.mp (hstored.symm.trans hleft.symm)

end Serves

end ZephyrThrift.Foundation
