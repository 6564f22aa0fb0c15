import ZephyrThrift.Server.FdServer

/-!
# Stopping the descriptor server

`stop` interrupts the children that it finds in the list when its loop starts. A child that `serve`
accepts later, up to the moment when the descriptor is reset, is dropped from the list or stays
behind in it, and nobody closes it but its own client. Without such a child, a stop is final
(`final_of_unhindered`); with one, it is not (`open_of_missed`).
-/

set_option autoImplicit false
set_option relaxedAutoImplicit false

namespace ZephyrThrift.Server

/-! ### Transports -/

@[simp] theorem Xport.isOpen_close (x : Xport) : x.close.isOpen = false := by
  rw [Xport.close]
  by_cases h : x.isOpen = true
  · rw [if_pos h]; rfl
  · rw [if_neg h]; exact Bool.eq_false_iff.mpr h

@[simp] theorem Xport.isOpen_interrupt (x : Xport) : x.interrupt.isOpen = false := by
  rw [Xport.interrupt]
  by_cases h : x.isOpen = true
  · rw [if_pos h]; exact x.isOpen_close
  · rw [if_neg h]; exact Bool.eq_false_iff.mpr h

/-- The transports at the first `count` places are closed. -/
def ClosedBelow (count : ℕ) (xports : List Xport) : Prop :=
  ∀ i x, i < count → xports[i]? = some x → x.isOpen = false

theorem closedBelow_zero (xports : List Xport) : ClosedBelow 0 xports :=
  fun _ _ h ↦ absurd h (Nat.not_lt_zero _)

/-- Closing one transport opens no other. -/
theorem ClosedBelow.modify {count : ℕ} {xports : List Xport} (h : ClosedBelow count xports)
    (place : ℕ) {f : Xport → Xport} (hf : ∀ x, (f x).isOpen = false) :
    ClosedBelow count (xports.modify place f) := by
  intro i x hi hx
  rw [List.getElem?_modify] at hx
  obtain ⟨y, hy, rfl⟩ := Option.map_eq_some_iff.mp hx
  by_cases hplace : place = i
  · simp only [if_pos hplace, hf]
  · simpa only [if_neg hplace] using h i y hi hy

theorem ClosedBelow.succ_modify {count : ℕ} {xports : List Xport} (h : ClosedBelow count xports)
    {f : Xport → Xport} (hf : ∀ x, (f x).isOpen = false) :
    ClosedBelow (count + 1) (xports.modify count f) := by
  intro i x hi hx
  by_cases hlt : i < count
  · exact h.modify count hf i x hlt hx
  · obtain rfl : i = count := by omega
    rw [List.getElem?_modify] at hx
    obtain ⟨y, -, rfl⟩ := Option.map_eq_some_iff.mp hx
    simp only [if_true, hf]

theorem ClosedBelow.forall_mem {xports : List Xport} (h : ClosedBelow xports.length xports)
    (x : Xport) (hx : x ∈ xports) : x.isOpen = false := by
  obtain ⟨i, hi, rfl⟩ := List.getElem_of_mem hx
  exact h i _ hi (List.getElem?_eq_getElem hi)

/-! ### What a step can do -/

/-- The stop is between the start of its loop and the reset of the descriptor. -/
def StopAt.inProgress : StopAt → Bool
  | .interrupting _ _ _ => true
  | .cleared => true
  | _ => false

/-- The step hands out a new child while the stop is in progress. -/
def Misses (s : State) : Action → Prop
  | .accept _ _ => s.stop.inProgress = true ∧ s.serve = .accepting ∧ s.server.isOpen = true
  | _ => False

theorem step_accept {s s' : State} {efd grown : ℕ} (h : step s (.accept efd grown) = some s') :
    s.serve = .accepting ∧
    ((s.server.isOpen = false ∧ s' = { s with server := s.server.close, serve := .ended }) ∨
     (s.server.isOpen = true ∧ ∃ moved room,
       s' = ⟨⟨s.server.fd, s.server.children ++ [s.xports.length], room⟩,
         s.xports ++ [⟨s.server.fd, efd⟩], .serving s.xports.length, s.stop.afterPush moved⟩)) := by
  unfold step at h
  simp only at h
  by_cases hserve : s.serve = .accepting
  · rw [if_pos hserve] at h
    refine ⟨hserve, ?_⟩
    by_cases hopen : s.server.isOpen = true
    · right
      rw [TFDServer.acceptImpl, if_pos hopen, TFDServer.pushBack] at h
      by_cases hroom : s.server.room = 0
      · rw [if_pos hroom] at h
        exact ⟨hopen, true, grown, (Option.some.inj h).symm⟩
      · rw [if_neg hroom] at h
        exact ⟨hopen, false, _, (Option.some.inj h).symm⟩
    · left
      rw [TFDServer.acceptImpl, if_neg hopen] at h
      exact ⟨Bool.eq_false_iff.mpr hopen, (Option.some.inj h).symm⟩
  · rw [if_neg hserve] at h
    cases h

theorem step_clientFinishes {s s' : State} (h : step s .clientFinishes = some s') :
    ∃ child, s.serve = .serving child ∧
      s' = { s with xports := s.xports.modify child Xport.close, serve := .accepting } := by
  unfold step at h
  simp only at h
  rcases hserve : s.serve with _ | child | _ <;> rw [hserve] at h
  · cases h
  · exact ⟨child, rfl, (Option.some.inj h).symm⟩
  · cases h

theorem step_stopStarts {s s' : State} (h : step s .stopStarts = some s') :
    s.stop = .idle ∧ s' = { s with stop := .interrupting 0 s.server.children.length true } := by
  unfold step at h
  simp only at h
  rcases hstop : s.stop with _ | ⟨next, last, valid⟩ | _ | _ <;> rw [hstop] at h
  · exact ⟨rfl, (Option.some.inj h).symm⟩
  all_goals cases h

theorem step_interruptChild {s s' : State} (h : step s .interruptChild = some s') :
    ∃ next last child, s.stop = .interrupting next last true ∧ next < last ∧
      s.server.children[next]? = some child ∧
      s' = { s with
        xports := s.xports.modify child Xport.interrupt
        stop := .interrupting (next + 1) last true } := by
  unfold step at h
  simp only at h
  rcases hstop : s.stop with _ | ⟨next, last, _ | _⟩ | _ | _ <;> rw [hstop] at h
  case interrupting.true =>
    by_cases hlt : next < last
    · simp only [if_pos hlt] at h
      rcases hchild : s.server.children[next]? with _ | child <;> rw [hchild] at h
      · cases h
      · exact ⟨next, last, child, rfl, hlt, hchild, (Option.some.inj h).symm⟩
    · simp only [if_neg hlt] at h
      cases h
  all_goals cases h

theorem step_clearChildren {s s' : State} (h : step s .clearChildren = some s') :
    ∃ next last valid room, s.stop = .interrupting next last valid ∧ last ≤ next ∧
      s' = { s with server := ⟨s.server.fd, [], room⟩, stop := .cleared } := by
  unfold step at h
  simp only at h
  rcases hstop : s.stop with _ | ⟨next, last, valid⟩ | _ | _ <;> rw [hstop] at h
  case interrupting =>
    by_cases hlt : next < last
    · simp only [if_pos hlt] at h
      cases h
    · simp only [if_neg hlt] at h
      exact ⟨next, last, valid, _, rfl, not_lt.mp hlt, (Option.some.inj h).symm⟩
  all_goals cases h

theorem step_interrupt {s s' : State} (h : step s .interrupt = some s') :
    s.stop = .cleared ∧ s' = { s with server := s.server.close, stop := .returned } := by
  unfold step at h
  simp only at h
  rcases hstop : s.stop with _ | ⟨next, last, valid⟩ | _ | _ <;> rw [hstop] at h
  · cases h
  · cases h
  · exact ⟨rfl, (Option.some.inj h).symm⟩
  · cases h

@[simp] theorem TFDServer.isOpen_close (server : TFDServer) : server.close.isOpen = false := rfl

/-! ### A stop that misses no child -/

/-- Every transport is in the list until the list is cleared, and those that the loop has passed are
closed. -/
def Kept (s : State) : Prop :=
  match s.stop with
  | .idle => s.server.children = List.range s.xports.length
  | .interrupting next last valid =>
    s.server.children = List.range s.xports.length ∧ last = s.xports.length ∧ valid = true ∧
      ClosedBelow next s.xports
  | .cleared => ClosedBelow s.xports.length s.xports
  | .returned => ClosedBelow s.xports.length s.xports ∧ s.server.isOpen = false

theorem kept_start (fd : ℤ) : Kept (start fd) := rfl

/-- Closing one transport keeps the rest. -/
theorem Kept.modify {s : State} (h : Kept s) (place : ℕ) (serve : ServeAt) {f : Xport → Xport}
    (hf : ∀ x, (f x).isOpen = false) :
    Kept { s with xports := s.xports.modify place f, serve := serve } := by
  obtain ⟨server, xports, _, stop⟩ := s
  rcases stop with _ | ⟨next, last, valid⟩ | _ | _ <;> simp only [Kept, List.length_modify] at h ⊢
  · exact h
  · exact ⟨h.1, h.2.1, h.2.2.1, h.2.2.2.modify place hf⟩
  · exact ClosedBelow.modify h place hf
  · exact ⟨h.1.modify place hf, h.2⟩

/-- What a step keeps, if it does not hand out a child while the stop is in progress. -/
theorem kept_step {s s' : State} {action : Action} (h : Kept s) (hmiss : ¬ Misses s action)
    (hstep : step s action = some s') : Kept s' := by
  cases action with
  | accept efd grown =>
    obtain ⟨hserve, ⟨-, rfl⟩ | ⟨hopen, moved, room, rfl⟩⟩ := step_accept hstep
    · rcases hstop : s.stop with _ | ⟨next, last, valid⟩ | _ | _ <;>
        simp only [Kept, hstop] at h ⊢
      · exact h
      · exact h
      · exact h
      · exact ⟨h.1, rfl⟩
    · rcases hstop : s.stop with _ | ⟨next, last, valid⟩ | _ | _
      · simp only [Kept, hstop] at h
        simp only [Kept, StopAt.afterPush, List.length_append, List.length_singleton, h,
          List.range_succ]
      · exact absurd ⟨by rw [hstop]; rfl, hserve, hopen⟩ hmiss
      · exact absurd ⟨by rw [hstop]; rfl, hserve, hopen⟩ hmiss
      · simp only [Kept, hstop] at h
        rw [h.2] at hopen
        cases hopen
  | clientFinishes =>
    obtain ⟨child, -, rfl⟩ := step_clientFinishes hstep
    exact h.modify child .accepting Xport.isOpen_close
  | stopStarts =>
    obtain ⟨hstop, rfl⟩ := step_stopStarts hstep
    simp only [Kept, hstop] at h ⊢
    exact ⟨h, by rw [h, List.length_range], trivial, closedBelow_zero _⟩
  | interruptChild =>
    obtain ⟨next, last, child, hstop, hlt, hchild, rfl⟩ := step_interruptChild hstep
    simp only [Kept, hstop] at h
    obtain ⟨hchildren, hlast, -, hclosed⟩ := h
    obtain rfl : child = next := by
      rw [hchildren, List.getElem?_range (by omega)] at hchild
      exact (Option.some.inj hchild).symm
    simp only [Kept, List.length_modify]
    exact ⟨hchildren, hlast, trivial, hclosed.succ_modify Xport.isOpen_interrupt⟩
  | clearChildren =>
    obtain ⟨next, last, valid, room, hstop, hle, rfl⟩ := step_clearChildren hstep
    simp only [Kept, hstop] at h ⊢
    obtain ⟨-, hlast, -, hclosed⟩ := h
    exact fun i x hi ↦ hclosed i x (by omega)
  | interrupt =>
    obtain ⟨hstop, rfl⟩ := step_interrupt hstep
    simp only [Kept, hstop] at h ⊢
    exact ⟨h, rfl⟩

instance (s : State) : DecidablePred (Misses s)
  | .accept _ _ => inferInstanceAs (Decidable (_ ∧ _ ∧ _))
  | .clientFinishes | .stopStarts | .interruptChild | .clearChildren | .interrupt =>
    inferInstanceAs (Decidable False)

/-- No step of the interleaving hands out a child while the stop is in progress. -/
def Unhindered : State → List Action → Prop
  | _, [] => True
  | s, action :: actions =>
    ¬ Misses s action ∧
      match step s action with
      | some s' => Unhindered s' actions
      | none => True

instance decidableUnhindered : ∀ s actions, Decidable (Unhindered s actions)
  | _, [] => inferInstanceAs (Decidable True)
  | s, action :: actions =>
    match h : step s action with
    | some s' =>
      have := decidableUnhindered s' actions
      decidable_of_iff (¬ Misses s action ∧ Unhindered s' actions) (by rw [Unhindered, h])
    | none => decidable_of_iff (¬ Misses s action) (by rw [Unhindered, h, and_true])

theorem run_cons {s s' : State} {action : Action} {actions : List Action}
    (h : run s (action :: actions) = some s') :
    ∃ middle, step s action = some middle ∧ run middle actions = some s' := by
  rw [run, List.foldlM_cons] at h
  exact Option.bind_eq_some_iff.mp h

theorem kept_run {actions : List Action} :
    ∀ {s s' : State}, Kept s → Unhindered s actions → run s actions = some s' → Kept s' := by
  induction actions with
  | nil => intro s s' h _ hrun; cases hrun; exact h
  | cons action actions ih =>
    intro s s' h hunhindered hrun
    obtain ⟨middle, hstep, hrest⟩ := run_cons hrun
    obtain ⟨hmiss, hlater⟩ := hunhindered
    rw [hstep] at hlater
    exact ih (kept_step h hmiss hstep) hlater hrest

/-- Every transport that was ever handed out is closed, and none is handed out any more. -/
structure Final (s : State) : Prop where
  closed : ∀ x ∈ s.xports, x.isOpen = false
  refuses : ∀ child efd grown, s.server.acceptImpl child efd grown = .error .interrupted

/-- Where no child is handed out while the stop is in progress, a stop that has returned is final. -/
theorem final_of_unhindered {fd : ℤ} {actions : List Action} {s : State}
    (hunhindered : Unhindered (start fd) actions) (hrun : run (start fd) actions = some s)
    (hreturned : s.stop = .returned) : Final s := by
  have hkept := kept_run (kept_start fd) hunhindered hrun
  simp only [Kept, hreturned] at hkept
  refine ⟨hkept.1.forall_mem, fun child efd grown ↦ ?_⟩
  rw [TFDServer.acceptImpl, hkept.2]
  rfl

/-- Two clients, of which the first has left when the server is stopped. -/
def twoClients : List Action :=
  [.accept 4 1, .clientFinishes, .accept 5 1, .stopStarts, .interruptChild, .interruptChild,
    .clearChildren, .interrupt]

theorem final_twoClients : ∃ s, run (start 3) twoClients = some s ∧ Final s := by
  have hunhindered : Unhindered (start 3) twoClients := by decide
  exact ⟨_, rfl, final_of_unhindered hunhindered rfl rfl⟩

/-! ### A child that is missed -/

/-- The list holds places of transports, and the loop over it keeps to the list. -/
structure Listed (s : State) : Prop where
  lt : ∀ child ∈ s.server.children, child < s.xports.length
  le : ∀ next last valid, s.stop = .interrupting next last valid → last ≤ s.server.children.length

theorem listed_start (fd : ℤ) : Listed (start fd) :=
  ⟨fun _ h ↦ absurd h List.not_mem_nil, fun _ _ _ h ↦ by cases h⟩

theorem StopAt.afterPush_eq_interrupting {stop : StopAt} {moved valid : Bool} {next last : ℕ}
    (h : stop.afterPush moved = .interrupting next last valid) :
    ∃ before, stop = .interrupting next last before := by
  rcases stop with _ | ⟨next', last', before⟩ | _ | _ <;> cases h
  exact ⟨before, rfl⟩

theorem StopAt.afterPush_eq_idle {stop : StopAt} {moved : Bool} (h : stop.afterPush moved = .idle) :
    stop = .idle := by
  rcases stop with _ | _ | _ | _ <;> cases h
  rfl

theorem listed_step {s s' : State} {action : Action} (h : Listed s)
    (hstep : step s action = some s') : Listed s' := by
  cases action with
  | accept efd grown =>
    obtain ⟨-, ⟨-, rfl⟩ | ⟨-, moved, room, rfl⟩⟩ := step_accept hstep
    · exact ⟨h.lt, h.le⟩
    · refine ⟨fun child hchild ↦ ?_, fun next last valid hstop ↦ ?_⟩
      · rw [List.length_append, List.length_singleton]
        rcases List.mem_append.mp hchild with hold | hnew
        · exact Nat.lt_succ_of_lt (h.lt child hold)
        · rw [List.mem_singleton.mp hnew]
          exact Nat.lt_succ_self _
      · obtain ⟨before, hbefore⟩ := StopAt.afterPush_eq_interrupting hstop
        rw [List.length_append]
        exact Nat.le_add_right_of_le (h.le _ _ _ hbefore)
  | clientFinishes =>
    obtain ⟨child, -, rfl⟩ := step_clientFinishes hstep
    exact ⟨by simpa only [List.length_modify] using h.lt, h.le⟩
  | stopStarts =>
    obtain ⟨-, rfl⟩ := step_stopStarts hstep
    refine ⟨h.lt, fun next last valid hstop ↦ ?_⟩
    cases hstop
    exact le_rfl
  | interruptChild =>
    obtain ⟨next, last, child, hstop, -, -, rfl⟩ := step_interruptChild hstep
    refine ⟨by simpa only [List.length_modify] using h.lt, fun next' last' valid hstop' ↦ ?_⟩
    cases hstop'
    exact h.le _ _ _ hstop
  | clearChildren =>
    obtain ⟨_, _, _, _, -, -, rfl⟩ := step_clearChildren hstep
    exact ⟨fun _ hchild ↦ absurd hchild List.not_mem_nil, fun _ _ _ hstop ↦ (by cases hstop)⟩
  | interrupt =>
    obtain ⟨-, rfl⟩ := step_interrupt hstep
    exact ⟨h.lt, fun _ _ _ hstop ↦ (by cases hstop)⟩

theorem listed_run {actions : List Action} :
    ∀ {s s' : State}, Listed s → run s actions = some s' → Listed s' := by
  induction actions with
  | nil => intro s s' h hrun; cases hrun; exact h
  | cons action actions ih =>
    intro s s' h hrun
    obtain ⟨middle, hstep, hrest⟩ := run_cons hrun
    exact ih (listed_step h hstep) hrest

/-- A transport is open, and the stop is past the point where it could have found it. -/
structure Missed (place : ℕ) (s : State) : Prop where
  isOpen : ∃ x, s.xports[place]? = some x ∧ x.isOpen = true
  started : s.stop ≠ .idle
  beyond : ∀ next last valid, s.stop = .interrupting next last valid →
    last ≤ s.server.children.length ∧ ∀ i < last, s.server.children[i]? ≠ some place

theorem missed_of_misses {s s' : State} {efd grown : ℕ} (h : Listed s)
    (hmiss : Misses s (.accept efd grown)) (hstep : step s (.accept efd grown) = some s') :
    Missed s.xports.length s' := by
  obtain ⟨hprogress, -, hopen⟩ := hmiss
  obtain ⟨-, ⟨hclosed, -⟩ | ⟨-, moved, room, rfl⟩⟩ := step_accept hstep
  · rw [hclosed] at hopen
    cases hopen
  · refine ⟨⟨⟨s.server.fd, efd⟩, ?_, ?_⟩, ?_, fun next last valid hstop ↦ ?_⟩
    · simp only [List.getElem?_concat_length]
    · rw [TFDServer.isOpen] at hopen
      simp only [Xport.isOpen, hopen, Bool.true_and, decide_eq_true_eq]
      exact Int.natCast_nonneg efd
    · intro hidle
      rw [StopAt.afterPush_eq_idle hidle] at hprogress
      cases hprogress
    · obtain ⟨before, hbefore⟩ := StopAt.afterPush_eq_interrupting hstop
      have hle := h.le _ _ _ hbefore
      refine ⟨by rw [List.length_append]; omega, fun i hi heq ↦ ?_⟩
      rw [List.getElem?_append_left (by omega)] at heq
      exact absurd (h.lt _ (List.mem_of_getElem? heq)) (lt_irrefl _)

/-- Only its own client closes a transport that the stop has missed. -/
theorem missed_step {s s' : State} {action : Action} {place : ℕ} (h : Missed place s)
    (hclient : action ≠ .clientFinishes) (hstep : step s action = some s') : Missed place s' := by
  obtain ⟨x, hx, hopen⟩ := h.isOpen
  have hplace : place < s.xports.length := (List.getElem?_eq_some_iff.mp hx).1
  cases action with
  | accept efd grown =>
    obtain ⟨-, ⟨-, rfl⟩ | ⟨-, moved, room, rfl⟩⟩ := step_accept hstep
    · exact ⟨h.isOpen, h.started, h.beyond⟩
    · refine ⟨⟨x, ?_, hopen⟩, fun hidle ↦ h.started (StopAt.afterPush_eq_idle hidle),
        fun next last valid hstop ↦ ?_⟩
      · rw [List.getElem?_append_left hplace, hx]
      · obtain ⟨before, hbefore⟩ := StopAt.afterPush_eq_interrupting hstop
        obtain ⟨hle, hbeyond⟩ := h.beyond _ _ _ hbefore
        refine ⟨by rw [List.length_append]; omega, fun i hi ↦ ?_⟩
        rw [List.getElem?_append_left (by omega)]
        exact hbeyond i hi
  | clientFinishes => exact absurd rfl hclient
  | stopStarts => exact absurd (step_stopStarts hstep).1 h.started
  | interruptChild =>
    obtain ⟨next, last, child, hstop, hlt, hchild, rfl⟩ := step_interruptChild hstep
    obtain ⟨hle, hbeyond⟩ := h.beyond _ _ _ hstop
    have hother : child ≠ place := fun heq ↦ hbeyond next hlt (by rw [hchild, heq])
    refine ⟨⟨x, ?_, hopen⟩, fun hidle ↦ (by cases hidle), fun next' last' valid hstop' ↦ ?_⟩
    · rw [List.getElem?_modify_ne _ _ hother, hx]
    · cases hstop'
      exact ⟨hle, hbeyond⟩
  | clearChildren =>
    obtain ⟨_, _, _, _, -, -, rfl⟩ := step_clearChildren hstep
    exact ⟨h.isOpen, fun hidle ↦ (by cases hidle), fun _ _ _ hstop ↦ (by cases hstop)⟩
  | interrupt =>
    obtain ⟨-, rfl⟩ := step_interrupt hstep
    exact ⟨h.isOpen, fun hidle ↦ (by cases hidle), fun _ _ _ hstop ↦ (by cases hstop)⟩

theorem missed_run {actions : List Action} {place : ℕ} :
    ∀ {s s' : State}, Missed place s → .clientFinishes ∉ actions → run s actions = some s' →
      Missed place s' := by
  induction actions with
  | nil => intro s s' h _ hrun; cases hrun; exact h
  | cons action actions ih =>
    intro s s' h hclient hrun
    obtain ⟨middle, hstep, hrest⟩ := run_cons hrun
    rw [List.mem_cons, not_or] at hclient
    exact ih (missed_step h (Ne.symm hclient.1) hstep) hclient.2 hrest

/-- A child that is handed out while the stop is in progress is open as long as its client stays, also
when the stop has returned. -/
theorem not_final_of_misses {fd : ℤ} {before after : List Action} {efd grown : ℕ}
    {s s' final : State} (hbefore : run (start fd) before = some s)
    (hmiss : Misses s (.accept efd grown)) (hstep : step s (.accept efd grown) = some s')
    (hclient : .clientFinishes ∉ after) (hafter : run s' after = some final) : ¬ Final final := by
  intro hfinal
  have hlisted := listed_run (listed_start fd) hbefore
  obtain ⟨x, hx, hopen⟩ :=
    (missed_run (missed_of_misses hlisted hmiss hstep) hclient hafter).isOpen
  rw [hfinal.closed x (List.mem_of_getElem? hx)] at hopen
  cases hopen

/-- The client that the stop interrupts leaves, and the next one is accepted before the list is
cleared: its transport is open when the stop has returned. -/
theorem not_final_missedChild :
    ∃ s, run (start 3) [.accept 4 1, .stopStarts, .interruptChild, .clientFinishes, .accept 5 1,
        .clearChildren, .interrupt] = some s ∧ s.stop = .returned ∧ ¬ Final s :=
  ⟨_, rfl, rfl, fun hfinal ↦ absurd (hfinal.closed ⟨3, 5⟩ (by decide)) (by decide)⟩

end ZephyrThrift.Server
