import ZephyrThrift.Server.Framework

/-!
# The clients of the server framework

`clients_`, `hwm_` and `limit_` beside the loop of `serve`. The loop counts a client in
`newlyConnectedClient`, several calls behind the comparison with the limit, and other threads dispose of
clients and set limits in between. Each block that the class guards with its monitor is one step here (the
lines that lock it are commented out, so the caller has to see to that). In every order of steps the
counters are right and no client is accepted above the limit (`clients_counted`).
-/

set_option autoImplicit false
set_option relaxedAutoImplicit false

namespace ZephyrThrift.Server

open Foundation

/-- Whether an `int64_t` cannot hold the value. -/
def overflows (value : ℤ) : Bool := value < -2 ^ 63 || 2 ^ 63 ≤ value

/-- The members of `TServerFramework` beside the loop of `serve`. `live` are the clients whose
`TConnectedClient` has been handed to `newlyConnectedClient` and has not been disposed of, `passed` the
limits that have let the loop through to `accept`. -/
structure Counting where
  serving : Serving
  clients : ℤ
  hwm : ℤ
  limit : ℤ
  live : List ℕ
  passed : List ℤ
  overflowed : Bool
  deriving DecidableEq, Repr

/-- A call of the loop, or one that another thread makes. -/
inductive CountingEvent
  | call (outcome : Outcome)
  | dispose (number : ℕ)
  | setLimit (newLimit : ℤ)
  deriving DecidableEq, Repr

/-- The constructors. -/
def Counting.start (listen preServe : Option Thrown) : Counting where
  serving := .start listen preServe
  clients := 0
  hwm := 0
  limit := 2 ^ 63 - 1
  live := []
  passed := []
  overflowed := false

/-- The block of `newlyConnectedClient`. -/
def Counting.newlyConnectedClient (s : Counting) : Counting :=
  { s with
    clients := s.clients + 1
    hwm := max s.hwm (s.clients + 1)
    live := s.serving.client.toList ++ s.live
    overflowed := s.overflowed || overflows (s.clients + 1) }

/-- `disposeConnectedClient`, behind `onClientDisconnected` and `delete`. -/
def Counting.disposeConnectedClient (s : Counting) (number : ℕ) : Counting :=
  { s with
    clients := s.clients - 1
    live := s.live.erase number
    overflowed := s.overflowed || overflows (s.clients - 1) || overflows (s.limit - (s.clients - 1)) }

/-- `setConcurrentClientLimit`; it throws when the limit is not positive. -/
def Counting.setConcurrentClientLimit (s : Counting) (newLimit : ℤ) : Counting :=
  if newLimit < 1 then s
  else { s with limit := newLimit, overflowed := s.overflowed || overflows (newLimit - s.clients) }

/-- The loop in front of `accept` reads the members. -/
def Counting.reads (s : Counting) : Outcome → Bool
  | .counted clients limit => clients = s.clients ∧ limit = s.limit
  | _ => true

/-- One step; `none` when it cannot be taken. -/
def Counting.step (outputProtocolFactory : Bool) (s : Counting) : CountingEvent → Option Counting
  | .call outcome =>
    if s.reads outcome then do
      let serving ← s.serving.step outputProtocolFactory outcome
      match s.serving.loop, serving.loop with
      | .waiting, .accept => some { s with serving := serving, passed := s.limit :: s.passed }
      | .connectedClient, .newlyConnectedClient =>
        some { s with serving := serving }.newlyConnectedClient
      | _, _ => some { s with serving := serving }
    else none
  | .dispose number => if number ∈ s.live then some (s.disposeConnectedClient number) else none
  | .setLimit newLimit =>
    if overflows newLimit then none else some (s.setConcurrentClientLimit newLimit)

/-- The server from its start on. -/
def Counting.run (outputProtocolFactory : Bool) (listen preServe : Option Thrown)
    (events : List CountingEvent) : Option Counting :=
  events.foldlM (Counting.step outputProtocolFactory) (.start listen preServe)

/-! ### The client of a turn -/

/-- The calls between `accept` and `newlyConnectedClient`: the turn has a client that is not connected
yet. -/
def LoopAt.connecting : LoopAt → Bool
  | .inputTransport | .outputTransport | .inputProtocol | .outputProtocol | .processor
  | .connectedClient => true
  | _ => false

/-- The calls that the loop makes once the limit let it through, until the client is counted. -/
def LoopAt.admitted (loop : LoopAt) : Bool := loop = .accept || loop.connecting

/-- No client is connected twice. -/
structure Numbered (s : Serving) : Prop where
  connected : ∀ number ∈ s.connected, number < s.accepted
  nodup : s.connected.Nodup
  client : s.loop.connecting = true →
    ∃ number, s.client = some number ∧ number < s.accepted ∧ number ∉ s.connected

section Turns

variable {outputProtocolFactory : Bool} {s s' : Serving}

theorem release_frame (s : Serving) (ttx : TransportException) (pending : List Transport) :
    (s.release ttx pending).connected = s.connected ∧
      (s.release ttx pending).accepted = s.accepted ∧
      (s.release ttx pending).loop.connecting = false ∧
      (s.release ttx pending).loop.trying = false := by
  cases pending with
  | cons transport pending => exact ⟨rfl, rfl, rfl, rfl⟩
  | nil =>
    rw [Serving.release]
    split <;> exact ⟨rfl, rfl, rfl, rfl⟩

theorem Numbered.release (h : Numbered s) (ttx : TransportException) (pending : List Transport) :
    Numbered (s.release ttx pending) := by
  obtain ⟨hconnected, haccepted, hloop, -⟩ := release_frame s ttx pending
  refine ⟨?_, ?_, fun hconnecting ↦ ?_⟩
  · rw [hconnected, haccepted]
    exact h.connected
  · rw [hconnected]
    exact h.nodup
  · rw [hloop] at hconnecting
    cases hconnecting

theorem Numbered.closes (h : Numbered s) (closed : List Transport) :
    Numbered { s with closed := closed } := ⟨h.connected, h.nodup, h.client⟩

theorem Numbered.returned (h : Numbered s)
    (hstep : s.step outputProtocolFactory .returned = some s') : Numbered s' := by
  obtain ⟨-, rfl⟩ | ⟨loop, hloop, rfl⟩ | ⟨hloop, rfl⟩ | ⟨-, rfl⟩ |
    ⟨transport, pending, caught, -, rfl⟩ := step_returned hstep
  · refine ⟨fun number hnumber ↦ Nat.lt_succ_of_lt (h.connected number hnumber), h.nodup,
      fun _ ↦ ⟨s.accepted, rfl, Nat.lt_succ_self _, fun hmem ↦ ?_⟩⟩
    exact absurd (h.connected _ hmem) (lt_irrefl _)
  · refine ⟨h.connected, h.nodup, fun _ ↦ h.client ?_⟩
    rcases hloop with ⟨hloop, -⟩ | ⟨hloop, -⟩ | ⟨hloop, -⟩ <;> rw [hloop] <;> rfl
  · obtain ⟨number, hclient, hlt, hnew⟩ := h.client (by rw [hloop]; rfl)
    simp only [hclient, Option.toList_some]
    refine ⟨fun other hother ↦ ?_, List.nodup_cons.mpr ⟨hnew, h.nodup⟩, fun hconnecting ↦ ?_⟩
    · rcases List.mem_cons.mp hother with rfl | hother
      · exact hlt
      · exact h.connected other hother
    · cases hconnecting
  · exact ⟨h.connected, h.nodup, fun hconnecting ↦ by cases hconnecting⟩
  · exact (h.closes _).release caught pending

theorem foreign_frame (h : s.step outputProtocolFactory (.threw .foreign) = some s') :
    s'.connected = s.connected ∧ s'.accepted = s.accepted ∧ s'.loop = .escaped .foreign := by
  unfold Serving.step at h
  cases hloop : s.loop <;> simp only [hloop] at h <;> cases h <;> exact ⟨rfl, rfl, rfl⟩

theorem Numbered.step {outcome : Outcome} (h : Numbered s)
    (hstep : s.step outputProtocolFactory outcome = some s') : Numbered s' := by
  cases outcome with
  | counted clients limit =>
    obtain ⟨-, rfl | rfl⟩ := step_counted hstep
    · exact h
    · exact ⟨h.connected, h.nodup, fun hconnecting ↦ by cases hconnecting⟩
  | gave transport =>
    obtain ⟨hloop, rfl⟩ | ⟨hloop, rfl⟩ := step_gave hstep <;>
      exact ⟨h.connected, h.nodup, fun _ ↦ h.client (by rw [hloop]; rfl)⟩
  | returned => exact h.returned hstep
  | threw thrown =>
    cases thrown with
    | transport ttx =>
      obtain ⟨-, rfl⟩ | ⟨transport, pending, caught, -, rfl⟩ := step_transport hstep
      · exact h.release ttx _
      · exact (h.closes _).release caught pending
    | foreign =>
      obtain ⟨hconnected, haccepted, hloop⟩ := foreign_frame hstep
      refine ⟨?_, ?_, fun hconnecting ↦ ?_⟩
      · rw [hconnected, haccepted]
        exact h.connected
      · rw [hconnected]
        exact h.nodup
      · rw [hloop] at hconnecting
        cases hconnecting

/-- What a call of the loop does to the counters: the limit lets it through, it connects a client, or it
does nothing. -/
inductive Counts (s s' : Serving) : Outcome → Prop
  | admits {clients limit : ℤ} (hlt : clients < limit) (hloop : s.loop = .waiting)
      (hnext : s' = { s with loop := .accept }) : Counts s s' (.counted clients limit)
  | connects (hloop : s.loop = .connectedClient) (hnext : s' = { s with
      loop := .newlyConnectedClient
      connected := s.client.toList ++ s.connected }) : Counts s s' .returned
  | nothing (outcome : Outcome) (hconnected : s'.connected = s.connected)
      (hadmitted : s'.loop.admitted = true → s.loop.admitted = true)
      (hnewly : s'.loop = .newlyConnectedClient → s.loop ≠ .connectedClient) : Counts s s' outcome

theorem counts_step {outcome : Outcome} (hstep : s.step outputProtocolFactory outcome = some s') :
    Counts s s' outcome := by
  have hreleased : ∀ (s s₀ : Serving) (ttx : TransportException) pending outcome,
      s.connected = s₀.connected → Counts s₀ (s.release ttx pending) outcome := by
    intro s s₀ ttx pending outcome hsame
    obtain ⟨hconnected, -, hconnecting, htrying⟩ := release_frame s ttx pending
    generalize s.release ttx pending = after at hconnected hconnecting htrying
    refine .nothing _ (hconnected.trans hsame) (fun hadmitted ↦ ?_) fun hloop ↦ ?_
    · cases hloop : after.loop <;> simp_all [LoopAt.admitted, LoopAt.trying]
    · rw [hloop] at htrying
      cases htrying
  cases outcome with
  | counted clients limit =>
    have hcounted := hstep
    unfold Serving.step at hcounted
    obtain ⟨hloop, -⟩ := step_counted hstep
    simp only [hloop, Option.some.injEq] at hcounted
    subst hcounted
    by_cases hle : limit ≤ clients
    · rw [if_pos hle]
      exact .nothing _ rfl (fun h ↦ h) fun h ↦ by simp [hloop]
    · rw [if_neg hle]
      exact .admits (not_le.mp hle) hloop rfl
  | gave transport =>
    obtain ⟨hloop, rfl⟩ | ⟨hloop, rfl⟩ := step_gave hstep <;>
      exact .nothing _ rfl (fun _ ↦ by rw [hloop]; rfl) fun h ↦ by cases h
  | returned =>
    obtain ⟨hloop, rfl⟩ | ⟨loop, hloop, rfl⟩ | ⟨hloop, rfl⟩ | ⟨hloop, rfl⟩ |
      ⟨transport, pending, caught, -, rfl⟩ := step_returned hstep
    · exact .nothing _ rfl (fun _ ↦ by rw [hloop]; rfl) fun h ↦ by cases h
    · refine .nothing _ rfl (fun _ ↦ ?_) fun h ↦ ?_
      · rcases hloop with ⟨hloop, -⟩ | ⟨hloop, -⟩ | ⟨hloop, -⟩ <;> rw [hloop] <;> rfl
      · rcases hloop with ⟨hloop, -⟩ | ⟨hloop, -⟩ | ⟨hloop, -⟩ <;> rw [hloop] <;> simp
    · exact .connects hloop rfl
    · exact .nothing _ rfl (fun h ↦ by cases h) fun h ↦ by cases h
    · exact hreleased _ _ _ _ _ rfl
  | threw thrown =>
    cases thrown with
    | transport ttx =>
      obtain ⟨-, rfl⟩ | ⟨transport, pending, caught, -, rfl⟩ := step_transport hstep <;>
        exact hreleased _ _ _ _ _ rfl
    | foreign =>
      obtain ⟨hconnected, -, hloop⟩ := foreign_frame hstep
      refine .nothing _ hconnected (fun h ↦ ?_) fun h ↦ ?_
      · rw [hloop] at h
        cases h
      · rw [hloop] at h
        cases h

end Turns

/-! ### The counters -/

/-- The counters are right, and a client that the limit let through has room. -/
structure Balanced (s : Counting) : Prop where
  numbered : Numbered s.serving
  clients : s.clients = s.live.length
  nodup : s.live.Nodup
  connected : ∀ number ∈ s.live, number ∈ s.serving.connected
  hwm : s.clients ≤ s.hwm
  limit : 1 ≤ s.limit ∧ s.limit < 2 ^ 63
  passed : ∀ limit ∈ s.passed, limit < 2 ^ 63
  bounded : s.hwm = 0 ∨ ∃ limit ∈ s.passed, s.hwm ≤ limit
  room : s.serving.loop.admitted = true → ∃ limit ∈ s.passed, s.clients < limit
  fits : s.overflowed = false

section Counters

variable {outputProtocolFactory : Bool} {s s' : Counting}

theorem balanced_start (listen preServe : Option Thrown) : Balanced (.start listen preServe) where
  numbered :=
    { connected := fun number hnumber ↦ absurd hnumber List.not_mem_nil
      nodup := List.nodup_nil
      client := fun hconnecting ↦ by cases listen <;> cases preServe <;> cases hconnecting }
  clients := rfl
  nodup := List.nodup_nil
  connected number hnumber := absurd hnumber List.not_mem_nil
  hwm := le_refl _
  limit := by simp only [Counting.start]; omega
  passed limit hlimit := absurd hlimit List.not_mem_nil
  bounded := .inl rfl
  room hadmitted := by cases listen <;> cases preServe <;> cases hadmitted
  fits := rfl

theorem call_cases {outcome : Outcome}
    (h : s.step outputProtocolFactory (.call outcome) = some s') :
    ∃ serving, s.serving.step outputProtocolFactory outcome = some serving ∧
      ((s.clients < s.limit ∧ serving = { s.serving with loop := .accept } ∧
        s' = { s with serving := serving, passed := s.limit :: s.passed }) ∨
      (s.serving.loop = .connectedClient ∧ serving = { s.serving with
          loop := .newlyConnectedClient
          connected := s.serving.client.toList ++ s.serving.connected } ∧
        s' = { s with serving := serving }.newlyConnectedClient) ∨
      serving.connected = s.serving.connected ∧
        (serving.loop.admitted = true → s.serving.loop.admitted = true) ∧
        s' = { s with serving := serving }) := by
  rw [Counting.step] at h
  split at h
  · next hreads =>
    obtain ⟨serving, hserving, hafter⟩ := Option.bind_eq_some_iff.mp h
    refine ⟨serving, hserving, ?_⟩
    cases counts_step hserving with
    | admits hlt hloop hnext =>
      simp only [hloop, hnext, Option.some.injEq] at hafter
      simp only [Counting.reads, decide_eq_true_eq] at hreads
      obtain ⟨rfl, rfl⟩ := hreads
      exact .inl ⟨hlt, hnext, by rw [hnext]; exact hafter.symm⟩
    | connects hloop hnext =>
      simp only [hloop, hnext, Option.some.injEq] at hafter
      exact .inr (.inl ⟨hloop, hnext, by rw [hnext]; exact hafter.symm⟩)
    | nothing _ hconnected hadmitted hnewly =>
      refine .inr (.inr ⟨hconnected, hadmitted, ?_⟩)
      split at hafter
      · next hloop haccept =>
        have := hadmitted (by rw [haccept]; rfl)
        rw [hloop] at this
        cases this
      · next hloop hnext => exact absurd hloop (hnewly hnext)
      · exact (Option.some.inj hafter).symm
  · cases h

theorem not_overflows {value : ℤ} (hlow : -2 ^ 63 ≤ value) (hhigh : value < 2 ^ 63) :
    overflows value = false := by
  rw [overflows, decide_eq_false (not_lt.mpr hlow), decide_eq_false (not_le.mpr hhigh)]
  rfl

/-- The client that the loop has just connected is counted. -/
theorem Balanced.connects (h : Balanced s) {serving : Serving}
    (hloop : s.serving.loop = .connectedClient) (hserving : serving = { s.serving with
      loop := .newlyConnectedClient
      connected := s.serving.client.toList ++ s.serving.connected }) (hnumbered : Numbered serving) :
    Balanced { s with serving := serving }.newlyConnectedClient := by
  obtain ⟨number, hclient, -, hnew⟩ := h.numbered.client (by rw [hloop]; rfl)
  obtain ⟨limit, hlimit, hroom⟩ := h.room (by rw [hloop]; rfl)
  have hhigh := h.passed limit hlimit
  have hclients := h.clients
  subst hserving
  simp only [Counting.newlyConnectedClient, hclient, Option.toList_some, List.singleton_append] at *
  refine ⟨hnumbered, ?_, ?_, fun other hother ↦ ?_, le_max_right _ _, h.limit, h.passed, ?_,
    fun hadmitted ↦ (by cases hadmitted), ?_⟩
  · simp only [List.length_cons, h.clients]
    push_cast
    rfl
  · exact List.nodup_cons.mpr ⟨fun hmem ↦ hnew (h.connected number hmem), h.nodup⟩
  · rcases List.mem_cons.mp hother with rfl | hother
    · exact List.mem_cons_self
    · exact List.mem_cons_of_mem _ (h.connected other hother)
  · right
    rcases max_choice s.hwm (s.clients + 1) with hmax | hmax
    · rw [hmax]
      rcases h.bounded with hzero | hbounded
      · exact ⟨limit, hlimit, by omega⟩
      · exact hbounded
    · rw [hmax]
      exact ⟨limit, hlimit, by simp only; omega⟩
  · rw [h.fits, not_overflows (by omega) (by omega)]
    rfl

theorem Balanced.call (h : Balanced s) {outcome : Outcome}
    (hstep : s.step outputProtocolFactory (.call outcome) = some s') : Balanced s' := by
  obtain ⟨serving, hserving, ⟨hlt, rfl, rfl⟩ | ⟨hloop, hnext, rfl⟩ | ⟨hconnected, hadmitted, rfl⟩⟩ :=
    call_cases hstep
  · refine ⟨h.numbered.step hserving, h.clients, h.nodup, h.connected, h.hwm, h.limit, ?_, ?_,
      fun _ ↦ ⟨s.limit, List.mem_cons_self, hlt⟩, h.fits⟩
    · intro limit hlimit
      rcases List.mem_cons.mp hlimit with rfl | hlimit
      · exact h.limit.2
      · exact h.passed limit hlimit
    · exact h.bounded.imp_right fun ⟨limit, hlimit, hle⟩ ↦
        ⟨limit, List.mem_cons_of_mem _ hlimit, hle⟩
  · exact h.connects hloop hnext (h.numbered.step hserving)
  · refine ⟨h.numbered.step hserving, h.clients, h.nodup, ?_, h.hwm, h.limit, h.passed, h.bounded,
      fun hloop ↦ h.room (hadmitted hloop), h.fits⟩
    rw [hconnected]
    exact h.connected

theorem Balanced.dispose (h : Balanced s) {number : ℕ} (hlive : number ∈ s.live) :
    Balanced (s.disposeConnectedClient number) := by
  have hpos := List.length_pos_of_mem hlive
  have hclients := h.clients
  have hlimit := h.limit
  have hhigh : s.clients < 2 ^ 63 := by
    have hhwm := h.hwm
    rcases h.bounded with hzero | ⟨limit, hpassed, hle⟩
    · omega
    · have := h.passed limit hpassed
      omega
  refine ⟨h.numbered, ?_, h.nodup.erase number, fun other hother ↦
    h.connected other (List.mem_of_mem_erase hother), ?_, h.limit, h.passed, h.bounded,
    fun hadmitted ↦ ?_, ?_⟩
  · simp only [Counting.disposeConnectedClient, List.length_erase_of_mem hlive]
    omega
  · have hhwm := h.hwm
    simp only [Counting.disposeConnectedClient]
    omega
  · obtain ⟨limit, hpassed, hlt⟩ := h.room hadmitted
    exact ⟨limit, hpassed, by simp only [Counting.disposeConnectedClient]; omega⟩
  · simp only [Counting.disposeConnectedClient]
    rw [h.fits, not_overflows (by omega) (by omega), not_overflows (by omega) (by omega)]
    rfl

theorem Balanced.setLimit (h : Balanced s) {newLimit : ℤ} (hfits : overflows newLimit = false) :
    Balanced (s.setConcurrentClientLimit newLimit) := by
  rw [Counting.setConcurrentClientLimit]
  split
  · exact h
  · next hpos =>
    have hclients := h.clients
    have hhigh : newLimit < 2 ^ 63 := by
      rw [overflows, Bool.or_eq_false_iff] at hfits
      exact not_le.mp (of_decide_eq_false hfits.2)
    have hlow : s.clients < 2 ^ 63 := by
      have hhwm := h.hwm
      rcases h.bounded with hzero | ⟨limit, hpassed, hle⟩
      · omega
      · have := h.passed limit hpassed
        omega
    refine ⟨h.numbered, h.clients, h.nodup, h.connected, h.hwm, ⟨by simp only; omega, hhigh⟩, h.passed,
      h.bounded, h.room, ?_⟩
    rw [h.fits, not_overflows (by omega) (by omega)]
    rfl

theorem Balanced.step (h : Balanced s) {event : CountingEvent}
    (hstep : s.step outputProtocolFactory event = some s') : Balanced s' := by
  cases event with
  | call outcome => exact h.call hstep
  | dispose number =>
    rw [Counting.step] at hstep
    split at hstep
    · next hlive =>
      cases hstep
      exact h.dispose hlive
    · cases hstep
  | setLimit newLimit =>
    rw [Counting.step] at hstep
    split at hstep
    · cases hstep
    · next hfits =>
      cases hstep
      exact h.setLimit (by simpa using hfits)

/-- The mark moves with the count. -/
theorem Balanced.hwm_step (h : Balanced s) {event : CountingEvent}
    (hstep : s.step outputProtocolFactory event = some s') : s'.hwm = max s.hwm s'.clients := by
  have hhwm := h.hwm
  cases event with
  | call outcome =>
    obtain ⟨serving, -, ⟨-, -, rfl⟩ | ⟨-, -, rfl⟩ | ⟨-, -, rfl⟩⟩ := call_cases hstep
    · exact (max_eq_left hhwm).symm
    · rfl
    · exact (max_eq_left hhwm).symm
  | dispose number =>
    rw [Counting.step] at hstep
    split at hstep
    · cases hstep
      refine (max_eq_left ?_).symm
      simp only [Counting.disposeConnectedClient]
      omega
    · cases hstep
  | setLimit newLimit =>
    rw [Counting.step] at hstep
    split at hstep
    · cases hstep
    · cases hstep
      rw [Counting.setConcurrentClientLimit]
      split <;> exact (max_eq_left hhwm).symm

end Counters

/-! ### Whole runs -/

section CountingRuns

variable {outputProtocolFactory : Bool} {listen preServe : Option Thrown}
  {events : List CountingEvent} {s : Counting}

/-- How many clients were served at once in the course of a run. -/
def liveCounts (outputProtocolFactory : Bool) (listen preServe : Option Thrown)
    (events : List CountingEvent) : Set ℤ :=
  {count | ∃ before s, before <+: events ∧
    Counting.run outputProtocolFactory listen preServe before = some s ∧ count = s.live.length}

theorem run_concat {event : CountingEvent} {s' : Counting}
    (h : Counting.run outputProtocolFactory listen preServe (events ++ [event]) = some s') :
    ∃ s, Counting.run outputProtocolFactory listen preServe events = some s ∧
      s.step outputProtocolFactory event = some s' := by
  rw [Counting.run, List.foldlM_append] at h
  obtain ⟨s, hrun, hlast⟩ := Option.bind_eq_some_iff.mp h
  obtain ⟨last, hstep, hnil⟩ := foldlM_cons_some hlast
  cases hnil
  exact ⟨s, hrun, hstep⟩

theorem balanced_run (h : Counting.run outputProtocolFactory listen preServe events = some s) :
    Balanced s :=
  foldlM_invariant (fun _ _ _ hs (_ : True) hstep ↦ hs.step hstep) events
    (balanced_start listen preServe) (fun _ _ ↦ trivial) h

/-- The high-water mark is the largest number of clients that were served at once. -/
theorem isGreatest_hwm (h : Counting.run outputProtocolFactory listen preServe events = some s) :
    IsGreatest (liveCounts outputProtocolFactory listen preServe events) s.hwm := by
  induction events using List.reverseRecOn generalizing s with
  | nil =>
    cases h
    refine ⟨⟨[], _, List.prefix_rfl, rfl, rfl⟩, ?_⟩
    rintro count ⟨before, s, hbefore, hs, rfl⟩
    cases List.prefix_nil.mp hbefore
    cases hs
    exact le_refl _
  | append_singleton events event ih =>
    have hbalanced := balanced_run h
    obtain ⟨s₀, hrun, hstep⟩ := run_concat h
    obtain ⟨⟨before, s₁, hbefore, hs₁, hcount⟩, hupper⟩ := ih hrun
    have hhwm := (balanced_run hrun).hwm_step hstep
    constructor
    · rcases max_choice s₀.hwm s.clients with hmax | hmax
      · rw [hhwm, hmax]
        exact ⟨before, s₁, hbefore.trans (List.prefix_append _ _), hs₁, hcount⟩
      · rw [hhwm, hmax]
        exact ⟨_, s, List.prefix_rfl, h, hbalanced.clients⟩
    · rintro count ⟨before, s', hbefore, hs', rfl⟩
      rw [hhwm]
      rcases List.prefix_concat_iff.mp hbefore with rfl | hearlier
      · cases h.symm.trans hs'
        rw [← hbalanced.clients]
        exact le_max_right _ _
      · exact (hupper ⟨before, s', hearlier, hs', rfl⟩).trans (le_max_left _ _)

/-- In every order of steps: `clients_` is the number of clients that are served, `hwm_` the largest number
there was, and at most a limit that the loop found above the count; nothing overflows. -/
theorem clients_counted
    (h : Counting.run outputProtocolFactory listen preServe events = some s) :
    s.clients = s.live.length ∧ s.live.Nodup ∧ (∀ number ∈ s.live, number ∈ s.serving.connected) ∧
      IsGreatest (liveCounts outputProtocolFactory listen preServe events) s.hwm ∧
      (s.hwm = 0 ∨ ∃ limit ∈ s.passed, s.hwm ≤ limit) ∧ s.overflowed = false := by
  have hbalanced := balanced_run h
  exact ⟨hbalanced.clients, hbalanced.nodup, hbalanced.connected, isGreatest_hwm h, hbalanced.bounded,
    hbalanced.fits⟩

/-- All limits that the loop has compared with, or will, are at most `bound`. -/
structure LimitedTo (bound : ℤ) (s : Counting) : Prop where
  limit : s.limit ≤ bound
  passed : ∀ limit ∈ s.passed, limit ≤ bound

theorem LimitedTo.step {bound : ℤ} {s s' : Counting} {event : CountingEvent} (h : LimitedTo bound s)
    (hevent : ∀ newLimit, event = .setLimit newLimit → newLimit ≤ bound)
    (hstep : s.step outputProtocolFactory event = some s') : LimitedTo bound s' := by
  cases event with
  | call outcome =>
    obtain ⟨serving, -, ⟨-, -, rfl⟩ | ⟨-, -, rfl⟩ | ⟨-, -, rfl⟩⟩ := call_cases hstep
    · refine ⟨h.limit, fun limit hlimit ↦ ?_⟩
      rcases List.mem_cons.mp hlimit with rfl | hlimit
      · exact h.limit
      · exact h.passed limit hlimit
    · exact ⟨h.limit, h.passed⟩
    · exact ⟨h.limit, h.passed⟩
  | dispose number =>
    rw [Counting.step] at hstep
    split at hstep <;> cases hstep
    exact ⟨h.limit, h.passed⟩
  | setLimit newLimit =>
    rw [Counting.step] at hstep
    split at hstep <;> cases hstep
    rw [Counting.setConcurrentClientLimit]
    split
    · exact h
    · exact ⟨hevent newLimit rfl, h.passed⟩

/-- A server whose limit is at most `bound` from its start on never serves more clients at once. -/
theorem live_le_limit {bound first : ℤ} (hpos : 1 ≤ first) (hfirst : first ≤ bound)
    (hlimits : ∀ newLimit, .setLimit newLimit ∈ events → newLimit ≤ bound)
    (h : Counting.run outputProtocolFactory listen preServe (.setLimit first :: events) = some s) :
    s.live.length ≤ bound := by
  have hbalanced := balanced_run h
  obtain ⟨middle, hset, hrest⟩ := foldlM_cons_some h
  have hmiddle : LimitedTo bound middle := by
    rw [Counting.step] at hset
    split at hset <;> cases hset
    rw [Counting.setConcurrentClientLimit, if_neg (by omega)]
    exact ⟨hfirst, fun limit hlimit ↦ absurd hlimit List.not_mem_nil⟩
  have hlimited : LimitedTo bound s :=
    foldlM_invariant (fun _ _ _ hs hallowed hstep ↦ LimitedTo.step hs hallowed hstep) events hmiddle
      (fun event hmem newLimit heq ↦ hlimits newLimit (heq ▸ hmem)) hrest
  rw [← hbalanced.clients]
  rcases hbalanced.bounded with hzero | ⟨limit, hpassed, hle⟩
  · exact hbalanced.hwm.trans (by omega)
  · exact (hbalanced.hwm.trans hle).trans (hlimited.passed limit hpassed)

end CountingRuns

/-- A server for one client at a time: the second one waits until the first is disposed of. -/
def oneAtATime : List CountingEvent :=
  [.call (.counted 0 1), .call .returned, .call (.gave (some (.client 0))), .call (.gave none),
    .call .returned, .call .returned, .call .returned, .call .returned, .call (.counted 1 1),
    .dispose 0, .call (.counted 0 1), .call .returned]

/-- How such a run ends: the second client is being connected. -/
def secondClient : Counting where
  serving := ⟨.inputTransport, some 1, none, none, 2, [0], []⟩
  clients := 0
  hwm := 1
  limit := 1
  live := []
  passed := [1, 1]
  overflowed := false

theorem clients_counted_oneAtATime :
    secondClient.clients = secondClient.live.length ∧ IsGreatest
      (liveCounts false none none (.setLimit 1 :: oneAtATime)) 1 := by
  have hcounted := clients_counted (show
    Counting.run false none none (.setLimit 1 :: oneAtATime) = some secondClient by decide)
  exact ⟨hcounted.1, hcounted.2.2.2.1⟩

theorem live_le_limit_oneAtATime : secondClient.live.length ≤ (1 : ℤ) :=
  live_le_limit le_rfl le_rfl (fun newLimit hmem ↦ by simp [oneAtATime] at hmem) (show
    Counting.run false none none (.setLimit 1 :: oneAtATime) = some secondClient by decide)

end ZephyrThrift.Server
