import ZephyrThrift.Foundation.EventRuns
import ZephyrThrift.Server.FdServer

/-!
# The loop of the server framework

`TServerFramework::serve` call by call: what each of its calls returns or throws is given, in the
order in which they are made. The handler of the loop catches `TTransportException` only, and nothing
else stands between the loop and the close of the server transport: the post-condition of `serve`
holds of those runs in which nothing else is thrown (`closesAll_iff`).
-/

set_option autoImplicit false
set_option relaxedAutoImplicit false

namespace ZephyrThrift.Server

open Foundation

/-- What a call can throw: a `TTransportException`, or anything else, as the `std::system_error` that
the transports of `TFDServer` throw. -/
inductive Thrown
  | transport (ttx : TransportException)
  | foreign
  deriving DecidableEq, Repr

/-- What the loop holds pointers to: accepted clients, numbered as they come, and what the transport
factories make of them. -/
inductive Transport
  | client (number : ℕ)
  | made (tag : ℕ)
  deriving DecidableEq, Repr

/-- The call that `serve` is in. `waiting` is the loop in front of `accept`, `releasing` the handler:
it closes `transport` now and the ones in `pending` later. -/
inductive LoopAt
  | waiting
  | accept
  | inputTransport
  | outputTransport
  | inputProtocol
  | outputProtocol
  | processor
  | connectedClient
  | newlyConnectedClient
  | releasing (transport : Transport) (pending : List Transport) (ttx : TransportException)
  | left
  | escaped (thrown : Thrown)
  deriving DecidableEq, Repr

/-- The data of `serve`: its pointers, and what it has done so far. The protocols are only handed on. -/
structure Serving where
  loop : LoopAt
  client : Option ℕ
  inputTransport : Option Transport
  outputTransport : Option Transport
  accepted : ℕ
  connected : List ℕ
  closed : List Transport
  deriving DecidableEq, Repr

/-- The outcome of a call. `counted` are the values of `clients_` and `limit_` that the loop in front
of `accept` reads; other threads change them. -/
inductive Outcome
  | counted (clients limit : ℤ)
  | returned
  | gave (transport : Option Transport)
  | threw (thrown : Thrown)
  deriving DecidableEq, Repr

/-- The exceptions after which the loop goes on. -/
def TransportException.continues : TransportException → Bool
  | .timedOut | .clientDisconnect => true
  | .endOfFile | .interrupted | .other => false

/-- The beginning of a turn resets the pointers. -/
def Serving.nextTurn (s : Serving) : Serving :=
  { s with loop := .waiting, client := none, inputTransport := none, outputTransport := none }

/-- `releaseOneDescriptor` for what is left to close, and the end of the handler. -/
def Serving.release (s : Serving) (ttx : TransportException) : List Transport → Serving
  | transport :: pending => { s with loop := .releasing transport pending ttx }
  | [] => if ttx.continues then s.nextTurn else { s with loop := .left }

/-- The pointers of the handler that are not null, in its order. -/
def Serving.descriptors (s : Serving) : List Transport :=
  s.inputTransport.toList ++ (s.outputTransport.toList ++ (s.client.map Transport.client).toList)

/-- An exception in the `try` block. -/
def Serving.catches (s : Serving) : Thrown → Serving
  | .transport ttx => s.release ttx s.descriptors
  | .foreign => { s with loop := .escaped .foreign }

/-- One call; `none` when `serve` makes no call with such an outcome. -/
def Serving.step (outputProtocolFactory : Bool) (s : Serving) (outcome : Outcome) : Option Serving :=
  match s.loop, outcome with
  | .waiting, .counted clients limit =>
    some (if limit ≤ clients then s else { s with loop := .accept })
  | .accept, .returned =>
    some { s with
      loop := .inputTransport
      client := some s.accepted
      accepted := s.accepted + 1 }
  | .inputTransport, .gave transport =>
    some { s with loop := .outputTransport, inputTransport := transport }
  | .outputTransport, .gave transport =>
    some { s with loop := .inputProtocol, outputTransport := transport }
  | .inputProtocol, .returned =>
    some { s with loop := if outputProtocolFactory then .outputProtocol else .processor }
  | .outputProtocol, .returned => some { s with loop := .processor }
  | .processor, .returned => some { s with loop := .connectedClient }
  | .connectedClient, .returned =>
    some { s with loop := .newlyConnectedClient, connected := s.client.toList ++ s.connected }
  | .newlyConnectedClient, .returned => some s.nextTurn
  -- `releaseOneDescriptor` catches the same exceptions
  | .releasing transport pending ttx, .returned
  | .releasing transport pending ttx, .threw (.transport _) =>
    some ({ s with closed := transport :: s.closed }.release ttx pending)
  | .releasing transport _ _, .threw .foreign =>
    some { s with loop := .escaped .foreign, closed := transport :: s.closed }
  | .accept, .threw thrown
  | .inputTransport, .threw thrown
  | .outputTransport, .threw thrown
  | .inputProtocol, .threw thrown
  | .outputProtocol, .threw thrown
  | .processor, .threw thrown
  | .connectedClient, .threw thrown
  | .newlyConnectedClient, .threw thrown => some (s.catches thrown)
  | _, _ => none

/-- The calls in front of the loop, `listen` and, with an event handler, `preServe`. -/
def Serving.start (listen preServe : Option Thrown) : Serving :=
  let loop := match listen, preServe with
    | some thrown, _ | none, some thrown => .escaped thrown
    | none, none => .waiting
  ⟨loop, none, none, none, 0, [], []⟩

/-- How `serve` ended, what it did, and whether it called `serverTransport_->close()`. -/
structure Served where
  threw : Option Thrown
  last : Serving
  serverClosed : Bool
  deriving DecidableEq, Repr

/-- `TServerFramework::serve` with the outcomes of its calls in the loop and, where the loop is left,
of the close of the server transport; `none` when they are not those of a run that ends. -/
def serve (outputProtocolFactory : Bool) (listen preServe : Option Thrown) (outcomes : List Outcome)
    (close : Option Thrown) : Option Served := do
  let s ← outcomes.foldlM (Serving.step outputProtocolFactory) (Serving.start listen preServe)
  match s.loop with
  | .left =>
    some ⟨match close with | some .foreign => some .foreign | _ => none, s, true⟩
  | .escaped thrown => some ⟨some thrown, s, false⟩
  | _ => none

/-- The server transport is closed, and so is every client that got no `TConnectedClient`. -/
structure ClosesAll (r : Served) : Prop where
  server : r.serverClosed = true
  clients : ∀ number < r.last.accepted, number ∉ r.last.connected →
    Transport.client number ∈ r.last.closed

/-! ### What a step can do -/

/-- The calls of the `try` block. -/
def LoopAt.trying : LoopAt → Bool
  | .waiting | .releasing _ _ _ | .left | .escaped _ => false
  | _ => true

section Steps

variable {outputProtocolFactory : Bool} {s s' : Serving}

theorem step_counted {clients limit : ℤ}
    (h : s.step outputProtocolFactory (.counted clients limit) = some s') :
    s.loop = .waiting ∧ (s' = s ∨ s' = { s with loop := .accept }) := by
  unfold Serving.step at h
  cases hloop : s.loop <;> simp only [hloop] at h <;> try cases h
  split
  · exact ⟨rfl, .inl rfl⟩
  · exact ⟨rfl, .inr rfl⟩

theorem step_gave {transport : Option Transport}
    (h : s.step outputProtocolFactory (.gave transport) = some s') :
    (s.loop = .inputTransport ∧ s' = { s with loop := .outputTransport, inputTransport := transport }) ∨
      s.loop = .outputTransport ∧ s' = { s with loop := .inputProtocol, outputTransport := transport } := by
  unfold Serving.step at h
  cases hloop : s.loop <;> simp only [hloop] at h <;> cases h
  · exact .inl ⟨rfl, rfl⟩
  · exact .inr ⟨rfl, rfl⟩

theorem step_transport {ttx : TransportException}
    (h : s.step outputProtocolFactory (.threw (.transport ttx)) = some s') :
    (s.loop.trying = true ∧ s' = s.catches (.transport ttx)) ∨
      ∃ transport pending caught, s.loop = .releasing transport pending caught ∧
        s' = { s with closed := transport :: s.closed }.release caught pending := by
  unfold Serving.step at h
  cases hloop : s.loop with
  | releasing transport pending caught =>
    simp only [hloop] at h
    cases h
    exact .inr ⟨_, _, _, rfl, rfl⟩
  | waiting | left | escaped => simp only [hloop] at h; cases h
  | accept | inputTransport | outputTransport | inputProtocol | outputProtocol | processor
  | connectedClient | newlyConnectedClient =>
    simp only [hloop] at h
    cases h
    exact .inl ⟨rfl, rfl⟩

/-- No handler stands between another exception and the caller of `serve`. -/
theorem step_foreign (h : s.step outputProtocolFactory (.threw .foreign) = some s') :
    s'.loop = .escaped .foreign := by
  unfold Serving.step at h
  cases hloop : s.loop <;> simp only [hloop] at h <;> cases h <;> rfl

theorem step_returned (h : s.step outputProtocolFactory .returned = some s') :
    (s.loop = .accept ∧ s' = { s with
      loop := .inputTransport
      client := some s.accepted
      accepted := s.accepted + 1 }) ∨
    (∃ loop, (s.loop = .inputProtocol ∧ (loop = .outputProtocol ∨ loop = .processor) ∨
        s.loop = .outputProtocol ∧ loop = .processor ∨
        s.loop = .processor ∧ loop = .connectedClient) ∧ s' = { s with loop := loop }) ∨
    (s.loop = .connectedClient ∧ s' = { s with
      loop := .newlyConnectedClient
      connected := s.client.toList ++ s.connected }) ∨
    (s.loop = .newlyConnectedClient ∧ s' = s.nextTurn) ∨
    ∃ transport pending caught, s.loop = .releasing transport pending caught ∧
      s' = { s with closed := transport :: s.closed }.release caught pending := by
  unfold Serving.step at h
  cases hloop : s.loop with
  | accept =>
    simp only [hloop] at h
    cases h
    exact .inl ⟨rfl, rfl⟩
  | inputProtocol =>
    simp only [hloop] at h
    cases h
    refine .inr (.inl ⟨_, .inl ⟨rfl, ?_⟩, rfl⟩)
    cases outputProtocolFactory
    · exact .inr rfl
    · exact .inl rfl
  | outputProtocol =>
    simp only [hloop] at h
    cases h
    exact .inr (.inl ⟨_, .inr (.inl ⟨rfl, rfl⟩), rfl⟩)
  | processor =>
    simp only [hloop] at h
    cases h
    exact .inr (.inl ⟨_, .inr (.inr ⟨rfl, rfl⟩), rfl⟩)
  | connectedClient =>
    simp only [hloop] at h
    cases h
    exact .inr (.inr (.inl ⟨rfl, rfl⟩))
  | newlyConnectedClient =>
    simp only [hloop] at h
    cases h
    exact .inr (.inr (.inr (.inl ⟨rfl, rfl⟩)))
  | releasing transport pending caught =>
    simp only [hloop] at h
    cases h
    exact .inr (.inr (.inr (.inr ⟨_, _, _, rfl, rfl⟩)))
  | waiting | inputTransport | outputTransport | left | escaped =>
    simp only [hloop] at h
    cases h

end Steps

/-! ### The clients -/

/-- The client that the present turn still has to connect or to close. -/
def Serving.held (s : Serving) : List Transport :=
  match s.loop with
  | .releasing transport pending _ => transport :: pending
  | .waiting | .accept | .newlyConnectedClient | .left | .escaped _ => []
  | _ => (s.client.map Transport.client).toList

/-- Every accepted client is connected, closed, or in the hands of the present turn. -/
def Settled (s : Serving) : Prop :=
  ∀ number < s.accepted,
    number ∈ s.connected ∨ .client number ∈ s.closed ∨ .client number ∈ s.held

theorem settled_start (listen preServe : Option Thrown) : Settled (.start listen preServe) :=
  fun _ h ↦ absurd h (Nat.not_lt_zero _)

/-- What the handler is about to close counts as held. -/
theorem settled_release {s : Serving} {ttx : TransportException} {pending : List Transport}
    (h : ∀ number < s.accepted,
      number ∈ s.connected ∨ .client number ∈ s.closed ∨ .client number ∈ pending) :
    Settled (s.release ttx pending) := by
  cases pending with
  | cons transport pending => exact h
  | nil =>
    intro number hnumber
    rw [Serving.release] at hnumber ⊢
    split at hnumber <;> rename_i hcontinues
    · rw [if_pos hcontinues]
      exact h number hnumber
    · rw [if_neg hcontinues]
      exact h number hnumber

/-- The handler takes over the client of the `try` block. -/
theorem settled_catches {s : Serving} {ttx : TransportException} (h : Settled s)
    (hheld : ∀ number, .client number ∈ s.held → s.client = some number) :
    Settled (s.catches (.transport ttx)) := by
  refine settled_release fun number hnumber ↦ ?_
  rcases h number hnumber with hconnected | hclosed | hmine
  · exact .inl hconnected
  · exact .inr (.inl hclosed)
  · refine .inr (.inr ?_)
    simp [Serving.descriptors, hheld number hmine]

/-- A transport that the handler has closed is no longer held. -/
theorem settled_closed {s : Serving} {transport : Transport} {pending : List Transport}
    {caught : TransportException} (h : Settled s)
    (hloop : s.loop = .releasing transport pending caught) :
    Settled ({ s with closed := transport :: s.closed }.release caught pending) := by
  refine settled_release fun number hnumber ↦ ?_
  rcases h number hnumber with hconnected | hclosed | hmine
  · exact .inl hconnected
  · exact .inr (.inl (List.mem_cons_of_mem _ hclosed))
  · rw [Serving.held, hloop] at hmine
    rcases List.mem_cons.mp hmine with hnow | hlater
    · exact .inr (.inl (hnow ▸ List.mem_cons_self))
    · exact .inr (.inr hlater)

theorem settled_returned {outputProtocolFactory : Bool} {s s' : Serving} (h : Settled s)
    (hstep : s.step outputProtocolFactory .returned = some s') : Settled s' := by
  obtain ⟨hloop, rfl⟩ | ⟨loop, hloop, rfl⟩ | ⟨hloop, rfl⟩ | ⟨hloop, rfl⟩ |
    ⟨transport, pending, caught, hloop, rfl⟩ := step_returned hstep
  · intro number hnumber
    rcases Nat.lt_succ_iff_lt_or_eq.mp hnumber with hlt | rfl
    · have hmine := h number hlt
      simp only [Serving.held, hloop, List.not_mem_nil, or_false] at hmine
      exact hmine.imp_right .inl
    · exact .inr (.inr List.mem_cons_self)
  · rcases hloop with ⟨hloop, rfl | rfl⟩ | ⟨hloop, rfl⟩ | ⟨hloop, rfl⟩ <;>
      simpa only [Settled, Serving.held, hloop] using h
  · intro number hnumber
    rcases h number hnumber with hconnected | hclosed | hmine
    · exact .inl (List.mem_append_right _ hconnected)
    · exact .inr (.inl hclosed)
    · refine .inl (List.mem_append_left _ ?_)
      simpa [Serving.held, hloop] using hmine
  · simpa only [Settled, Serving.held, Serving.nextTurn, hloop] using h
  · exact settled_closed h hloop

theorem settled_step {outputProtocolFactory : Bool} (s s' : Serving) (outcome : Outcome)
    (h : Settled s) (hforeign : outcome ≠ .threw .foreign)
    (hstep : s.step outputProtocolFactory outcome = some s') : Settled s' := by
  cases outcome with
  | counted clients limit =>
    obtain ⟨hloop, rfl | rfl⟩ := step_counted hstep
    · exact h
    · simpa only [Settled, Serving.held, hloop] using h
  | gave transport =>
    obtain ⟨hloop, rfl⟩ | ⟨hloop, rfl⟩ := step_gave hstep <;>
      simpa only [Settled, Serving.held, hloop] using h
  | returned => exact settled_returned h hstep
  | threw thrown =>
    cases thrown with
    | foreign => exact absurd rfl hforeign
    | transport ttx =>
      obtain ⟨htrying, rfl⟩ | ⟨transport, pending, caught, hloop, rfl⟩ := step_transport hstep
      · refine settled_catches h fun number hheld ↦ ?_
        cases hloop : s.loop <;> simp_all [Serving.held, LoopAt.trying]
      · exact settled_closed h hloop

/-! ### Whole runs -/

/-- An exception has left `serve`. -/
def Serving.Escaped (s : Serving) : Prop := ∃ thrown, s.loop = .escaped thrown

theorem not_step_escaped {outputProtocolFactory : Bool} {s s' : Serving} {outcome : Outcome}
    (h : s.Escaped) : s.step outputProtocolFactory outcome ≠ some s' := by
  obtain ⟨thrown, hloop⟩ := h
  simp [Serving.step, hloop]

theorem not_escaped_release {s : Serving} {ttx : TransportException} {pending : List Transport} :
    ¬ (s.release ttx pending).Escaped := by
  rintro ⟨thrown, h⟩
  cases pending with
  | cons transport pending => cases h
  | nil =>
    rw [Serving.release] at h
    split at h <;> cases h

/-- Without an exception of another kind, `serve` stays in its loop or leaves it by `break`. -/
theorem not_escaped_step {outputProtocolFactory : Bool} (s s' : Serving) (outcome : Outcome)
    (hforeign : outcome ≠ .threw .foreign)
    (hstep : s.step outputProtocolFactory outcome = some s') : ¬ s'.Escaped := by
  cases outcome with
  | counted clients limit =>
    obtain ⟨hloop, rfl | rfl⟩ := step_counted hstep <;> rintro ⟨thrown, h⟩
    · cases hloop.symm.trans h
    · cases h
  | gave transport =>
    obtain ⟨-, rfl⟩ | ⟨-, rfl⟩ := step_gave hstep <;> rintro ⟨thrown, h⟩ <;> cases h
  | returned =>
    obtain ⟨-, rfl⟩ | ⟨loop, hloop, rfl⟩ | ⟨-, rfl⟩ | ⟨-, rfl⟩ | ⟨_, _, _, -, rfl⟩ :=
      step_returned hstep
    · rintro ⟨thrown, h⟩; cases h
    · rcases hloop with ⟨-, rfl | rfl⟩ | ⟨-, rfl⟩ | ⟨-, rfl⟩ <;> rintro ⟨thrown, h⟩ <;> cases h
    · rintro ⟨thrown, h⟩; cases h
    · rintro ⟨thrown, h⟩; cases h
    · exact not_escaped_release
  | threw thrown =>
    cases thrown with
    | foreign => exact absurd rfl hforeign
    | transport ttx =>
      obtain ⟨-, rfl⟩ | ⟨_, _, _, -, rfl⟩ := step_transport hstep <;> exact not_escaped_release

section Runs

variable {outputProtocolFactory : Bool} {listen preServe close : Option Thrown}
  {outcomes : List Outcome} {s : Serving} {r : Served}

/-- The loop is not left by an exception if and only if none of its calls throws another exception
than a `TTransportException`, and it was reached. -/
theorem not_escaped_iff
    (hrun : outcomes.foldlM (Serving.step outputProtocolFactory) (.start listen preServe) = some s) :
    ¬ s.Escaped ↔ listen = none ∧ preServe = none ∧ .threw .foreign ∉ outcomes := by
  constructor
  · intro halive
    have hfatal : ∀ s s' outcome, outcome = Outcome.threw .foreign →
        Serving.step outputProtocolFactory s outcome = some s' → s'.Escaped :=
      fun s s' outcome hforeign hstep ↦ ⟨.foreign, step_foreign (hforeign ▸ hstep)⟩
    obtain ⟨hstart, hnone⟩ := foldlM_alive hfatal
      (fun s s' outcome hescaped hstep ↦ absurd hstep (not_step_escaped hescaped)) outcomes hrun halive
    refine ⟨?_, ?_, fun hmem ↦ hnone _ hmem rfl⟩
    · cases listen with
      | none => rfl
      | some thrown => exact absurd ⟨thrown, rfl⟩ hstart
    · cases preServe with
      | none => rfl
      | some thrown =>
        refine absurd ?_ hstart
        cases listen <;> exact ⟨_, rfl⟩
  · rintro ⟨rfl, rfl, hnone⟩
    exact foldlM_invariant (fun s s' outcome _ ↦ not_escaped_step s s' outcome) outcomes
      (by rintro ⟨thrown, h⟩; cases h) (fun outcome hmem heq ↦ hnone (heq ▸ hmem)) hrun

/-- The post-condition of `serve` holds of a run that ends if and only if `listen` and `preServe`
return and no call of the loop throws another exception than a `TTransportException`. -/
theorem closesAll_iff (h : serve outputProtocolFactory listen preServe outcomes close = some r) :
    ClosesAll r ↔ listen = none ∧ preServe = none ∧ Outcome.threw .foreign ∉ outcomes := by
  obtain ⟨s, hrun, hend⟩ := Option.bind_eq_some_iff.mp h
  rw [← not_escaped_iff hrun]
  split at hend <;> cases hend <;> rename_i hloop
  · refine ⟨fun _ ↦ ?_, fun halive ↦ ⟨rfl, ?_⟩⟩
    · rintro ⟨thrown, hescaped⟩
      cases hloop.symm.trans hescaped
    obtain ⟨-, -, hnone⟩ := (not_escaped_iff hrun).mp halive
    have hsettled := foldlM_invariant settled_step outcomes (settled_start listen preServe)
      (fun outcome hmem heq ↦ hnone (heq ▸ hmem)) hrun
    intro number hnumber hconnected
    have hmine := (hsettled number hnumber).resolve_left hconnected
    simpa [Serving.held, hloop] using hmine
  · exact ⟨fun hcloses ↦ absurd hcloses.server Bool.false_ne_true,
      fun halive ↦ absurd ⟨_, hloop⟩ halive⟩

end Runs

/-- A client whose protocol factory throws a `TTransportException` and a client that is served; then
the server is stopped. -/
def oneServed : List Outcome :=
  [.counted 0 10, .returned, .gave (some (.client 0)), .gave (some (.made 7)),
    .threw (.transport .clientDisconnect), .returned, .returned, .returned,
    .counted 0 10, .returned, .gave (some (.client 1)), .gave (some (.client 1)), .returned, .returned,
    .returned, .returned, .counted 1 10, .threw (.transport .interrupted)]

theorem closesAll_oneServed : ∃ r, serve false none none oneServed none = some r ∧
    r.last.accepted = 2 ∧ ClosesAll r := by
  have hserve : serve false none none oneServed none = some
      ⟨none, ⟨.left, none, none, none, 2, [1], [.client 0, .made 7, .client 0]⟩, true⟩ := by decide
  exact ⟨_, hserve, rfl, (closesAll_iff hserve).mpr ⟨rfl, rfl, by decide⟩⟩

/-- A client whose reading throws a `std::system_error`: the exception leaves `serve`, and neither the
client nor the server transport is closed. -/
theorem not_closesAll_systemError : ∃ r,
    serve false none none [.counted 0 10, .returned, .gave (some (.client 0)), .gave none,
      .threw .foreign] none = some r ∧ r.threw = some .foreign ∧ ¬ ClosesAll r :=
  ⟨_, rfl, rfl, fun hcloses ↦ by cases hcloses.server⟩

end ZephyrThrift.Server
