import ZephyrThrift.Foundation.EventRuns

/-!
# The TLS server socket

`TSSLServerSocket::listen`, in which the outcome of every system call is given. The loop that retries
`bind` opens a new socket each time and forgets the one before, a refused `TLS_SEC_TAG_LIST` leaves
the call with the socket open, and a failed sleep leaves the loop as a successful `bind` does.
`leaksNothing_iff` says for which outcomes none of this matters.
-/

set_option autoImplicit false
set_option relaxedAutoImplicit false

namespace ZephyrThrift.Transport

open Foundation

/-! ### The call -/

inductive ExceptionType
  | notOpen
  | badArgs
  deriving DecidableEq, Repr

/-- The `TTransportException` that `listen` throws. -/
structure TTransportException where
  type : ExceptionType
  message : String
  deriving DecidableEq, Repr

/-- The outcome of one turn of the retry loop: `socket` fails, then `setsockopt(TLS_SEC_TAG_LIST)`,
then `bind`, or none of them. Where the loop would go on, `slept` tells whether the sleep in front of
the next turn returns zero. -/
inductive Attempt
  | noSocket (slept : Bool)
  | noSecTags
  | unbound (slept : Bool)
  | bound
  deriving DecidableEq, Repr

/-- Where the retry loop is. -/
inductive LoopPhase
  | trying
  | left
  | threw (exception : TTransportException)
  deriving DecidableEq, Repr

/-- The data of `listen`. The sockets that the loop opens are numbered in order, and `bound` holds
those for which `bind` succeeded. -/
structure Listening where
  phase : LoopPhase
  retries : ℤ
  serverSocket : Option ℕ
  opened : ℕ
  bound : List ℕ
  closed : List ℕ
  deriving DecidableEq, Repr

def Listening.start : Listening := ⟨.trying, 0, none, 0, [], []⟩

/-- `serverSocket_ = socket(…)`, successfully. -/
def Listening.socket (s : Listening) : Listening :=
  { s with serverSocket := some s.opened, opened := s.opened + 1 }

/-- `TSSLServerSocket::close`, as far as it concerns the server socket. -/
def Listening.close (s : Listening) : Listening :=
  { s with serverSocket := none, closed := s.serverSocket.toList ++ s.closed }

/-- The condition of the loop, `(retries++ < retryLimit_) && (THRIFT_SLEEP_SEC(retryDelay_) == 0)`. -/
def Listening.again (retryLimit : ℤ) (s : Listening) (slept : Bool) : Listening :=
  { s with
    retries := s.retries + 1
    phase := if decide (s.retries < retryLimit) && slept then .trying else .left }

/-- One turn of the retry loop; `none` when the loop has been left. -/
def Listening.tryBind (retryLimit : ℤ) (s : Listening) (attempt : Attempt) : Option Listening :=
  if s.phase = .trying then
    match attempt with
    | .noSocket slept => some ({ s with serverSocket := none }.again retryLimit slept)
    | .noSecTags => some { s.socket with phase := .threw ⟨.notOpen, "set TLS_SEC_TAG_LIST failed"⟩ }
    | .unbound slept => some (s.socket.again retryLimit slept)
    | .bound => some { s.socket with phase := .left, bound := s.opened :: s.bound }
  else none

/-- What a call of `listen` comes to: the exception, if it throws one, its data, and `port_`. -/
structure Listened where
  threw : Option TTransportException
  last : Listening
  port : ℤ
  deriving DecidableEq, Repr

/-- Behind the loop. `sockname` is the port that `getsockname` reports, if it does, and `listens`
tells whether `::listen` succeeds. -/
def Listening.finish (retryLimit port : ℤ) (sockname : Option ℤ) (listens : Bool) (s : Listening) :
    Listened :=
  let port := if port = 0 ∧ s.retries ≤ retryLimit then sockname.getD port else port
  if s.serverSocket = none then
    ⟨some ⟨.notOpen, "Could not create server socket."⟩, s.close, port⟩
  else if retryLimit < s.retries then ⟨some ⟨.notOpen, "Could not bind"⟩, s.close, port⟩
  else if listens then ⟨none, s, port⟩
  else ⟨some ⟨.notOpen, "Could not listen"⟩, s.close, port⟩

/-- `TSSLServerSocket::listen`; `none` when the attempts are not those that the loop makes. -/
def listen (retryLimit port : ℤ) (resolves : Bool) (attempts : List Attempt) (sockname : Option ℤ)
    (listens : Bool) : Option Listened :=
  if port < 0 ∨ 0xFFFF < port then
    if attempts = [] then some ⟨some ⟨.badArgs, "Specified port is invalid"⟩, .start, port⟩ else none
  else if ¬ resolves then
    if attempts = [] then
      some ⟨some ⟨.notOpen, "Could not resolve host for server socket."⟩, Listening.start.close, port⟩
    else none
  else do
    let s ← attempts.foldlM (Listening.tryBind retryLimit) .start
    match s.phase with
    | .trying => none
    | .left => some (s.finish retryLimit port sockname listens)
    | .threw exception => some ⟨some exception, s, port⟩

/-- After a normal return the server socket is bound and every other socket is closed; after an
exception, every socket is closed. -/
def LeaksNothing (r : Listened) : Prop :=
  match r.threw with
  | none => ∃ kept ∈ r.last.bound, r.last.serverSocket = some kept ∧
      ∀ number < r.last.opened, number ≠ kept → number ∈ r.last.closed
  | some _ => ∀ number < r.last.opened, number ∈ r.last.closed

/-! ### The retry loop -/

/-- `socket` succeeded. -/
def Attempt.opens : Attempt → Bool
  | .noSocket _ => false
  | .noSecTags | .unbound _ | .bound => true

/-- The attempts after which the loop can go on. -/
def Attempt.Retried (attempt : Attempt) : Prop := attempt = .noSocket true ∨ attempt = .unbound true

section Loop

variable {retryLimit : ℤ} {s s' : Listening} {attempt : Attempt}

theorem tryBind_trying (h : s.tryBind retryLimit attempt = some s') : s.phase = .trying := by
  unfold Listening.tryBind at h
  split at h
  · assumption
  · cases h

theorem again_trying {slept : Bool} (h : (s.again retryLimit slept).phase = .trying) : slept = true := by
  cases slept with
  | true => rfl
  | false => simp [Listening.again] at h

/-- What a turn does behind which the loop goes on. -/
theorem tryBind_retried (h : s.tryBind retryLimit attempt = some s') (hphase : s'.phase = .trying) :
    attempt.Retried ∧ s'.retries = s.retries + 1 ∧ s'.closed = s.closed ∧ s'.bound = s.bound ∧
      s'.opened = s.opened + if attempt.opens then 1 else 0 := by
  have htrying := tryBind_trying h
  unfold Listening.tryBind at h
  rw [if_pos htrying] at h
  cases attempt with
  | noSocket slept =>
    cases h
    exact ⟨.inl (by rw [again_trying hphase]), rfl, rfl, rfl, rfl⟩
  | noSecTags => cases h; cases hphase
  | unbound slept =>
    cases h
    exact ⟨.inr (by rw [again_trying hphase]), rfl, rfl, rfl, rfl⟩
  | bound => cases h; cases hphase

/-- What the turns have done while the loop goes on. -/
theorem tryBind_run (attempts : List Attempt) :
    ∀ {s s' : Listening}, attempts.foldlM (Listening.tryBind retryLimit) s = some s' →
      s'.phase = .trying →
        (∀ attempt ∈ attempts, attempt.Retried) ∧ s'.retries = s.retries + attempts.length ∧
          s'.closed = s.closed ∧ s'.bound = s.bound ∧
          s'.opened = s.opened + attempts.countP (·.opens) := by
  induction attempts with
  | nil => intro s s' h _; cases h; simp
  | cons attempt attempts ih =>
    intro s s' h hphase
    obtain ⟨middle, hfirst, hrest⟩ := foldlM_cons_some h
    have hmiddle : middle.phase = .trying := by
      cases attempts with
      | nil => cases hrest; exact hphase
      | cons next attempts =>
        obtain ⟨_, hnext, -⟩ := foldlM_cons_some hrest
        exact tryBind_trying hnext
    obtain ⟨hretried, hretries, hclosed, hbound, hopened⟩ := tryBind_retried hfirst hmiddle
    obtain ⟨hretried', hretries', hclosed', hbound', hopened'⟩ := ih hrest hphase
    refine ⟨List.forall_mem_cons.mpr ⟨hretried, hretried'⟩, ?_, hclosed'.trans hclosed,
      hbound'.trans hbound, ?_⟩
    · rw [hretries', hretries, List.length_cons]
      push_cast
      ring
    · rw [hopened', hopened, List.countP_cons]
      omega

end Loop

/-! ### The whole call -/

/-- The loop opened no socket before its last turn, if every socket that it opened is closed but the
last one. -/
theorem countP_opens_eq_zero {attempts : List Attempt} :
    attempts.countP (·.opens) = 0 ↔ ∀ attempt ∈ attempts, attempt.opens = false := by
  rw [List.countP_eq_zero]
  exact forall₂_congr fun attempt _ ↦ by simp

/-- What the outcomes must be for `listen` to keep track of its sockets: only the last attempt opens
one, its options are accepted, and a failed sleep behind a failed `bind` is followed by a failed
`::listen`. -/
def KeepsTrack (retryLimit : ℤ) (attempts : List Attempt) (listens : Bool) : Prop :=
  (∀ attempt ∈ attempts.dropLast, attempt.opens = false) ∧ .noSecTags ∉ attempts ∧
    (.unbound false ∈ attempts → attempts.length ≤ retryLimit → listens = false)

instance (retryLimit : ℤ) (attempts : List Attempt) (listens : Bool) :
    Decidable (KeepsTrack retryLimit attempts listens) :=
  inferInstanceAs (Decidable (_ ∧ _ ∧ (_ → _ → _)))

theorem keepsTrack_append {retryLimit : ℤ} {attempts : List Attempt} {last : Attempt} {listens : Bool}
    (hretried : ∀ attempt ∈ attempts, attempt.Retried) :
    KeepsTrack retryLimit (attempts ++ [last]) listens ↔ attempts.countP (·.opens) = 0 ∧
      last ≠ .noSecTags ∧ (last = .unbound false → attempts.length + 1 ≤ retryLimit →
        listens = false) := by
  have hother : ∀ attempt : Attempt, ¬ attempt.Retried →
      (attempt ∈ attempts ++ [last] ↔ last = attempt) := by
    intro attempt hnot
    rw [List.mem_append, List.mem_singleton]
    exact ⟨fun h ↦ (h.resolve_left fun hmem ↦ hnot (hretried attempt hmem)).symm, fun h ↦ .inr h.symm⟩
  rw [KeepsTrack, List.dropLast_concat, countP_opens_eq_zero, hother .noSecTags (by simp [Attempt.Retried]),
    hother (.unbound false) (by simp [Attempt.Retried]), List.length_append, List.length_singleton]
  push_cast
  exact Iff.rfl

/-- Only a socket with the last number is closed. -/
theorem closed_last {opened : ℕ} : (∀ number < opened + 1, number ∈ [opened]) ↔ opened = 0 := by
  constructor
  · intro h
    exact (List.mem_singleton.mp (h 0 (Nat.succ_pos _))).symm
  · rintro rfl number hnumber
    exact List.mem_singleton.mpr (Nat.lt_one_iff.mp hnumber)

theorem others_closed {opened : ℕ} :
    (∀ number < opened + 1, number ≠ opened → number ∈ ([] : List ℕ)) ↔ opened = 0 := by
  constructor
  · intro h
    by_contra hpos
    exact List.not_mem_nil (h 0 (Nat.succ_pos _) (Ne.symm hpos))
  · rintro rfl number hnumber hne
    exact absurd (Nat.lt_one_iff.mp hnumber) hne

/-- What becomes of the sockets behind the loop, when it opened `opened` sockets before its last
turn and closed none. -/
theorem finish_iff {retryLimit port : ℤ} {sockname : Option ℤ} {listens : Bool} {s : Listening}
    {opened : ℕ} (hclosed : s.closed = []) (hsocket : s.serverSocket = some opened)
    (hopened : s.opened = opened + 1) :
    LeaksNothing (s.finish retryLimit port sockname listens) ↔
      opened = 0 ∧ (s.retries ≤ retryLimit → listens = true → opened ∈ s.bound) := by
  unfold Listening.finish
  simp only [hsocket, reduceCtorEq, if_false]
  split
  · rename_i hlate
    simp only [LeaksNothing, Listening.close, hclosed, hsocket, hopened, Option.toList_some,
      List.append_nil, closed_last, not_le.mpr hlate, false_imp_iff, and_true]
  · rename_i hearly
    cases listens with
    | true =>
      simp only [LeaksNothing, if_true, hclosed, hsocket, hopened, Option.some.injEq, not_lt.mp hearly,
        true_imp_iff]
      constructor
      · rintro ⟨_, hbound, rfl, hothers⟩
        exact ⟨others_closed.mp hothers, hbound⟩
      · rintro ⟨hzero, hbound⟩
        exact ⟨opened, hbound, rfl, others_closed.mpr hzero⟩
    | false =>
      simp only [LeaksNothing, Bool.false_eq_true, if_false, Listening.close, hclosed, hsocket, hopened,
        Option.toList_some, List.append_nil, closed_last, false_imp_iff, imp_true_iff, and_true]

/-- A loop that does not go on has been left: by a failed sleep, when there were turns to go. -/
theorem again_left {retryLimit port : ℤ} {sockname : Option ℤ} {listens slept : Bool} {s : Listening}
    {r : Listened} (hr : (match (s.again retryLimit slept).phase with
      | .trying => none
      | .left => some ((s.again retryLimit slept).finish retryLimit port sockname listens)
      | .threw exception => some ⟨some exception, s.again retryLimit slept, port⟩) = some r) :
    (s.retries < retryLimit → slept = false) ∧
      r = (s.again retryLimit slept).finish retryLimit port sockname listens := by
  by_cases hagain : (decide (s.retries < retryLimit) && slept) = true
  · have hphase : (s.again retryLimit slept).phase = .trying := by
      simp only [Listening.again, hagain, if_true]
    rw [hphase] at hr
    cases hr
  · have hphase : (s.again retryLimit slept).phase = .left := by
      simp only [Listening.again, if_neg hagain]
    rw [hphase] at hr
    refine ⟨fun hlt ↦ ?_, (Option.some.inj hr).symm⟩
    rw [decide_eq_true hlt, Bool.true_and] at hagain
    exact Bool.eq_false_iff.mpr hagain

/-- The last turn, and what follows the loop. -/
theorem last_iff {retryLimit port : ℤ} {sockname : Option ℤ} {listens : Bool} {s s' : Listening}
    {last : Attempt} {r : Listened} (hclosed : s.closed = []) (hbound : s.bound = [])
    (hlast : s.tryBind retryLimit last = some s')
    (hr : (match s'.phase with
      | .trying => none
      | .left => some (s'.finish retryLimit port sockname listens)
      | .threw exception => some ⟨some exception, s', port⟩) = some r) :
    LeaksNothing r ↔ s.opened = 0 ∧ last ≠ .noSecTags ∧
      (last = .unbound false → s.retries + 1 ≤ retryLimit → listens = false) := by
  have htrying := tryBind_trying hlast
  unfold Listening.tryBind at hlast
  rw [if_pos htrying] at hlast
  cases last with
  | noSocket slept =>
    cases hlast
    obtain ⟨-, rfl⟩ := again_left hr
    refine Iff.trans ?_ (and_iff_left ⟨nofun, nofun⟩).symm
    simp only [Listening.finish, Listening.again, Listening.close, LeaksNothing, if_true, hclosed,
      Option.toList_none, List.nil_append, List.not_mem_nil, imp_false, not_lt]
    exact ⟨fun hall ↦ Nat.le_zero.mp (hall 0), fun hzero number ↦ hzero ▸ Nat.zero_le number⟩
  | noSecTags =>
    cases hlast
    cases hr
    simp only [LeaksNothing, Listening.socket, hclosed, ne_eq, not_true_eq_false, false_and, and_false,
      iff_false]
    exact fun hall ↦ List.not_mem_nil (hall s.opened (Nat.lt_succ_self _))
  | unbound slept =>
    cases hlast
    obtain ⟨hleft, rfl⟩ := again_left hr
    refine (finish_iff (by exact hclosed) rfl rfl).trans (and_congr_right fun _ ↦ ?_)
    have hnot : s.opened ∉ s.bound := by rw [hbound]; exact List.not_mem_nil
    constructor
    · refine fun hkept ↦ ⟨nofun, fun _ hearly ↦ ?_⟩
      exact Bool.eq_false_iff.mpr fun hlistens ↦ hnot (hkept hearly hlistens)
    · rintro ⟨-, hfails⟩ hearly hlistens
      have hslept : slept = false := hleft (Int.lt_of_add_one_le hearly)
      exact absurd (hfails (by rw [hslept]) hearly) (by rw [hlistens]; exact Bool.true_eq_false.mp)
  | bound =>
    cases hlast
    cases hr
    refine (finish_iff (by exact hclosed) rfl rfl).trans (and_congr_right fun _ ↦ ?_)
    exact ⟨fun _ ↦ ⟨nofun, nofun⟩, fun _ _ _ ↦ List.mem_cons_self⟩

/-- `listen` loses no socket and does not listen unbound if and only if no attempt but the last one
opens a socket, `setsockopt(TLS_SEC_TAG_LIST)` does not fail, and `::listen` fails where a sleep
failed behind a failed `bind`. -/
theorem leaksNothing_iff {retryLimit port : ℤ} {resolves listens : Bool} {attempts : List Attempt}
    {sockname : Option ℤ} {r : Listened}
    (h : listen retryLimit port resolves attempts sockname listens = some r) :
    LeaksNothing r ↔ KeepsTrack retryLimit attempts listens := by
  have hnone : KeepsTrack retryLimit [] listens :=
    ⟨fun _ h ↦ absurd h List.not_mem_nil, List.not_mem_nil, fun h ↦ absurd h List.not_mem_nil⟩
  unfold listen at h
  split at h
  · split at h <;> cases h
    rename_i hattempts
    subst hattempts
    exact ⟨fun _ ↦ hnone, fun _ number hnumber ↦ absurd hnumber (Nat.not_lt_zero _)⟩
  split at h
  · split at h <;> cases h
    rename_i hattempts
    subst hattempts
    exact ⟨fun _ ↦ hnone, fun _ number hnumber ↦ absurd hnumber (Nat.not_lt_zero _)⟩
  obtain ⟨s', hrun, hr⟩ := Option.bind_eq_some_iff.mp h
  rcases List.eq_nil_or_concat attempts with rfl | ⟨init, last, rfl⟩
  · cases hrun
    cases hr
  rw [List.concat_eq_append, List.foldlM_append] at hrun
  obtain ⟨s, hinit, hlast⟩ := Option.bind_eq_some_iff.mp hrun
  obtain ⟨s'', hlast, hsame⟩ := foldlM_cons_some hlast
  cases hsame
  obtain ⟨hretried, hretries, hclosed, hbound, hopened⟩ := tryBind_run init hinit (tryBind_trying hlast)
  rw [last_iff hclosed hbound hlast hr, List.concat_eq_append, keepsTrack_append hretried, hopened,
    hretries]
  simp only [Listening.start, zero_add]

/-- An address family without sockets, and then a port that is in use and becomes free. -/
theorem leaksNothing_secondFamily : ∃ r,
    listen 2 9090 true [.noSocket true, .bound] none true = some r ∧ r.threw = none ∧
      LeaksNothing r := by
  have hlisten : listen 2 9090 true [.noSocket true, .bound] none true =
      some ⟨none, ⟨.left, 1, some 0, 1, [0], []⟩, 9090⟩ := by decide
  exact ⟨_, hlisten, rfl, (leaksNothing_iff hlisten).mpr (by decide)⟩

/-- The port is in use at the first attempt: the socket of that attempt stays open. -/
theorem not_leaksNothing_retry : ∃ r,
    listen 1 9090 true [.unbound true, .bound] none true = some r ∧ r.threw = none ∧
      r.last.serverSocket = some 1 ∧ 0 ∉ r.last.closed ∧ ¬ LeaksNothing r := by
  refine ⟨⟨none, ⟨.left, 1, some 1, 2, [1], []⟩, 9090⟩, by decide, rfl, rfl, List.not_mem_nil, ?_⟩
  rintro ⟨kept, -, hkept, hothers⟩
  cases hkept
  exact List.not_mem_nil (hothers 0 (by decide) (by decide))

end ZephyrThrift.Transport
