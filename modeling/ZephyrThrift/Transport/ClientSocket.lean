import ZephyrThrift.Transport.SocketFactory

/-!
# Opening a TLS client socket

`TSSLSocket::open` and `openSecConnection`, in which the outcome of every system call is given: the
addresses of the host are tried in turn, each with a socket of its own, until one connects. Sockets are
numbered in the order in which they are opened, and the data keeps an account of them and of the address
lists. `TSocket::close` is not under src/: it is a parameter, of which only `ClosesSocket` is asked.
-/

set_option autoImplicit false
set_option relaxedAutoImplicit false

namespace ZephyrThrift.Transport

/-! ### The outcomes -/

/-- What `THRIFT_POLL` returns, and then `getsockopt(SO_ERROR)`: nothing where it fails. -/
inductive PollOutcome
  | ready (error : Option ℤ)
  | timedOut
  | failed
  deriving DecidableEq, Repr

inductive ConnectOutcome
  | connected
  | inProgress (poll : PollOutcome)
  | refused
  deriving DecidableEq, Repr

/-- The outcomes of the calls that are made for one address, in their order. -/
structure AddressOutcome where
  socket : Bool
  secTags : Bool
  peerVerify : Bool
  hostname : Bool
  setBlocking : Bool
  connect : ConnectOutcome
  restore : Bool
  deriving DecidableEq, Repr

/-- What `getaddrinfo` returns: a list, with one outcome for each address in it, or an error. -/
inductive Resolution
  | found (addresses : List AddressOutcome)
  | noData
  | failed
  deriving DecidableEq, Repr

/-! ### The socket -/

/-- A socket as the kernel has it: its number and what `setsockopt` has set. -/
structure Descriptor where
  number : ℕ
  protocol : SecureProtocol
  secTags : Bool
  verifyMode : Option PeerVerify
  hostname : Option String
  deriving DecidableEq, Repr

/-- `TSSLSocket`, as far as `open` looks at it, and the account of what was opened and closed:
`attempted` are the sockets that `connect` was called for, as they were then. -/
structure ClientSocket where
  host : String
  port : ℤ
  server : Bool
  socket : Option Descriptor
  opened : ℕ
  closed : List ℕ
  attempted : List Descriptor
  resolved : ℕ
  freed : ℕ
  deriving DecidableEq, Repr

/-- `setsockopt` on the socket. -/
def ClientSocket.setsockopt (s : ClientSocket) (change : Descriptor → Descriptor) : ClientSocket :=
  { s with socket := s.socket.map change }

/-- `openSecConnection` from the call of `connect` on. -/
def ClientSocket.connect (s : ClientSocket) (o : AddressOutcome) :
    Option TTransportException × ClientSocket :=
  let s := { s with attempted := s.socket.toList ++ s.attempted }
  -- the label `done`
  let done := if o.restore then none else some ⟨.notOpen, "THRIFT_FCNTL() failed"⟩
  match o.connect with
  | .connected => (done, s)
  | .refused => (some ⟨.notOpen, "connect() failed"⟩, s)
  | .inProgress (.ready none) => (some ⟨.notOpen, "getsockopt()"⟩, s)
  | .inProgress (.ready (some val)) =>
    (if val = 0 then done else some ⟨.notOpen, "socket open() error"⟩, s)
  | .inProgress .timedOut => (some ⟨.notOpen, "open() timed out"⟩, s)
  | .inProgress .failed => (some ⟨.notOpen, "THRIFT_POLL() failed"⟩, s)

/-- `TSSLSocket::openSecConnection`: the exception, if it throws one, and the data behind it. -/
def ClientSocket.openSecConnection (ctx : SSLContext) (o : AddressOutcome) (s : ClientSocket) :
    Option TTransportException × ClientSocket :=
  if ¬ o.socket then (some ⟨.notOpen, "socket()"⟩, { s with socket := none })
  else
    let s := { s with
      socket := some ⟨s.opened, ctx.protocol, false, none, none⟩, opened := s.opened + 1 }
    if ¬ o.secTags then (some ⟨.notOpen, "set TLS_SEC_TAG_LIST failed"⟩, s)
    else
      let s := s.setsockopt fun d ↦ { d with secTags := true }
      if ¬ o.peerVerify then (some ⟨.notOpen, "set TLS_PEER_VERIFY failed"⟩, s)
      else
        let s := s.setsockopt fun d ↦ { d with verifyMode := some ctx.verifyMode }
        if ¬ o.hostname then (some ⟨.notOpen, "set TLS_HOSTNAME failed"⟩, s)
        else
          let s := s.setsockopt fun d ↦ { d with hostname := some s.host }
          if ¬ o.setBlocking then (some ⟨.notOpen, "THRIFT_FCNTL() failed"⟩, s)
          else s.connect o

/-- `freeaddrinfo(res0)`. -/
def ClientSocket.freeaddrinfo (s : ClientSocket) : ClientSocket := { s with freed := s.freed + 1 }

/-- The loop of `open` over the addresses. -/
def ClientSocket.tryAddresses (close : ClientSocket → ClientSocket) (ctx : SSLContext) :
    List AddressOutcome → ClientSocket → Option TTransportException × ClientSocket
  | [], s => (none, s.freeaddrinfo)
  | o :: rest, s =>
    match s.openSecConnection ctx o with
    | (none, s) => (none, s.freeaddrinfo)
    | (some exception, s) =>
      if rest = [] then (some exception, (close s).freeaddrinfo)
      else tryAddresses close ctx rest (close s)

/-- The calls of `getaddrinfo`; the second one is made where the first returns `DNS_EAI_NODATA`. -/
def getaddrinfo (first second : Resolution) : Resolution := if first = .noData then second else first

/-- `TSSLSocket::open`. -/
def ClientSocket.open (close : ClientSocket → ClientSocket) (ctx : SSLContext)
    (first second : Resolution) (s : ClientSocket) : Option TTransportException × ClientSocket :=
  if s.socket.isSome || s.server then (some ⟨.badArgs, ""⟩, s)
  else if s.port < 0 ∨ 0xFFFF < s.port then (some ⟨.badArgs, "Specified port is invalid"⟩, s)
  else
    match getaddrinfo first second with
    | .found addresses =>
      tryAddresses close ctx addresses { s with resolved := s.resolved + 1 }
    | .noData | .failed =>
      (some ⟨.notOpen, "Could not resolve host for client socket."⟩, close s)

/-! ### What is promised -/

/-- What `open` relies on: `TSocket::close` closes the socket, if there is one, forgets it, and leaves
the rest alone. -/
def ClosesSocket (close : ClientSocket → ClientSocket) : Prop :=
  ∀ s, close s = { s with
    socket := none, closed := (s.socket.map Descriptor.number).toList ++ s.closed }

/-- Every socket that was opened is the current one or was closed, and none of them twice; every list of
addresses was freed. -/
structure Balanced (s : ClientSocket) : Prop where
  sockets : ((s.socket.map Descriptor.number).toList ++ s.closed).Perm (List.range s.opened)
  addresses : s.freed = s.resolved

/-- The socket was set up for TLS with the settings of the context and the name of the host. -/
structure Secured (ctx : SSLContext) (host : String) (d : Descriptor) : Prop where
  protocol : d.protocol = ctx.protocol
  secTags : d.secTags = true
  verifyMode : d.verifyMode = some ctx.verifyMode
  hostname : d.hostname = some host

/-- What a call of `open` leaves: an account in balance, no socket behind an exception, and otherwise a
secured one, and no attempt to connect with a socket that was not secured. -/
structure OpensSafely (ctx : SSLContext) (resolution : Resolution) (s : ClientSocket)
    (threw : Option TTransportException) (s' : ClientSocket) : Prop where
  balanced : Balanced s'
  thrown : threw ≠ none → s'.socket = s.socket
  returned : threw = none → resolution = .found [] ∨
    ∃ d, s'.socket = some d ∧ Secured ctx s.host d ∧ d ∈ s'.attempted
  attempts : ∀ d ∈ s'.attempted, d ∈ s.attempted ∨ Secured ctx s.host d

/-! ### The addresses -/

section Addresses

variable {ctx : SSLContext} {s : ClientSocket} {o : AddressOutcome}

/-- What an address may do to a client that has no socket: it throws without one, or gives it a new one,
which it connects only if it is secured. -/
inductive Tries (ctx : SSLContext) (s : ClientSocket) : Option TTransportException × ClientSocket → Prop
  | refused (exception : TTransportException) : Tries ctx s (some exception, s)
  | unsecured (exception : TTransportException) (d : Descriptor) (hnumber : d.number = s.opened) :
      Tries ctx s (some exception, { s with socket := some d, opened := s.opened + 1 })
  | attempted (threw : Option TTransportException) (d : Descriptor) (hnumber : d.number = s.opened)
      (hsecured : Secured ctx s.host d) :
      Tries ctx s (threw, { s with
        socket := some d, opened := s.opened + 1, attempted := d :: s.attempted })

/-- Whatever comes of it, `connect` is called with the socket as it is. -/
theorem exists_connect (o : AddressOutcome) (s : ClientSocket) :
    ∃ threw, s.connect o = (threw, { s with attempted := s.socket.toList ++ s.attempted }) := by
  unfold ClientSocket.connect
  rcases o.connect with _ | ((_ | _) | _ | _) | _ <;> exact ⟨_, rfl⟩

theorem openSecConnection_tries (ctx : SSLContext) (o : AddressOutcome) (h : s.socket = none) :
    Tries ctx s (s.openSecConnection ctx o) := by
  have hsame : { s with socket := none } = s := by rw [← h]
  unfold ClientSocket.openSecConnection
  by_cases hsocket : o.socket = true
  · rw [if_neg (not_not_intro hsocket)]
    by_cases htags : o.secTags = true
    · rw [if_neg (not_not_intro htags)]
      by_cases hverify : o.peerVerify = true
      · rw [if_neg (not_not_intro hverify)]
        by_cases hhost : o.hostname = true
        · rw [if_neg (not_not_intro hhost)]
          by_cases hblocking : o.setBlocking = true
          · rw [if_neg (not_not_intro hblocking)]
            obtain ⟨threw, hconnect⟩ := exists_connect o (((ClientSocket.setsockopt { s with
              socket := some ⟨s.opened, ctx.protocol, false, none, none⟩
              opened := s.opened + 1 } fun d ↦ { d with secTags := true }).setsockopt
                fun d ↦ { d with verifyMode := some ctx.verifyMode }).setsockopt
                  fun d ↦ { d with hostname := some s.host })
            exact hconnect ▸ .attempted threw _ rfl ⟨rfl, rfl, rfl, rfl⟩
          · rw [if_pos hblocking]
            exact .unsecured _ _ rfl
        · rw [if_pos hhost]
          exact .unsecured _ _ rfl
      · rw [if_pos hverify]
        exact .unsecured _ _ rfl
    · rw [if_pos htags]
      exact .unsecured _ _ rfl
  · rw [if_pos hsocket, hsame]
    exact .refused _

theorem Balanced.closed {close : ClientSocket → ClientSocket} (hclose : ClosesSocket close)
    (h : Balanced s) : Balanced (close s) ∧ (close s).socket = none := by
  rw [hclose s]
  exact ⟨⟨h.sockets, h.addresses⟩, rfl⟩

/-- A new socket keeps the account in balance. -/
theorem perm_opened {d : Descriptor} {closed : List ℕ} {opened : ℕ} (hnumber : d.number = opened)
    (h : closed.Perm (List.range opened)) :
    (((some d).map Descriptor.number).toList ++ closed).Perm (List.range (opened + 1)) := by
  rw [List.range_succ, Option.map_some, Option.toList_some, hnumber]
  exact (h.cons opened).trans (List.perm_append_singleton opened _).symm

/-- What the loop needs in front of an address: no socket, and one list that was not freed. -/
structure Trying (s : ClientSocket) : Prop where
  socket : s.socket = none
  sockets : s.closed.Perm (List.range s.opened)
  addresses : s.freed + 1 = s.resolved

/-- Nothing but secured sockets is connected. -/
theorem tryAddresses_spec {close : ClientSocket → ClientSocket} (hclose : ClosesSocket close)
    (ctx : SSLContext) (addresses : List AddressOutcome) :
    ∀ s : ClientSocket, Trying s →
      OpensSafely ctx (.found addresses) s (s.tryAddresses close ctx addresses).1
        (s.tryAddresses close ctx addresses).2 := by
  induction addresses with
  | nil =>
    intro s h
    refine ⟨⟨?_, h.addresses⟩, fun hthrew ↦ absurd rfl hthrew, fun _ ↦ .inl rfl, fun d hd ↦ .inl hd⟩
    rw [ClientSocket.tryAddresses, ClientSocket.freeaddrinfo, h.socket]
    exact h.sockets
  | cons o rest ih =>
    intro s h
    have htries := openSecConnection_tries ctx o h.socket
    -- behind a failure the socket is closed, and the loop goes on or ends
    have hfails : ∀ exception s', s.openSecConnection ctx o = (some exception, s') →
        Trying (close s') → s'.host = s.host → (∀ d ∈ (close s').attempted,
          d ∈ s.attempted ∨ Secured ctx s.host d) →
        OpensSafely ctx (.found (o :: rest)) s (s.tryAddresses close ctx (o :: rest)).1
          (s.tryAddresses close ctx (o :: rest)).2 := by
      intro exception s' hopen htrying hhost hattempts
      have hhost' : (close s').host = s.host := by rw [hclose s']; exact hhost
      rw [ClientSocket.tryAddresses, hopen]
      simp only
      by_cases hlast : rest = []
      · rw [if_pos hlast]
        refine ⟨⟨?_, htrying.addresses⟩, fun _ ↦ htrying.socket.trans h.socket.symm,
          fun hthrew ↦ (by cases hthrew), hattempts⟩
        simp only [ClientSocket.freeaddrinfo, htrying.socket]
        exact htrying.sockets
      · rw [if_neg hlast]
        have hrest := ih (close s') htrying
        refine ⟨hrest.balanced, fun hthrew ↦ ?_, fun hthrew ↦ ?_, fun d hd ↦ ?_⟩
        · rw [hrest.thrown hthrew, htrying.socket, h.socket]
        · rcases hrest.returned hthrew with hnone | hsome
          · cases hnone
            exact absurd rfl hlast
          · exact .inr (hhost' ▸ hsome)
        · rcases hrest.attempts d hd with hmem | hsecured
          · exact hattempts d hmem
          · exact .inr (hhost' ▸ hsecured)
    generalize hopen : s.openSecConnection ctx o = result at htries
    cases htries with
    | refused exception =>
      refine hfails exception s hopen ?_ rfl ?_ <;> rw [hclose s]
      · exact ⟨rfl, by rw [h.socket]; exact h.sockets, h.addresses⟩
      · exact fun d hd ↦ .inl hd
    | unsecured exception d hnumber =>
      refine hfails exception _ hopen ?_ rfl ?_ <;> rw [hclose]
      · exact ⟨rfl, perm_opened hnumber h.sockets, h.addresses⟩
      · exact fun d hd ↦ .inl hd
    | attempted threw d hnumber hsecured =>
      have hattempts : ∀ d' ∈ d :: s.attempted, d' ∈ s.attempted ∨ Secured ctx s.host d' := by
        intro d' hd'
        rcases List.mem_cons.mp hd' with rfl | hmem
        · exact .inr hsecured
        · exact .inl hmem
      cases threw with
      | some exception =>
        refine hfails exception _ hopen ?_ rfl ?_ <;> rw [hclose]
        · exact ⟨rfl, perm_opened hnumber h.sockets, h.addresses⟩
        · exact hattempts
      | none =>
        rw [ClientSocket.tryAddresses, hopen]
        exact ⟨⟨perm_opened hnumber h.sockets, h.addresses⟩, fun hthrew ↦ absurd rfl hthrew,
          fun _ ↦ .inr ⟨d, rfl, hsecured, List.mem_cons_self⟩, hattempts⟩

end Addresses

/-- However the system calls come out, `open` keeps its account of sockets and address lists in balance,
leaves no socket behind an exception, and connects none that was not secured. -/
theorem open_opensSafely {close : ClientSocket → ClientSocket} (hclose : ClosesSocket close)
    (ctx : SSLContext) (first second : Resolution) {s : ClientSocket} (h : Balanced s) :
    OpensSafely ctx (getaddrinfo first second) s (s.open close ctx first second).1
      (s.open close ctx first second).2 := by
  have hunchanged : ∀ exception : TTransportException,
      OpensSafely ctx (getaddrinfo first second) s (some exception) s := fun exception ↦
    ⟨h, fun _ ↦ rfl, fun hthrew ↦ (by cases hthrew), fun d hd ↦ .inl hd⟩
  unfold ClientSocket.open
  by_cases hmode : (s.socket.isSome || s.server) = true
  · rw [if_pos hmode]
    exact hunchanged _
  · rw [if_neg hmode]
    have hnone : s.socket = none := by
      rw [Bool.or_eq_true, not_or, Option.isSome_iff_ne_none, not_not] at hmode
      exact hmode.1
    have hclosed : close s = s := by
      rw [hclose s, hnone]
      cases s
      simp only at hnone
      rw [hnone]
      rfl
    by_cases hport : s.port < 0 ∨ 0xFFFF < s.port
    · rw [if_pos hport]
      exact hunchanged _
    · rw [if_neg hport]
      cases hresolution : getaddrinfo first second with
      | found addresses =>
        have hsockets := h.sockets
        rw [hnone] at hsockets
        obtain ⟨hbalanced, hthrown, hreturned, hattempts⟩ := tryAddresses_spec hclose ctx addresses
          { s with resolved := s.resolved + 1 } ⟨hnone, hsockets, by rw [h.addresses]⟩
        exact ⟨hbalanced, hthrown, hreturned, hattempts⟩
      | noData | failed =>
        simp only [hclosed]
        rw [← hresolution]
        exact hunchanged _

/-! ### The life of a socket -/

/-- A call on a socket; the factory may change the context between two calls. -/
inductive ClientCall
  | open (ctx : SSLContext) (first second : Resolution)
  | close
  deriving DecidableEq, Repr

def ClientSocket.perform (close : ClientSocket → ClientSocket) (s : ClientSocket) :
    ClientCall → ClientSocket
  | .open ctx first second => (s.open close ctx first second).2
  | .close => close s

/-- The constructors of `TSSLSocket` that take a host and a port, and the mode that `setup` gives it. -/
def ClientSocket.fresh (host : String) (port : ℤ) (server : Bool) : ClientSocket :=
  ⟨host, port, server, none, 0, [], [], 0, 0⟩

theorem balanced_fresh (host : String) (port : ℤ) (server : Bool) :
    Balanced (.fresh host port server) := ⟨List.Perm.refl _, rfl⟩

theorem Balanced.perform {close : ClientSocket → ClientSocket} (hclose : ClosesSocket close)
    {s : ClientSocket} (h : Balanced s) (call : ClientCall) : Balanced (s.perform close call) := by
  cases call with
  | «open» ctx first second => exact (open_opensSafely hclose ctx first second h).balanced
  | close => exact (h.closed hclose).1

theorem Balanced.calls {close : ClientSocket → ClientSocket} (hclose : ClosesSocket close)
    (calls : List ClientCall) :
    ∀ {s : ClientSocket}, Balanced s → Balanced (calls.foldl (ClientSocket.perform close) s) := by
  induction calls with
  | nil => exact fun h ↦ h
  | cons call calls ih => exact fun h ↦ ih (h.perform hclose call)

/-- In the life of a socket every call of `open` is safe, and behind the destructor every socket that was
opened is closed and every list of addresses freed, each of them once. -/
theorem clientSocket_leaksNothing {close : ClientSocket → ClientSocket} (hclose : ClosesSocket close)
    {host : String} {port : ℤ} {server : Bool} {calls : List ClientCall} {s : ClientSocket}
    (hs : calls.foldl (ClientSocket.perform close) (.fresh host port server) = s) :
    (∀ ctx first second, OpensSafely ctx (getaddrinfo first second) s
      (s.open close ctx first second).1 (s.open close ctx first second).2) ∧
      (close s).closed.Perm (List.range s.opened) ∧ s.freed = s.resolved := by
  have hbalanced : Balanced s := hs ▸ Balanced.calls hclose calls (balanced_fresh host port server)
  refine ⟨fun ctx first second ↦ open_opensSafely hclose ctx first second hbalanced, ?_,
    hbalanced.addresses⟩
  rw [hclose]
  exact hbalanced.sockets

/-- `TSocket::close` as it is documented. -/
def closeSocket (s : ClientSocket) : ClientSocket :=
  { s with socket := none, closed := (s.socket.map Descriptor.number).toList ++ s.closed }

/-- A host with two addresses, of which the first one refuses the connection. -/
def secondAddress : List ClientCall :=
  [.open .fresh .noData (.found [⟨true, true, true, true, true, .refused, true⟩,
    ⟨true, true, true, true, true, .inProgress (.ready (some 0)), true⟩])]

theorem clientSocket_leaksNothing_secondAddress : ∃ s : ClientSocket,
    s.socket = some ⟨1, .tls1_0, true, some .required, some "host"⟩ ∧ s.opened = 2 ∧
      (∀ ctx first second, OpensSafely ctx (getaddrinfo first second) s
        (s.open closeSocket ctx first second).1 (s.open closeSocket ctx first second).2) ∧
      (closeSocket s).closed.Perm (List.range s.opened) ∧ s.freed = s.resolved :=
  ⟨secondAddress.foldl (ClientSocket.perform closeSocket) (.fresh "host" 9090 false), by decide,
    by decide, clientSocket_leaksNothing (fun _ ↦ rfl) rfl⟩

end ZephyrThrift.Transport
