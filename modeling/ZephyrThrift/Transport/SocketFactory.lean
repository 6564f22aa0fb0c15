import ZephyrThrift.Transport.ServerSocket

/-!
# The settings of a TLS socket factory

`authenticate` and `server` of `TSSLSocketFactory` write one field, the verification mode of the
context that a factory shares with all of its sockets. `server` sets it to no verification, whatever
its argument, so what a socket is opened with depends on which of the two was called last
(`keepsRequest_iff`).
-/

set_option autoImplicit false
set_option relaxedAutoImplicit false

namespace ZephyrThrift.Transport

/-! ### Factories and sockets -/

/-- The values of `TLS_PEER_VERIFY` that the port uses. -/
inductive PeerVerify
  | none
  | required
  deriving DecidableEq, Repr

inductive SSLProtocol
  | SSLTLS
  | SSLv3
  | TLSv1_0
  | TLSv1_1
  | TLSv1_2
  deriving DecidableEq, Repr

/-- `net_ip_protocol_secure`. -/
inductive SecureProtocol
  | tls1_0
  | tls1_1
  | tls1_2
  deriving DecidableEq, Repr

structure SSLContext where
  verifyMode : PeerVerify
  protocol : SecureProtocol
  deriving DecidableEq, Repr

/-- The initial values of `SSLContext`. -/
def SSLContext.fresh : SSLContext := ⟨.required, .tls1_0⟩

structure TSSLSocketFactory where
  ctx : SSLContext
  server : Bool
  deriving DecidableEq, Repr

/-- The constructor of `TSSLSocketFactory`. -/
def TSSLSocketFactory.create : SSLProtocol → Except TTransportException TSSLSocketFactory
  | .SSLTLS => .ok ⟨.fresh, false⟩
  | .TLSv1_0 => .ok ⟨.fresh, false⟩
  | .TLSv1_1 => .ok ⟨{ SSLContext.fresh with protocol := .tls1_1 }, false⟩
  | .TLSv1_2 => .ok ⟨{ SSLContext.fresh with protocol := .tls1_2 }, false⟩
  | .SSLv3 => .error ⟨.badArgs, "Specified protocol is invalid"⟩

/-- `TSSLSocketFactory::authenticate`. -/
def TSSLSocketFactory.authenticate (factory : TSSLSocketFactory) (required : Bool) :
    TSSLSocketFactory :=
  { factory with ctx :=
      { factory.ctx with verifyMode := if required then .required else .none } }

/-- `TSSLSocketFactory::server`. -/
def TSSLSocketFactory.setServer (factory : TSSLSocketFactory) (flag : Bool) : TSSLSocketFactory :=
  { factory with server := flag, ctx := { factory.ctx with verifyMode := .none } }

/-- A call that changes the settings; `serverSocket` is any of the three constructors of
`TSSLServerSocket`. -/
inductive Call
  | authenticate (required : Bool)
  | server (flag : Bool)
  | serverSocket
  deriving DecidableEq, Repr

def TSSLSocketFactory.configure (factory : TSSLSocketFactory) : Call → TSSLSocketFactory
  | .authenticate required => factory.authenticate required
  | .server flag => factory.setServer flag
  | .serverSocket => factory.setServer true

/-- `TSSLSocket`: its own mode, and whether it has a descriptor. -/
structure TSSLSocket where
  server : Bool
  isOpen : Bool
  deriving DecidableEq, Repr

/-- `TSSLSocketFactory::createSocket`, where the socket takes over the mode of the factory. -/
def TSSLSocketFactory.createSocket (factory : TSSLSocketFactory) : TSSLSocket :=
  ⟨factory.server, false⟩

/-- `TSSLSocket::openSecConnection` up to the options: the mode that it applies. `secTags` and
`peerVerify` tell whether the two calls of `setsockopt` succeed. -/
def openSecConnection (ctx : SSLContext) (secTags peerVerify : Bool) :
    Except TTransportException PeerVerify :=
  if ¬ secTags then .error ⟨.notOpen, "set TLS_SEC_TAG_LIST failed"⟩
  else if ¬ peerVerify then .error ⟨.notOpen, "set TLS_PEER_VERIFY failed"⟩
  else .ok ctx.verifyMode

/-- `TSSLSocket::open`, with the context that the socket shares with its factory. -/
def TSSLSocket.open (socket : TSSLSocket) (ctx : SSLContext) (secTags peerVerify : Bool) :
    Except TTransportException PeerVerify :=
  if socket.isOpen || socket.server then .error ⟨.badArgs, ""⟩
  else openSecConnection ctx secTags peerVerify

/-! ### What was asked for -/

/-- The argument of the last call of `authenticate`. -/
def lastAuthenticate (calls : List Call) : Option Bool :=
  calls.foldl (fun last call ↦
    match call with
    | .authenticate required => some required
    | .server _ | .serverSocket => last) none

/-- A socket that is opened behind the calls gets the mode that was last asked for, and, where none
was asked for and the factory is a client's, the one that requires a certificate. -/
def KeepsRequest (factory : TSSLSocketFactory) (calls : List Call) : Prop :=
  ∀ (socket : TSSLSocket) (secTags peerVerify : Bool) (mode : PeerVerify),
    socket.open (calls.foldl TSSLSocketFactory.configure factory).ctx secTags peerVerify = .ok mode →
      match lastAuthenticate calls with
      | some required => mode = if required then .required else .none
      | none => (calls.foldl TSSLSocketFactory.configure factory).server = false → mode = .required

/-- The mode that a socket is opened with is that of the context. -/
theorem open_eq_ok {socket : TSSLSocket} {ctx : SSLContext} {secTags peerVerify : Bool}
    {mode : PeerVerify} (h : socket.open ctx secTags peerVerify = .ok mode) : mode = ctx.verifyMode := by
  unfold TSSLSocket.open openSecConnection at h
  split at h
  · cases h
  split at h
  · cases h
  split at h <;> cases h
  rfl

theorem open_client (ctx : SSLContext) :
    (TSSLSocket.mk false false).open ctx true true = .ok ctx.verifyMode := rfl

/-- Every client socket is opened with the same mode. -/
theorem keepsRequest_iff_mode {factory : TSSLSocketFactory} {calls : List Call} :
    KeepsRequest factory calls ↔ match lastAuthenticate calls with
      | some required => (calls.foldl TSSLSocketFactory.configure factory).ctx.verifyMode =
          if required then .required else .none
      | none => (calls.foldl TSSLSocketFactory.configure factory).server = false →
          (calls.foldl TSSLSocketFactory.configure factory).ctx.verifyMode = .required := by
  constructor
  · exact fun h ↦ h ⟨false, false⟩ true true _ (open_client _)
  · intro h socket secTags peerVerify mode hopen
    rw [open_eq_ok hopen]
    exact h

theorem lastAuthenticate_append (calls : List Call) (call : Call) :
    lastAuthenticate (calls ++ [call]) = match call with
      | .authenticate required => some required
      | .server _ | .serverSocket => lastAuthenticate calls := by
  rw [lastAuthenticate, List.foldl_append]
  rfl

/-- The calls leave what was asked for in force: `authenticate` comes last, or it last asked for no
verification, or it was not called and the last call makes the factory a server's. -/
def LastAsked (calls : List Call) : Prop :=
  match calls.getLast? with
  | none | some (.authenticate _) => True
  | some (.server flag) => lastAuthenticate calls = some false ∨ lastAuthenticate calls = none ∧ flag
  | some .serverSocket => lastAuthenticate calls ≠ some true

/-- Behind a call of `server`, no verification is in force. -/
theorem keepsRequest_setServer {factory : TSSLSocketFactory} {calls : List Call} {call : Call}
    {flag : Bool} (hcall : ∀ factory, TSSLSocketFactory.configure factory call = factory.setServer flag)
    (hlast : lastAuthenticate (calls ++ [call]) = lastAuthenticate calls) :
    KeepsRequest factory (calls ++ [call]) ↔
      lastAuthenticate calls = some false ∨ lastAuthenticate calls = none ∧ flag = true := by
  rw [keepsRequest_iff_mode, hlast, List.foldl_append, List.foldl_cons, List.foldl_nil, hcall]
  rcases lastAuthenticate calls with _ | _ | _ <;> cases flag <;>
    simp [TSSLSocketFactory.setServer]

/-- What was asked for by `authenticate` is what a socket is opened with if and only if no call of
`server`, and no construction of a server socket, came behind it. -/
theorem keepsRequest_iff {protocol : SSLProtocol} {factory : TSSLSocketFactory}
    (hfactory : TSSLSocketFactory.create protocol = .ok factory) (calls : List Call) :
    KeepsRequest factory calls ↔ LastAsked calls := by
  have hrequired : factory.ctx.verifyMode = .required := by cases protocol <;> cases hfactory <;> rfl
  rcases List.eq_nil_or_concat calls with rfl | ⟨init, last, rfl⟩
  · exact ⟨fun _ ↦ trivial, fun _ ↦ keepsRequest_iff_mode.mpr fun _ ↦ hrequired⟩
  rw [List.concat_eq_append, LastAsked, List.getLast?_concat, lastAuthenticate_append]
  cases last with
  | authenticate required =>
    refine iff_of_true (keepsRequest_iff_mode.mpr ?_) trivial
    rw [lastAuthenticate_append, List.foldl_append]
    rfl
  | server flag =>
    exact keepsRequest_setServer (fun _ ↦ rfl) (lastAuthenticate_append init _)
  | serverSocket =>
    rw [keepsRequest_setServer (fun _ ↦ rfl) (lastAuthenticate_append init _)]
    rcases lastAuthenticate init with _ | _ | _ <;> simp

/-- A server that requires certificates, set up in the order that works. -/
theorem keepsRequest_serverFirst : ∃ factory, TSSLSocketFactory.create .TLSv1_2 = .ok factory ∧
    KeepsRequest factory [.serverSocket, .authenticate true] :=
  ⟨_, rfl, (keepsRequest_iff (show TSSLSocketFactory.create .TLSv1_2 = _ from rfl) _).mpr trivial⟩

/-- A client that requires a certificate and then says that it is a client: its sockets verify
nothing. -/
theorem not_keepsRequest_clientMode : ∃ factory, TSSLSocketFactory.create .TLSv1_2 = .ok factory ∧
    ¬ KeepsRequest factory [.authenticate true, .server false] := by
  refine ⟨_, rfl, fun h ↦ ?_⟩
  have hmode : PeerVerify.none = .required := h ⟨false, false⟩ true true .none rfl
  cases hmode

end ZephyrThrift.Transport
