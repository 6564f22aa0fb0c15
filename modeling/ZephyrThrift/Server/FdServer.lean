import Mathlib

/-!
# The descriptor server

`TFDServer.cpp` and the two loops that share a `TFDServer`: `TServerFramework::serve`, which accepts
one client after another, and `TServerFramework::stop`, which is called on another thread. A step is
one operation on the shared data, and `Action` says which thread takes it.

Every accepted transport keeps its place in `xports`, so that what becomes of it can be asked after
the server has dropped it from `children`.
-/

set_option autoImplicit false
set_option relaxedAutoImplicit false

namespace ZephyrThrift.Server

/-- The exceptions that `serve` tells apart. -/
inductive TransportException
  | timedOut
  | clientDisconnect
  | endOfFile
  | interrupted
  | other
  deriving DecidableEq, Repr

/-- `xport`: a copy of the server's descriptor and an event descriptor of its own. -/
structure Xport where
  fd : ℤ
  efd : ℤ
  deriving DecidableEq, Repr

def Xport.isOpen (x : Xport) : Bool := decide (0 ≤ x.fd) && decide (0 ≤ x.efd)

def Xport.close (x : Xport) : Xport := if x.isOpen then ⟨-1, -1⟩ else x

/-- `xport::interrupt`; the event it writes wakes a reader that polls the descriptors. -/
def Xport.interrupt (x : Xport) : Xport := if x.isOpen then x.close else x

/-- `TFDServer`; `children` holds the places of the transports, and `room` is the number of elements
that the vector can take before it moves to another block. -/
structure TFDServer where
  fd : ℤ
  children : List ℕ
  room : ℕ
  deriving DecidableEq, Repr

def TFDServer.isOpen (server : TFDServer) : Bool := decide (0 ≤ server.fd)

/-- `TFDServer::close`, which is also `TFDServer::interrupt`. -/
def TFDServer.close (server : TFDServer) : TFDServer := { server with fd := -1 }

/-- `children.push_back(child)`: whether the vector moved, to a block with `grown` more elements of
room. -/
def TFDServer.pushBack (server : TFDServer) (child grown : ℕ) : Bool × TFDServer :=
  if server.room = 0 then
    (true, { server with children := server.children ++ [child], room := grown })
  else (false, { server with children := server.children ++ [child], room := server.room - 1 })

/-- `TFDServer::acceptImpl`, where `eventfd` returns `efd`: the new transport, which takes the place
`child`, whether the vector moved, and the server. -/
def TFDServer.acceptImpl (server : TFDServer) (child efd grown : ℕ) :
    Except TransportException (Xport × Bool × TFDServer) :=
  if server.isOpen then .ok (⟨server.fd, efd⟩, server.pushBack child grown)
  else .error .interrupted

/-- Where the thread of `serve` is. -/
inductive ServeAt
  | accepting
  | serving (child : ℕ)
  | ended
  deriving DecidableEq, Repr

/-- Where the thread of `stop` is. The loop over the children has its bounds from when it started;
its iterators are `valid` until the vector moves. -/
inductive StopAt
  | idle
  | interrupting (next last : ℕ) (valid : Bool)
  | cleared
  | returned
  deriving DecidableEq, Repr

structure State where
  server : TFDServer
  xports : List Xport
  serve : ServeAt
  stop : StopAt
  deriving DecidableEq, Repr

/-- One operation of one of the two threads. -/
inductive Action
  | accept (efd grown : ℕ)
  | clientFinishes
  | stopStarts
  | interruptChild
  | clearChildren
  | interrupt
  deriving DecidableEq, Repr

/-- A moved vector invalidates the iterators of the loop over it. -/
def StopAt.afterPush (moved : Bool) : StopAt → StopAt
  | .interrupting next last valid => .interrupting next last (valid && !moved)
  | stop => stop

/-- An operation; `none` when the thread is elsewhere, or when the operation follows an iterator that
is not valid. -/
def step (s : State) : Action → Option State
  | .accept efd grown =>
    if s.serve = .accepting then
      match s.server.acceptImpl s.xports.length efd grown with
      -- the loop breaks, and `serve` closes the server transport
      | .error _ => some { s with server := s.server.close, serve := .ended }
      | .ok (x, moved, server) =>
        some {
          server := server
          xports := s.xports ++ [x]
          serve := .serving s.xports.length
          stop := s.stop.afterPush moved }
    else none
  | .clientFinishes =>
    match s.serve with
    -- the clean-up of the connected client closes its transport
    | .serving child =>
      some { s with xports := s.xports.modify child Xport.close, serve := .accepting }
    | _ => none
  | .stopStarts =>
    match s.stop with
    | .idle => some { s with stop := .interrupting 0 s.server.children.length true }
    | _ => none
  | .interruptChild =>
    match s.stop with
    | .interrupting next last true =>
      if next < last then
        match s.server.children[next]? with
        | some child =>
          some { s with
            xports := s.xports.modify child Xport.interrupt
            stop := .interrupting (next + 1) last true }
        | none => none
      else none
    | _ => none
  | .clearChildren =>
    match s.stop with
    | .interrupting next last _ =>
      if next < last then none
      else
        let room := s.server.room + s.server.children.length
        some { s with server := { s.server with children := [], room := room }, stop := .cleared }
    | _ => none
  | .interrupt =>
    match s.stop with
    | .cleared => some { s with server := s.server.close, stop := .returned }
    | _ => none

/-- An interleaving of the two threads. -/
def run (s : State) (actions : List Action) : Option State := actions.foldlM step s

/-- A server on a descriptor, before the first client. -/
def start (fd : ℤ) : State := ⟨⟨fd, [], 0⟩, [], .accepting, .idle⟩

end ZephyrThrift.Server
