import TigeraWebservice.Runs
import TigeraWebservice.SessionProgram

/-!
# The connection as a system

The environment accepts the connection, moves bytes into and out of the
buffers, delivers the callbacks of every bufferevent that is still there,
answers each pending lookup once and may shut the service down, in any order.
-/

set_option autoImplicit false

namespace Tigera.SessionSystem
open ResourceLedger TransitionRuns Tigera.ParserMachine Tigera.HttpReading Tigera.JokeCreate
open Tigera.SessionWorld Tigera.SocketChannel Tigera.SessionProgram

variable {P : Type}

inductive Event where
  | accept (c : AcceptChoices)
  | arrive (n : ℕ) (data : Bytes)
  | flush (n k : ℕ)
  | readCb (n : ℕ) (c : Choices)
  | writeCb (n : ℕ) (c : Choices)
  | eventCb (n : ℕ) (events : BevEvents) (c : Choices)
  | dnsCb (r : ℕ) (a : Answer) (c : ConnectChoices)
  | fini

/-- The bufferevent is there and its callbacks have been set. -/
def deliverable (w : World P) (n : ℕ) : Bool :=
  status w.socks (.bev n) = .live && (w.bev n).cbarg.isSome

def lookupOf (w : World P) (r : ℕ) : Option Lookup := w.resolving.find? fun l => l.request = r

def enabled (w : World P) : Event → Bool
  | .accept _ => !w.crashed && w.nextConn = 0
  | .arrive n _ | .flush n _ | .readCb n _ | .writeCb n _ | .eventCb n _ _ =>
    !w.crashed && deliverable w n
  | .dnsCb r _ _ => !w.crashed && (lookupOf w r).isSome
  | .fini => !w.crashed && w.registered

/-- Runs a callback of a bufferevent on the channel it is set for. -/
def deliver (n : ℕ) (f : ℕ → World P → World P) (w : World P) : World P :=
  match (w.bev n).cbarg with
  | some channel => f channel w
  | none => w

/-- What libevent does to a bufferevent outside the callbacks. -/
def alterBev (n : ℕ) (f : Bufferevent → Bufferevent) (w : World P) : World P :=
  { w with bev := Function.update w.bev n (f (w.bev n)) }

/-- Bytes written to the socket leave the output. -/
def flushOutput (n k : ℕ) (w : World P) : World P :=
  alterBev n (fun e => { e with output := drainOutput k e.output })
    { w with strs := owned (drainedOwners k (w.bev n).output) ++ w.strs }

def next (lib : Libs P) (w : World P) : Event → World P
  | .accept c => tcpSocketAcceptCb lib c w
  | .arrive n data => alterBev n (fun e => { e with input := e.input ++ data }) w
  | .flush n k => flushOutput n k w
  | .readCb n c => deliver n (tcpSocketReadCb lib c) w
  | .writeCb n c => deliver n (tcpSocketWriteCb lib c) w
  | .eventCb n events c => deliver n (fun channel => tcpSocketEventCb lib c channel events)
      (alterBev n (fun e => { e with connecting := e.connecting && !events.connected }) w)
  | .dnsCb r a c =>
    match lookupOf w r with
    | some l => dnsnameResolvedCb lib a c r l.host
        (handOver a r { w with resolving := w.resolving.erase l })
    | none => w
  | .fini => httpServiceFini w

def system (lib : Libs P) : System (World P) Event where
  enabled w e := enabled w e = true
  next := next lib

instance (lib : Libs P) (w : World P) (e : Event) : Decidable ((system lib).enabled w e) :=
  inferInstanceAs (Decidable (enabled w e = true))

end Tigera.SessionSystem
