import Mathlib.Logic.Function.Basic
import TigeraWebservice.Ledger
import TigeraWebservice.CountedReference
import TigeraWebservice.HttpReading
import TigeraWebservice.JokeCreate

/-!
# The world of one connection

Everything one accepted connection owns or reaches: the session, its HTTP
sessions, channels and bufferevents, its DNS requests and their reference
block, and the strings in between. A pointer is a number; what an object holds
stays readable after the object is released, and every acquisition, access and
release is entered in a ledger. Each ledger is about one kind of object.
-/

set_option autoImplicit false

namespace Tigera.SessionWorld
open ResourceLedger Tigera.CountedReference Tigera.ParserMachine Tigera.HttpReading
open Tigera.JokeCreate

/-- The indices of `http_sessions`. -/
inductive Slot where
  | client
  | name
  | joke
  deriving DecidableEq, Repr

inductive SessionState where
  | start
  | parsingClientRequest
  | resolvingWebserverDomains
  | connectingToWebservers
  | requestingFromWebservers
  | clientResponse
  | errorResolvingDomain
  | errorConnectingToWs
  | errorRequestingFromWs
  | errorClientResponse
  deriving DecidableEq, Repr

/-- A heap string: its address and its bytes up to the NUL. -/
structure CStr where
  addr : ℕ
  bytes : Bytes
  deriving DecidableEq, Repr

/-- `struct session`; the defaults are those of `calloc`. -/
structure Session where
  state : SessionState := .start
  httpSessions : Slot → Option ℕ := fun _ => none
  me : Option ℕ := none
  name : Option CStr := none
  surname : Option CStr := none
  joke : Option CStr := none
  nameReplied : Bool := false
  jokeReplied : Bool := false
  pendingResolutions : ℤ := 0
  pendingConnections : ℤ := 0
  pendingReplies : ℤ := 0

structure DnsRequest where
  idx : Slot := .client
  evdnsReq : Bool := false
  session : Option ℕ := none

/-- The domain names `client_msg_complete` resolves. -/
inductive Host where
  | uinames
  | icndb
  deriving DecidableEq, Repr

inductive Family where
  | inet
  | inet6
  | other
  deriving DecidableEq, Repr

/-- An address, with the domain it was resolved for. -/
structure SockAddr where
  family : Family
  host : Host
  deriving DecidableEq, Repr

/-- What the resolver hands to its callback. -/
inductive Answer where
  | error
  | addresses (families : List Family)
  deriving DecidableEq, Repr

structure Lookup where
  request : ℕ
  host : Host
  deriving DecidableEq, Repr

/-- A piece of output; zero-copy pieces own the string they refer to. -/
structure Chunk where
  data : Bytes
  owner : Option CStr := none

/-- `cbarg` is the channel the callbacks are set for. -/
structure Bufferevent where
  input : Bytes := []
  output : List Chunk := []
  cbarg : Option ℕ := none
  connecting : Bool := false
  peer : Option SockAddr := none

/-- `struct tcp_socket` with its `io_channel`; the service is set with `ctx`. -/
structure TcpSocket where
  bev : Option ℕ := none
  listen : Bool := false
  ctx : Option ℕ := none
  eof : Bool := false

inductive Conn where
  | httpSession (n : ℕ)
  | channel (n : ℕ)
  deriving DecidableEq, Repr

inductive Sock where
  | bev (n : ℕ)
  | fd (n : ℕ)
  | listener (n : ℕ)
  deriving DecidableEq, Repr

inductive DnsObj where
  | dnsRequest (r : ℕ)
  | reference (k : ℕ)
  deriving DecidableEq, Repr

inductive Call where
  | sessionRemove
  | clientMsgComplete
  | clientResponseCreate (ready : Bool)
  | httpResponseWrite
  | reply (idx : Slot)
  deriving DecidableEq, Repr

structure World (P : Type) where
  worker : Bool
  session : Session
  registered : Bool
  crashed : Bool
  http : ℕ → HttpSession P
  chan : ℕ → TcpSocket
  bev : ℕ → Bufferevent
  request : ℕ → DnsRequest
  reference : ℕ → Reference Unit
  resolving : List Lookup
  nextConn : ℕ
  nextRequest : ℕ
  nextReference : ℕ
  nextStr : ℕ
  life : List (Entry Unit)
  conns : List (Entry Conn)
  socks : List (Entry Sock)
  dns : List (Entry DnsObj)
  addrs : List (Entry ℕ)
  strs : List (Entry ℕ)
  calls : List Call

/-- What is outside the repository: the parser and the JSON decoding. -/
structure Libs (P : Type) where
  httpParser : HttpParser P
  jsonName : Bytes → Option (Bytes × Bytes)
  jsonJoke : Bytes → Option Bytes

variable {P : Type}

/-- `http_session_new` before any callback is set. -/
def httpSessionInit (lib : Libs P) (type : ParserType) (channel : ℕ) : HttpSession P where
  state := .messageBegin
  len := 0
  parser := httpParserInit lib.httpParser type
  body := none
  channel := channel
  cbs := {}

/-- Before the connection is accepted, in a thread with or without a worker. -/
def initial (lib : Libs P) (worker : Bool) : World P where
  worker := worker
  session := {}
  registered := false
  crashed := false
  http := httpSessionInit lib .request
  chan := fun _ => {}
  bev := fun _ => {}
  request := fun _ => {}
  reference := fun _ => {}
  resolving := []
  nextConn := 0
  nextRequest := 0
  nextReference := 0
  nextStr := 0
  life := []
  conns := []
  socks := []
  dns := []
  addrs := []
  strs := []
  calls := []

def onSession (f : Session → Session) (w : World P) : World P :=
  { w with life := .use () :: w.life, session := f w.session }

def onHttp (h : ℕ) (f : HttpSession P → HttpSession P) (w : World P) : World P :=
  { w with conns := .use (.httpSession h) :: w.conns
           http := Function.update w.http h (f (w.http h)) }

def onChan (n : ℕ) (f : TcpSocket → TcpSocket) (w : World P) : World P :=
  { w with conns := .use (.channel n) :: w.conns
           chan := Function.update w.chan n (f (w.chan n)) }

def onBev (b : ℕ) (f : Bufferevent → Bufferevent) (w : World P) : World P :=
  { w with socks := .use (.bev b) :: w.socks
           bev := Function.update w.bev b (f (w.bev b)) }

def onRequest (r : ℕ) (f : DnsRequest → DnsRequest) (w : World P) : World P :=
  { w with dns := .use (.dnsRequest r) :: w.dns
           request := Function.update w.request r (f (w.request r)) }

def call (c : Call) (w : World P) : World P := { w with calls := c :: w.calls }

/-- A null pointer was dereferenced; nothing runs afterwards. -/
def crash (w : World P) : World P := { w with crashed := true }

def strdup (ok : Bool) (s : Bytes) (w : World P) : Option CStr × World P :=
  if ok then
    (some ⟨w.nextStr, s.takeWhile (· ≠ 0)⟩,
      { w with nextStr := w.nextStr + 1, strs := .alloc w.nextStr :: w.strs })
  else (none, w)

def freeStr : Option CStr → World P → World P
  | none, w => w
  | some s, w => { w with strs := .free s.addr :: w.strs }

/-- The reference block numbered `k`. No `free_fn` is ever given to one. -/
def block (k : ℕ) : Block (World P) Unit where
  get w := w.reference k
  set r w := { w with dns := .use (.reference k) :: w.dns
                      reference := Function.update w.reference k r }
  free w := { w with dns := .free (.reference k) :: w.dns }
  freeFn _ w := w

def onReference (f : Block (World P) Unit → World P → World P) :
    Option ℕ → World P → World P
  | none, w => w
  | some k, w => f (block k) w

/-- Whether `reference_get` returns the session. -/
def referenceGet : Option ℕ → World P → Bool × World P
  | none, w => (false, w)
  | some k, w => ((w.reference k).ptr.isSome, { w with dns := .use (.reference k) :: w.dns })

end Tigera.SessionWorld
