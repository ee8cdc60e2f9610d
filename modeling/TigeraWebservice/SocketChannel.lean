import TigeraWebservice.SessionWorld

/-!
# TCP channels

The functions of `tcp_socket.c` that acquire, configure and release a
connection, and those that reach its buffers. The objects of the `n`-th attempt
are all numbered `n`. A bufferevent owns the descriptor it was made with, and
releasing it closes the descriptor and runs the cleanup of zero-copy output.
-/

set_option autoImplicit false

namespace Tigera.SocketChannel
open ResourceLedger Tigera.SessionWorld Tigera.JokeCreate

variable {P : Type}

inductive IoChannelError where
  | success
  | again
  | error
  deriving DecidableEq, Repr

structure ConnectChoices where
  tcpSocketNew : Bool := true
  httpSessionNew : Bool := true
  socket : Bool := true
  buffereventSocketNew : Bool := true
  buffereventEnable : Bool := true
  buffereventSocketConnect : Bool := true
  deriving DecidableEq, Repr

structure AcceptChoices where
  family : Bool := true
  getsockname : Bool := true
  getBase : Bool := true
  buffereventSocketNew : Bool := true
  tcpSocketNew : Bool := true
  buffereventEnable : Bool := true
  sessionNew : Bool := true
  httpSessionNew : Bool := true
  nodeNew : Bool := true
  deriving DecidableEq, Repr

def evutilClosesocket (fd : ℕ) (w : World P) : World P :=
  { w with socks := .free (.fd fd) :: w.socks }

def buffereventSocketNew (ok : Bool) (fd : ℕ) (w : World P) : Option ℕ × World P :=
  if ok then
    (some fd, { w with socks := .alloc (.bev fd) :: w.socks
                       bev := Function.update w.bev fd {} })
  else (none, w)

def owned (output : List Chunk) : List (Entry ℕ) :=
  output.filterMap fun c => c.owner.map fun s => .free s.addr

def buffereventFree (b : ℕ) (w : World P) : World P :=
  { w with socks := .free (.fd b) :: .free (.bev b) :: w.socks
           strs := owned (w.bev b).output ++ w.strs
           bev := Function.update w.bev b { w.bev b with input := [], output := [] } }

def tcpSocketNew (ok : Bool) (n : ℕ) (w : World P) : Option ℕ × World P :=
  if ok then
    (some n, { w with conns := .alloc (.channel n) :: w.conns
                      chan := Function.update w.chan n {} })
  else (none, w)

def tcpSocketFree (n : ℕ) (w : World P) : World P :=
  let w := onChan n id w
  let w := match (w.chan n).bev with
    | none => w
    | some b =>
      let w := if (w.chan n).listen then { w with socks := .free (.listener b) :: w.socks }
        else buffereventFree b w
      onChan n (fun s => { s with bev := none }) w
  { w with conns := .free (.channel n) :: w.conns }

def channelFree (n : ℕ) (w : World P) : World P := tcpSocketFree n w

/-- On failure the bufferevent is released and the pointer to it cleared. -/
def tcpSocketConfig (ok : Bool) (n : ℕ) (w : World P) : Bool × World P :=
  match (w.chan n).bev with
  | none => (false, crash w)
  | some b =>
    let w := onBev b (fun e => { e with cbarg := some n }) w
    if ok then (true, w)
    else (false, onChan n (fun s => { s with bev := none }) (buffereventFree b w))

/-- The `error` label: the bufferevent is released, its pointer is not cleared. -/
def tcpSocketConnectError (fd : Option ℕ) (n : ℕ) (w : World P) : IoChannelError × World P :=
  let w := match fd with
    | some fd => evutilClosesocket fd w
    | none => w
  let w := match (w.chan n).bev with
    | some b => buffereventFree b w
    | none => w
  (.error, w)

def tcpSocketConnect (c : ConnectChoices) (n : ℕ) (ss : SockAddr) (w : World P) :
    IoChannelError × World P :=
  let w := onChan n id w
  if (w.chan n).bev.isSome then (.error, w)
  else if c.socket then
    let w := { w with socks := .alloc (.fd n) :: w.socks }
    if w.worker then
      match buffereventSocketNew c.buffereventSocketNew n w with
      | (none, w) => tcpSocketConnectError (some n) n w
      | (some b, w) =>
        let w := onChan n (fun s => { s with bev := some b }) w
        match tcpSocketConfig c.buffereventEnable n w with
        | (false, w) => tcpSocketConnectError none n w
        | (true, w) =>
          if c.buffereventSocketConnect then
            (.again, onBev b (fun e => { e with connecting := true, peer := some ss }) w)
          else tcpSocketConnectError none n w
    else tcpSocketConnectError (some n) n w
  else tcpSocketConnectError none n w

/-- `io_ctx` is the bufferevent made by `tcp_socket_accept_cb`. -/
def tcpSocketAccept (c : AcceptChoices) (n ioCtx : ℕ) (w : World P) : Option ℕ × World P :=
  if w.worker then
    match tcpSocketNew c.tcpSocketNew n w with
    | (none, w) => (none, w)
    | (some channel, w) =>
      let w := onChan channel (fun s => { s with bev := some ioCtx }) w
      match tcpSocketConfig c.buffereventEnable channel w with
      | (true, w) => (some channel, w)
      | (false, w) => (none, tcpSocketFree channel w)
  else (none, w)

def channelGetInput (n : ℕ) (w : World P) : Bytes :=
  match (w.chan n).bev with
  | some b => (w.bev b).input
  | none => []

def channelGetOutput (n : ℕ) (w : World P) : List Chunk :=
  match (w.chan n).bev with
  | some b => (w.bev b).output
  | none => []

def outputBytes (output : List Chunk) : Bytes := output.flatMap Chunk.data

def channelGetOutputLength (n : ℕ) (w : World P) : ℕ := (outputBytes (channelGetOutput n w)).length

def onChannelBev (n : ℕ) (f : Bufferevent → Bufferevent) (w : World P) : World P :=
  let w := onChan n id w
  match (w.chan n).bev with
  | some b => onBev b f w
  | none => crash w

/-- Draining output releases the strings of the pieces drained whole. -/
def drainOutput : ℕ → List Chunk → List Chunk
  | _, [] => []
  | k, c :: cs =>
    if c.data.length ≤ k then drainOutput (k - c.data.length) cs
    else { c with data := c.data.drop k } :: cs

def drainedOwners : ℕ → List Chunk → List Chunk
  | _, [] => []
  | k, c :: cs => if c.data.length ≤ k then c :: drainedOwners (k - c.data.length) cs else []

end Tigera.SocketChannel
