import TigeraWebservice.SessionProgram

/-!
# Connections held in slots

Between callbacks every connection that is alive is held in one slot of the
session, with the callbacks of that slot, and an upstream connection goes to
the host of its slot. What a function does to one connection leaves the others
alone, so the invariant is checked at that connection only. The accounting of
descriptors and bufferevents is kept with it when it is asked for (`tidy`).
-/

set_option autoImplicit false

namespace Tigera.HeldConnections
open ResourceLedger Tigera.HttpReading Tigera.SessionWorld Tigera.SocketChannel
open Tigera.SessionProgram

variable {P : Type}

/-- The part of the world the connections live in. -/
structure Wires (P : Type) where
  conns : List (Entry Conn)
  socks : List (Entry Sock)
  http : ℕ → HttpSession P
  chan : ℕ → TcpSocket
  bev : ℕ → Bufferevent
  slots : Slot → Option ℕ
  next : ℕ

def wires (w : World P) : Wires P :=
  ⟨w.conns, w.socks, w.http, w.chan, w.bev, w.session.httpSessions, w.nextConn⟩

/-- The part of the world a change of connections leaves alone. -/
structure Rest where
  worker : Bool
  session : Session
  registered : Bool
  crashed : Bool
  request : ℕ → DnsRequest
  reference : ℕ → CountedReference.Reference Unit
  resolving : List Lookup
  nextRequest : ℕ
  nextReference : ℕ
  life : List (Entry Unit)
  dns : List (Entry DnsObj)
  addrs : List (Entry ℕ)
  calls : List Call

def rest (w : World P) : Rest :=
  ⟨w.worker, w.session, w.registered, w.crashed, w.request, w.reference, w.resolving,
    w.nextRequest, w.nextReference, w.life, w.dns, w.addrs, w.calls⟩

def clientCallbacks : HttpCallbacks :=
  { messageComplete := some .clientMsgComplete, readyToClose := some .clientReadyToClose }

def slotCallbacks : Slot → HttpCallbacks
  | .client => clientCallbacks
  | .name => upstreamCallbacks .name
  | .joke => upstreamCallbacks .joke

def slotHost : Slot → Option Host
  | .client => none
  | .name => some .uinames
  | .joke => some .icndb

/-- Connection `n` is alive and is the connection of slot `i`. -/
structure Held (tidy : Prop) (v : Wires P) (i : Slot) (n : ℕ) : Prop where
  http : status v.conns (.httpSession n) = .live
  chan : status v.conns (.channel n) = .live
  channel : (v.http n).channel = n
  cbs : (v.http n).cbs = slotCallbacks i
  bev : (v.chan n).bev = some n
  listen : (v.chan n).listen = false
  ctx : (v.chan n).ctx = some n
  cbarg : (v.bev n).cbarg = some n
  peer : (v.bev n).peer.map SockAddr.host = slotHost i
  socket : tidy → status v.socks (.bev n) = .live ∧ status v.socks (.fd n) = .live

/-- Nothing of connection `n` is alive or can call back. -/
structure Dead (tidy : Prop) (v : Wires P) (n : ℕ) : Prop where
  http : status v.conns (.httpSession n) ≠ .live
  chan : status v.conns (.channel n) ≠ .live
  bev : status v.socks (.bev n) = .live → (v.bev n).cbarg = none
  socket : tidy → status v.socks (.bev n) ≠ .live ∧ status v.socks (.fd n) ≠ .live

structure ConnsOk (tidy : Prop) (v : Wires P) : Prop where
  sound : Sound v.conns
  tidySound : tidy → Sound v.socks
  held : ∀ i n, v.slots i = some n → Held tidy v i n
  distinct : ∀ i j n, v.slots i = some n → v.slots j = some n → i = j
  dead : ∀ n, (∀ i, v.slots i ≠ some n) → Dead tidy v n
  fresh : ∀ n, v.next ≤ n → status v.conns (.httpSession n) = .fresh ∧
    status v.conns (.channel n) = .fresh ∧ status v.socks (.bev n) = .fresh ∧
    status v.socks (.fd n) = .fresh

/-- The two worlds agree on every connection but `n`. -/
structure Elsewhere (n : ℕ) (v v' : Wires P) : Prop where
  http : ∀ m, m ≠ n → status v'.conns (.httpSession m) = status v.conns (.httpSession m)
  chan : ∀ m, m ≠ n → status v'.conns (.channel m) = status v.conns (.channel m)
  bev : ∀ m, m ≠ n → status v'.socks (.bev m) = status v.socks (.bev m)
  fd : ∀ m, m ≠ n → status v'.socks (.fd m) = status v.socks (.fd m)
  httpValue : ∀ m, m ≠ n → v'.http m = v.http m
  chanValue : ∀ m, m ≠ n → v'.chan m = v.chan m
  bevValue : ∀ m, m ≠ n → v'.bev m = v.bev m

theorem held_elsewhere {tidy : Prop} {n m : ℕ} {v v' : Wires P} {i : Slot}
    (he : Elsewhere n v v') (hm : m ≠ n) (h : Held tidy v i m) : Held tidy v' i m where
  http := (he.http m hm).trans h.http
  chan := (he.chan m hm).trans h.chan
  channel := by rw [he.httpValue m hm]; exact h.channel
  cbs := by rw [he.httpValue m hm]; exact h.cbs
  bev := by rw [he.chanValue m hm]; exact h.bev
  listen := by rw [he.chanValue m hm]; exact h.listen
  ctx := by rw [he.chanValue m hm]; exact h.ctx
  cbarg := by rw [he.bevValue m hm]; exact h.cbarg
  peer := by rw [he.bevValue m hm]; exact h.peer
  socket := fun ht => ⟨(he.bev m hm).trans (h.socket ht).1, (he.fd m hm).trans (h.socket ht).2⟩

theorem dead_elsewhere {tidy : Prop} {n m : ℕ} {v v' : Wires P}
    (he : Elsewhere n v v') (hm : m ≠ n) (h : Dead tidy v m) : Dead tidy v' m where
  http := by rw [he.http m hm]; exact h.http
  chan := by rw [he.chan m hm]; exact h.chan
  bev := by rw [he.bev m hm, he.bevValue m hm]; exact h.bev
  socket := by rw [he.bev m hm, he.fd m hm]; exact h.socket

/-- What a change of connection `n` has to establish at `n` itself. -/
inductive Settled (tidy : Prop) (v : Wires P) (n : ℕ) : Prop where
  | held (i : Slot) (slot : v.slots i = some n) (only : ∀ j, v.slots j = some n → j = i)
      (held : Held tidy v i n)
  | dead (none : ∀ i, v.slots i ≠ some n) (dead : Dead tidy v n)

theorem connsOk_of_elsewhere {tidy : Prop} {n : ℕ} {v v' : Wires P} (h : ConnsOk tidy v)
    (he : Elsewhere n v v') (hslots : ∀ i m, m ≠ n → (v'.slots i = some m ↔ v.slots i = some m))
    (hn : Settled tidy v' n) (hsound : Sound v'.conns) (htidy : tidy → Sound v'.socks)
    (hnext : v.next ≤ v'.next) (hlt : n < v'.next) : ConnsOk tidy v' where
  sound := hsound
  tidySound := htidy
  held := by
    intro i m hi
    by_cases hm : m = n
    · subst hm
      cases hn with
      | held j slot only held => exact only i hi ▸ held
      | dead none dead => exact absurd hi (none i)
    · exact held_elsewhere he hm (h.held i m ((hslots i m hm).mp hi))
  distinct := by
    intro i j m hi hj
    by_cases hm : m = n
    · subst hm
      cases hn with
      | held k slot only held => exact (only i hi).trans (only j hj).symm
      | dead none dead => exact absurd hi (none i)
    · exact h.distinct i j m ((hslots i m hm).mp hi) ((hslots j m hm).mp hj)
  dead := by
    intro m hm'
    by_cases hm : m = n
    · subst hm
      cases hn with
      | held k slot only held => exact absurd slot (hm' k)
      | dead none dead => exact dead
    · exact dead_elsewhere he hm (h.dead m fun i hi => hm' i ((hslots i m hm).mpr hi))
  fresh := by
    intro m hm
    have hne : m ≠ n := by omega
    rw [he.http m hne, he.chan m hne, he.bev m hne, he.fd m hne]
    exact h.fresh m (by omega)

theorem held_lt {tidy : Prop} {v : Wires P} {i : Slot} {n : ℕ} (h : ConnsOk tidy v)
    (hi : v.slots i = some n) : n < v.next := by
  by_contra hn
  have hf := (h.fresh n (by omega)).1
  rw [(h.held i n hi).http] at hf
  exact absurd hf (by decide)

theorem unheld_next {tidy : Prop} {v : Wires P} (h : ConnsOk tidy v) (i : Slot) :
    v.slots i ≠ some v.next := fun hi => absurd (held_lt h hi) (by omega)

theorem held_of_bev {tidy : Prop} {v : Wires P} {n : ℕ} (h : ConnsOk tidy v)
    (hlive : status v.socks (.bev n) = .live) (hcb : (v.bev n).cbarg.isSome = true) :
    ∃ i, v.slots i = some n := by
  by_contra hno
  have hd := (h.dead n fun i hi => hno ⟨i, hi⟩).bev hlive
  simp [hd] at hcb

section Access

variable {tidy : Prop} {w : World P} {i : Slot} {n : ℕ}

theorem connsOk_access {v' : Wires P} (h : ConnsOk tidy (wires w)) (hi : w.session.httpSessions i = some n)
    (he : Elsewhere n (wires w) v') (hslots : v'.slots = w.session.httpSessions)
    (hnext : v'.next = w.nextConn) (hheld : Held tidy v' i n) (hsound : Sound v'.conns)
    (htidy : tidy → Sound v'.socks) : ConnsOk tidy v' := by
  refine connsOk_of_elsewhere h he (fun j m _ => by rw [hslots]; rfl) ?_ hsound htidy
    (Nat.le_of_eq hnext.symm) (hnext ▸ held_lt h hi)
  refine .held i (by rw [hslots]; exact hi) (fun j hj => ?_) hheld
  rw [hslots] at hj
  exact h.distinct j i n hj hi

theorem connsOk_onHttp (h : ConnsOk tidy (wires w)) (hi : w.session.httpSessions i = some n)
    (f : HttpSession P → HttpSession P) (hf : (f (w.http n)).channel = (w.http n).channel)
    (hc : (f (w.http n)).cbs = (w.http n).cbs) : ConnsOk tidy (wires (onHttp n f w)) := by
  have hh := h.held i n hi
  refine connsOk_access h hi ?_ rfl rfl ?_ ⟨hh.http, h.sound⟩ h.tidySound
  · constructor <;> intro m hm <;> simp [wires, onHttp, hm]
  · exact { hh with
      channel := by simpa [wires, onHttp, hf] using hh.channel
      cbs := by simpa [wires, onHttp, hc] using hh.cbs }

theorem connsOk_onChan (h : ConnsOk tidy (wires w)) (hi : w.session.httpSessions i = some n)
    (f : TcpSocket → TcpSocket) (hb : (f (w.chan n)).bev = (w.chan n).bev)
    (hl : (f (w.chan n)).listen = (w.chan n).listen) (hc : (f (w.chan n)).ctx = (w.chan n).ctx) :
    ConnsOk tidy (wires (onChan n f w)) := by
  have hh := h.held i n hi
  refine connsOk_access h hi ?_ rfl rfl ?_ ⟨hh.chan, h.sound⟩ h.tidySound
  · constructor <;> intro m hm <;> simp [wires, onChan, hm]
  · exact { hh with
      bev := by simpa [wires, onChan, hb] using hh.bev
      listen := by simpa [wires, onChan, hl] using hh.listen
      ctx := by simpa [wires, onChan, hc] using hh.ctx }

theorem connsOk_onBev (h : ConnsOk tidy (wires w)) (hi : w.session.httpSessions i = some n)
    (f : Bufferevent → Bufferevent) (hc : (f (w.bev n)).cbarg = (w.bev n).cbarg)
    (hp : (f (w.bev n)).peer = (w.bev n).peer) : ConnsOk tidy (wires (onBev n f w)) := by
  have hh := h.held i n hi
  refine connsOk_access h hi ?_ rfl rfl ?_ h.sound fun ht => ⟨(hh.socket ht).1, h.tidySound ht⟩
  · constructor <;> intro m hm <;> simp [wires, onBev, hm]
  · exact { hh with
      cbarg := by simpa [wires, onBev, hc] using hh.cbarg
      peer := by simpa [wires, onBev, hp] using hh.peer
      socket := fun ht => by simpa [wires, onBev] using hh.socket ht }

theorem connsOk_onChannelBev (h : ConnsOk tidy (wires w)) (hi : w.session.httpSessions i = some n)
    (f : Bufferevent → Bufferevent) (hc : (f (w.bev n)).cbarg = (w.bev n).cbarg)
    (hp : (f (w.bev n)).peer = (w.bev n).peer) : ConnsOk tidy (wires (onChannelBev n f w)) := by
  have hb : (w.chan n).bev = some n := (h.held i n hi).bev
  have hb : ((onChan n id w).chan n).bev = some n := by simpa [onChan] using hb
  rw [onChannelBev]
  simp only [hb]
  exact connsOk_onBev (connsOk_onChan h hi id rfl rfl rfl) hi f hc hp

end Access

section Release

variable {tidy : Prop} {w : World P} {i : Slot} {n : ℕ}

theorem rest_channelFree (n : ℕ) (w : World P) : rest (channelFree n w) = rest w := by
  cases hb : ((onChan n id w).chan n).bev with
  | none =>
    simp only [channelFree, tcpSocketFree, hb]
    rfl
  | some b =>
    cases hl : ((onChan n id w).chan n).listen with
    | false =>
      simp only [channelFree, tcpSocketFree, hb, hl]
      rfl
    | true =>
      simp only [channelFree, tcpSocketFree, hb, hl]
      rfl

theorem rest_httpSessionFree (h : ℕ) (w : World P) : rest (httpSessionFree h w) = rest w :=
  rest_channelFree _ (onHttp h (fun s => { s with body := none }) w)

theorem nextConn_channelFree (n : ℕ) (w : World P) : (channelFree n w).nextConn = w.nextConn := by
  cases hb : ((onChan n id w).chan n).bev with
  | none =>
    simp only [channelFree, tcpSocketFree, hb]
    rfl
  | some b =>
    cases hl : ((onChan n id w).chan n).listen with
    | false =>
      simp only [channelFree, tcpSocketFree, hb, hl]
      rfl
    | true =>
      simp only [channelFree, tcpSocketFree, hb, hl]
      rfl

theorem nextConn_freeSlot (i : Slot) (w : World P) : (freeSlot i w).nextConn = w.nextConn := by
  rw [freeSlot]
  split
  · next h _ => exact nextConn_channelFree _ (onHttp h (fun s => { s with body := none }) w)
  · rfl

theorem httpSessionFree_eq (hc : (w.http n).channel = n) (hb : (w.chan n).bev = some n)
    (hl : (w.chan n).listen = false) : httpSessionFree n w = { w with
      conns := .free (.httpSession n) :: .free (.channel n) :: .use (.channel n) ::
        .use (.channel n) :: .use (.httpSession n) :: w.conns
      socks := .free (.fd n) :: .free (.bev n) :: w.socks
      strs := owned (w.bev n).output ++ w.strs
      http := Function.update w.http n { w.http n with body := none }
      chan := Function.update w.chan n { w.chan n with bev := none }
      bev := Function.update w.bev n { w.bev n with input := [], output := [] } } := by
  simp [httpSessionFree, onHttp, channelFree, tcpSocketFree, onChan, buffereventFree, hc, hb, hl]

theorem connsOk_freeSlot (h : ConnsOk tidy (wires w)) (i : Slot) :
    ConnsOk tidy (wires (freeSlot i w)) := by
  cases hi : w.session.httpSessions i with
  | none =>
    have hs : Function.update w.session.httpSessions i none = w.session.httpSessions :=
      Function.update_eq_self_iff.mpr hi.symm
    simpa only [freeSlot, hi, wires, onSession, setSlot, hs] using h
  | some n =>
    have hh := h.held i n hi
    have hv : wires (freeSlot i w) = wires (onSession (setSlot i none) (httpSessionFree n w)) := by
      simp only [freeSlot, hi]
    have hlt : n < (wires w).next := held_lt h hi
    rw [hv, httpSessionFree_eq (w := w) hh.channel hh.bev hh.listen]
    refine connsOk_of_elsewhere (n := n) h ?_ ?_ (.dead ?_ ?_) ?_ ?_ (Nat.le_refl _) hlt
    · constructor <;> intro m hm <;> simp [wires, onSession, hm]
    · intro j m hm
      by_cases hj : j = i
      · subst hj
        have hne : ¬ n = m := fun hnm => hm hnm.symm
        simp [wires, onSession, setSlot, hi, hne]
      · simp [wires, onSession, setSlot, hj]
    · intro j hj
      by_cases hji : j = i
      · simp [wires, onSession, setSlot, hji] at hj
      · simp only [wires, onSession, setSlot, Function.update_of_ne hji] at hj
        exact hji (h.distinct j i n hj hi)
    · constructor <;> simp [wires, onSession]
    · have h1 : status w.conns (.httpSession n) = .live := hh.http
      have h2 : status w.conns (.channel n) = .live := hh.chan
      have h3 : Sound w.conns := h.sound
      simp [wires, onSession, h1, h2, h3]
    · intro ht
      have h1 : status w.socks (.bev n) = .live ∧ status w.socks (.fd n) = .live := hh.socket ht
      have h2 : Sound w.socks := h.tidySound ht
      simp [wires, onSession, h1.1, h1.2, h2]

end Release

/-- Whether every step of `http_server_connect` succeeds. -/
def connects (c : ConnectChoices) (worker : Bool) : Bool :=
  c.tcpSocketNew && c.httpSessionNew && c.socket && worker && c.buffereventSocketNew &&
    c.buffereventEnable && c.buffereventSocketConnect

/-- The attempt comes as far as `bufferevent_socket_connect`, which fails. -/
def refused (c : ConnectChoices) (worker : Bool) : Bool :=
  c.tcpSocketNew && c.httpSessionNew && c.socket && worker && c.buffereventSocketNew &&
    c.buffereventEnable && !c.buffereventSocketConnect

def connected (lib : Libs P) (ss : SockAddr) (idx : Slot) (w : World P) : World P :=
  let n := w.nextConn
  { w with
    nextConn := n + 1
    conns := .use (.httpSession n) :: .use (.channel n) :: .use (.channel n) ::
      .use (.channel n) :: .alloc (.httpSession n) :: .alloc (.channel n) :: w.conns
    socks := .use (.bev n) :: .use (.bev n) :: .alloc (.bev n) :: .alloc (.fd n) :: w.socks
    http := Function.update w.http n
      { httpSessionInit lib .response n with cbs := upstreamCallbacks idx }
    chan := Function.update w.chan n { bev := some n, ctx := some n }
    bev := Function.update w.bev n { cbarg := some n, connecting := true, peer := some ss }
    life := .use () :: w.life
    session := { setSlot idx (some n) w.session with
      pendingConnections := w.session.pendingConnections + 1 } }

theorem httpServerConnect_connects (lib : Libs P) (c : ConnectChoices) (ss : SockAddr)
    (idx : Slot) (w : World P) (hc : connects c w.worker = true) :
    httpServerConnect lib c ss idx w = connected lib ss idx w := by
  simp only [connects, Bool.and_eq_true] at hc
  obtain ⟨⟨⟨⟨⟨⟨h1, h2⟩, h3⟩, h4⟩, h5⟩, h6⟩, h7⟩ := hc
  simp [httpServerConnect, tcpSocketNew, httpSessionNew, tcpSocketConnect, buffereventSocketNew,
    tcpSocketConfig, onChan, onBev, onSession, onHttp, httpSessionCallbacksSet, connected, setSlot,
    h1, h2, h3, h4, h5, h6, h7]

/-- What a failed attempt numbered `n` leaves behind. -/
structure Undone (tidy : Prop) (n : ℕ) (w w' : World P) : Prop where
  rest : rest w' = rest w
  next : w'.nextConn = n + 1
  elsewhere : Elsewhere n (wires w) (wires w')
  dead : Dead tidy (wires w') n
  sound : Sound w'.conns
  tidySound : tidy → Sound w'.socks

section Connect

variable {tidy : Prop} {w : World P}

/-- An attempt at a connection, up to `channel_connect`. -/
def attempt (lib : Libs P) (c : ConnectChoices) (ss : SockAddr) (w : World P) : World P :=
  let n := w.nextConn
  let w := { w with nextConn := n + 1 }
  if c.tcpSocketNew then
    let w := (tcpSocketNew true n w).2
    if c.httpSessionNew then
      httpSessionFree n (tcpSocketConnect c n ss (httpSessionNew lib true n .response w).2).2
    else channelFree n w
  else w

theorem undone_early (lib : Libs P) (c : ConnectChoices) (ss : SockAddr)
    (h : ConnsOk tidy (wires w)) (hc : (c.tcpSocketNew && c.httpSessionNew) = false) :
    Undone tidy w.nextConn w (attempt lib c ss w) := by
  obtain ⟨hf1, hf2, hf3, hf4⟩ := h.fresh w.nextConn (Nat.le_refl _)
  have hs : Sound w.conns := h.sound
  have ht : tidy → Sound w.socks := h.tidySound
  simp only [wires] at hf1 hf2 hf3 hf4
  by_cases h1 : c.tcpSocketNew = true
  · have h2 : c.httpSessionNew = false := by simpa [h1] using hc
    constructor
    · simp [rest, attempt, h1, h2, tcpSocketNew, channelFree, tcpSocketFree, onChan]
    · simp [attempt, h1, h2, tcpSocketNew, channelFree, tcpSocketFree, onChan]
    · constructor <;> intro m hm <;>
        simp [attempt, h1, h2, tcpSocketNew, channelFree, tcpSocketFree, onChan, wires, hm]
    · constructor <;>
        simp [attempt, h1, h2, tcpSocketNew, channelFree, tcpSocketFree, onChan, wires, hf1, hf3,
          hf4]
    · simp [attempt, h1, h2, tcpSocketNew, channelFree, tcpSocketFree, onChan, hf2, hs]
    · simpa [attempt, h1, h2, tcpSocketNew, channelFree, tcpSocketFree, onChan] using ht
  · constructor
    · simp [rest, attempt, h1]
    · simp [attempt, h1]
    · constructor <;> intro m hm <;> simp [attempt, h1, wires]
    · constructor <;> simp [attempt, h1, wires, hf1, hf2, hf3, hf4]
    · simpa [attempt, h1] using hs
    · simpa [attempt, h1] using ht

theorem connects_cases {c : ConnectChoices} {worker : Bool} (h1 : c.tcpSocketNew = true)
    (h2 : c.httpSessionNew = true) (hc : connects c worker = false) :
    c.socket = false ∨ c.socket = true ∧ worker = false ∨
      c.socket = true ∧ worker = true ∧ c.buffereventSocketNew = false ∨
      c.socket = true ∧ worker = true ∧ c.buffereventSocketNew = true ∧
        c.buffereventEnable = false ∨
      c.socket = true ∧ worker = true ∧ c.buffereventSocketNew = true ∧
        c.buffereventEnable = true ∧ c.buffereventSocketConnect = false := by
  simp only [connects, h1, h2, Bool.true_and] at hc
  grind

theorem undone_late (lib : Libs P) (c : ConnectChoices) (ss : SockAddr)
    (h : ConnsOk tidy (wires w)) (h1 : c.tcpSocketNew = true) (h2 : c.httpSessionNew = true)
    (hc : connects c w.worker = false) (hr : tidy → refused c w.worker = false) :
    Undone tidy w.nextConn w (attempt lib c ss w) := by
  obtain ⟨hf1, hf2, hf3, hf4⟩ := h.fresh w.nextConn (Nat.le_refl _)
  have hs : Sound w.conns := h.sound
  have ht : tidy → Sound w.socks := h.tidySound
  simp only [wires] at hf1 hf2 hf3 hf4
  simp only [refused, h1, h2, Bool.true_and] at hr
  rcases connects_cases h1 h2 hc with h3 | ⟨h3, h4⟩ | ⟨h3, h4, h5⟩ | ⟨h3, h4, h5, h6⟩ |
    ⟨h3, h4, h5, h6, h7⟩
  all_goals
    simp only [attempt, tcpSocketNew, httpSessionNew, tcpSocketConnect, tcpSocketConnectError,
      tcpSocketConfig, buffereventSocketNew, buffereventFree, evutilClosesocket, httpSessionFree,
      channelFree, tcpSocketFree, onHttp, onChan, onBev, httpSessionInit, h1, h2, h3,
      Function.update_self, Option.isSome_none, if_true, if_false, Bool.false_eq_true, id]
  · refine ⟨rfl, rfl, ?_, ?_, by simp [hf1, hf2, hs], ht⟩
    · constructor <;> intro m hm <;> simp [wires, hm]
    · constructor <;> simp [wires, hf3, hf4]
  · simp only [h4, if_false, Bool.false_eq_true, Function.update_self]
    refine ⟨by simp only [rest, h4], rfl, ?_, ?_, by simp [hf1, hf2, hs], by simpa [hf4] using ht⟩
    · constructor <;> intro m hm <;> simp [wires, hm]
    · constructor <;> simp [wires, hf3]
  · simp only [h4, h5, if_true, if_false, Bool.false_eq_true, Function.update_self]
    refine ⟨by simp only [rest, h4], rfl, ?_, ?_, by simp [hf1, hf2, hs], by simpa [hf4] using ht⟩
    · constructor <;> intro m hm <;> simp [wires, hm]
    · constructor <;> simp [wires, hf3]
  · simp only [h4, h5, h6, if_true, if_false, Bool.false_eq_true, Function.update_self]
    refine ⟨by simp only [rest, h4], rfl, ?_, ?_, by simp [hf1, hf2, hs], by simpa [hf3, hf4] using ht⟩
    · constructor <;> intro m hm <;> simp [wires, hm]
    · constructor <;> simp [wires]
  · simp only [h4, h5, h6, h7, if_true, if_false, Bool.false_eq_true, Function.update_self]
    have hno : ¬ tidy := fun htd => by simpa [h3, h4, h5, h6, h7] using hr htd
    refine ⟨by simp only [rest, h4], rfl, ?_, ?_, by simp [hf1, hf2, hs], fun htd => absurd htd hno⟩
    · constructor <;> intro m hm <;> simp [wires, hm]
    · constructor <;> simp [wires]

theorem httpServerConnect_attempt (lib : Libs P) (c : ConnectChoices) (ss : SockAddr) (idx : Slot)
    (hc : connects c w.worker = false) :
    httpServerConnect lib c ss idx w = httpServerConnectError (attempt lib c ss w) := by
  by_cases h1 : c.tcpSocketNew = true
  · by_cases h2 : c.httpSessionNew = true
    · rcases connects_cases h1 h2 hc with h3 | ⟨h3, h4⟩ | ⟨h3, h4, h5⟩ | ⟨h3, h4, h5, h6⟩ |
        ⟨h3, h4, h5, h6, h7⟩
      · simp [httpServerConnect, attempt, tcpSocketNew, httpSessionNew, tcpSocketConnect,
          tcpSocketConnectError, onChan, h1, h2, h3]
      · simp [httpServerConnect, attempt, tcpSocketNew, httpSessionNew, tcpSocketConnect,
          tcpSocketConnectError, onChan, h1, h2, h3, h4]
      · simp [httpServerConnect, attempt, tcpSocketNew, httpSessionNew, tcpSocketConnect,
          tcpSocketConnectError, buffereventSocketNew, onChan, h1, h2, h3, h4, h5]
      · simp [httpServerConnect, attempt, tcpSocketNew, httpSessionNew, tcpSocketConnect,
          tcpSocketConnectError, buffereventSocketNew, tcpSocketConfig, onChan, onBev,
          h1, h2, h3, h4, h5, h6]
      · simp [httpServerConnect, attempt, tcpSocketNew, httpSessionNew, tcpSocketConnect,
          tcpSocketConnectError, buffereventSocketNew, tcpSocketConfig, onChan, onBev,
          h1, h2, h3, h4, h5, h6, h7]
    · simp [httpServerConnect, attempt, tcpSocketNew, httpSessionNew, h1, h2]
  · simp [httpServerConnect, attempt, tcpSocketNew, h1]

theorem undone (lib : Libs P) (c : ConnectChoices) (ss : SockAddr) (h : ConnsOk tidy (wires w))
    (hc : connects c w.worker = false) (hr : tidy → refused c w.worker = false) :
    Undone tidy w.nextConn w (attempt lib c ss w) := by
  by_cases h12 : (c.tcpSocketNew && c.httpSessionNew) = true
  · rw [Bool.and_eq_true] at h12
    exact undone_late lib c ss h h12.1 h12.2 hc hr
  · exact undone_early lib c ss h (by simpa using h12)

theorem connsOk_undone {w' : World P} (h : ConnsOk tidy (wires w))
    (hu : Undone tidy w.nextConn w w') : ConnsOk tidy (wires w') := by
  have hslots : w'.session = w.session := congrArg Rest.session hu.rest
  have hn : (wires w').next = w.nextConn + 1 := hu.next
  refine connsOk_of_elsewhere h hu.elsewhere ?_ (.dead ?_ hu.dead) hu.sound hu.tidySound ?_ ?_
  · intro i m _
    simp [wires, hslots]
  · intro i hi
    simp only [wires, hslots] at hi
    exact unheld_next h i hi
  · have hw : (wires w).next = w.nextConn := rfl
    omega
  · omega

theorem connsOk_connected (lib : Libs P) (ss : SockAddr) (idx : Slot)
    (h : ConnsOk tidy (wires w)) (hidx : idx ≠ .client) (hfree : w.session.httpSessions idx = none)
    (hhost : some ss.host = slotHost idx) : ConnsOk tidy (wires (connected lib ss idx w)) := by
  obtain ⟨hf1, hf2, hf3, hf4⟩ := h.fresh w.nextConn (Nat.le_refl _)
  have hs : Sound w.conns := h.sound
  have ht : tidy → Sound w.socks := h.tidySound
  have hcb : slotCallbacks idx = upstreamCallbacks idx := by
    cases idx with
    | client => exact absurd rfl hidx
    | name => rfl
    | joke => rfl
  simp only [wires] at hf1 hf2 hf3 hf4
  refine connsOk_of_elsewhere (n := w.nextConn) h ?_ ?_ (.held idx ?_ ?_ ?_) ?_ ?_ ?_ ?_
  · constructor <;> intro m hm <;> simp [wires, connected, hm]
  · intro i m hm
    by_cases hi : i = idx
    · subst hi
      have hne : ¬ w.nextConn = m := fun hnm => hm hnm.symm
      simp [wires, connected, setSlot, hfree, hne]
    · simp [wires, connected, setSlot, hi]
  · simp [wires, connected, setSlot]
  · intro j hj
    by_contra hji
    simp only [wires, connected, setSlot, Function.update_of_ne hji] at hj
    exact unheld_next h j hj
  · constructor <;> simp [wires, connected, httpSessionInit, hcb, hhost]
  · simp [wires, connected, hf1, hf2, hs]
  · simpa [wires, connected, hf3, hf4] using ht
  · exact Nat.le_succ _
  · exact Nat.lt_succ_self _

/-- A connection to the server of a free slot either is made and held there, or
is given up, leaving only connections behind that are released. -/
theorem httpServerConnect_spec (lib : Libs P) (c : ConnectChoices) (ss : SockAddr) (idx : Slot)
    (h : ConnsOk tidy (wires w)) (hidx : idx ≠ .client) (hfree : w.session.httpSessions idx = none)
    (hhost : some ss.host = slotHost idx) (hr : tidy → refused c w.worker = false) :
    (httpServerConnect lib c ss idx w = connected lib ss idx w ∧
        ConnsOk tidy (wires (connected lib ss idx w))) ∨
      ∃ w', httpServerConnect lib c ss idx w = httpServerConnectError w' ∧ rest w' = rest w ∧
        w'.nextConn = w.nextConn + 1 ∧ ConnsOk tidy (wires w') := by
  by_cases hc : connects c w.worker = true
  · exact .inl ⟨httpServerConnect_connects lib c ss idx w hc,
      connsOk_connected lib ss idx h hidx hfree hhost⟩
  · have hc : connects c w.worker = false := by simpa using hc
    have hu := undone lib c ss h hc hr
    exact .inr ⟨_, httpServerConnect_attempt lib c ss idx hc, hu.rest, hu.next,
      connsOk_undone h hu⟩

end Connect

end Tigera.HeldConnections
