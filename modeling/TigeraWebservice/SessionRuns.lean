import TigeraWebservice.ChannelCallbacks
import TigeraWebservice.SessionSystem

/-!
# The invariant over runs

Acceptance establishes the invariant and every event keeps it, as long as
lookups are answered later, the client's request is not completed again while
something is under way, and, where descriptors are accounted for, no failure
leaves one with two owners or with none.
-/

set_option autoImplicit false

namespace Tigera.SessionRuns
open ResourceLedger TransitionRuns Tigera.HttpReading Tigera.HttpSegmentation
open Tigera.SessionWorld Tigera.SocketChannel Tigera.SessionProgram Tigera.SessionSystem
open Tigera.HeldConnections Tigera.HeldReferences Tigera.SessionMemory Tigera.SessionInvariant
open Tigera.UpstreamCallbacks Tigera.ClientRequest Tigera.ChannelCallbacks

variable {P : Type} {lib : Libs P} {tidy : Prop} {w : World P} {i : Slot} {n : ℕ}

theorem held_of_deliverable (h : Inv lib tidy .client w) (hcr : w.crashed = false)
    (hd : deliverable w n = true) :
    w.registered = true ∧ ∃ i, w.session.httpSessions i = some n := by
  simp only [deliverable, Bool.and_eq_true, decide_eq_true_eq] at hd
  obtain ⟨i, hi⟩ := held_of_bev h.memory.conns hd.1 hd.2
  refine ⟨?_, i, hi⟩
  by_contra hno
  have hno : w.registered = false := by simpa using hno
  have hi : w.session.httpSessions i = some n := hi
  rw [(h.memory.gone hno hcr).1 i] at hi
  cases hi

theorem readable_append {s : HttpSession P} {input : List UInt8} (data : List UInt8)
    (h : Readable lib s input) : Readable lib s (input ++ data) := by
  rcases h with hc | ⟨hh, x, hx⟩
  · exact .inl hc
  · refine .inr ⟨hh, x, hx.tracks, ?_⟩
    rw [List.length_append]
    have := hx.within
    omega

theorem inv_alterBev (h : Inv lib tidy .client w) (hi : w.session.httpSessions i = some n)
    (f : Bufferevent → Bufferevent) (hc : (f (w.bev n)).cbarg = (w.bev n).cbarg)
    (hp : (f (w.bev n)).peer = (w.bev n).peer) (data : List UInt8)
    (hin : (f (w.bev n)).input = (w.bev n).input ++ data) :
    Inv lib tidy .client (alterBev n f w) := by
  have hm := h.memory
  have hh := hm.conns.held i n hi
  have hconns : ConnsOk tidy (wires (alterBev n f w)) := by
    refine connsOk_access hm.conns hi ?_ rfl rfl ?_ hm.conns.sound hm.conns.tidySound
    · constructor <;> intro m hmn <;> simp [wires, alterBev, hmn]
    · exact { hh with
        cbarg := by simpa [wires, alterBev, hc] using hh.cbarg
        peer := by simpa [wires, alterBev, hp] using hh.peer }
  refine inv_of_rest h rfl (memory_of_rest hm rfl hconns hm.begun) fun hplan => ?_
  refine { hplan with readable := ?_ }
  intro j m hj
  have hr := hplan.readable j m hj
  by_cases hmn : m = n
  · subst hmn
    simp only [alterBev, Function.update_self, hin]
    exact readable_append data hr
  · simpa [alterBev, hmn] using hr

theorem inv_flushOutput (k : ℕ) (h : Inv lib tidy .client w)
    (hi : w.session.httpSessions i = some n) : Inv lib tidy .client (flushOutput n k w) := by
  have hs : Inv lib tidy .client
      { w with strs := owned (drainedOwners k (w.bev n).output) ++ w.strs } :=
    inv_of_rest h rfl (memory_of_rest h.memory rfl h.memory.conns h.memory.begun) fun hp => hp
  exact inv_alterBev hs hi _ rfl rfl [] (List.append_nil _).symm

theorem inv_fini (h : Inv lib tidy .client w) (hreg : w.registered = true) :
    Inv lib tidy .client (httpServiceFini w) := by
  have hcount : w.calls.count .sessionRemove ≤ 1 := by
    have hc := h.memory.removes
    rw [if_pos hreg] at hc
    omega
  obtain ⟨hm, hno, hcr, hca⟩ : Memory tidy (httpServiceFini w) ∧
      (httpServiceFini w).registered = false ∧ (httpServiceFini w).crashed = w.crashed ∧
      (httpServiceFini w).calls = w.calls :=
    memory_sessionFree h.memory hreg rfl rfl rfl hcount rfl
  constructor
  · exact hm
  · intro hr
    exact absurd (hno.symm.trans hr) (by decide)
  · intro hr
    exact absurd (hno.symm.trans hr) (by decide)
  · intro ho
    rw [Once, hca] at ho
    rw [hca]
    exact h.tally ho
  · intro _ ho
    rw [Once, hca] at ho
    exact hcr.trans (h.steady (.inl hreg) ho)

/-- The bufferevent is made, and `tcp_socket_accept` gives up before a channel
owns it. -/
def leaks (c : AcceptChoices) (worker : Bool) : Bool :=
  c.family && c.getsockname && c.getBase && c.buffereventSocketNew && !(worker && c.tcpSocketNew)

theorem connsOk_initial (lib : Libs P) (worker : Bool) :
    ConnsOk tidy (wires (initial lib worker)) := by
  constructor
  · exact sound_nil
  · exact fun _ => sound_nil
  · intro j m hj
    cases hj
  · intro j k m hj
    cases hj
  · intro m _
    constructor <;> simp [wires, initial]
  · intro m _
    exact ⟨rfl, rfl, rfl, rfl⟩

theorem dnsOk_initial (once : Prop) (lib : Libs P) (worker registered : Bool) :
    DnsOk once { lookups (initial lib worker) with registered := registered } := by
  constructor
  · exact sound_nil
  · intro l hl
    cases hl
  · exact List.nodup_nil
  · intro r hr
    cases hr
  · exact fun _ _ => rfl
  · exact fun _ _ => rfl
  · exact .unneeded rfl rfl
  · exact fun _ => Nat.zero_le 1
  · intro _ _ _ k hk
    exact absurd hk (Nat.not_lt_zero k)

theorem inv_unaccepted (worker : Bool) (hl : lookups w = lookups (initial lib worker))
    (hcalls : w.calls = []) (hlife : Sound w.life ∧ status w.life () ≠ .live)
    (hslots : ∀ i, w.session.httpSessions i = none) (hn : w.nextConn = 1)
    (he : Elsewhere 0 (wires (initial lib worker)) (wires w)) (hd : Dead tidy (wires w) 0)
    (hs : Sound w.conns) (ht : tidy → Sound w.socks) : Inv lib tidy .client w := by
  have hreg : w.registered = false := congrArg Lookups.registered hl
  have hme : w.session.me = none := congrArg Lookups.me hl
  have hno : ¬ w.registered = true := by
    rw [hreg]
    decide
  have hnext : (wires w).next = 1 := hn
  constructor
  · constructor
    · exact hlife.1
    · exact fun hr => absurd hr hno
    · exact fun _ _ => hlife.2
    · rw [hcalls]
      exact Nat.zero_le _
    · refine connsOk_of_elsewhere (connsOk_initial lib worker) he ?_ (.dead ?_ hd) hs ht ?_ ?_
      · intro j m _
        simp [wires, hslots, initial]
      · intro j hj
        exact absurd ((hslots j).symm.trans hj) (by simp)
      · exact Nat.zero_le _
      · omega
    · rw [hl]
      exact dnsOk_initial _ lib worker false
    · exact fun _ _ => ⟨hslots, hme⟩
    · exact fun hr => absurd hr hno
    · omega
    · have hz : w.nextReference = 0 := congrArg Lookups.nextReference hl
      omega
  · exact fun hr => absurd hr hno
  · exact fun hr => absurd hr hno
  · intro _
    rw [hcalls]
    exact ⟨Nat.zero_le _, by simp⟩
  · rintro (hr | hcall) _
    · exact absurd hr hno
    · rw [hcalls] at hcall
      exact absurd hcall List.not_mem_nil

def arrived (lib : Libs P) (worker : Bool) : World P :=
  { initial lib worker with
    nextConn := 1
    socks := [.alloc (.bev 0), .alloc (.fd 0)]
    bev := Function.update (initial lib worker).bev 0 {} }

def owning (lib : Libs P) : World P :=
  { arrived lib true with
    conns := [.use (.channel 0), .alloc (.channel 0)]
    chan := Function.update (initial lib true).chan 0 { bev := some 0 }
    socks := [.use (.bev 0), .alloc (.bev 0), .alloc (.fd 0)]
    bev := Function.update (initial lib true).bev 0 { cbarg := some 0 } }

theorem tcpSocketAcceptCb_early (c : AcceptChoices) (worker : Bool)
    (hc : (c.family && c.getsockname && c.getBase && c.buffereventSocketNew) = false) :
    tcpSocketAcceptCb lib c (initial lib worker) = { initial lib worker with
      nextConn := 1
      socks := [.free (.fd 0), .alloc (.fd 0)] } := by
  by_cases h1 : (c.family && c.getsockname && c.getBase) = true
  · have h2 : c.buffereventSocketNew = false := by simpa [h1] using hc
    simp [tcpSocketAcceptCb, buffereventSocketNew, evutilClosesocket, initial, h1, h2]
  · simp [tcpSocketAcceptCb, evutilClosesocket, initial, h1]

theorem tcpSocketAcceptCb_late (c : AcceptChoices) (worker : Bool)
    (hc : (c.family && c.getsockname && c.getBase && c.buffereventSocketNew) = true) :
    tcpSocketAcceptCb lib c (initial lib worker) =
      httpServiceAcceptCb lib c 0 0 (arrived lib worker) := by
  rw [Bool.and_eq_true] at hc
  obtain ⟨h1, h2⟩ := hc
  simp only [tcpSocketAcceptCb, h1, h2, if_true, buffereventSocketNew]
  rfl

theorem tcpSocketAccept_owning (c : AcceptChoices) (h : c.tcpSocketNew = true) :
    tcpSocketAccept c 0 0 (arrived lib true) =
      if c.buffereventEnable then (some 0, owning lib)
      else (none, tcpSocketFree 0 (onChan 0 (fun s => { s with bev := none })
        (buffereventFree 0 (owning lib)))) := by
  have hconfig : tcpSocketConfig c.buffereventEnable 0
      (onChan 0 (fun s => { s with bev := some 0 }) (tcpSocketNew true 0 (arrived lib true)).2) =
      if c.buffereventEnable then (true, owning lib)
      else (false, onChan 0 (fun s => { s with bev := none }) (buffereventFree 0 (owning lib))) := by
    cases hb : c.buffereventEnable <;>
      simp [tcpSocketConfig, onChan, onBev, tcpSocketNew, arrived, owning, initial]
  have hnew : tcpSocketNew true 0 (arrived lib true) =
      (some 0, (tcpSocketNew true 0 (arrived lib true)).2) := rfl
  have hworker : (arrived lib true).worker = true := rfl
  rw [tcpSocketAccept, if_pos hworker, h, hnew]
  simp only [hconfig]
  cases c.buffereventEnable <;> rfl

def opened (lib : Libs P) : World P :=
  { owning lib with
    life := [.use (), .use (), .alloc ()]
    session := started
    conns := [.use (.httpSession 0), .use (.channel 0), .alloc (.httpSession 0),
      .use (.channel 0), .alloc (.channel 0)]
    http := Function.update (initial lib true).http 0
      { httpSessionInit lib .request 0 with cbs := clientCallbacks }
    chan := Function.update (initial lib true).chan 0 { bev := some 0, ctx := some 0 } }

theorem sessionNew_opened (c : AcceptChoices) (h1 : c.sessionNew = true)
    (h2 : c.httpSessionNew = true) : sessionNew lib c 0 (owning lib) = (true, opened lib) := by
  simp [sessionNew, httpSessionNew, h1, h2, onSession, onChan, onHttp, sessionStateSet,
    httpSessionCallbacksSet, opened, owning, arrived, initial, started, setSlot, clientCallbacks]

/-- The session in the list, or the program stopped at a node not allocated. -/
def accepted (lib : Libs P) (ok : Bool) : World P :=
  { opened lib with registered := ok, crashed := !ok }

theorem memory_accepted (ok : Bool) : Memory tidy (accepted lib ok) := by
  constructor
  · exact ⟨rfl, rfl, rfl, trivial⟩
  · exact fun _ => rfl
  · intro hno hcr
    cases ok with
    | false => cases hcr
    | true => cases hno
  · exact Nat.zero_le _
  · refine connsOk_of_elsewhere (n := 0) (connsOk_initial lib true) ?_ ?_
      (.held .client rfl ?_ ?_) ?_ ?_ (Nat.zero_le _) Nat.one_pos
    · constructor <;> intro m hm <;>
        simp [wires, accepted, opened, owning, arrived, initial, hm]
    · intro j m hm
      cases j <;> simp [wires, accepted, opened, started, initial, Ne.symm hm]
    · intro j hj
      cases j with
      | client => rfl
      | name => cases hj
      | joke => cases hj
    · constructor <;>
        simp [wires, accepted, opened, owning, arrived, httpSessionInit, slotCallbacks, slotHost]
    · simp [wires, accepted, opened]
    · intro _
      simp [wires, accepted, opened, owning]
  · exact dnsOk_initial _ lib true ok
  · intro hno hcr
    cases ok with
    | false => cases hcr
    | true => cases hno
  · exact fun _ => rfl
  · exact Nat.one_pos
  · exact Nat.zero_le _

theorem inv_accepted (ok : Bool) : Inv lib tidy .client (accepted lib ok) := by
  have hhttp : ((accepted lib ok).http 0).state = .messageBegin := rfl
  have hslot : ∀ i n, (accepted lib ok).session.httpSessions i = some n →
      i = .client ∧ n = 0 := by
    intro i n hi
    cases i with
    | client => exact ⟨rfl, (Option.some.inj hi).symm⟩
    | name => cases hi
    | joke => cases hi
  have hflag : ∀ idx, hasReplied idx (accepted lib ok).session = false := by
    intro idx
    cases idx <;> rfl
  constructor
  · exact memory_accepted ok
  · intro _ _
    constructor
    · rfl
    · intro i n hi
      obtain ⟨-, rfl⟩ := hslot i n hi
      exact readable_init lib .request 0 clientCallbacks
    · intro i n hc _ hi
      exact absurd (hslot i n hi).1 hc
    · exact fun _ => ⟨rfl, rfl, rfl⟩
    · intro hs
      cases hhttp.symm.trans hs
    · intro l hl
      cases hl
    · intro l hl
      cases hl
  · intro _ _
    constructor
    · intro idx _ hr
      exact absurd ((hflag idx).symm.trans hr) (by decide)
    · intro idx _
      have hr : hasReplied idx (rest (accepted lib ok)).session = false := hflag idx
      rw [hr]
      show Call.reply idx ∈ [] ↔ _
      simp
    · refine .inr ⟨⟨?_, rfl, rfl, rfl, rfl⟩, rfl⟩
      intro hs
      cases hs
  · exact fun _ => ⟨Nat.zero_le _, by simp [accepted, opened, owning, arrived, initial]⟩
  · rintro (hreg | hcall) _
    · have hreg : ok = true := hreg
      show (!ok) = false
      rw [hreg]
      rfl
    · exact absurd hcall List.not_mem_nil

theorem inv_early (worker : Bool) : Inv lib tidy .client { initial lib worker with
    nextConn := 1
    socks := [.free (.fd 0), .alloc (.fd 0)] } := by
  apply inv_unaccepted worker
  · rfl
  · rfl
  · exact ⟨trivial, Status.noConfusion⟩
  · exact fun _ => rfl
  · rfl
  · constructor <;> intro m hm <;> simp [wires, initial, hm]
  · constructor <;> simp [wires, initial]
  · trivial
  · intro _
    simp

theorem inv_leaked (worker : Bool) (ht : ¬ tidy) : Inv lib tidy .client (arrived lib worker) := by
  apply inv_unaccepted worker
  · rfl
  · rfl
  · exact ⟨trivial, Status.noConfusion⟩
  · exact fun _ => rfl
  · rfl
  · constructor <;> intro m hm <;> simp [wires, arrived, initial, hm]
  · constructor
    · exact Status.noConfusion
    · exact Status.noConfusion
    · exact fun _ => rfl
    · exact fun htidy => absurd htidy ht
  · trivial
  · exact fun htidy => absurd htidy ht

theorem inv_unconfigured : Inv lib tidy .client (tcpSocketFree 0
    (onChan 0 (fun s => { s with bev := none }) (buffereventFree 0 (owning lib)))) := by
  apply inv_unaccepted true
  · rfl
  · rfl
  · exact ⟨trivial, Status.noConfusion⟩
  · exact fun _ => rfl
  · rfl
  · constructor <;> intro m hm <;>
      simp [wires, tcpSocketFree, onChan, buffereventFree, owning, arrived, initial, hm]
  · constructor <;> simp [wires, tcpSocketFree, onChan, buffereventFree, owning, arrived]
  · simp [tcpSocketFree, onChan, buffereventFree, owning]
  · intro _
    simp [tcpSocketFree, onChan, buffereventFree, owning]

theorem inv_sessionless : Inv lib tidy .client (channelFree 0 (owning lib)) := by
  apply inv_unaccepted true
  · rfl
  · rfl
  · exact ⟨trivial, Status.noConfusion⟩
  · exact fun _ => rfl
  · rfl
  · constructor <;> intro m hm <;>
      simp [wires, channelFree, tcpSocketFree, onChan, buffereventFree, owning, arrived, initial, hm]
  · constructor <;>
      simp [wires, channelFree, tcpSocketFree, onChan, buffereventFree, owning, arrived]
  · simp [channelFree, tcpSocketFree, onChan, buffereventFree, owning]
  · intro _
    simp [channelFree, tcpSocketFree, onChan, buffereventFree, owning]

theorem inv_channelless : Inv lib tidy .client (channelFree 0
    (sessionFree { owning lib with life := [.alloc ()], session := {} })) := by
  apply inv_unaccepted true
  · rfl
  · rfl
  · exact ⟨⟨rfl, rfl, rfl, rfl, rfl, rfl, rfl, rfl, rfl, trivial⟩, Status.noConfusion⟩
  · intro i
    cases i <;> rfl
  · rfl
  · constructor <;> intro m hm <;>
      simp [wires, sessionFree, freeSlot, onSession, onReference, freeStr, channelFree,
        tcpSocketFree, onChan, buffereventFree, owning, arrived, initial, setSlot, hm]
  · constructor <;>
      simp [wires, sessionFree, freeSlot, onSession, onReference, freeStr, channelFree,
        tcpSocketFree, onChan, buffereventFree, owning, arrived, initial, setSlot]
  · simp [sessionFree, freeSlot, onSession, onReference, freeStr, channelFree,
      tcpSocketFree, onChan, buffereventFree, owning, arrived, initial, setSlot]
  · intro _
    simp [sessionFree, freeSlot, onSession, onReference, freeStr, channelFree,
      tcpSocketFree, onChan, buffereventFree, owning, arrived, initial, setSlot]

theorem inv_owned (c : AcceptChoices) : Inv lib tidy .client
    (match sessionNew lib c 0 (owning lib) with
    | (false, w) => channelFree 0 w
    | (true, w) => httpServiceSessionAdd c.nodeNew w) := by
  cases h1 : c.sessionNew with
  | false =>
    simp only [sessionNew, h1]
    exact inv_sessionless
  | true =>
    cases h2 : c.httpSessionNew with
    | false =>
      simp only [sessionNew, h1, h2, httpSessionNew]
      exact inv_channelless
    | true =>
      rw [sessionNew_opened c h1 h2]
      cases hn : c.nodeNew with
      | false => exact inv_accepted false
      | true => exact inv_accepted true

theorem inv_accept (c : AcceptChoices) (worker : Bool) (ht : tidy → leaks c worker = false) :
    Inv lib tidy .client (tcpSocketAcceptCb lib c (initial lib worker)) := by
  cases hearly : c.family && c.getsockname && c.getBase && c.buffereventSocketNew with
  | false =>
    rw [tcpSocketAcceptCb_early c worker hearly]
    exact inv_early worker
  | true =>
    rw [tcpSocketAcceptCb_late c worker hearly, httpServiceAcceptCb]
    simp only [leaks, hearly, Bool.true_and, Bool.not_eq_false'] at ht
    cases worker with
    | false =>
      exact inv_leaked false fun htidy => by simpa using ht htidy
    | true =>
      cases hnew : c.tcpSocketNew with
      | false =>
        have hno : ¬ tidy := fun htidy => by simpa [hnew] using ht htidy
        simp only [tcpSocketAccept, hnew]
        exact inv_leaked true hno
      | true =>
        rw [tcpSocketAccept_owning c hnew]
        cases henable : c.buffereventEnable with
        | false => exact inv_unconfigured
        | true => exact inv_owned c

/-- No lookup is answered inside `evdns_getaddrinfo`. -/
def answersLater (lib : Libs P) (w : World P) : Event → Bool
  | .readCb n c => !(completes lib c n w && answersInside c)
  | _ => true

/-- The client's request is completed once more by this event. -/
def completesAgain (w : World P) : Event → Bool
  | .readCb n c => reenters c n w
  | _ => false

/-- The descriptor of a connection keeps exactly one owner in this event. -/
def tidily (w : World P) : Event → Bool
  | .accept c => !leaks c w.worker
  | .dnsCb _ _ c => !refused c w.worker
  | _ => true

/-- Lookups are answered later, and the client's request is not completed again
while a lookup or an upstream is under way. -/
def orderly (lib : Libs P) (w : World P) (e : Event) : Bool :=
  answersLater lib w e && !(completesAgain w e && outstanding w)

theorem deliver_held (h : Held tidy (wires w) i n) (f : ℕ → World P → World P) :
    deliver n f w = f n w := by
  have hcb : (w.bev n).cbarg = some n := h.cbarg
  simp only [deliver, hcb]

theorem lookupOf_some {r : ℕ} {l : Lookup} (h : lookupOf w r = some l) :
    l ∈ w.resolving ∧ l.request = r := by
  have hp := List.find?_some h
  exact ⟨List.mem_of_find?_eq_some h, by simpa using hp⟩

theorem next_inv (e : Event) (h : Inv lib tidy .client w) (he : enabled w e = true)
    (ho : orderly lib w e = true) (ht : tidy → tidily w e = true) :
    Inv lib tidy .client (next lib w e) := by
  have hcr : w.crashed = false := by
    cases e <;> simp_all [enabled]
  have hdeliver : ∀ n, enabled w e = deliverable w n →
      w.registered = true ∧ ∃ i, w.session.httpSessions i = some n := by
    intro n hn
    exact held_of_deliverable h hcr (hn ▸ he)
  simp only [orderly, Bool.and_eq_true, Bool.not_eq_true'] at ho
  obtain ⟨hlater, hagain⟩ := ho
  cases e with
  | accept c =>
    have hn : w.nextConn = 0 := by simpa [enabled, hcr] using he
    have := h.memory.begun
    omega
  | arrive n data =>
    obtain ⟨hreg, i, hi⟩ := hdeliver n (by simp [enabled, hcr])
    exact inv_alterBev h hi (fun e => { e with input := e.input ++ data }) rfl rfl data rfl
  | flush n k =>
    obtain ⟨hreg, i, hi⟩ := hdeliver n (by simp [enabled, hcr])
    exact inv_flushOutput k h hi
  | readCb n c =>
    obtain ⟨hreg, i, hi⟩ := hdeliver n (by simp [enabled, hcr])
    rw [next, deliver_held (h.memory.conns.held i n hi)]
    apply tcpSocketReadCb_inv c h hreg hcr hi
    · intro hcomp
      simpa [answersLater, hcomp] using hlater
    · intro hre
      simpa [completesAgain, hre] using hagain
  | writeCb n c =>
    obtain ⟨hreg, i, hi⟩ := hdeliver n (by simp [enabled, hcr])
    rw [next, deliver_held (h.memory.conns.held i n hi)]
    exact tcpSocketWriteCb_inv c h hreg hi
  | eventCb n events c =>
    obtain ⟨hreg, i, hi⟩ := hdeliver n (by simp [enabled, hcr])
    have h1 := inv_alterBev h hi (fun e => { e with connecting := e.connecting && !events.connected })
      rfl rfl [] (List.append_nil _).symm
    rw [next, deliver_held (h1.memory.conns.held i n hi)]
    exact tcpSocketEventCb_inv c events h1 hreg hcr hi
  | dnsCb r a c =>
    have hl : (lookupOf w r).isSome = true := by simpa [enabled, hcr] using he
    obtain ⟨l, hl⟩ := Option.isSome_iff_exists.mp hl
    obtain ⟨hmem, rfl⟩ := lookupOf_some hl
    simp only [next, hl]
    apply dnsnameResolvedCb_inv a c h hcr hmem
    intro htidy
    simpa [tidily] using ht htidy
  | fini =>
    have hreg : w.registered = true := by simpa [enabled, hcr] using he
    exact inv_fini h hreg

/-- The states of a connection: not yet accepted, or within the invariant. -/
def Reached (lib : Libs P) (tidy : Prop) (w : World P) : Prop :=
  (∃ worker, w = initial lib worker) ∨ Inv lib tidy .client w

theorem enabled_initial {worker : Bool} {e : Event} (he : enabled (initial lib worker) e = true) :
    ∃ c, e = .accept c := by
  cases e with
  | accept c => exact ⟨c, rfl⟩
  | dnsCb r a c => simp [enabled, lookupOf, initial] at he
  | fini => simp [enabled, initial] at he
  | _ => simp [enabled, deliverable, initial] at he

theorem next_reached (e : Event) (h : Reached lib tidy w) (he : enabled w e = true)
    (ho : orderly lib w e = true) (ht : tidy → tidily w e = true) :
    Inv lib tidy .client (next lib w e) := by
  rcases h with ⟨worker, rfl⟩ | h
  · obtain ⟨c, rfl⟩ := enabled_initial he
    apply inv_accept c worker
    intro htidy
    simpa [tidily, initial] using ht htidy
  · exact next_inv e h he ho ht

def Steadily (lib : Libs P) (tidy : Prop) (w : World P) (e : Event) : Prop :=
  orderly lib w e = true ∧ (tidy → tidily w e = true)

theorem run_reached {worker : Bool} {es : List Event}
    (h : Run (system lib) (Steadily lib tidy) (initial lib worker) es w) : Reached lib tidy w :=
  run_invariant (fun _ e hs he hc => .inr (next_reached e hs he hc.1 hc.2)) h (.inl ⟨worker, rfl⟩)

end Tigera.SessionRuns
