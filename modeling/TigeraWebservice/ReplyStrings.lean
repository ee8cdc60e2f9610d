import Mathlib.Tactic.Abel
import TigeraWebservice.Holdings
import TigeraWebservice.SessionTurns

/-!
# The strings of the replies

Between callbacks the live heap strings are those the session's fields point to
and those the client's output refers to. Every callback moves them on or
releases them, unless the response is given up while its head is written: its
body is then no longer held by anyone.
-/

set_option autoImplicit false

namespace Tigera.ReplyStrings
open ResourceLedger TransitionRuns Tigera.CountedReference Tigera.HttpReading Tigera.JokeCreate
open Tigera.SessionWorld Tigera.SocketChannel Tigera.SessionProgram Tigera.SessionSystem
open Tigera.HeldConnections Tigera.HeldReferences Tigera.SessionMemory Tigera.SessionInvariant
open Tigera.UpstreamCallbacks Tigera.ClientResponse Tigera.ReplyCallbacks Tigera.ClientRequest
open Tigera.ChannelCallbacks Tigera.SessionRuns Tigera.OneResponse Tigera.SessionTurns
open Tigera.PlainMessages

variable {P : Type} {lib : Libs P} {u v w w' : World P} {extra : Multiset ℕ} {n : ℕ} {idx : Slot}
variable {c : Choices}

def owners (output : List Chunk) : List ℕ := output.filterMap fun c => c.owner.map CStr.addr

def addrOf (s : Option CStr) : Multiset ℕ := ↑(s.map CStr.addr).toList

/-- The part of the world strings are kept in, with the client's connection,
whose output refers to them. -/
structure Shelf where
  worker : Bool
  registered : Bool
  client : Option ℕ
  channel : ℕ
  bev : Option ℕ
  listen : Bool
  next : ℕ
  name : Option CStr
  surname : Option CStr
  joke : Option CStr
  strs : List (Entry ℕ)
  nextStr : ℕ
  owners : ℕ → List ℕ

def shelf (w : World P) : Shelf where
  worker := w.worker
  registered := w.registered
  client := w.session.httpSessions .client
  channel := (w.http 0).channel
  bev := (w.chan 0).bev
  listen := (w.chan 0).listen
  next := w.nextConn
  name := w.session.name
  surname := w.session.surname
  joke := w.session.joke
  strs := w.strs
  nextStr := w.nextStr
  owners m := owners (w.bev m).output

def fields (s : Shelf) : Multiset ℕ := addrOf s.name + addrOf s.surname + addrOf s.joke

/-- A registered session holds its strings; `extra` are those a function that
is running holds. -/
structure Going (extra : Multiset ℕ) (s : Shelf) : Prop where
  worker : s.worker = true
  registered : s.registered = true
  client : s.client = some 0
  channel : s.channel = 0
  bev : s.bev = some 0
  listen : s.listen = false
  next : 0 < s.next
  plain : ∀ m, m ≠ 0 → s.owners m = []
  fresh : ∀ a, s.nextStr ≤ a → status s.strs a = .fresh
  holds : Holds s.strs (fields s + ↑(s.owners 0) + extra)

def Spent (w : World P) : Prop := w.registered = false ∧ Holds w.strs 0

def InStock (w : World P) : Prop := Going 0 (shelf w) ∨ Spent w

theorem shelf_onHttp (n : ℕ) (f : HttpSession P → HttpSession P)
    (hf : (f (w.http n)).channel = (w.http n).channel) : shelf (onHttp n f w) = shelf w := by
  have h : ((onHttp n f w).http 0).channel = (w.http 0).channel := by
    by_cases hn : 0 = n
    · subst hn
      simpa [onHttp] using hf
    · simp [onHttp, hn]
  rw [shelf, h]
  rfl

theorem shelf_onChan (n : ℕ) (f : TcpSocket → TcpSocket)
    (hb : (f (w.chan n)).bev = (w.chan n).bev) (hl : (f (w.chan n)).listen = (w.chan n).listen) :
    shelf (onChan n f w) = shelf w := by
  have h : ((onChan n f w).chan 0).bev = (w.chan 0).bev ∧
      ((onChan n f w).chan 0).listen = (w.chan 0).listen := by
    by_cases hn : 0 = n
    · subst hn
      simpa [onChan] using ⟨hb, hl⟩
    · simp [onChan, hn]
  rw [shelf, h.1, h.2]
  rfl

theorem shelf_bev (g : ℕ → Bufferevent) (socks : List (Entry Sock))
    (hg : ∀ m, owners (g m).output = owners (w.bev m).output) :
    shelf { w with bev := g, socks := socks } = shelf w := by
  have h : (fun m => owners (g m).output) = fun m => owners (w.bev m).output := funext hg
  rw [shelf, h]
  rfl

theorem owners_update (b : ℕ) (e : Bufferevent) (m : ℕ)
    (he : owners e.output = owners (w.bev b).output) :
    owners (Function.update w.bev b e m).output = owners (w.bev m).output := by
  by_cases hm : m = b
  · subst hm
    rw [Function.update_self, he]
  · rw [Function.update_of_ne hm]

theorem shelf_onBev (b : ℕ) (f : Bufferevent → Bufferevent)
    (hf : owners (f (w.bev b)).output = owners (w.bev b).output) : shelf (onBev b f w) = shelf w :=
  shelf_bev _ _ fun m => owners_update b _ m hf

theorem shelf_alterBev (b : ℕ) (f : Bufferevent → Bufferevent)
    (hf : owners (f (w.bev b)).output = owners (w.bev b).output) :
    shelf (alterBev b f w) = shelf w :=
  shelf_bev _ w.socks fun m => owners_update b _ m hf

theorem shelf_onChannelBev (n : ℕ) (f : Bufferevent → Bufferevent)
    (hf : ∀ b, owners (f (w.bev b)).output = owners (w.bev b).output) :
    shelf (onChannelBev n f w) = shelf w := by
  have h : shelf (onChan n id w) = shelf w := shelf_onChan n id rfl rfl
  rw [onChannelBev]
  split
  · exact (shelf_onBev (w := onChan n id w) _ f (hf _)).trans h
  · exact h

theorem shelf_referenceDec (me : Option ℕ) (w : World P) :
    shelf (onReference referenceDec me w) = shelf w := by
  cases me with
  | none => rfl
  | some k =>
    simp only [onReference, referenceDec]
    split
    · split <;> split <;> rfl
    · rfl

theorem shelf_referenceWeakDec (me : Option ℕ) (w : World P) :
    shelf (onReference referenceWeakDec me w) = shelf w := by
  cases me with
  | none => rfl
  | some k =>
    simp only [onReference, referenceWeakDec]
    split
    · split <;> rfl
    · rfl

theorem shelf_referenceWeakInc (me : Option ℕ) (w : World P) :
    shelf (onReference referenceWeakInc me w) = shelf w := by
  cases me <;> rfl

theorem shelf_referenceGet (me : Option ℕ) (w : World P) :
    shelf (referenceGet me w).2 = shelf w := by
  cases me <;> rfl

theorem shelf_dnsRequestFree (r : ℕ) (w : World P) : shelf (dnsRequestFree r w) = shelf w := by
  have h : shelf (onRequest r (fun q => { q with session := none })
      (onReference referenceWeakDec (w.request r).session w)) = shelf w :=
    shelf_referenceWeakDec _ w
  rw [dnsRequestFree]
  generalize onRequest r (fun q => { q with session := none }) _ = x at h ⊢
  split <;> exact h

theorem owners_append (a b : List Chunk) : owners (a ++ b) = owners a ++ owners b :=
  List.filterMap_append

theorem owners_plain (bs : List Bytes) : owners (bs.map fun b => ⟨b, none⟩) = [] := by
  induction bs with
  | nil => rfl
  | cons b bs ih => exact ih

theorem shelf_evbufferAddAll (ok : ℕ → Bool) (n k : ℕ) (cs : List Chunk) (hcs : owners cs = [])
    (w : World P) : shelf (evbufferAddAll ok n k cs w).2 = shelf w := by
  induction cs generalizing k w with
  | nil => rfl
  | cons c cs ih =>
    have hsplit : owners [c] ++ owners cs = [] := by
      rw [← owners_append]
      exact hcs
    obtain ⟨hc, hcs⟩ := List.append_eq_nil_iff.mp hsplit
    rw [evbufferAddAll, evbufferAdd]
    cases ok k with
    | false => rfl
    | true =>
      have h : shelf (onChannelBev n (fun e => { e with output := e.output ++ [c] }) w) =
          shelf w := shelf_onChannelBev n _ fun b => by
        simp only
        rw [owners_append, hc, List.append_nil]
      simp only [if_true]
      exact (ih (k + 1) hcs _).trans h

/-- The fields of a session whose connections are released. -/
structure Loose (s : Shelf) : Prop where
  registered : s.registered = false
  empty : ∀ m, s.owners m = []
  holds : Holds s.strs (fields s)

theorem owned_owners (output : List Chunk) : owned output = (owners output).map .free := by
  rw [owned, owners, List.map_filterMap]
  congr 1
  funext c
  cases c.owner <;> rfl

theorem owned_nil {output : List Chunk} (h : owners output = []) : owned output = [] := by
  rw [owned_owners, h]
  rfl

theorem loose_buffereventFree (b : ℕ) (h : Loose (shelf w)) :
    Loose (shelf (buffereventFree b w)) := by
  constructor
  · exact h.registered
  · intro m
    refine (owners_update b { w.bev b with input := [], output := [] } m ?_).trans (h.empty m)
    exact (h.empty b).symm
  · show Holds (owned (w.bev b).output ++ w.strs) (fields (shelf w))
    rw [owned_nil (h.empty b), List.nil_append]
    exact h.holds

theorem loose_httpSessionFree (n : ℕ) (h : Loose (shelf w)) :
    Loose (shelf (httpSessionFree n w)) := by
  have h1 : Loose (shelf (onHttp n (fun s => { s with body := none }) w)) :=
    ⟨h.registered, h.empty, h.holds⟩
  rw [httpSessionFree]
  generalize onHttp n (fun s => { s with body := none }) w = x at h1 ⊢
  suffices hc : Loose (shelf (channelFree (x.http n).channel x)) from
    ⟨hc.registered, hc.empty, hc.holds⟩
  rw [channelFree, tcpSocketFree]
  have h2 : Loose (shelf (onChan (x.http n).channel id x)) := ⟨h1.registered, h1.empty, h1.holds⟩
  generalize onChan (x.http n).channel id x = y at h2 ⊢
  cases hb : (y.chan (x.http n).channel).bev with
  | none => exact ⟨h2.registered, h2.empty, h2.holds⟩
  | some b =>
    simp only
    split
    · exact ⟨h2.registered, h2.empty, h2.holds⟩
    · have h3 := loose_buffereventFree b h2
      exact ⟨h3.registered, h3.empty, h3.holds⟩

theorem loose_freeSlot (i : Slot) (h : Loose (shelf w)) : Loose (shelf (freeSlot i w)) := by
  rw [freeSlot]
  split
  · next n _ =>
    have h1 := loose_httpSessionFree n h
    exact ⟨h1.registered, h1.empty, h1.holds⟩
  · exact ⟨h.registered, h.empty, h.holds⟩

theorem holds_drop {l : List (Entry ℕ)} {held : Multiset ℕ} (s : Option CStr)
    (h : Holds l (addrOf s + held)) : Holds (freedStr s l) held := by
  cases s with
  | none =>
    rw [show addrOf none = 0 from rfl, zero_add] at h
    exact h
  | some s => exact holds_free h

theorem loose_client {s : Shelf} (h : Going 0 s) (hv : shelf v = { s with registered := false }) :
    Loose (shelf (freeSlot .client v)) := by
  have hclient : v.session.httpSessions .client = some 0 := (congrArg Shelf.client hv).trans h.client
  have hchannel : (v.http 0).channel = 0 := (congrArg Shelf.channel hv).trans h.channel
  have hbev : (v.chan 0).bev = some 0 := (congrArg Shelf.bev hv).trans h.bev
  have hlisten : (v.chan 0).listen = false := (congrArg Shelf.listen hv).trans h.listen
  have hregistered : v.registered = false := congrArg Shelf.registered hv
  have howners : (shelf v).owners = s.owners := by rw [hv]
  have hfields : fields (shelf v) = fields s := by
    rw [hv]
    rfl
  have hstrs : (shelf v).strs = s.strs := by rw [hv]
  rw [freeSlot_some hclient, httpSessionFree_eq hchannel hbev hlisten]
  constructor
  · exact hregistered
  · intro m
    by_cases hm : m = 0
    · subst hm
      simp [shelf, onSession, owners]
    · have hplain : owners (v.bev m).output = [] := (congrFun howners m).trans (h.plain m hm)
      simpa [shelf, onSession, hm] using hplain
  · have hout : owners (v.bev 0).output = s.owners 0 := congrFun howners 0
    show Holds (owned (v.bev 0).output ++ v.strs) (fields (shelf v))
    rw [owned_owners, hout, hfields]
    have hv : v.strs = s.strs := hstrs
    rw [hv]
    apply holds_free_list
    have hh := h.holds
    rwa [add_zero, add_comm] at hh

theorem spent_of_loose (h1 : Loose (shelf (freeSlots v))) : Spent (sessionFree v) := by
  rw [sessionFree, show freeSlot .joke (freeSlot .name (freeSlot .client v)) = freeSlots v from rfl]
  have h2 : Loose (shelf (onSession (fun s => { s with me := none })
      (onReference referenceDec (freeSlots v).session.me (freeSlots v)))) := by
    show Loose (shelf (onReference referenceDec (freeSlots v).session.me (freeSlots v)))
    rw [shelf_referenceDec]
    exact h1
  generalize onSession (fun s => { s with me := none }) _ = x at h2 ⊢
  simp only [freeStr_eq]
  refine ⟨h2.registered, ?_⟩
  show Holds (freedStr x.session.joke (freedStr x.session.surname
    (freedStr x.session.name x.strs))) 0
  have hx : Holds x.strs (addrOf x.session.name + addrOf x.session.surname +
    addrOf x.session.joke) := h2.holds
  rw [add_assoc] at hx
  have hx := holds_drop x.session.surname (holds_drop x.session.name hx)
  rw [← add_zero (addrOf x.session.joke)] at hx
  exact holds_drop x.session.joke hx

theorem spent_sessionFree {s : Shelf} (h : Going 0 s)
    (hv : shelf v = { s with registered := false }) : Spent (sessionFree v) :=
  spent_of_loose (loose_freeSlot .joke (loose_freeSlot .name (loose_client h hv)))

theorem spent_remove (h : Going 0 (shelf w)) : InStock (httpServiceSessionRemove w) :=
  .inr (spent_sessionFree h rfl)

theorem spent_stateSet (state : SessionState) (h : Going 0 (shelf w)) :
    InStock (httpServiceSessionRemove (sessionStateSet state w)) :=
  spent_remove (w := sessionStateSet state w) h

theorem spent_fini (h : Going 0 (shelf w)) : InStock (httpServiceFini w) :=
  .inr (spent_sessionFree h rfl)

theorem going_of_shelf (h : Going extra (shelf w)) (hv : shelf v = shelf w) :
    Going extra (shelf v) := hv ▸ h

structure Apart (n : ℕ) (w w' : World P) : Prop where
  rest : rest w' = rest w
  next : w'.nextConn = n + 1
  http : w'.http 0 = w.http 0
  chan : w'.chan 0 = w.chan 0
  strs : w'.strs = w.strs
  nextStr : w'.nextStr = w.nextStr
  owners : ∀ m, owners (w'.bev m).output = owners (w.bev m).output

theorem shelf_apart (h : Apart n w w') : shelf w' = { shelf w with next := n + 1 } := by
  have h1 : w'.worker = w.worker := congrArg Rest.worker h.rest
  have h2 : w'.registered = w.registered := congrArg Rest.registered h.rest
  have h3 : w'.session = w.session := congrArg Rest.session h.rest
  have h4 : (fun m => owners (w'.bev m).output) = fun m => owners (w.bev m).output :=
    funext h.owners
  rw [shelf, h1, h2, h3, h.next, h.http, h.chan, h.strs, h.nextStr, h4]
  rfl

theorem apart_attempt (lib : Libs P) (c : ConnectChoices) (ss : SockAddr)
    (hn : w.nextConn ≠ 0) (hp : owners (w.bev w.nextConn).output = [])
    (hc : connects c w.worker = false) : Apart w.nextConn w (attempt lib c ss w) := by
  have hout : ∀ (e : Bufferevent) (m : ℕ), e.output = [] →
      owners (Function.update w.bev w.nextConn e m).output = owners (w.bev m).output := by
    intro e m he
    exact owners_update _ e m (by rw [he, hp]; rfl)
  by_cases h1 : c.tcpSocketNew = true
  · by_cases h2 : c.httpSessionNew = true
    · rcases connects_cases h1 h2 hc with h3 | ⟨h3, h4⟩ | ⟨h3, h4, h5⟩ | ⟨h3, h4, h5, h6⟩ |
        ⟨h3, h4, h5, h6, h7⟩
      all_goals
        simp only [attempt, tcpSocketNew, httpSessionNew, tcpSocketConnect, tcpSocketConnectError,
          tcpSocketConfig, buffereventSocketNew, buffereventFree, evutilClosesocket,
          httpSessionFree, channelFree, tcpSocketFree, onHttp, onChan, onBev, httpSessionInit, h1,
          h2, h3, Function.update_self, Option.isSome_none, if_true, if_false, Bool.false_eq_true,
          id]
      · constructor <;> simp [rest, hn.symm]
      · simp only [h4, if_false, Bool.false_eq_true, Function.update_self]
        constructor <;> simp [rest, h4, hn.symm]
      · simp only [h4, h5, if_true, if_false, Bool.false_eq_true, Function.update_self]
        constructor <;> simp [rest, h4, hn.symm]
      · simp only [h4, h5, h6, if_true, if_false, Bool.false_eq_true, Function.update_self]
        constructor <;> simp [rest, h4, hn.symm, owned, hout]
      · simp only [h4, h5, h6, h7, if_true, if_false, Bool.false_eq_true, Function.update_self]
        constructor <;> simp [rest, h4, hn.symm, owned, hout]
    · constructor <;> simp [attempt, h1, h2, tcpSocketNew, channelFree, tcpSocketFree, onChan,
        rest, hn.symm]
  · constructor <;> simp [attempt, h1, rest]

theorem going_apart (h : Going extra (shelf w)) (ha : Apart w.nextConn w w') :
    Going extra (shelf w') := by
  rw [shelf_apart ha]
  exact { h with next := Nat.succ_pos _ }

theorem instock_httpServerConnect (lib : Libs P) (c : ConnectChoices) (ss : SockAddr)
    (hidx : idx ≠ .client) (h : Going 0 (shelf w)) :
    InStock (httpServerConnect lib c ss idx w) := by
  have hn : w.nextConn ≠ 0 := Nat.ne_of_gt h.next
  have hp : owners (w.bev w.nextConn).output = [] := h.plain _ hn
  cases hc : connects c w.worker with
  | false =>
    rw [httpServerConnect_attempt lib c ss idx hc]
    exact spent_stateSet _ (going_apart h (apart_attempt lib c ss hn hp hc))
  | true =>
    rw [httpServerConnect_connects lib c ss idx w hc]
    left
    have ho : (shelf (connected lib ss idx w)).owners = (shelf w).owners := by
      funext m
      exact owners_update _ _ m (by rw [hp]; rfl)
    have hshelf : shelf (connected lib ss idx w) = { shelf w with next := w.nextConn + 1 } := by
      have hslot : Slot.client ≠ idx := hidx.symm
      have hs : shelf (connected lib ss idx w) = { shelf w with
          next := w.nextConn + 1
          owners := (shelf (connected lib ss idx w)).owners } := by
        simp [shelf, connected, setSlot, hn.symm, hslot]
      rw [hs, ho]
    rw [hshelf]
    exact { h with next := Nat.succ_pos _ }

theorem instock_dnsnameResolvedCb (lib : Libs P) (a : Answer) (c : ConnectChoices) (r : ℕ)
    (host : Host) (hidx : (w.request r).idx ≠ .client) (h : Going 0 (shelf w)) :
    InStock (dnsnameResolvedCb lib a c r host w) := by
  rw [dnsnameResolvedCb]
  have hr : ((referenceGet ((onRequest r id w).request r).session (onRequest r id w)).2.request
      r).idx = (w.request r).idx := by
    have hw : (onRequest r id w).request r = w.request r := by simp [onRequest]
    rw [hw]
    cases (w.request r).session <;> simp [referenceGet, onRequest]
  have h1 : Going 0 (shelf (referenceGet ((onRequest r id w).request r).session
      (onRequest r id w)).2) := going_of_shelf h (shelf_referenceGet _ (onRequest r id w))
  generalize referenceGet ((onRequest r id w).request r).session (onRequest r id w) = q at hr h1 ⊢
  obtain ⟨session, x⟩ := q
  simp only at hr h1 ⊢
  have h2 : Going 0 (shelf (dnsRequestFree r
      (onRequest r (fun q => { q with evdnsReq := false }) x))) :=
    going_of_shelf h1 (shelf_dnsRequestFree r (onRequest r (fun q => { q with evdnsReq := false }) x))
  generalize dnsRequestFree r _ = y at h2 ⊢
  cases session with
  | false => exact .inl h2
  | true =>
    cases a with
    | error => exact spent_stateSet _ h2
    | addresses families =>
      simp only [if_true]
      cases families.find? usable with
      | none => exact spent_stateSet (w := { y with addrs := .free r :: .use r :: y.addrs }) _ h2
      | some family =>
        exact instock_httpServerConnect (w := onSession (fun s => { s with
          pendingResolutions := s.pendingResolutions - 1 })
          { y with addrs := .free r :: .use r :: y.addrs }) lib c _ (hr ▸ hidx) h2

theorem instock_httpRequest (request : HttpRequest) (c : Choices) (n : ℕ)
    (h : Going 0 (shelf w)) : InStock (httpRequest request c n w) := by
  rw [httpRequest, httpRequestWrite]
  have h1 : Going 0 (shelf (onHttp n id (onSession (fun s => { s with
      pendingConnections := s.pendingConnections - 1 }) (onHttp n id w)))) := by
    have h0 : Going 0 (shelf (onSession (fun s => { s with
        pendingConnections := s.pendingConnections - 1 }) (onHttp n id w))) :=
      going_of_shelf (v := onHttp n id w) h (shelf_onHttp n id rfl)
    exact going_of_shelf h0 (shelf_onHttp n id rfl)
  generalize onHttp n id (onSession _ (onHttp n id w)) = x at h1 ⊢
  have h2 := going_of_shelf h1 (shelf_evbufferAddAll c.outputAdd (x.http n).channel 0
    ((request.requestLine :: request.headers ++ [literal "\r\n"]).map fun b => ⟨b, none⟩)
    (owners_plain _) x)
  generalize evbufferAddAll c.outputAdd (x.http n).channel 0 _ x = r at h2 ⊢
  obtain ⟨ok, y⟩ := r
  cases ok with
  | false => exact spent_stateSet _ h2
  | true => exact .inl h2

theorem instock_clientReadyToClose (h : Going 0 (shelf w)) : InStock (clientReadyToClose w) := by
  rw [clientReadyToClose]
  split
  · exact spent_remove (w := onSession id w) h
  · exact .inl h

theorem going_dnsRequestNew (lib : Libs P) (c : ResolveChoices) (host : Host) (idx : Slot)
    (hc : c.calloc = true → c.inside = none) (h : Going 0 (shelf w)) :
    Going 0 (shelf (dnsRequestNew lib c host idx w).2) := by
  rw [dnsRequestNew]
  split
  · next hcalloc =>
    simp only
    have h1 : Going 0 (shelf (onRequest w.nextRequest (fun q => { q with session := w.session.me })
        (onSession id { w with
          nextRequest := w.nextRequest + 1, dns := .alloc (.dnsRequest w.nextRequest) :: w.dns
          request := Function.update w.request w.nextRequest {} }))) := h
    have h2 := going_of_shelf h1 (shelf_referenceWeakInc w.session.me _)
    have hs : ∀ x : World P, Going 0 (shelf x) →
        Going 0 (shelf (dnsnameResolve lib c w.nextRequest host idx x)) := by
      intro x hx
      have hworker : x.worker = true := hx.worker
      rw [dnsnameResolve, hc hcalloc, if_pos hworker]
      exact hx
    exact hs _ h2
  · exact h

theorem instock_clientMsgComplete (lib : Libs P) (c : Choices) (n : ℕ)
    (hlater : answersInside c = false) (h : Going 0 (shelf w)) :
    InStock (clientMsgComplete lib c n w) := by
  rw [clientMsgComplete]
  have h1 : Going 0 (shelf (sessionReferenceNew c.referenceNew
      (call .clientMsgComplete (onHttp n id w))).2) := by
    have h0 : Going 0 (shelf (call .clientMsgComplete (onHttp n id w))) :=
      going_of_shelf (v := onHttp n id w) h (shelf_onHttp n id rfl)
    cases c.referenceNew <;> exact h0
  have hme : (sessionReferenceNew c.referenceNew
      (call .clientMsgComplete (onHttp n id w))).1.isNone = !c.referenceNew := by
    cases c.referenceNew <;> rfl
  generalize sessionReferenceNew c.referenceNew _ = r at h1 hme ⊢
  obtain ⟨me, x⟩ := r
  have h2 : Going 0 (shelf (onSession (fun s => { s with me := me }) x)) := h1
  simp only at hme ⊢
  generalize onSession (fun s => { s with me := me }) x = y at h2 ⊢
  rw [hme]
  cases hr : c.referenceNew with
  | false => exact spent_remove h2
  | true =>
    simp only [answersInside, hr, Bool.true_and] at hlater
    have hname : c.nameRequest.calloc = true → c.nameRequest.inside = none := by
      intro hcalloc
      simp only [hcalloc, Bool.true_and, Bool.or_eq_false_iff] at hlater
      simpa using hlater.1
    have h3 := going_dnsRequestNew lib c.nameRequest .uinames .name hname h2
    have hok : (dnsRequestNew lib c.nameRequest .uinames .name y).1 = c.nameRequest.calloc := by
      rw [dnsRequestNew]
      split
      · next hcalloc => exact hcalloc.symm
      · next hcalloc => simpa using hcalloc
    simp only [Bool.not_true, Bool.false_eq_true, if_false]
    generalize dnsRequestNew lib c.nameRequest .uinames .name y = r at h3 hok ⊢
    obtain ⟨ok, z⟩ := r
    simp only at hok
    cases ok with
    | false => exact spent_remove h3
    | true =>
      have hjoke : c.jokeRequest.calloc = true → c.jokeRequest.inside = none := by
        intro hcalloc
        simp only [← hok, hcalloc, Bool.true_and, Bool.or_eq_false_iff] at hlater
        simpa using hlater.2
      have h4 := going_dnsRequestNew lib c.jokeRequest .icndb .joke hjoke h3
      simp only
      generalize dnsRequestNew lib c.jokeRequest .icndb .joke z = r at h4 ⊢
      obtain ⟨ok, t⟩ := r
      cases ok with
      | false => exact spent_remove h4
      | true => exact .inl h4

theorem going_strdup (ok : Bool) (s : Bytes) (h : Going extra (shelf w)) :
    Going (addrOf (strdup ok s w).1 + extra) (shelf (strdup ok s w).2) := by
  cases ok with
  | false =>
    show Going (0 + extra) (shelf w)
    rw [zero_add]
    exact h
  | true =>
    have hfresh : status w.strs w.nextStr = .fresh := h.fresh w.nextStr (Nat.le_refl _)
    refine { h with fresh := ?_, holds := ?_ }
    · intro a ha
      have ha : w.nextStr + 1 ≤ a := ha
      have hne : a ≠ w.nextStr := by omega
      show status (.alloc w.nextStr :: w.strs) a = .fresh
      rw [status_alloc, if_neg hne]
      exact h.fresh a (by show w.nextStr ≤ a; omega)
    · have hh := holds_alloc h.holds hfresh
      rw [← Multiset.add_cons, ← Multiset.singleton_add] at hh
      exact hh

theorem going_free {s t : Shelf} {extra' : Multiset ℕ} {a : ℕ} (h : Going extra s)
    (ht : t = { s with
      name := t.name, surname := t.surname, joke := t.joke, strs := .free a :: s.strs })
    (hf : fields s + ↑(s.owners 0) + extra = a ::ₘ (fields t + ↑(s.owners 0) + extra')) :
    Going extra' t := by
  have hh := h.holds
  rw [hf] at hh
  have hlive : status s.strs a = .live := (hh.live a).mpr (Multiset.mem_cons_self _ _)
  rw [ht]
  refine { h with fresh := ?_, holds := ?_ }
  · intro b hb
    have hfresh := h.fresh b hb
    have hne : b ≠ a := by
      rintro rfl
      rw [hlive] at hfresh
      cases hfresh
    show status (.free a :: s.strs) b = .fresh
    rw [status_free, if_neg hne]
    exact hfresh
  · rw [ht] at hh
    exact holds_free hh

theorem going_free_extra (s : CStr) (h : Going (addrOf (some s) + extra) (shelf w)) :
    Going extra (shelf (freeStr (some s) w)) := by
  refine going_free h rfl ?_
  show _ + ({s.addr} + extra) = _
  rw [Multiset.singleton_add, Multiset.add_cons]
  rfl

theorem going_drop {s : CStr} (f : Session → Session)
    (hc : (f w.session).httpSessions = w.session.httpSessions)
    (hf : fields (shelf w) = s.addr ::ₘ fields (shelf (onSession f w)))
    (h : Going extra (shelf w)) :
    Going extra (shelf (onSession f (freeStr (some s) w))) := by
  refine going_free (a := s.addr) h ?_ ?_
  · have hclient : (f w.session).httpSessions .client = w.session.httpSessions .client := by rw [hc]
    rw [shelf, shelf]
    simp only [onSession, freeStr, hclient]
  · rw [hf, Multiset.cons_add, Multiset.cons_add]
    rfl

theorem addrOf_some (s : CStr) : addrOf (some s) = {s.addr} := rfl

theorem fields_name {name : CStr} (hn : w.session.name = some name) : fields (shelf w) =
    name.addr ::ₘ fields (shelf (onSession (fun s => { s with name := none }) w)) := by
  show addrOf w.session.name + _ + _ = _ ::ₘ (0 + addrOf w.session.surname + addrOf w.session.joke)
  rw [hn, addrOf_some, ← Multiset.singleton_add]
  show {name.addr} + addrOf w.session.surname + addrOf w.session.joke = _
  abel

theorem fields_surname {surname : CStr} (hs : w.session.surname = some surname) :
    fields (shelf w) =
      surname.addr ::ₘ fields (shelf (onSession (fun s => { s with surname := none }) w)) := by
  show _ + addrOf w.session.surname + _ = _ ::ₘ (addrOf w.session.name + 0 + addrOf w.session.joke)
  rw [hs, addrOf_some, ← Multiset.singleton_add]
  show addrOf w.session.name + {surname.addr} + addrOf w.session.joke = _
  abel

theorem fields_joke {joke : CStr} (hj : w.session.joke = some joke) : fields (shelf w) =
    joke.addr ::ₘ fields (shelf (onSession (fun s => { s with joke := none }) w)) := by
  show _ + _ + addrOf w.session.joke =
    _ ::ₘ (addrOf w.session.name + addrOf w.session.surname + 0)
  rw [hj, addrOf_some, ← Multiset.singleton_add]
  show addrOf w.session.name + addrOf w.session.surname + {joke.addr} = _
  abel

theorem going_jokeString (malloc : ℕ → Bool) (joke token new : Bytes) (ht : 0 < token.length)
    (h : Going extra (shelf w)) :
    Going (addrOf (jokeString malloc joke token new w).1 + extra)
        (shelf (jokeString malloc joke token new w).2) ∧
      (jokeString malloc joke token new w).2.session = w.session := by
  rcases jokeString_cases malloc joke token new ht w with ⟨he, -⟩ | he
  · rw [he]
    refine ⟨?_, rfl⟩
    rw [show addrOf none = (0 : Multiset ℕ) from rfl, zero_add]
    exact h
  · rw [he]
    exact ⟨going_strdup true _ h, rfl⟩

theorem going_clientResponseCreate (c : Choices) (h : Going 0 (shelf w)) :
    Going (addrOf (clientResponseCreate c w).1) (shelf (clientResponseCreate c w).2) := by
  rw [clientResponseCreate]
  have h1 : Going 0 (shelf (onSession id w)) := h
  generalize onSession id w = x at h1 ⊢
  simp only
  split
  · next name surname joke hn hs hj =>
    have h2 : Going 0 (shelf (call (.clientResponseCreate (x.session.name.isSome &&
      x.session.surname.isSome && x.session.joke.isSome)) x)) := h1
    have hx : (call (.clientResponseCreate (x.session.name.isSome &&
      x.session.surname.isSome && x.session.joke.isSome)) x).session = x.session := rfl
    generalize call (.clientResponseCreate _) x = y at h2 hx ⊢
    obtain ⟨h3, hy⟩ := going_jokeString c.mallocFirst joke.bytes (literal "Eduardo") name.bytes
      (by decide) h2
    generalize jokeString c.mallocFirst joke.bytes (literal "Eduardo") name.bytes y = r at h3 hy ⊢
    obtain ⟨newJoke, z⟩ := r
    simp only at h3 hy ⊢
    rw [add_zero] at h3
    have hsz : z.session = x.session := hy.trans hx
    have h4 := going_drop (fun s => { s with name := none }) rfl
      (fields_name (w := z) (by rw [hsz, hn])) h3
    have hs4 := session_drop (some name) (fun s => { s with name := none }) z
    generalize onSession (fun s => { s with name := none }) (freeStr (some name) z) = t
      at h4 hs4 ⊢
    cases newJoke with
    | none => exact h4
    | some between =>
      simp only
      have hjt : t.session.joke = some joke := by
        rw [hs4, hsz]
        exact hj
      have h5 := going_drop (fun s => { s with joke := none }) rfl (fields_joke hjt) h4
      have hs5 := session_drop (some joke) (fun s => { s with joke := none }) t
      generalize onSession (fun s => { s with joke := none }) (freeStr (some joke) t) = t'
        at h5 hs5 ⊢
      obtain ⟨h6, hs6⟩ := going_jokeString c.mallocSecond between.bytes (literal "Panisset")
        surname.bytes (by decide) h5
      generalize jokeString c.mallocSecond between.bytes (literal "Panisset") surname.bytes t' = r
        at h6 hs6 ⊢
      obtain ⟨newJoke, q⟩ := r
      simp only at h6 hs6 ⊢
      have hsq : q.session.surname = some surname := by
        rw [hs6, hs5, hs4, hsz]
        exact hs
      have h7 := going_drop (fun s => { s with surname := none }) rfl (fields_surname hsq) h6
      generalize onSession (fun s => { s with surname := none }) (freeStr (some surname) q) = q'
        at h7 ⊢
      rw [add_comm] at h7
      exact going_free_extra between h7
  · exact h1

def headed (c : Choices) : Bool := c.datetime.isSome && (List.range 6).all c.outputAdd

theorem evbufferAddAll_succeeds (ok : ℕ → Bool) (n k : ℕ) (cs : List Chunk)
    (h : ∀ j, j < cs.length → ok (k + j) = true) (w : World P) :
    (evbufferAddAll ok n k cs w).1 = true := by
  induction cs generalizing k w with
  | nil => rfl
  | cons c cs ih =>
    have hk : ok k = true := h 0 (Nat.succ_pos _)
    rw [evbufferAddAll, evbufferAdd, hk]
    apply ih
    intro j hj
    rw [show k + 1 + j = k + (j + 1) by omega]
    exact h (j + 1) (by rw [List.length_cons]; omega)

theorem going_httpResponseWrite (c : Choices) (body : CStr) (hc : headed c = true)
    (h : Going (addrOf (some body)) (shelf w)) : Going 0 (shelf (httpResponseWrite c 0 body w).2) := by
  rw [← add_zero (addrOf (some body))] at h
  rw [headed, Bool.and_eq_true, Option.isSome_iff_exists, List.all_eq_true] at hc
  obtain ⟨⟨d, hd⟩, hadd⟩ := hc
  have h1 : Going (addrOf (some body) + 0) (shelf (call .httpResponseWrite (onHttp 0 id w))) :=
    going_of_shelf (v := onHttp 0 id w) h (shelf_onHttp 0 id rfl)
  rw [httpResponseWrite]
  generalize call .httpResponseWrite (onHttp 0 id w) = x at h1 ⊢
  have hch : (x.http 0).channel = 0 := h1.channel
  have hhead := going_of_shelf h1 (shelf_evbufferAddAll c.outputAdd 0 0
    ((responseHead d body.bytes.length).map fun b => ⟨b, none⟩) (owners_plain _) x)
  have hok : (evbufferAddAll c.outputAdd 0 0
      ((responseHead d body.bytes.length).map fun b => ⟨b, none⟩) x).1 = true := by
    apply evbufferAddAll_succeeds
    intro j hj
    rw [Nat.zero_add]
    exact hadd j (List.mem_range.mpr hj)
  simp only [hd, hch]
  generalize evbufferAddAll c.outputAdd 0 0 _ x = r at hhead hok ⊢
  obtain ⟨ok, y⟩ := r
  simp only at hok hhead
  subst hok
  simp only [evbufferAdd]
  cases c.outputAdd 6 with
  | false => exact going_free_extra body hhead
  | true =>
    have hbev : (y.chan 0).bev = some 0 := hhead.bev
    have hf := hhead.holds
    have hx : shelf (onChannelBev 0 (fun e => { e with
        output := e.output ++ [⟨body.bytes, some body⟩] }) y) = { shelf y with
          owners := Function.update (shelf y).owners 0 ((shelf y).owners 0 ++ [body.addr]) } := by
      have ho : (fun m => owners ((onChannelBev 0 (fun e => { e with
          output := e.output ++ [⟨body.bytes, some body⟩] }) y).bev m).output) =
          Function.update (shelf y).owners 0 ((shelf y).owners 0 ++ [body.addr]) := by
        funext m
        by_cases hm : m = 0
        · subst hm
          simp [onChannelBev, onChan, onBev, hbev, owners_append, shelf]
          rfl
        · simp [onChannelBev, onChan, onBev, hbev, hm, shelf]
      rw [shelf, ho]
      simp [onChannelBev, onChan, onBev, hbev, shelf]
    simp only [if_true]
    rw [hx]
    refine { hhead with plain := ?_, holds := ?_ }
    · intro m hm
      show Function.update (shelf y).owners 0 _ m = []
      rw [Function.update_of_ne hm]
      exact hhead.plain m hm
    · show Holds y.strs (fields (shelf y) + ↑(Function.update (shelf y).owners 0
        ((shelf y).owners 0 ++ [body.addr]) 0) + 0)
      rw [Function.update_self, ← Multiset.coe_add, add_zero, ← add_assoc]
      rw [add_zero, addrOf_some] at hf
      exact hf

theorem clientResponseCreate_runs (c : Choices) {body : CStr}
    (h : (clientResponseCreate c w).1 = some body) :
    (clientResponseCreate c w).2.crashed = w.crashed := by
  cases hready : w.session.name.isSome && w.session.surname.isSome && w.session.joke.isSome with
  | false =>
    rw [clientResponseCreate_unready c hready] at h
    cases h
  | true =>
    simp only [Bool.and_eq_true, Option.isSome_iff_exists] at hready
    obtain ⟨⟨⟨name, hn⟩, surname, hs⟩, joke, hj⟩ := hready
    exact (clientResponseCreate_ready c hn hs hj).1.crashed

theorem instock_httpClientResponse (c : Choices)
    (hc : bothReplied w.session = true → headed c = true) (hcr : w.crashed = false)
    (h : Going 0 (shelf w)) : InStock (httpClientResponse c w) := by
  rw [httpClientResponse]
  have h1 : Going 0 (shelf (onSession id w)) := h
  have hs : (onSession id w).session = w.session := rfl
  have hx : (onSession id w).crashed = false := hcr
  generalize onSession id w = x at h1 hs hx ⊢
  have hclient : x.session.httpSessions .client = some 0 := h1.client
  simp only [hclient]
  split
  · next hboth =>
    have hhead : headed c = true := hc (by rw [bothReplied, ← hs]; exact hboth)
    have h2 := going_clientResponseCreate c h1
    have hruns : ∀ body, (clientResponseCreate c x).1 = some body →
        (clientResponseCreate c x).2.crashed = false := fun body hb =>
      (clientResponseCreate_runs c hb).trans hx
    generalize clientResponseCreate c x = r at h2 hruns ⊢
    obtain ⟨response, y⟩ := r
    simp only at h2 hruns ⊢
    cases response with
    | none =>
      split
      · exact .inl h2
      · exact spent_stateSet _ h2
    | some body =>
      split
      · next hcrash => exact absurd ((hruns body rfl).symm.trans hcrash) (by decide)
      · have h3 := going_httpResponseWrite c body hhead h2
        simp only
        generalize httpResponseWrite c 0 body y = r at h3 ⊢
        obtain ⟨ok, z⟩ := r
        cases ok with
        | false => exact spent_stateSet _ h3
        | true => exact .inl h3
  · exact .inl h1

def Vacant (idx : Slot) (s : Session) : Prop :=
  if idx = .name then s.name = none ∧ s.surname = none else s.joke = none

theorem vacant_upstream (h : Inv lib False idx w) (hreg : w.registered = true) (ho : Once w)
    (hidx : idx ≠ .client) (hi : w.session.httpSessions idx = some n) : Vacant idx w.session := by
  have hp := h.progress hreg ho
  have hno : hasReplied idx w.session = false := not_replied hp hidx hi
  have hu : Unanswered (rest w) := response_unanswered hp.response hno hidx
  cases idx with
  | client => exact absurd rfl hidx
  | name =>
    have hn : w.session.name.isSome = false := hu.name.trans hno
    have hs : w.session.surname.isSome = false := hu.surname.trans hno
    exact ⟨by simpa using hn, by simpa using hs⟩
  | joke =>
    have hj : w.session.joke.isSome = false := hu.joke.trans hno
    show w.session.joke = none
    simpa using hj

theorem going_store {s : Option CStr} (f : Session → Session)
    (hc : (f w.session).httpSessions = w.session.httpSessions)
    (hf : fields (shelf (onSession f w)) = fields (shelf w) + addrOf s)
    (h : Going (addrOf s + extra) (shelf w)) : Going extra (shelf (onSession f w)) := by
  have hclient : (f w.session).httpSessions .client = w.session.httpSessions .client := by rw [hc]
  refine { h with client := hclient.trans h.client, holds := ?_ }
  have hh := h.holds
  rw [hf, add_right_comm (fields (shelf w)), add_assoc _ (addrOf s)]
  exact hh

theorem session_strdup (ok : Bool) (s : Bytes) (w : World P) :
    (strdup ok s w).2.session = w.session := by
  cases ok <;> rfl

theorem going_unpack (lib : Libs P) (c : Choices) (idx : Slot) (p : Bytes)
    (hv : Vacant idx w.session) (h : Going 0 (shelf w)) :
    Going 0 (shelf (unpack lib c idx p w).2) := by
  rw [unpack]
  rw [Vacant] at hv
  split
  · next hname =>
    rw [if_pos hname] at hv
    obtain ⟨hn, hs⟩ := hv
    rw [unpackName]
    cases lib.jsonName p with
    | none => exact h
    | some pair =>
      have h1 := going_strdup c.strdupFirst pair.1 h
      have hs1 := session_strdup c.strdupFirst pair.1 w
      simp only
      generalize strdup c.strdupFirst pair.1 w = r at h1 hs1 ⊢
      obtain ⟨name, x⟩ := r
      simp only at h1 hs1 ⊢
      have h2 := going_store (s := name) (fun s => { s with name := name }) rfl (by
        show addrOf name + addrOf x.session.surname + addrOf x.session.joke =
          addrOf x.session.name + addrOf x.session.surname + addrOf x.session.joke + addrOf name
        rw [hs1, hn]
        show _ = 0 + _ + _ + _
        abel) h1
      have hs2 : (onSession (fun s => { s with name := name }) x).session.surname = none := by
        show x.session.surname = none
        rw [hs1, hs]
      generalize onSession (fun s => { s with name := name }) x = y at h2 hs2 ⊢
      split
      · exact h2
      · have h3 := going_strdup c.strdupSecond pair.2 h2
        have hs3 := session_strdup c.strdupSecond pair.2 y
        generalize strdup c.strdupSecond pair.2 y = r at h3 hs3 ⊢
        obtain ⟨surname, z⟩ := r
        exact going_store (s := surname) (fun s => { s with surname := surname }) rfl (by
          show addrOf z.session.name + addrOf surname + addrOf z.session.joke =
            addrOf z.session.name + addrOf z.session.surname + addrOf z.session.joke +
              addrOf surname
          rw [show z.session.surname = none from (congrArg Session.surname hs3).trans hs2]
          show _ = _ + 0 + _ + _
          abel) h3
  · next hname =>
    rw [if_neg hname] at hv
    rw [unpackJoke]
    cases lib.jsonJoke p with
    | none => exact h
    | some joke =>
      have h1 := going_strdup c.strdupFirst joke h
      have hs1 := session_strdup c.strdupFirst joke w
      simp only
      generalize strdup c.strdupFirst joke w = r at h1 hs1 ⊢
      obtain ⟨joke, x⟩ := r
      exact going_store (s := joke) (fun s => { s with joke := joke }) rfl (by
        show addrOf x.session.name + addrOf x.session.surname + addrOf joke =
          addrOf x.session.name + addrOf x.session.surname + addrOf x.session.joke + addrOf joke
        rw [show x.session.joke = none from (congrArg Session.joke hs1).trans hv]
        show _ = _ + _ + 0 + _
        abel) h1

theorem shelf_upstreamFree (h : Going extra (shelf w)) (hn : n ≠ 0) (hch : (w.http n).channel = n)
    (hb : (w.chan n).bev = some n) (hl : (w.chan n).listen = false) :
    shelf (httpSessionFree n w) = shelf w := by
  have hp : owners (w.bev n).output = [] := h.plain n hn
  rw [httpSessionFree_eq hch hb hl]
  have ho : (fun m => owners (Function.update w.bev n
      { w.bev n with input := [], output := [] } m).output) = fun m => owners (w.bev m).output := by
    funext m
    exact owners_update n { w.bev n with input := [], output := [] } m hp.symm
  simp [shelf, hn.symm, owned_nil hp, ho]

theorem shelf_markReplied (idx : Slot) (w : World P) :
    shelf (onSession (markReplied idx) w) = shelf w := by
  rw [shelf, shelf]
  simp only [onSession, markReplied]
  split <;> rfl

theorem instock_httpResponse (lib : Libs P) (c : Choices) {body : Bytes} (hidx : idx ≠ .client)
    (hn : n ≠ 0) (hheld : Held False (wires w) idx n) (hcr : w.crashed = false)
    (hbody : (w.http n).body = some body) (hv : Vacant idx w.session)
    (hc : decodes lib idx body = true → bothReplied (markReplied idx w.session) = true →
      headed c = true)
    (h : Going 0 (shelf w)) : InStock (httpResponse lib idx c n w) := by
  have h1 : Going 0 (shelf (replying idx n w)) :=
    going_of_shelf (v := onHttp n id w) h (shelf_onHttp n id rfl)
  rw [httpResponse_replying c hbody]
  split
  · exact spent_stateSet _ h1
  · next hne =>
    have hne : body ≠ [] := by
      rintro rfl
      simp at hne
    have h2 := going_unpack lib c idx body (w := replying idx n w) hv h1
    obtain ⟨hk, hst⟩ := unpack_spec lib c body (replying idx n w) hidx
    generalize unpack lib c idx body (replying idx n w) = r at h2 hk hst ⊢
    obtain ⟨ok, u⟩ := r
    simp only at h2 hk hst
    cases ok with
    | false => exact spent_stateSet _ h2
    | true =>
      have hstored := hst rfl
      have hhttp : u.http = w.http := by
        rw [show u.http = (replying idx n w).http from congrArg Wires.http hk.wires]
        simp [replying, onSession, call, onHttp]
      have hchan : u.chan = w.chan := congrArg Wires.chan hk.wires
      have hch : (u.http n).channel = n := by
        rw [hhttp]
        exact hheld.channel
      have hb : (u.chan n).bev = some n := by
        rw [hchan]
        exact hheld.bev
      have hl : (u.chan n).listen = false := by
        rw [hchan]
        exact hheld.listen
      have h3 := going_of_shelf h2 (shelf_markReplied idx u)
      have h4 := going_of_shelf h3 (shelf_upstreamFree (w := onSession (markReplied idx) u) h3 hn
        hch hb hl)
      have hsession : (httpSessionFree n (onSession (markReplied idx) u)).session =
          markReplied idx u.session :=
        congrArg Rest.session (rest_httpSessionFree n (onSession (markReplied idx) u))
      have hcrash : (httpSessionFree n (onSession (markReplied idx) u)).crashed = false :=
        (congrArg Rest.crashed (rest_httpSessionFree n (onSession (markReplied idx) u))).trans
          (hk.crashed.trans hcr)
      simp only
      generalize httpSessionFree n (onSession (markReplied idx) u) = x at h4 hsession hcrash ⊢
      have hslot : (setSlot idx none x.session).httpSessions .client =
          x.session.httpSessions .client := Function.update_of_ne hidx.symm _ _
      have h5 : Going 0 (shelf (onSession (setSlot idx none) x)) := by
        refine { h4 with client := hslot.trans h4.client }
      have hflags : bothReplied (setSlot idx none x.session) =
          bothReplied (markReplied idx w.session) := by
        obtain ⟨hf1, hf2, -⟩ := stored_flags hstored
        have hr1 : u.session.nameReplied = w.session.nameReplied := hf1
        have hr2 : u.session.jokeReplied = w.session.jokeReplied := hf2
        rw [hsession, bothReplied, bothReplied, setSlot, markReplied, markReplied]
        split
        · simp only [hr2]
        · simp only [hr1]
      refine instock_httpClientResponse c ?_ hcrash h5
      intro hboth
      exact hc (decodes_stored hne hstored) (hflags.symm.trans hboth)

end Tigera.ReplyStrings
