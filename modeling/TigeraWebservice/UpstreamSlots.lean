import TigeraWebservice.CompletedRequests
import TigeraWebservice.PlainMessages

/-!
# Every connection in its own slot

In orderly runs each HTTP session that is alive is in one slot, the slot of its
callbacks and of the host it was connected to, and leaves it only to be
released. An answer that arrives inside `evdns_getaddrinfo` finds a request
whose index has not been set, and takes the slot of the client.
-/

set_option autoImplicit false

namespace Tigera.UpstreamSlots
open ResourceLedger TransitionRuns Tigera.SessionWorld Tigera.SocketChannel
open Tigera.SessionProgram Tigera.SessionSystem Tigera.HeldConnections Tigera.SessionMemory
open Tigera.SessionInvariant Tigera.SessionRuns Tigera.CompletedRequests Tigera.PlainMessages

variable {P : Type} {lib : Libs P} {v w : World P}

/-- HTTP session `n` is alive, has the callbacks of slot `i` and is connected
to the host of that slot. -/
structure Belongs (w : World P) (i : Slot) (n : ℕ) : Prop where
  live : status w.conns (.httpSession n) = .live
  cbs : (w.http n).cbs = slotCallbacks i
  peer : (w.bev n).peer.map SockAddr.host = slotHost i

/-- The first connection is the client's, the others are in their own slots,
and none that is alive is in no slot. -/
structure OwnSlots (w : World P) : Prop where
  client : w.registered = true → w.crashed = false → w.session.httpSessions .client = some 0
  stored : ∀ i n, w.session.httpSessions i = some n → Belongs w i n
  somewhere : ∀ n, status w.conns (.httpSession n) = .live →
    ∃ i, w.session.httpSessions i = some n
  distinct : ∀ i j n, w.session.httpSessions i = some n → w.session.httpSessions j = some n → i = j

/-- What a slot holds in `w` is not overwritten before `v` while it is alive. -/
def Keeps (w v : World P) : Prop :=
  ∀ i n, w.session.httpSessions i = some n → status v.conns (.httpSession n) = .live →
    v.session.httpSessions i = some n

theorem ownSlots_initial (lib : Libs P) (worker : Bool) : OwnSlots (initial lib worker) := by
  constructor
  · intro hreg
    cases hreg
  · intro i n hi
    cases hi
  · intro n hn
    cases hn
  · intro i j n hi
    cases hi

theorem ownSlots_of_inv {tidy : Prop} (h : Inv lib tidy .client w) : OwnSlots w := by
  have hc := h.memory.conns
  constructor
  · exact fun hreg hcr => (h.plan hreg hcr).client
  · intro i n hi
    have hh := hc.held i n hi
    exact ⟨hh.http, hh.cbs, hh.peer⟩
  · intro n hn
    by_contra hno
    exact (hc.dead n fun i hi => hno ⟨i, hi⟩).http hn
  · exact hc.distinct

theorem ownSlots_of_reached {tidy : Prop} (h : Reached lib tidy w) : OwnSlots w := by
  rcases h with ⟨worker, rfl⟩ | h
  · exact ownSlots_initial lib worker
  · exact ownSlots_of_inv h

theorem run_keeps {C : World P → Event → Prop} {es : List Event} {tidy : Prop}
    (hw : Reached lib tidy w) (h : Run (system lib) C w es v) (hv : OwnSlots v) : Keeps w v := by
  intro i n hi hn
  rcases hw with ⟨worker, rfl⟩ | hw
  · cases hi
  · have hlt : n < w.nextConn := held_lt hw.memory.conns hi
    obtain ⟨j, hj⟩ := hv.somewhere n hn
    have hold : w.session.httpSessions j = some n := by
      rcases (run_later h hw.memory.begun).slots j n hj with hold | hle
      · exact hold
      · omega
    rw [hw.memory.conns.distinct i j n hi hold]
    exact hj

/-- In orderly runs every upstream lands in its own slot, and no HTTP session
is overwritten while it is alive. -/
theorem own_slots {worker : Bool} {es fs : List Event}
    (h : Run (system lib) (fun w e => orderly lib w e = true) (initial lib worker) es w)
    (h' : Run (system lib) (fun w e => orderly lib w e = true) w fs v) :
    OwnSlots w ∧ Keeps w v := by
  have steady : ∀ {es : List Event} {u : World P},
      Run (system lib) (fun w e => orderly lib w e = true) (initial lib worker) es u →
      Reached lib False u := by
    intro es u hu
    exact run_reached (run_weaken (fun _ _ ho => ⟨ho, False.elim⟩) hu)
  have hv := ownSlots_of_reached (steady (run_append h h'))
  exact ⟨ownSlots_of_reached (steady h), run_keeps (steady h) h' hv⟩

def resolvedBoth : List Event := exchange.take 5

theorem own_slots_exchange :
    OwnSlots (resolvedBoth.foldl (next libs) (initial libs true)) ∧
      Keeps (resolvedBoth.foldl (next libs) (initial libs true))
        ([Event.eventCb 1 { connected := true } {}].foldl (next libs)
          (resolvedBoth.foldl (next libs) (initial libs true))) :=
  own_slots (run_of_admits (initial libs true) resolvedBoth (by decide +kernel))
    (run_of_admits (resolvedBoth.foldl (next libs) (initial libs true))
      [Event.eventCb 1 { connected := true } {}] (by decide +kernel))

/-- The first domain name is resolved before `evdns_getaddrinfo` returns. -/
def answeredInside : List Event :=
  [.accept {}, .arrive 0 clientRequest,
    .readCb 0 { nameRequest := { inside := some (.addresses [.inet]) } }]

theorem client_slot_overwritten : ¬ ∀ (es : List Event) (w : World Core),
    Run (system libs) (fun _ _ => True) (initial libs true) es w → OwnSlots w := by
  intro h
  have ho := h answeredInside _ (run_of_admits (initial libs true) answeredInside
    (by decide +kernel))
  exact absurd (ho.client (by decide +kernel) (by decide +kernel)) (by decide +kernel)

end Tigera.UpstreamSlots
