import TigeraWebservice.PlainMessages
import TigeraWebservice.SessionRuns

/-!
# The release of sockets

Every connection of the service keeps its sockets to itself. As long as the
accepted bufferevent always finds an owner and no connection is refused at
once, each descriptor and each bufferevent is released exactly once, with its
session or with the attempt that failed. A bufferevent accepted by a thread
that cannot make a channel is never released, one refused by
`bufferevent_socket_connect` is released twice.
-/

set_option autoImplicit false

namespace Tigera.SocketRelease
open ResourceLedger TransitionRuns Tigera.SessionWorld Tigera.SocketChannel
open Tigera.SessionProgram Tigera.SessionSystem Tigera.HeldConnections Tigera.SessionMemory
open Tigera.SessionInvariant Tigera.SessionRuns Tigera.PlainMessages

variable {P : Type} {lib : Libs P} {w : World P}

/-- Connection `n` is in use by the session. -/
def InSlot (w : World P) (n : ℕ) : Prop := ∃ i, w.session.httpSessions i = some n

/-- The descriptor and the bufferevent of a connection are released once when
it is no longer in use, and not before. -/
structure SocketsReleased (w : World P) : Prop where
  atMostOnce : ∀ s, frees w.socks s ≤ 1
  unused : Untouched w.socks
  held : ∀ n, InSlot w n → frees w.socks (.fd n) = 0 ∧ frees w.socks (.bev n) = 0
  fd : ∀ n, ¬ InSlot w n → .alloc (.fd n) ∈ w.socks → frees w.socks (.fd n) = 1
  bev : ∀ n, ¬ InSlot w n → .alloc (.bev n) ∈ w.socks → frees w.socks (.bev n) = 1
  ended : w.registered = false → w.crashed = false → ∀ n, ¬ InSlot w n

theorem socketsReleased_initial (lib : Libs P) (worker : Bool) :
    SocketsReleased (initial lib worker) where
  atMostOnce := fun _ => Nat.zero_le 1
  unused := trivial
  held := fun _ _ => ⟨rfl, rfl⟩
  fd := fun _ _ ha => (List.not_mem_nil ha).elim
  bev := fun _ _ ha => (List.not_mem_nil ha).elim
  ended := fun _ _ n ⟨i, hi⟩ => by cases hi

theorem socketsReleased_of_inv (h : Inv lib True .client w) : SocketsReleased w := by
  have hc := h.memory.conns
  have hsound : Sound w.socks := hc.tidySound trivial
  constructor
  · exact frees_le_one w.socks hsound
  · exact untouched_of_sound w.socks hsound
  · rintro n ⟨i, hi⟩
    obtain ⟨hb, hf⟩ := (hc.held i n hi).socket trivial
    have hb : status w.socks (.bev n) = .live := hb
    have hf : status w.socks (.fd n) = .live := hf
    rw [frees_of_sound _ hsound, frees_of_sound _ hsound, hb, hf]
    exact ⟨rfl, rfl⟩
  · intro n hn ha
    have hd : status w.socks (.fd n) ≠ .live :=
      ((hc.dead n fun i hi => hn ⟨i, hi⟩).socket trivial).2
    rw [frees_of_made hsound ha, if_neg hd]
  · intro n hn ha
    have hd : status w.socks (.bev n) ≠ .live :=
      ((hc.dead n fun i hi => hn ⟨i, hi⟩).socket trivial).1
    rw [frees_of_made hsound ha, if_neg hd]
  · rintro hreg hcr n ⟨i, hi⟩
    rw [(h.memory.gone hreg hcr).1 i] at hi
    cases hi

/-- No failure in this step leaves a descriptor with two owners or with none. -/
def singlyOwned (lib : Libs P) (w : World P) (e : Event) : Bool := orderly lib w e && tidily w e

/-- Whatever else fails, on whichever connections, in whatever order. -/
theorem sockets_released_once (workers : ℕ → Bool) {es : List (ℕ × Event)} {u : ℕ → World P}
    (h : Run (copies ℕ (system lib)) (fun w e => singlyOwned lib (w e.1) e.2 = true)
      (fun k => initial lib (workers k)) es u) (k : ℕ) : SocketsReleased (u k) := by
  have hk : Run (system lib) (fun w e => singlyOwned lib w e = true) (initial lib (workers k))
      (eventsOf k es) (u k) := run_copy (C := fun w e => singlyOwned lib w e = true) k h
  have hs : Run (system lib) (Steadily lib True) (initial lib (workers k)) (eventsOf k es) (u k) :=
    run_weaken (fun w e hc => by
      simp only [singlyOwned, Bool.and_eq_true] at hc
      exact ⟨hc.1, fun _ => hc.2⟩) hk
  rcases run_reached hs with ⟨worker, hw⟩ | hinv
  · rw [hw]
    exact socketsReleased_initial lib worker
  · exact socketsReleased_of_inv hinv

def twoClients : List (ℕ × Event) :=
  (exchange.take 4 ++ [Event.dnsCb 1 .error {}]).flatMap fun e => [(0, e), (1, e)]

theorem sockets_released_once_twoClients : SocketsReleased
    (twoClients.foldl (copies ℕ (system libs)).next (fun _ => initial libs true) 1) :=
  sockets_released_once (fun _ => true)
    (run_of_admits (fun _ => initial libs true) twoClients (by decide +kernel)) 1

def refusedAtOnce : List (ℕ × Event) :=
  (exchange.take 3 ++ [Event.dnsCb 0 (.addresses [.inet]) { buffereventSocketConnect := false }]).map
    fun e => (0, e)

theorem bufferevent_released_twice : ¬ ∀ (es : List (ℕ × Event)) (u : ℕ → World Core),
    Run (copies ℕ (system libs)) (fun w e => orderly libs (w e.1) e.2 = true)
      (fun _ => initial libs true) es u → ∀ k, SocketsReleased (u k) := by
  intro h
  have hs := h refusedAtOnce _ (run_of_admits (fun _ => initial libs true) refusedAtOnce
    (by decide +kernel)) 0
  exact absurd (hs.atMostOnce (.bev 1)) (by decide +kernel)

/-- A channel cannot be made for the accepted bufferevent. -/
example : frees (next libs (initial libs true) (.accept { tcpSocketNew := false })).socks (.bev 0) =
    0 := by decide +kernel

end Tigera.SocketRelease
