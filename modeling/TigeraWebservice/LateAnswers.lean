import TigeraWebservice.CompletedRequests
import TigeraWebservice.PlainMessages

/-!
# Late answers

A session with one request may be released at any moment, with any of its
lookups still to be answered. The reference block tells every later answer
that the session is gone and is released by whoever comes last.
-/

set_option autoImplicit false

namespace Tigera.LateAnswers
open ResourceLedger TransitionRuns Tigera.SessionWorld Tigera.SocketChannel
open Tigera.SessionProgram Tigera.SessionSystem Tigera.HeldConnections Tigera.HeldReferences
open Tigera.SessionMemory Tigera.SessionInvariant Tigera.SessionRuns Tigera.CompletedRequests
open Tigera.PlainMessages

variable {P : Type} {lib : Libs P} {w : World P} {tidy once : Prop} {v : Lookups} {k r : ℕ}

/-- The answers to come, the requests and the block agree with the life of the
session. -/
structure Settling (w : World P) : Prop where
  session : ∀ l ∈ w.resolving,
    (referenceGet (w.request l.request).session w).1 = true ↔ status w.life () = .live
  requests : ∀ r, .alloc (.dnsRequest r) ∈ w.dns →
    frees w.dns (.dnsRequest r) = if (lookupOf w r).isSome then 0 else 1
  block : ∀ k, .alloc (.reference k) ∈ w.dns →
    frees w.dns (.reference k) = if status w.life () = .live ∨ w.resolving ≠ [] then 0 else 1
  untouched : Untouched w.dns

theorem live_iff_registered (h : Memory tidy w) (hcr : w.crashed = false) :
    status w.life () = .live ↔ w.registered = true := by
  refine ⟨?_, h.alive⟩
  intro hl
  by_contra hreg
  exact h.released (by simpa using hreg) hcr hl

theorem session_of_pending (h : DnsOk once (lookups w)) {l : Lookup} (hl : l ∈ w.resolving) :
    (referenceGet (w.request l.request).session w).1 = true ↔ w.registered = true := by
  obtain ⟨k, ha, -⟩ := anchored_of_pending h hl
  have hs : (w.request l.request).session = some k := ha.requests l hl
  have hb : w.reference k = anchor w.registered w.resolving.length := ha.block
  rw [hs, referenceGet_some, hb, anchor]
  cases w.registered <;> simp

theorem live_request_iff (h : DnsOk once v) :
    status v.dns (.dnsRequest r) = .live ↔ ∃ l ∈ v.resolving, l.request = r := by
  refine ⟨h.requests r, ?_⟩
  rintro ⟨l, hl, rfl⟩
  exact h.pending l hl

theorem lookupOf_isSome : (lookupOf w r).isSome = true ↔ ∃ l ∈ w.resolving, l.request = r := by
  simp [lookupOf, List.find?_isSome]

/-- With one request, a block that has been made is the only one, held until
the session and the last lookup are gone. -/
theorem live_block_iff (h : DnsOk once v) (ho : once) (hk : status v.dns (.reference k) ≠ .fresh) :
    status v.dns (.reference k) = .live ↔ v.registered = true ∨ v.resolving ≠ [] := by
  have hlt : k < v.nextReference := by
    by_contra hle
    exact hk (h.freshReference k (by omega))
  have hsingle := h.single ho
  have hlive : ∀ j, Anchored v j → status v.dns (.reference k) = .live := by
    intro j hj
    have hjlt := lt_of_live h hj.live
    obtain rfl : k = j := by omega
    exact hj.live
  cases h.placed with
  | unneeded me resolving =>
    obtain ⟨hreg, hfreed⟩ := h.settled ho me resolving k hlt
    simp [hfreed, hreg, resolving]
  | held j me registered anchored => simp [hlive j anchored, registered]
  | left j me registered resolving anchored => simp [hlive j anchored, resolving]

theorem settling_of_memory (h : Memory tidy w) (ho : Once w) (hcr : w.crashed = false) :
    Settling w := by
  have hd := h.dns
  have hs : Sound w.dns := hd.sound
  have hlife := live_iff_registered h hcr
  constructor
  · intro l hl
    rw [hlife]
    exact session_of_pending hd hl
  · intro r hr
    have hlive : status w.dns (.dnsRequest r) = .live ↔ (lookupOf w r).isSome = true :=
      (live_request_iff hd).trans lookupOf_isSome.symm
    rw [frees_of_made hs hr]
    exact if_congr hlive rfl rfl
  · intro k hk
    have hlive : status w.dns (.reference k) = .live ↔ w.registered = true ∨ w.resolving ≠ [] :=
      live_block_iff hd ho (status_of_alloc_mem w.dns hs _ hk)
    rw [frees_of_made hs hk]
    exact if_congr (hlive.trans (or_congr_left hlife.symm)) rfl rfl
  · exact untouched_of_sound w.dns hs

/-- Whoever comes last, the session or a lookup, releases the block, and no
answer finds a session that has been released. -/
theorem late_answers_harmless {worker : Bool} {es : List Event}
    (h : Run (system lib) (fun w e => answersLater lib w e = true) (initial lib worker) es w)
    (hone : w.calls.count .clientMsgComplete = 1) : Settling w := by
  have ho : Once w := Nat.le_of_eq hone
  have hr : Reached lib False w := run_once h (fun _ _ hc => hc) (fun _ _ _ => False.elim) ho
  rcases hr with ⟨worker, rfl⟩ | hr
  · cases hone
  · have hcall : .clientMsgComplete ∈ w.calls :=
      List.count_pos_iff.mp (hone ▸ Nat.one_pos)
    exact settling_of_memory hr.memory ho (hr.steady (.inr hcall) ho)

def shutDown : List Event :=
  [.accept {}, .arrive 0 clientRequest, .readCb 0 {}, .fini, .dnsCb 1 .error {}, .dnsCb 0 .error {}]

theorem late_answers_shutDown : Settling (shutDown.foldl (next libs) (initial libs true)) :=
  late_answers_harmless (run_of_admits (initial libs true) shutDown (by decide +kernel))
    (by decide +kernel)

end Tigera.LateAnswers
