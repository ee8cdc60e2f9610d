import TigeraWebservice.CompletedRequests
import TigeraWebservice.PlainMessages

/-!
# One request, one response

As long as the client's request is not completed again, the session writes one
response at most, never without its three strings, and stays with it until it
is removed. The request is completed again when bytes arrive behind it while
the response is still queued.
-/

set_option autoImplicit false

namespace Tigera.OneResponse
open ResourceLedger TransitionRuns Tigera.SessionWorld Tigera.SocketChannel
open Tigera.SessionProgram Tigera.SessionSystem Tigera.HeldConnections Tigera.SessionMemory
open Tigera.SessionInvariant Tigera.SessionRuns Tigera.CompletedRequests Tigera.PlainMessages

variable {P : Type} {lib : Libs P} {v w : World P}

/-- The lookups are answered later and nothing completes the client's request
once more. -/
def CompletesOnce (lib : Libs P) (w : World P) (e : Event) : Prop :=
  answersLater lib w e = true ∧ completesAgain w e = false

instance (w : World P) (e : Event) : Decidable (CompletesOnce lib w e) :=
  inferInstanceAs (Decidable (_ ∧ _))

theorem orderly_of_completesOnce {e : Event} (h : CompletesOnce lib w e) :
    orderly lib w e = true := by
  simp [orderly, h.1, h.2]

theorem next_completesOnce {e : Event} (h : Reached lib False w ∧ Once w)
    (he : enabled w e = true) (hc : CompletesOnce lib w e) :
    Reached lib False (next lib w e) ∧ Once (next lib w e) :=
  ⟨.inr (next_reached e h.1 he (orderly_of_completesOnce hc) False.elim),
    next_once h.1 he hc.2 h.2⟩

theorem run_completesOnce {es : List Event} (h : Run (system lib) (CompletesOnce lib) v es w)
    (hv : Reached lib False v ∧ Once v) : Reached lib False w ∧ Once w :=
  run_invariant (I := fun w => Reached lib False w ∧ Once w)
    (fun _ _ hs he hc => next_completesOnce hs he hc) h hv

theorem tally_of_reached (h : Reached lib False w) (ho : Once w) : Tally w.calls := by
  rcases h with ⟨worker, rfl⟩ | h
  · exact ⟨Nat.zero_le 1, List.not_mem_nil⟩
  · exact h.tally ho

theorem written_of_responding (h : Inv lib False .client w) (ho : Once w)
    (hreg : w.registered = true) (hs : w.session.state = .clientResponse) :
    w.calls.count .httpResponseWrite = 1 := by
  rcases (h.progress hreg ho).response with ha | ⟨hu, -⟩
  · exact ha.written
  · exact absurd hs hu.state

theorem responding_of_written (h : Inv lib False .client w) (ho : Once w)
    (hreg : w.registered = true) (hw : 0 < w.calls.count .httpResponseWrite) :
    w.session.state = .clientResponse := by
  rcases (h.progress hreg ho).response with ha | ⟨hu, -⟩
  · exact ha.state
  · have hnone : w.calls.count .httpResponseWrite = 0 := hu.written
    omega

theorem responding_persists {es : List Event} (h : Run (system lib) (CompletesOnce lib) v es w)
    (hv : Reached lib False v ∧ Once v) (hs : v.session.state = .clientResponse)
    (hreg : w.registered = true) : w.session.state = .clientResponse := by
  obtain ⟨hw, ho⟩ := run_completesOnce h hv
  obtain ⟨⟨worker, rfl⟩ | hv, hov⟩ := hv
  · cases hs
  · have hl := run_later h hv.memory.begun
    have hle := hl.calls.sublist.count_le (a := .httpResponseWrite)
    have hone := written_of_responding hv hov (hl.registered hreg) hs
    rcases hw with ⟨worker, rfl⟩ | hw
    · cases hreg
    · apply responding_of_written hw ho hreg
      omega

/-- Up to the state `w`, which is followed by `v`. -/
structure Answers (w v : World P) : Prop where
  requests : w.calls.count .clientMsgComplete ≤ 1
  responses : w.calls.count .httpResponseWrite ≤ 1
  strings : .clientResponseCreate false ∉ w.calls
  final : w.session.state = .clientResponse → v.registered = true →
    v.session.state = .clientResponse

/-- A request completed once is answered once. -/
theorem one_response {worker : Bool} {es fs : List Event}
    (h : Run (system lib) (CompletesOnce lib) (initial lib worker) es w)
    (h' : Run (system lib) (CompletesOnce lib) w fs v) : Answers w v := by
  have hw := run_completesOnce h ⟨.inl ⟨worker, rfl⟩, Nat.zero_le 1⟩
  obtain ⟨hresponses, hstrings⟩ := tally_of_reached hw.1 hw.2
  exact ⟨hw.2, hresponses, hstrings, responding_persists h' hw⟩

theorem one_response_exchange : Answers (exchange.foldl (next libs) (initial libs true))
    ([Event.flush 0 200].foldl (next libs) (exchange.foldl (next libs) (initial libs true))) :=
  one_response (run_of_admits (initial libs true) exchange (by decide +kernel))
    (run_of_admits (exchange.foldl (next libs) (initial libs true)) [Event.flush 0 200]
      (by decide +kernel))

def pipelined : List Event := exchange ++ [.arrive 0 clientRequest, .readCb 0 {}]

theorem second_request_completed : ¬ ∀ (es fs : List Event) (w v : World Core),
    Run (system libs) (fun w e => answersLater libs w e = true) (initial libs true) es w →
    Run (system libs) (fun w e => answersLater libs w e = true) w fs v → Answers w v := by
  intro h
  have ha := h pipelined [] _ _
    (run_of_admits (initial libs true) pipelined (by decide +kernel)) (.nil _)
  exact absurd ha.requests (by decide +kernel)

end Tigera.OneResponse
