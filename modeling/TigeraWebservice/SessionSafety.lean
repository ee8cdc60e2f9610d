import TigeraWebservice.PlainMessages
import TigeraWebservice.SessionRuns

/-!
# Nothing is used after its release

The ledgers of the session, of its connections and of its DNS requests are
sound in every orderly run, so no step of any function reaches an object that
has been released. A lookup answered inside `evdns_getaddrinfo` ends this:
the callers of the lookup go on with a request, and possibly with a session,
that the answer has released.
-/

set_option autoImplicit false

namespace Tigera.SessionSafety
open ResourceLedger TransitionRuns Tigera.SessionWorld Tigera.SocketChannel
open Tigera.SessionProgram Tigera.SessionSystem Tigera.HeldConnections Tigera.HeldReferences
open Tigera.SessionMemory Tigera.SessionInvariant Tigera.SessionRuns Tigera.PlainMessages

variable {P : Type} {lib : Libs P} {w : World P}

/-- The session is removed once at most, and nothing of it is accessed after
its release, whoever is still on the stack. -/
structure Safe (w : World P) : Prop where
  removes : w.calls.count .sessionRemove ≤ 1
  session : Untouched w.life
  connections : Untouched w.conns
  requests : Untouched w.dns

theorem safe_initial (lib : Libs P) (worker : Bool) : Safe (initial lib worker) :=
  ⟨Nat.zero_le 1, trivial, trivial, trivial⟩

theorem safe_of_memory {tidy : Prop} (h : Memory tidy w) : Safe w where
  removes := by
    have hle := h.removes
    split at hle <;> omega
  session := untouched_of_sound w.life h.life
  connections := untouched_of_sound w.conns h.conns.sound
  requests := untouched_of_sound w.dns h.dns.sound

theorem safe_of_reached {tidy : Prop} (h : Reached lib tidy w) : Safe w := by
  rcases h with ⟨worker, rfl⟩ | h
  · exact safe_initial lib worker
  · exact safe_of_memory h.memory

/-- In orderly runs nothing is used after its release. -/
theorem session_unused_after_removal {worker : Bool} {es : List Event}
    (h : Run (system lib) (fun w e => orderly lib w e = true) (initial lib worker) es w) :
    Safe w := by
  have hs : Run (system lib) (Steadily lib False) (initial lib worker) es w :=
    run_weaken (fun _ _ ho => ⟨ho, False.elim⟩) h
  exact safe_of_reached (run_reached hs)

theorem session_unused_after_exchange :
    Safe (exchange.foldl (next libs) (initial libs true)) :=
  session_unused_after_removal (run_of_admits (initial libs true) exchange (by decide +kernel))

/-- The first lookup fails before `evdns_getaddrinfo` returns. -/
def failsInside : List Event :=
  [.accept {}, .arrive 0 clientRequest, .readCb 0 { nameRequest := { inside := some .error } }]

theorem session_used_after_removal : ¬ ∀ (es : List Event) (w : World Core),
    Run (system libs) (fun _ _ => True) (initial libs true) es w → Safe w := by
  intro h
  have hs := h failsInside _ (run_of_admits (initial libs true) failsInside (by decide +kernel))
  exact absurd hs.session (by decide +kernel)

end Tigera.SessionSafety
