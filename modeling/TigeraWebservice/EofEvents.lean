import TigeraWebservice.CompletedRequests
import TigeraWebservice.PlainMessages

/-!
# Peers that close early

The end of a connection is noted in its channel and reaches the closing test,
which does nothing about a message under way: the client's own callback waits
for the state in which a response has been written, and the upstreams have set
no callback at all. So the session stays, whatever came before.
-/

set_option autoImplicit false

namespace Tigera.EofEvents
open ResourceLedger TransitionRuns Tigera.HttpReading Tigera.SessionWorld Tigera.SocketChannel
open Tigera.SessionProgram Tigera.SessionSystem Tigera.HeldConnections Tigera.SessionMemory
open Tigera.SessionInvariant Tigera.SessionHistory Tigera.SessionRuns Tigera.CompletedRequests
open Tigera.PlainMessages

variable {P : Type} {lib : Libs P} {w : World P} {n k h : ℕ} {idx : Slot} {events : BevEvents}

structure Unmoved (w w' : World P) : Prop where
  registered : w'.registered = w.registered
  session : w'.session = w.session
  http : w'.http = w.http
  chan : w'.chan = w.chan

def Heedless (h : ℕ) (w : World P) : Prop :=
  (w.http h).cbs.readyToClose = none ∨
    (w.http h).cbs.readyToClose = some .clientReadyToClose ∧ w.session.state ≠ .clientResponse

theorem shouldClose_unmoved (lib : Libs P) (c : Choices) (k : ℕ) (hw : Heedless h w) :
    Unmoved w (httpSessionChannelShouldClose lib c k h w).2 := by
  have hu : Unmoved w (onHttp h id (onChan k id w)) :=
    ⟨rfl, rfl, by simp [onHttp, onChan], by simp [onHttp, onChan]⟩
  have hcbs : ((onHttp h id (onChan k id w)).http h).cbs = (w.http h).cbs := by
    simp [onHttp, onChan]
  rw [httpSessionChannelShouldClose, hcbs]
  split
  · rcases hw with hno | ⟨hready, hs⟩
    · rw [hno]
      exact hu
    · have hs : (onHttp h id (onHttp h id (onChan k id w))).session.state ≠ .clientResponse := hs
      rw [hready]
      simp only [callBack, httpSessionCb, clientReadyToClose, onSession, id, hs, if_false]
      exact ⟨rfl, rfl, by simp [onHttp, onChan], by simp [onHttp, onChan]⟩
  · exact hu

/-- The end of the connection has been noted in channel `k`. -/
def ended (n k : ℕ) (events : BevEvents) (w : World P) : World P :=
  onChan k (fun s => { s with eof := s.eof || (ioEvent events).eof })
    (alterBev n (fun e => { e with connecting := e.connecting && !events.connected }) w)

theorem next_ended (c : Choices) (hcb : (w.bev n).cbarg = some k)
    (hctx : (w.chan k).ctx = some h) :
    next lib w (.eventCb n events c) =
      httpSessionEventCb lib c k h (ioEvent events) (ended n k events w) := by
  have hdeliver : ((alterBev n (fun e => { e with
      connecting := e.connecting && !events.connected }) w).bev n).cbarg = some k := by
    simpa [alterBev] using hcb
  have hservice : ((ended n k events w).chan k).ctx = some h := by
    simpa [ended, onChan, alterBev] using hctx
  simp only [next, deliver, hdeliver, tcpSocketEventCb]
  rw [ended] at hservice ⊢
  simp only [hservice]

theorem error_of_eof (heof : (ioEvent events).eof = true) : (ioEvent events).error = false := by
  simp only [ioEvent, Bool.and_eq_true, Bool.not_eq_true'] at heof ⊢
  exact heof.1.1

theorem next_unmoved (c : Choices) (hcb : (w.bev n).cbarg = some k)
    (hctx : (w.chan k).ctx = some h) (heof : (ioEvent events).eof = true)
    (hcon : (ioEvent events).connected = true → (w.http h).cbs.connected = none)
    (hw : Heedless h w) :
    Unmoved (ended n k events w) (next lib w (.eventCb n events c)) := by
  have hu : Unmoved (ended n k events w) (onHttp h id (ended n k events w)) :=
    ⟨rfl, rfl, by simp [onHttp], rfl⟩
  have hcbs : ((onHttp h id (ended n k events w)).http h).cbs = (w.http h).cbs := by
    simp [onHttp, ended, onChan, alterBev]
  have hw : Heedless h (onHttp h id (ended n k events w)) := by
    rw [Heedless, hcbs]
    exact hw
  rw [next_ended c hcb hctx, httpSessionEventCb, hcbs]
  simp only [error_of_eof heof, heof, if_true, Bool.false_eq_true, if_false]
  split
  · next hc =>
    rw [hcon hc]
    exact hu
  · have hs := shouldClose_unmoved lib c k hw
    exact ⟨hs.registered.trans hu.registered, hs.session.trans hu.session,
      hs.http.trans hu.http, hs.chan.trans hu.chan⟩

theorem ended_eof (heof : (ioEvent events).eof = true) :
    ((ended n k events w).chan k).eof = true := by
  simp [ended, onChan, heof]

/-- A registered session whose client has gone before its request was complete. -/
def Deserted (w : World P) : Prop :=
  w.registered = true ∧ (w.chan 0).eof = true ∧ (w.http 0).state ≠ .messageComplete

instance (w : World P) : Decidable (Deserted w) := inferInstanceAs (Decidable (_ ∧ _))

/-- The client is reported gone before its request is complete. -/
def deserts (w : World P) (e : Event) : Bool :=
  reportsEof w 0 e && (w.http 0).state ≠ .messageComplete

theorem deserted_next {e : Event} (h : Begun lib w) (he : enabled w e = true)
    (hd : Deserted (next lib w e)) : Deserted w ∨ deserts w e = true := by
  obtain ⟨hreg, heof, hs⟩ := hd
  rcases h with ⟨worker, rfl⟩ | hn
  · obtain ⟨c, rfl⟩ := enabled_initial he
    exact absurd (heof.symm.trans ((accept_fresh c worker).eof 0)) (by decide)
  · have hf := next_follows lib e he hn
    have hs : (w.http 0).state ≠ .messageComplete := fun hc => hs (hf.complete 0 hn hc)
    rcases (hf.eof 0 heof).1 with heof | hrep
    · exact .inl ⟨hf.registered hreg, heof, hs⟩
    · exact .inr (by simp [deserts, hrep, hs])

theorem deserts_next {C : World P → Event → Prop} {worker : Bool} {es : List Event} {e : Event}
    (hr : Run (system lib) C (initial lib worker) es w) (hreg : w.registered = true)
    (he : enabled w e = true) (hd : deserts w e = true) : Deserted (next lib w e) := by
  simp only [deserts, Bool.and_eq_true, decide_eq_true_eq] at hd
  obtain ⟨hrep, hs⟩ := hd
  cases e with
  | eventCb n events c =>
    simp only [reportsEof, Bool.and_eq_true, decide_eq_true_eq] at hrep
    obtain ⟨hcb, heof⟩ := hrep
    have hcr : w.crashed = false ∧ deliverable w n = true := by simpa [enabled] using he
    have hinv := run_unparsed hr hreg hs
    have hp := hinv.plan hreg hcr.1
    have hheld := hinv.memory.conns.held .client 0 hp.client
    have hcbs : (w.http 0).cbs = clientCallbacks := hheld.cbs
    have hstate : w.session.state ≠ .clientResponse := by
      rw [show w.session = started from (hp.quiet hs).1]
      decide
    have hu : Unmoved (ended n 0 events w) (next lib w (.eventCb n events c)) :=
      next_unmoved c hcb hheld.ctx heof (fun _ => by rw [hcbs]; rfl)
        (.inr ⟨by rw [hcbs]; rfl, hstate⟩)
    refine ⟨hu.registered.trans hreg, ?_, ?_⟩
    · rw [hu.chan]
      exact ended_eof heof
    · rw [hu.http]
      exact hs
  | _ => cases hrep

/-- A session is left without its client exactly by the event that reports the
client gone in the middle of its request: that event never removes it. -/
theorem client_eof_unnoticed (lib : Libs P) (worker : Bool) :
    (∀ es w, Run (system lib) (fun w e => deserts w e = false) (initial lib worker) es w →
      ¬ Deserted w) ∧
    ∀ es w e, Run (system lib) (fun _ _ => True) (initial lib worker) es w →
      w.registered = true → enabled w e = true → deserts w e = true →
        Deserted (next lib w e) := by
  refine ⟨?_, fun es w e hr hreg he hd => deserts_next hr hreg he hd⟩
  intro es w hr
  have hrun : Begun lib w ∧ ¬ Deserted w := by
    refine run_invariant (I := fun w => Begun lib w ∧ ¬ Deserted w) ?_ hr
      ⟨.inl ⟨worker, rfl⟩, fun hd => by cases hd.1⟩
    rintro w e ⟨hb, hw⟩ he hc
    refine ⟨.inr (next_begun e hb he), ?_⟩
    intro hd
    rcases deserted_next hb he hd with hd | hd
    · exact hw hd
    · rw [hc] at hd
      cases hd
  exact hrun.2

def closedByPeer : BevEvents := { reading := true, eof := true }

theorem client_eof_unnoticed_accepted :
    ¬ Deserted (exchange.foldl (next libs) (initial libs true)) ∧
    Deserted (next libs ([Event.accept {}].foldl (next libs) (initial libs true))
      (.eventCb 0 closedByPeer {})) :=
  ⟨(client_eof_unnoticed libs true).1 _ _
      (run_of_admits (initial libs true) exchange (by decide +kernel)),
    (client_eof_unnoticed libs true).2 _ _ _
      (run_of_admits (initial libs true) [Event.accept {}] (by decide +kernel))
      (by decide +kernel) (by decide +kernel) (by decide +kernel)⟩

def leftEarly : List Event := [.accept {}, .eventCb 0 closedByPeer {}]

theorem deserted_reached : ¬ ∀ (es : List Event) (w : World Core),
    Run (system libs) (fun _ _ => True) (initial libs true) es w → ¬ Deserted w := by
  intro h
  apply h leftEarly _ (run_of_admits (initial libs true) leftEarly (by decide +kernel))
  decide +kernel

end Tigera.EofEvents
