import TigeraWebservice.SessionHistory
import TigeraWebservice.SessionRuns

/-!
# How often the client's request is completed

One event completes the request, and it is on record from then on. So a run
that has completed it once at most, or not yet, has been in order throughout.
-/

set_option autoImplicit false

namespace Tigera.CompletedRequests
open ResourceLedger TransitionRuns Tigera.HttpReading Tigera.SessionWorld Tigera.SocketChannel
open Tigera.SessionProgram Tigera.SessionSystem Tigera.SessionHistory Tigera.HeldConnections
open Tigera.SessionMemory Tigera.SessionInvariant Tigera.ClientRequest Tigera.ChannelCallbacks
open Tigera.SessionRuns

variable {P : Type} {lib : Libs P} {tidy : Prop} {w : World P} {i : Slot} {n : ℕ}

def Begun (lib : Libs P) (w : World P) : Prop :=
  (∃ worker, w = initial lib worker) ∨ 0 < w.nextConn

theorem accept_begun (c : AcceptChoices) (worker : Bool) :
    0 < (tcpSocketAcceptCb lib c (initial lib worker)).nextConn := by
  have h : Inv lib False .client (tcpSocketAcceptCb lib c (initial lib worker)) :=
    inv_accept c worker False.elim
  exact h.memory.begun

theorem next_follows (lib : Libs P) (e : Event) (he : enabled w e = true) (hn : 0 < w.nextConn) :
    Follows w e (next lib w e) := by
  apply follows_next lib e w
  rintro c rfl
  have h0 : w.crashed = false ∧ w.nextConn = 0 := by simpa [enabled] using he
  omega

theorem next_later (lib : Libs P) (e : Event) (he : enabled w e = true) (hn : 0 < w.nextConn) :
    Later w (next lib w e) :=
  (next_follows lib e he hn).toLater

theorem next_begun (e : Event) (h : Begun lib w) (he : enabled w e = true) :
    0 < (next lib w e).nextConn := by
  rcases h with ⟨worker, rfl⟩ | hn
  · obtain ⟨c, rfl⟩ := enabled_initial he
    exact accept_begun c worker
  · have := (next_later lib e he hn).next
    omega

theorem begun_of_reached (h : Reached lib tidy w) : Begun lib w :=
  h.imp id fun h => h.memory.begun

theorem next_calls (e : Event) (h : Begun lib w) (he : enabled w e = true) :
    w.calls <:+ (next lib w e).calls := by
  rcases h with ⟨worker, rfl⟩ | hn
  · exact List.nil_suffix
  · exact (next_later lib e he hn).calls

theorem run_later {C : World P → Event → Prop} {v : World P} {es : List Event}
    (h : Run (system lib) C v es w) (hn : 0 < v.nextConn) : Later v w := by
  induction h with
  | nil v => exact later_refl v
  | @cons v u e es admitted condition rest ih =>
    have hl : Later v (next lib v e) := next_later lib e admitted hn
    have hle := hl.next
    exact later_trans hl (ih (by show 0 < (next lib v e).nextConn; omega))

theorem completes_next {c : Choices} (h : Inv lib tidy .client w)
    (he : enabled w (.readCb n c) = true) (hc : completes lib c n w = true) :
    (next lib w (.readCb n c)).calls.count .clientMsgComplete =
        w.calls.count .clientMsgComplete + 1 ∧
      ((next lib w (.readCb n c)).http 0).state = .messageComplete := by
  have hcr : w.crashed = false ∧ deliverable w n = true := by simpa [enabled] using he
  obtain ⟨hreg, -⟩ := held_of_deliverable h hcr.1 hcr.2
  simp only [completes, Bool.and_eq_true, Bool.not_eq_true', decide_eq_true_eq] at hc
  obtain ⟨⟨hi, hcl⟩, hexit⟩ := hc
  have hp := h.plan hreg hcr.1
  obtain rfl : n = 0 := Option.some.inj (hi.symm.trans hp.client)
  have hu := inv_onChan h hi id rfl rfl rfl
  have hheld := hu.memory.conns.held .client 0 hi
  have hcbs : ((onChan 0 id w).http 0).cbs = clientCallbacks := hheld.cbs
  have hsame : closes 0 (onChan 0 id w) = closes 0 w ∧
      reads lib c 0 (onChan 0 id w) = reads lib c 0 w := by
    rw [onChan, id, Function.update_eq_self]
    exact ⟨rfl, rfl⟩
  have hframe := reads_framed lib c 0 w
  have hstate : (reads lib c 0 w).2.1.state = .messageComplete := by
    by_cases hs : (w.http 0).state = .messageComplete
    · exact httpSessionRead_complete _ c.read (w.http 0) (w.bev 0).input hs
    · rcases reads_incomplete lib c (hp.readable .client 0 hi) hs with hr | hr | hr
      · rw [hr.1] at hexit
        cases hexit
      · exact hr.2.1
      · rw [hr] at hexit
        cases hexit
  have hcb : (reads lib c 0 w).2.1.cbs.messageComplete = some .clientMsgComplete := by
    rw [hframe.2, show (w.http 0).cbs = clientCallbacks from hcbs]
    rfl
  rw [next, deliver_held (h.memory.conns.held .client 0 hi), tcpSocketReadCb,
    service_held (h.memory.conns.held .client 0 hi), httpSessionReadCb_eq c hheld, hsame.1, hsame.2,
    hcl, if_neg (by decide)]
  have ht := inv_touched hu hi
  have hb : ((touched 0 (onChan 0 id w)).chan 0).bev = some 0 := (ht.memory.conns.held .client 0 hi).bev
  generalize reads lib c 0 w = r at hexit hstate hcb ⊢
  obtain ⟨exit, s, input⟩ := r
  simp only at hexit hstate hcb ⊢
  subst hexit
  obtain ⟨hr, hh, -, hn⟩ := stored_fields s input hb
  simp only [finished]
  rw [hcb]
  have hl := aside_clientMsgComplete lib c 0 (stored 0 s input (touched 0 (onChan 0 id w)))
  refine ⟨?_, ?_⟩
  · have hcalls : (stored 0 s input (touched 0 (onChan 0 id w))).calls = w.calls :=
      congrArg Rest.calls hr
    rw [← hcalls]
    exact hl.requests.trans List.count_cons_self
  · apply hl.complete 0
    · show 0 < (stored 0 s input (touched 0 (onChan 0 id w))).nextConn
      rw [hn]
      exact h.memory.begun
    · simp [call, onHttp, hh, hstate]

theorem aside_readyToClose (c : Choices) (h : Held tidy (wires w) i n) {u : World P}
    (hu : Aside w u) : Aside w (callBack lib c n (w.http n).cbs.readyToClose u) := by
  have hcbs : (w.http n).cbs = slotCallbacks i := h.cbs
  rw [hcbs]
  cases i with
  | client => exact aside_clientReadyToClose (aside_touch n hu)
  | name => exact hu
  | joke => exact hu

theorem aside_shouldClose (c : Choices) (h : Held tidy (wires w) i n) :
    Aside w (httpSessionChannelShouldClose lib c n n w).2 := by
  have hu : Aside w (touched n w) := aside_touch n (aside_onChan n id (aside_refl w) rfl rfl)
  rw [httpSessionChannelShouldClose_eq]
  split
  · exact aside_readyToClose c h hu
  · exact hu

theorem aside_eventCb (c : Choices) (event : IoChannelEvent) (h : Held tidy (wires w) i n) :
    Aside w (httpSessionEventCb lib c n n event w) := by
  have hu : Aside w (onHttp n id w) := aside_touch n (aside_refl w)
  have hh : Held tidy (wires (onHttp n id w)) i n := by
    exact { h with
      channel := by simpa [wires, onHttp] using h.channel
      cbs := by simpa [wires, onHttp] using h.cbs
      http := h.http }
  have hcbs : ((onHttp n id w).http n).cbs = slotCallbacks i := hh.cbs
  rw [httpSessionEventCb]
  split
  · exact aside_remove hu
  · split
    · rw [hcbs]
      cases i with
      | client => exact hu
      | name => exact aside_httpRequest _ c n hu
      | joke => exact aside_httpRequest _ c n hu
    · split
      · exact aside_trans hu (aside_shouldClose c hh)
      · split
        · exact aside_remove hu
        · exact hu

theorem aside_readCb (c : Choices) (h : Held tidy (wires w) i n)
    (hi : w.session.httpSessions i = some n) (hc : completes lib c n w = false) :
    Aside w (httpSessionReadCb lib c n n w) := by
  have hu : Aside w (touched n w) := aside_touch n (aside_onChan n id (aside_refl w) rfl rfl)
  obtain ⟨hh, -, -⟩ := touched_fields n w
  have hcbs : (w.http n).cbs = slotCallbacks i := h.cbs
  rw [httpSessionReadCb_eq c h]
  by_cases hcl : closes n w = true
  · rw [if_pos hcl]
    exact aside_readyToClose c h hu
  · rw [if_neg hcl]
    have hframe := reads_framed lib c n w
    have hstate : (w.http n).state = .messageComplete →
        (reads lib c n w).2.1.state = .messageComplete := by
      intro hs
      exact httpSessionRead_complete _ c.read (w.http n) (w.bev n).input hs
    have hexit : i = .client → (reads lib c n w).1 ≠ .messageComplete := by
      rintro rfl he
      simp [completes, hi, hcl, he] at hc
    generalize reads lib c n w = r at hframe hstate hexit ⊢
    obtain ⟨exit, s, input⟩ := r
    have hst : Aside w (stored n s input (touched n w)) := by
      apply aside_onChannelBev
      apply aside_onHttp n _ hu
      · rw [hh]
        exact hstate
      · rw [hh]
        intro hc
        rw [hframe.2]
        exact hc
    cases exit with
    | returned => exact hst
    | messageComplete =>
      simp only [finished]
      rw [hframe.2, hcbs]
      cases i with
      | client => exact absurd rfl (hexit rfl)
      | name => exact aside_httpResponse lib .name c n hst
      | joke => exact aside_httpResponse lib .joke c n hst
    | failed => exact aside_remove hst
    | diverged => exact aside_crash hst

def completing (lib : Libs P) (w : World P) : Event → Bool
  | .readCb n c => completes lib c n w
  | _ => false

theorem requests_next {e : Event} (h : Inv lib tidy .client w) (he : enabled w e = true)
    (hc : completing lib w e = false) :
    (next lib w e).calls.count .clientMsgComplete = w.calls.count .clientMsgComplete := by
  have hcr : w.crashed = false := by
    cases e <;> simp_all [enabled]
  have hdeliver : ∀ n, enabled w e = deliverable w n →
      ∃ i, w.session.httpSessions i = some n := by
    intro n hn
    exact (held_of_deliverable h hcr (hn ▸ he)).2
  have hr := aside_refl w
  cases e with
  | accept c =>
    have hn : w.nextConn = 0 := by simpa [enabled, hcr] using he
    have := h.memory.begun
    omega
  | arrive n data => rfl
  | flush n k => rfl
  | readCb n c =>
    obtain ⟨i, hi⟩ := hdeliver n (by simp [enabled, hcr])
    have hu := inv_onChan h hi id rfl rfl rfl
    have hsame : completes lib c n (onChan n id w) = completes lib c n w := by
      rw [onChan, id, Function.update_eq_self]
      rfl
    rw [next, deliver_held (h.memory.conns.held i n hi), tcpSocketReadCb,
      service_held (h.memory.conns.held i n hi)]
    have ha := aside_readCb c (hu.memory.conns.held i n hi) hi (hsame.trans hc)
    exact ha.requests
  | writeCb n c =>
    obtain ⟨i, hi⟩ := hdeliver n (by simp [enabled, hcr])
    have hu := inv_onChan h hi id rfl rfl rfl
    rw [next, deliver_held (h.memory.conns.held i n hi), tcpSocketWriteCb,
      service_held (h.memory.conns.held i n hi)]
    exact (aside_shouldClose c (hu.memory.conns.held i n hi)).requests
  | eventCb n events c =>
    obtain ⟨i, hi⟩ := hdeliver n (by simp [enabled, hcr])
    have h1 := inv_alterBev h hi (fun e => { e with connecting := e.connecting && !events.connected })
      rfl rfl [] (List.append_nil _).symm
    have h2 := inv_onChan h1 hi (fun s => { s with eof := s.eof || (ioEvent events).eof }) rfl rfl rfl
    rw [next, deliver_held (h1.memory.conns.held i n hi),
      tcpSocketEventCb_held c events (h1.memory.conns.held i n hi)]
    exact (aside_eventCb c (ioEvent events) (h2.memory.conns.held i n hi)).requests
  | dnsCb r a c =>
    rw [next]
    split
    · apply Aside.requests
      apply aside_dnsnameResolvedCb
      apply aside_handOver
      exact aside_of_marks hr rfl
    · rfl
  | fini => exact (aside_httpServiceFini hr).requests

theorem not_orderly {e : Event} (h : Inv lib tidy .client w) (he : enabled w e = true)
    (ho : orderly lib w e = false) :
    (next lib w e).calls.count .clientMsgComplete = w.calls.count .clientMsgComplete + 1 ∧
      ((next lib w e).http 0).state = .messageComplete := by
  cases e with
  | readCb n c =>
    apply completes_next h he
    by_contra hno
    have hno : completes lib c n w = false := by simpa using hno
    have hre : reenters c n w = false := by
      by_contra hre
      rw [((reenters_iff lib c n w).mp (by simpa using hre)).1] at hno
      cases hno
    simp [orderly, answersLater, completesAgain, hno, hre] at ho
  | _ => simp [orderly, answersLater, completesAgain] at ho

theorem completesAgain_served {e : Event} (h : Inv lib tidy .client w)
    (he : enabled w e = true) (hc : completesAgain w e = true) :
    0 < w.calls.count .clientMsgComplete ∧ (next lib w e).calls.count .clientMsgComplete =
      w.calls.count .clientMsgComplete + 1 := by
  cases e with
  | readCb n c =>
    have hcr : w.crashed = false ∧ deliverable w n = true := by simpa [enabled] using he
    obtain ⟨hreg, -⟩ := held_of_deliverable h hcr.1 hcr.2
    have hp := h.plan hreg hcr.1
    obtain ⟨hcomp, hs⟩ := (reenters_iff lib c n w).mp hc
    refine ⟨?_, (completes_next h he hcomp).1⟩
    simp only [completes, Bool.and_eq_true, decide_eq_true_eq] at hcomp
    obtain rfl : n = 0 := Option.some.inj (hcomp.1.1.symm.trans hp.client)
    exact List.count_pos_iff.mpr (hp.served hs)
  | _ => cases hc

structure Numbered (w : World P) : Prop where
  slots : ∀ i m, i ≠ .client → w.session.httpSessions i = some m → 0 < m
  heedless : ∀ m, 0 < m → (w.http m).cbs.readyToClose = none
  ctx : ∀ k m, (w.chan k).ctx = some m → m = k ∧ k < w.nextConn

theorem numbered_later {u : World P} (h : Numbered u) (hn : 0 < u.nextConn) (hl : Later u w) :
    Numbered w where
  slots := by
    intro i m hi hm
    rcases hl.slots i m hm with hm | hle
    · exact h.slots i m hi hm
    · omega
  heedless := fun m hm => hl.heedless m (h.heedless m hm)
  ctx := by
    intro k m hk
    have hle := hl.next
    rcases hl.ctx k m hk with hk | hk
    · obtain ⟨rfl, hlt⟩ := h.ctx k m hk
      exact ⟨rfl, hlt.trans_le hle⟩
    · exact hk

structure Fresh (w : World P) : Prop extends Numbered w where
  calls : w.calls = []
  eof : ∀ k, (w.chan k).eof = false

theorem fresh_aside {u : World P} (h : Fresh u) (hn : 0 < u.nextConn) (ha : Aside u w)
    (hc : w.calls = []) : Fresh w := by
  refine ⟨numbered_later h.toNumbered hn ha.toLater, hc, ?_⟩
  intro k
  by_contra hk
  have hu := (ha.eof k (by simpa using hk)).1
  rw [h.eof k] at hu
  cases hu

theorem fresh_channel (s : TcpSocket) (hslots : ∀ i, i ≠ .client → w.session.httpSessions i = none)
    (hhttp : ∀ m, 0 < m → (w.http m).cbs.readyToClose = none)
    (hchan : w.chan = Function.update (fun _ => {}) 0 s) (heof : s.eof = false)
    (hctx : s.ctx = none ∨ s.ctx = some 0) (hn : w.nextConn = 1) (hc : w.calls = []) : Fresh w := by
  refine ⟨⟨?_, ?_, ?_⟩, hc, ?_⟩
  · intro i m hi hm
    rw [hslots i hi] at hm
    cases hm
  · exact hhttp
  · intro k m hk
    by_cases h0 : k = 0
    · subst h0
      rw [hchan, Function.update_self] at hk
      rcases hctx with hno | h0
      · rw [hno] at hk
        cases hk
      · rw [h0] at hk
        cases hk
        exact ⟨rfl, by omega⟩
    · rw [hchan, Function.update_of_ne h0] at hk
      cases hk
  · intro k
    rw [hchan]
    by_cases h0 : k = 0
    · subst h0
      rw [Function.update_self, heof]
    · rw [Function.update_of_ne h0]

theorem fresh_accepted (ok : Bool) : Fresh (accepted lib ok) := by
  refine fresh_channel { bev := some 0, ctx := some 0 } ?_ ?_ rfl rfl (.inr rfl) rfl rfl
  · intro i hi
    cases i with
    | client => exact absurd rfl hi
    | name => rfl
    | joke => rfl
  · intro m hm
    have hm : m ≠ 0 := by omega
    simp [accepted, opened, initial, httpSessionInit, hm]

theorem accept_fresh (c : AcceptChoices) (worker : Bool) :
    Fresh (tcpSocketAcceptCb lib c (initial lib worker)) := by
  have hnone : ∀ v : World P, v.chan = (fun _ => {}) → v.nextConn = 1 → v.calls = [] →
      v.session.httpSessions = (fun _ => none) → v.http = (initial lib worker).http → Fresh v := by
    intro v hv hn hc hs hh
    refine fresh_channel {} (fun i _ => by rw [hs]) (fun m _ => by rw [hh]; rfl) ?_ rfl (.inl rfl)
      hn hc
    rw [hv]
    exact (Function.update_eq_self 0 (fun _ : ℕ => ({} : TcpSocket))).symm
  have howning : Fresh (owning lib) :=
    fresh_channel { bev := some 0 } (fun _ _ => rfl) (fun _ _ => rfl) rfl rfl (.inl rfl) rfl rfl
  have hone : 0 < (owning lib).nextConn := Nat.one_pos
  have ha := aside_refl (owning lib)
  cases hearly : c.family && c.getsockname && c.getBase && c.buffereventSocketNew with
  | false =>
    rw [tcpSocketAcceptCb_early c worker hearly]
    exact hnone _ rfl rfl rfl rfl rfl
  | true =>
    rw [tcpSocketAcceptCb_late c worker hearly, httpServiceAcceptCb]
    cases worker with
    | false => exact hnone _ rfl rfl rfl rfl rfl
    | true =>
      cases hnew : c.tcpSocketNew with
      | false =>
        simp only [tcpSocketAccept, hnew]
        exact hnone _ rfl rfl rfl rfl rfl
      | true =>
        rw [tcpSocketAccept_owning c hnew]
        cases henable : c.buffereventEnable with
        | false =>
          refine fresh_aside howning hone ?_ rfl
          apply aside_tcpSocketFree
          exact aside_onChan 0 (fun s => { s with bev := none }) (aside_buffereventFree 0 ha) rfl rfl
        | true =>
          cases h1 : c.sessionNew with
          | false =>
            simp only [sessionNew, h1]
            exact fresh_aside howning hone (aside_tcpSocketFree 0 ha) rfl
          | true =>
            cases h2 : c.httpSessionNew with
            | false =>
              simp only [sessionNew, h1, h2, httpSessionNew]
              refine fresh_aside howning hone ?_ rfl
              apply aside_tcpSocketFree
              apply aside_sessionFree
              exact aside_of_marks ha rfl
            | true =>
              simp only [if_true, sessionNew_opened c h1 h2]
              cases hn : c.nodeNew with
              | false => exact fresh_accepted false
              | true => exact fresh_accepted true

theorem next_once {e : Event} (h : Reached lib tidy w) (he : enabled w e = true)
    (hc : completesAgain w e = false) (ho : Once w) : Once (next lib w e) := by
  rcases h with ⟨worker, rfl⟩ | h
  · obtain ⟨c, rfl⟩ := enabled_initial he
    rw [Once, next, (accept_fresh c worker).calls]
    exact Nat.zero_le 1
  · cases hcomp : completing lib w e with
    | false =>
      rw [Once, requests_next h he hcomp]
      exact ho
    | true =>
      cases e with
      | readCb n c =>
        have hcr : w.crashed = false ∧ deliverable w n = true := by simpa [enabled] using he
        obtain ⟨hreg, -⟩ := held_of_deliverable h hcr.1 hcr.2
        have hp := h.plan hreg hcr.1
        have hcomp : completes lib c n w = true := hcomp
        have hs : (w.http n).state ≠ .messageComplete := by
          intro hs
          exact absurd ((reenters_iff lib c n w).mpr ⟨hcomp, hs⟩) (by simpa [completesAgain] using hc)
        have hi : w.session.httpSessions .client = some n := by
          simp only [completes, Bool.and_eq_true, decide_eq_true_eq] at hcomp
          exact hcomp.1.1
        obtain rfl : n = 0 := Option.some.inj (hi.symm.trans hp.client)
        have hnone : w.calls = [] := (hp.quiet hs).2.2
        rw [Once, (completes_next h he hcomp).1, hnone]
        exact Nat.le_refl 1
      | _ => cases hcomp

/-- Runs in which lookups are answered later and the request is completed once
at most are in order. -/
theorem run_once {C : World P → Event → Prop} {worker : Bool} {es : List Event}
    (h : Run (system lib) C (initial lib worker) es w)
    (hl : ∀ w e, C w e → answersLater lib w e = true) (ht : ∀ w e, C w e → tidy → tidily w e = true)
    (hc : Once w) : Reached lib tidy w := by
  have hrun : Begun lib w ∧ (Once w → Reached lib tidy w) := by
    refine run_invariant (I := fun w => Begun lib w ∧ (Once w → Reached lib tidy w)) ?_ h
      ⟨.inl ⟨worker, rfl⟩, fun _ => .inl ⟨worker, rfl⟩⟩
    rintro w e ⟨hb, hr⟩ he hce
    refine ⟨.inr (next_begun e hb he), ?_⟩
    intro ho
    have hle := List.Sublist.count_le (a := Call.clientMsgComplete) (next_calls e hb he).sublist
    have ho : (next lib w e).calls.count .clientMsgComplete ≤ 1 := ho
    have hold : Once w := by
      rw [Once]
      omega
    have hreached := hr hold
    refine .inr (next_reached e hreached he ?_ (ht w e hce))
    by_contra hno
    have hno : orderly lib w e = false := by simpa using hno
    rcases hreached with ⟨worker, rfl⟩ | hinv
    · obtain ⟨c, rfl⟩ := enabled_initial he
      cases hno
    · have hagain : completesAgain w e = true := by
        have hlater := hl w e hce
        simp only [orderly, hlater, Bool.true_and, Bool.not_eq_false', Bool.and_eq_true] at hno
        exact hno.1
      obtain ⟨hpos, hcount⟩ := completesAgain_served hinv he hagain
      omega
  exact hrun.2 hc

/-- In any run a registered session whose client's message is not complete is
as it was accepted. -/
theorem run_unparsed {C : World P → Event → Prop} {worker : Bool} {es : List Event}
    (h : Run (system lib) C (initial lib worker) es w) (hreg : w.registered = true)
    (hs : (w.http 0).state ≠ .messageComplete) : Inv lib False .client w := by
  have hrun : Begun lib w ∧ (w.registered = true → (w.http 0).state ≠ .messageComplete →
      Inv lib False .client w) := by
    refine run_invariant (I := fun w => Begun lib w ∧ (w.registered = true →
      (w.http 0).state ≠ .messageComplete → Inv lib False .client w)) ?_ h
      ⟨.inl ⟨worker, rfl⟩, fun hreg => by cases hreg⟩
    rintro w e ⟨hb, hr⟩ he -
    refine ⟨.inr (next_begun e hb he), ?_⟩
    intro hreg hs
    rcases hb with ⟨worker, rfl⟩ | hn
    · obtain ⟨c, rfl⟩ := enabled_initial he
      exact inv_accept c worker False.elim
    · have hl := next_later lib e he hn
      have hi := hr (hl.registered hreg) fun hc => hs (hl.complete 0 hn hc)
      refine next_inv e hi he ?_ False.elim
      by_contra ho
      exact hs (not_orderly hi he (by simpa using ho)).2
  exact hrun.2 hreg hs

end Tigera.CompletedRequests
