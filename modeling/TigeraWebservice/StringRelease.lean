import TigeraWebservice.ReplyStrings

/-!
# The release of the reply strings

In a run in which the head of the response can be written when it is due, every
event keeps the strings held or releases them, so that each has been released
exactly once when the session is gone. Where the head cannot be written, the
body of the response is left unreleased.
-/

set_option autoImplicit false

namespace Tigera.StringRelease
open ResourceLedger TransitionRuns Tigera.HttpReading Tigera.MessageReading Tigera.JokeCreate
open Tigera.SessionWorld Tigera.SocketChannel Tigera.SessionProgram Tigera.SessionSystem
open Tigera.HeldConnections Tigera.HeldReferences Tigera.SessionMemory Tigera.SessionInvariant
open Tigera.UpstreamCallbacks Tigera.ClientResponse Tigera.ReplyCallbacks Tigera.ClientRequest
open Tigera.ChannelCallbacks Tigera.SessionRuns Tigera.OneResponse Tigera.SessionTurns
open Tigera.PlainMessages Tigera.ReplyStrings

variable {P : Type} {lib : Libs P} {v w : World P} {n : ℕ} {idx : Slot} {c : Choices}

def responseDue (lib : Libs P) (w : World P) (e : Event) : Bool :=
  (messageOf lib w e).any fun m => [Slot.name, .joke].any fun idx =>
    w.session.httpSessions idx = some m.1 && decodes lib idx m.2 &&
      bothReplied (markReplied idx w.session)

def headFits (lib : Libs P) (w : World P) : Event → Bool
  | .readCb n c => !responseDue lib w (.readCb n c) || headed c
  | _ => true

theorem headed_of_fits {body : Bytes} (h : headFits lib w (.readCb n c) = true)
    (hidx : idx ≠ .client) (hi : w.session.httpSessions idx = some n)
    (hm : messageOf lib w (.readCb n c) = some (n, body)) (hd : decodes lib idx body = true)
    (hboth : bothReplied (markReplied idx w.session) = true) : headed c = true := by
  have hdue : responseDue lib w (.readCb n c) = true := by
    rw [responseDue, hm, Option.any_some, List.any_eq_true]
    refine ⟨idx, ?_, ?_⟩
    · cases idx with
      | client => exact absurd rfl hidx
      | name => simp
      | joke => simp
    · simp [hi, hd, hboth]
  simpa [headFits, hdue] using h

theorem shelf_touched (n : ℕ) (w : World P) : shelf (touched n w) = shelf w :=
  (shelf_onHttp (w := onChan n id w) n id rfl).trans (shelf_onChan n id rfl rfl)

theorem shelf_stored {s : HttpSession P} (input : List UInt8) (hs : Framed (w.http n) s) :
    shelf (stored n s input w) = shelf w := by
  rw [stored]
  exact (shelf_onChannelBev (w := onHttp n (fun _ => s) w) n _ fun _ => rfl).trans
    (shelf_onHttp n (fun _ => s) hs.1)

theorem instock_closing {i : Slot} (h : Inv lib False .client w)
    (hi : w.session.httpSessions i = some n) (hg : Going 0 (shelf w)) :
    InStock (callBack lib c n (w.http n).cbs.readyToClose (touched n w)) := by
  have hg := going_of_shelf hg (shelf_touched n w)
  have hcbs : (w.http n).cbs = slotCallbacks i := (h.memory.conns.held i n hi).cbs
  rw [hcbs]
  by_cases hc : i = .client
  · subst hc
    exact instock_clientReadyToClose (w := onHttp n id (touched n w))
      (going_of_shelf hg (shelf_onHttp n id rfl))
  · rw [slotCallbacks_readyToClose hc]
    exact .inl hg

theorem instock_complete {i : Slot} {s : HttpSession P} {input : List UInt8}
    (h : Inv lib False .client w) (hreg : w.registered = true) (hcr : w.crashed = false)
    (ho : Once w) (hi : w.session.httpSessions i = some n)
    (hr : reads lib c n w = (.messageComplete, s, input))
    (hlater : i = .client → answersInside c = false) (hfits : headFits lib w (.readCb n c) = true)
    (hg : Going 0 (shelf w)) :
    InStock (callBack lib c n s.cbs.messageComplete (stored n s input w)) := by
  have hp := h.plan hreg hcr
  have hheld := h.memory.conns.held i n hi
  have hframe : Framed (w.http n) s := by
    have hf := reads_framed lib c n w
    rwa [hr] at hf
  have hcbs : s.cbs = slotCallbacks i := hframe.2.trans hheld.cbs
  have hgs := going_of_shelf hg (shelf_stored input hframe)
  rw [hcbs]
  by_cases hc : i = .client
  · subst hc
    exact instock_clientMsgComplete lib c n (hlater rfl) hgs
  · have hs : (w.http n).state ≠ .messageComplete := hp.reading i n hc hc hi
    obtain ⟨hexit, -⟩ | ⟨-, hstate, body, hbody⟩ | hexit :=
      reads_incomplete lib c (hp.readable i n hi) hs
    · rw [hr] at hexit
      cases hexit
    · rw [hr] at hstate hbody
      obtain ⟨hrest, hhttp, -, -⟩ := stored_fields s input hheld.bev
      have hst : Inv lib False i (stored n s input w) :=
        inv_stored input h hi hframe (.inl hstate) (fun _ => ⟨rfl, hc⟩) fun hcl => absurd hcl hc
      have hsession : (stored n s input w).session = w.session := congrArg Rest.session hrest
      have hi' : (stored n s input w).session.httpSessions i = some n := by
        rw [hsession]
        exact hi
      have hreg' : (stored n s input w).registered = true :=
        (congrArg Rest.registered hrest).trans hreg
      have hbody' : ((stored n s input w).http n).body = some body := by
        rw [hhttp, Function.update_self]
        exact hbody
      have ho' : Once (stored n s input w) := (once_of_rest hrest).mpr ho
      have hmessage : messageOf lib w (.readCb n c) = some (n, body) := by
        rw [messageOf, hr, if_pos rfl, hbody]
        rfl
      have hresponse := instock_httpResponse lib c hc (upstream_ne_zero h hreg hcr hc hi).symm
        (hst.memory.conns.held i n hi') ((congrArg Rest.crashed hrest).trans hcr) hbody'
        (vacant_upstream hst hreg' ho' hc hi') (fun hd hboth => by
          rw [hsession] at hboth
          exact headed_of_fits hfits hc hi hmessage hd hboth) hgs
      cases i with
      | client => exact absurd rfl hc
      | name => exact hresponse
      | joke => exact hresponse
    · rw [hr] at hexit
      cases hexit

theorem instock_readCb {i : Slot} (h : Inv lib False .client w) (hreg : w.registered = true)
    (hcr : w.crashed = false) (ho : Once w) (hi : w.session.httpSessions i = some n)
    (hlater : completes lib c n w = true → answersInside c = false)
    (hfits : headFits lib w (.readCb n c) = true) (hg : Going 0 (shelf w)) :
    InStock (httpSessionReadCb lib c n n w) := by
  rw [httpSessionReadCb_eq c (h.memory.conns.held i n hi)]
  by_cases hcl : closes n w = true
  · rw [if_pos hcl]
    exact instock_closing h hi hg
  · rw [if_neg hcl]
    obtain ⟨hh, -, hbt⟩ := touched_fields n w
    have ht := inv_touched h hi
    have hgt := going_of_shelf hg (shelf_touched n w)
    have hrt : reads lib c n (touched n w) = reads lib c n w := by
      rw [reads, reads, hh, hbt]
    have hfits' : headFits lib (touched n w) (.readCb n c) = true := by
      have hm : messageOf lib (touched n w) (.readCb n c) = messageOf lib w (.readCb n c) := by
        rw [messageOf, messageOf, hrt]
      rw [headFits, responseDue, hm]
      exact hfits
    have hframe : Framed ((touched n w).http n) (reads lib c n w).2.1 := by
      rw [hh]
      exact reads_framed lib c n w
    have hcomp : i = .client → (reads lib c n w).1 = .messageComplete →
        completes lib c n w = true := by
      rintro rfl hexit
      simp [completes, hi, hcl, hexit]
    generalize reads lib c n w = r at hrt hframe hcomp ⊢
    obtain ⟨exit, s, input⟩ := r
    have hgs := going_of_shelf hgt (shelf_stored input hframe)
    cases exit with
    | returned => exact .inl hgs
    | messageComplete =>
      exact instock_complete ht hreg hcr ho hi hrt (fun hc => hlater (hcomp hc rfl)) hfits' hgt
    | failed => exact spent_remove hgs
    | diverged => exact .inl hgs

theorem instock_eventCb {i : Slot} (events : BevEvents) (h : Inv lib False .client w)
    (hi : w.session.httpSessions i = some n) (hg : Going 0 (shelf w)) :
    InStock (next lib w (.eventCb n events c)) := by
  have h1 := inv_alterBev h hi
    (fun e => { e with connecting := e.connecting && !events.connected }) rfl rfl []
    (List.append_nil _).symm
  have hheld := h1.memory.conns.held i n hi
  rw [next, deliver_held hheld, tcpSocketEventCb_held c events hheld]
  have hg1 := going_of_shelf hg (shelf_alterBev n (fun e => { e with
    connecting := e.connecting && !events.connected }) rfl)
  have hi1 : (alterBev n (fun e => { e with
    connecting := e.connecting && !events.connected }) w).session.httpSessions i = some n := hi
  generalize alterBev n (fun e => { e with
    connecting := e.connecting && !events.connected }) w = v at h1 hg1 hi1 ⊢
  have h2 := inv_onHttp_id (inv_onChan h1 hi1
    (fun s => { s with eof := s.eof || (ioEvent events).eof }) rfl rfl rfl) hi1
  have hg2 : Going 0 (shelf (onHttp n id (onChan n (fun s => { s with
      eof := s.eof || (ioEvent events).eof }) v))) := by
    have hgc := going_of_shelf hg1 (shelf_onChan n (fun s => { s with
      eof := s.eof || (ioEvent events).eof }) rfl rfl)
    exact going_of_shelf hgc (shelf_onHttp n id rfl)
  have hi2 : (onHttp n id (onChan n (fun s => { s with
    eof := s.eof || (ioEvent events).eof }) v)).session.httpSessions i = some n := hi1
  rw [httpSessionEventCb]
  generalize onHttp n id (onChan n (fun s => { s with
    eof := s.eof || (ioEvent events).eof }) v) = u at h2 hg2 hi2 ⊢
  split
  · exact spent_remove hg2
  · split
    · have hcbs : (u.http n).cbs = slotCallbacks i := (h2.memory.conns.held i n hi2).cbs
      rw [hcbs]
      cases i with
      | client => exact .inl hg2
      | name => exact instock_httpRequest _ c n hg2
      | joke => exact instock_httpRequest _ c n hg2
    · split
      · rw [httpSessionChannelShouldClose_eq]
        split
        · exact instock_closing h2 hi2 hg2
        · exact .inl (going_of_shelf hg2 (shelf_touched n u))
      · split
        · exact spent_remove hg2
        · exact .inl hg2

theorem owners_drain (k : ℕ) (output : List Chunk) :
    owners output = owners (drainedOwners k output) ++ owners (drainOutput k output) := by
  induction output generalizing k with
  | nil => rfl
  | cons c cs ih =>
    have hc : ∀ ds, owners (c :: ds) = owners [c] ++ owners ds := fun ds => owners_append [c] ds
    rw [drainedOwners, drainOutput]
    split
    · rw [hc cs, hc (drainedOwners _ cs), List.append_assoc, ← ih (k - c.data.length)]
    · rfl

theorem going_flushOutput (k : ℕ) (h : Going 0 (shelf w)) :
    Going 0 (shelf (flushOutput n k w)) := by
  by_cases hn : n = 0
  · subst hn
    have ho : (shelf (flushOutput 0 k w)).owners =
        Function.update (shelf w).owners 0 (owners (drainOutput k (w.bev 0).output)) := by
      funext m
      by_cases hm : m = 0
      · subst hm
        simp [shelf, flushOutput, alterBev]
      · simp [shelf, flushOutput, alterBev, hm]
    refine { h with plain := ?_, fresh := ?_, holds := ?_ }
    · intro m hm
      rw [ho, Function.update_of_ne hm]
      exact h.plain m hm
    · intro a ha
      have hfresh := h.fresh a ha
      show status (owned (drainedOwners k (w.bev 0).output) ++ w.strs) a = .fresh
      rw [owned_owners, status_free_list _ _ fun hmem => ?_]
      · exact hfresh
      · have hout : a ∈ owners (w.bev 0).output := by
          rw [owners_drain k]
          exact List.mem_append_left _ hmem
        have hlive := (h.holds.live a).mpr (by
          rw [add_zero, Multiset.mem_add]
          exact .inr hout)
        rw [hlive] at hfresh
        cases hfresh
    · rw [ho, Function.update_self]
      show Holds (owned (drainedOwners k (w.bev 0).output) ++ w.strs)
        (fields (shelf w) + ↑(owners (drainOutput k (w.bev 0).output)) + 0)
      rw [owned_owners]
      apply holds_free_list
      have hh := h.holds
      rw [show (shelf w).owners 0 = owners (w.bev 0).output from rfl,
        owners_drain k, ← Multiset.coe_add] at hh
      rw [add_zero] at hh ⊢
      rw [add_left_comm]
      exact hh
  · have hp : owners (w.bev n).output = [] := h.plain n hn
    have hd := owners_drain k (w.bev n).output
    rw [hp] at hd
    obtain ⟨hd1, hd2⟩ := List.append_eq_nil_iff.mp hd.symm
    have hw : { w with strs := owned (drainedOwners k (w.bev n).output) ++ w.strs } = w := by
      rw [owned_nil hd1, List.nil_append]
    rw [flushOutput, hw]
    exact going_of_shelf h (shelf_alterBev n _ (hd2.trans hp.symm))

theorem instock_registered (e : Event) (h : Inv lib False .client w) (ho : Once w)
    (he : enabled w e = true) (hl : answersLater lib w e = true) (hfits : headFits lib w e = true)
    (hg : Going 0 (shelf w)) : InStock (next lib w e) := by
  have hreg : w.registered = true := hg.registered
  have hcr : w.crashed = false := h.steady (.inl hreg) ho
  have hdeliver : ∀ n, enabled w e = deliverable w n →
      ∃ i, w.session.httpSessions i = some n := fun n hn =>
    (held_of_deliverable h hcr (hn ▸ he)).2
  have hsame : ∀ n, onChan n id w = { w with conns := .use (.channel n) :: w.conns } := by
    intro n
    rw [onChan, id, Function.update_eq_self]
  cases e with
  | accept c =>
    have hn : w.nextConn = 0 := by simpa [enabled, hcr] using he
    have := h.memory.begun
    omega
  | arrive n data => exact .inl (going_of_shelf hg (shelf_alterBev n _ rfl))
  | flush n k => exact .inl (going_flushOutput k hg)
  | readCb n c =>
    obtain ⟨i, hi⟩ := hdeliver n (by simp [enabled, hcr])
    have hheld := h.memory.conns.held i n hi
    have h1 := inv_onChan h hi id rfl rfl rfl
    rw [next, deliver_held hheld, tcpSocketReadCb, service_held hheld]
    have hg1 : Going 0 (shelf (onChan n id w)) := going_of_shelf hg (shelf_onChan n id rfl rfl)
    rw [hsame n] at h1 hg1 ⊢
    refine instock_readCb h1 hreg hcr ho hi ?_ hfits hg1
    intro hcomp
    have hcomp : completes lib c n w = true := hcomp
    simpa [answersLater, hcomp] using hl
  | writeCb n c =>
    obtain ⟨i, hi⟩ := hdeliver n (by simp [enabled, hcr])
    have hheld := h.memory.conns.held i n hi
    have h1 := inv_onChan h hi id rfl rfl rfl
    have hg1 : Going 0 (shelf (onChan n id w)) := going_of_shelf hg (shelf_onChan n id rfl rfl)
    rw [next, deliver_held hheld, tcpSocketWriteCb, service_held hheld, httpSessionWriteCb,
      httpSessionChannelShouldClose_eq]
    split
    · exact instock_closing h1 hi hg1
    · exact .inl (going_of_shelf hg1 (shelf_touched n _))
  | eventCb n events c =>
    obtain ⟨i, hi⟩ := hdeliver n (by simp [enabled, hcr])
    exact instock_eventCb events h hi hg
  | dnsCb r a c =>
    have hl : (lookupOf w r).isSome = true := by simpa [enabled, hcr] using he
    obtain ⟨l, hl⟩ := Option.isSome_iff_exists.mp hl
    obtain ⟨hmem, rfl⟩ := lookupOf_some hl
    have hhost := ((h.plan hreg hcr).lookup l hmem).1
    have hidx : (w.request l.request).idx ≠ .client := by
      intro hc
      have hhost : slotHost (w.request l.request).idx = some l.host := hhost
      rw [hc] at hhost
      cases hhost
    obtain ⟨x, hx⟩ := handOver_addrs a l.request { w with resolving := w.resolving.erase l }
    simp only [next, hl, hx]
    exact instock_dnsnameResolvedCb (w := { w with resolving := w.resolving.erase l, addrs := x })
      lib a c l.request l.host hidx hg
  | fini => exact spent_fini hg

theorem going_accepted (lib : Libs P) : Going 0 (shelf (accepted lib true)) where
  worker := rfl
  registered := rfl
  client := rfl
  channel := rfl
  bev := rfl
  listen := rfl
  next := Nat.one_pos
  plain := fun m hm => by simp [shelf, accepted, opened, owning, arrived, initial, hm, owners]
  fresh := fun _ _ => rfl
  holds := holds_nil

theorem accept_strs (c : AcceptChoices) (worker : Bool) :
    (tcpSocketAcceptCb lib c (initial lib worker)).strs = [] := by
  cases hearly : c.family && c.getsockname && c.getBase && c.buffereventSocketNew with
  | false => rw [tcpSocketAcceptCb_early c worker hearly]; rfl
  | true =>
    rw [tcpSocketAcceptCb_late c worker hearly, httpServiceAcceptCb]
    cases worker with
    | false => rfl
    | true =>
      cases hnew : c.tcpSocketNew with
      | false =>
        simp only [tcpSocketAccept, hnew]
        rfl
      | true =>
        rw [tcpSocketAccept_owning c hnew]
        cases henable : c.buffereventEnable with
        | false => rfl
        | true =>
          cases h1 : c.sessionNew with
          | false =>
            simp only [sessionNew, h1]
            rfl
          | true =>
            cases h2 : c.httpSessionNew with
            | false =>
              simp only [sessionNew, h1, h2, httpSessionNew]
              rfl
            | true =>
              simp only [if_true, sessionNew_opened c h1 h2]
              cases c.nodeNew <;> rfl

theorem instock_accept (c : AcceptChoices) (worker : Bool) :
    InStock (tcpSocketAcceptCb lib c (initial lib worker)) := by
  cases hreg : (tcpSocketAcceptCb lib c (initial lib worker)).registered with
  | false =>
    refine .inr ⟨hreg, ?_⟩
    rw [accept_strs]
    exact holds_nil
  | true =>
    rw [accept_registered c worker hreg]
    exact .inl (going_accepted lib)

theorem next_instock (e : Event) (hw : Reached lib False w) (ho : Once w) (hs : InStock w)
    (he : enabled w e = true) (hl : answersLater lib w e = true)
    (hfits : headFits lib w e = true) : InStock (next lib w e) := by
  rcases hw with ⟨worker, rfl⟩ | h
  · obtain ⟨c, rfl⟩ := enabled_initial he
    exact instock_accept c worker
  · rcases hs with hg | ⟨hreg, hholds⟩
    · exact instock_registered e h ho he hl hfits hg
    · obtain ⟨a, l, k, -, hnext⟩ := next_gone e h hreg he
      obtain ⟨h1, -, -, -, h5, -⟩ := released_gone a l k w
      rw [hnext]
      exact .inr ⟨h1.trans hreg, h5 ▸ hholds⟩

/-- No string is released twice, and without the session none is left. -/
structure FreedOnce (w : World P) : Prop where
  atMostOnce : ∀ a, frees w.strs a ≤ 1
  unused : Untouched w.strs
  freed : w.registered = false → ∀ a, .alloc a ∈ w.strs → frees w.strs a = 1

theorem freedOnce_of_instock (h : InStock w) : FreedOnce w := by
  have hsound : Sound w.strs := by
    rcases h with hg | ⟨-, hholds⟩
    · exact hg.holds.sound
    · exact hholds.sound
  refine ⟨frees_le_one w.strs hsound, untouched_of_sound w.strs hsound, ?_⟩
  intro hreg a ha
  rcases h with hg | ⟨-, hholds⟩
  · have hyes : w.registered = true := hg.registered
    exact absurd (hreg.symm.trans hyes) (by decide)
  · exact holds_frees hholds ha

/-- The lookups are answered later, and the head of the response can be written. -/
def headedLater (lib : Libs P) (w : World P) (e : Event) : Bool :=
  answersLater lib w e && headFits lib w e

/-- With the head of the response written, every string is released once. -/
theorem strings_freed_once {worker : Bool} {es : List Event}
    (h : Run (system lib) (fun w e => headedLater lib w e = true) (initial lib worker) es w)
    (ho : Once w) : FreedOnce w := by
  have hcond : ∀ (w : World P) (e : Event), headedLater lib w e = true →
      answersLater lib w e = true ∧ headFits lib w e = true := by
    intro w e hc
    simpa [headedLater] using hc
  obtain ⟨-, hs⟩ := run_once_keeps (Q := InStock) h (fun w e hc => (hcond w e hc).1)
    (fun w e hw ho hs he hc _ => next_instock e hw ho hs he (hcond w e hc).1 (hcond w e hc).2)
    (.inl ⟨worker, rfl⟩) (.inr ⟨rfl, holds_nil⟩) ho
  exact freedOnce_of_instock hs

def closed : List Event := exchange ++ [.flush 0 200, .writeCb 0 {}]

theorem strings_freed_once_closed : FreedOnce (closed.foldl (next libs) (initial libs true)) :=
  strings_freed_once (run_of_admits (initial libs true) closed (by decide +kernel))
    (by rw [Once]; decide +kernel)

def beheaded : List Event := exchange.dropLast ++ [.readCb 2 { outputAdd := fun i => i != 3 }]

theorem response_not_freed : ¬ ∀ (es : List Event) (w : World Core),
    Run (system libs) (fun w e => answersLater libs w e = true) (initial libs true) es w →
    Once w → FreedOnce w := by
  intro h
  have hend : Once (beheaded.foldl (next libs) (initial libs true)) ∧
      (beheaded.foldl (next libs) (initial libs true)).registered = false ∧
      .alloc 4 ∈ (beheaded.foldl (next libs) (initial libs true)).strs ∧
      frees (beheaded.foldl (next libs) (initial libs true)).strs 4 = 0 := by
    rw [Once]
    decide +kernel
  obtain ⟨ho, hgone, hmade, hkept⟩ := hend
  have hrun := run_of_admits (S := system libs) (C := fun w e => answersLater libs w e = true)
    (initial libs true) beheaded (by decide +kernel)
  have hf := h beheaded _ hrun ho
  exact absurd (hkept.symm.trans (hf.freed hgone 4 hmade)) (by decide)

end Tigera.StringRelease
