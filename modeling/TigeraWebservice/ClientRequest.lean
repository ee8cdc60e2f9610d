import TigeraWebservice.ReplyCallbacks

/-!
# The client's request

`client_msg_complete`: the reference block is made and both lookups begin, or
the session is removed. With the lookups answered later the invariant holds
again, as long as no lookup and no upstream was under way before.
-/

set_option autoImplicit false

namespace Tigera.ClientRequest
open ResourceLedger Tigera.CountedReference Tigera.HttpReading Tigera.SessionWorld
open Tigera.SocketChannel Tigera.SessionProgram Tigera.HeldConnections Tigera.HeldReferences
open Tigera.SessionMemory Tigera.SessionInvariant Tigera.UpstreamCallbacks

variable {P : Type} {lib : Libs P} {tidy : Prop} {w : World P}

def outstanding (w : World P) : Bool :=
  !w.resolving.isEmpty || (w.session.httpSessions .name).isSome ||
    (w.session.httpSessions .joke).isSome

theorem outstanding_false (h : outstanding w = false) :
    w.resolving = [] ∧ ∀ i, i ≠ .client → w.session.httpSessions i = none := by
  simp only [outstanding, Bool.or_eq_false_iff, Bool.not_eq_false', List.isEmpty_iff] at h
  obtain ⟨⟨hres, hname⟩, hjoke⟩ := h
  refine ⟨hres, ?_⟩
  intro i hi
  cases i with
  | client => exact absurd rfl hi
  | name => simpa using hname
  | joke => simpa using hjoke

structure Requesting (tidy : Prop) (w : World P) : Prop where
  memory : Memory tidy w
  registered : w.registered = true
  running : w.crashed = false
  client : w.session.httpSessions .client = some 0
  complete : (w.http 0).state = .messageComplete
  free : outstanding w = false
  first : .clientMsgComplete ∉ w.calls → w.session = started ∧ w.calls = []

theorem first_of_once {calls : List Call} (h : Once w)
    (hc : w.calls = .clientMsgComplete :: calls) : .clientMsgComplete ∉ calls := by
  intro hm
  have hpos := List.count_pos_iff.mpr hm
  rw [Once, hc, List.count_cons_self] at h
  omega

theorem sessionReferenceNew_fields (ok : Bool) (w : World P) :
    ∃ n d r, (sessionReferenceNew ok w).2 =
      { w with nextReference := n, dns := d, reference := r } ∧ n ≤ w.nextReference + 1 := by
  cases ok with
  | false => exact ⟨w.nextReference, w.dns, w.reference, rfl, by omega⟩
  | true => exact ⟨w.nextReference + 1, _, _, rfl, by omega⟩

def referenced (ok : Bool) (w : World P) : World P :=
  onSession (fun s => { s with me := (sessionReferenceNew ok w).1 })
    (sessionReferenceNew ok (call .clientMsgComplete (onHttp 0 id w))).2

theorem referenced_eq (ok : Bool) (w : World P) :
    ∃ n d r, referenced ok w = { call .clientMsgComplete (onHttp 0 id w) with
      nextReference := n
      dns := d
      reference := r
      life := .use () :: w.life
      session := { w.session with me := (sessionReferenceNew ok w).1 } } ∧
      n ≤ w.nextReference + 1 := by
  obtain ⟨n, d, r, he, hn⟩ :=
    sessionReferenceNew_fields ok (call .clientMsgComplete (onHttp 0 id w))
  refine ⟨n, d, r, ?_, hn⟩
  rw [referenced, he]
  rfl

theorem memory_referenced (ok : Bool) (h : Requesting tidy w) :
    Memory tidy (referenced ok w) := by
  have hm := h.memory
  have hblocks := hm.blocks
  have hconns := connsOk_onHttp hm.conns h.client id rfl rfl
  obtain ⟨hres, -⟩ := outstanding_false h.free
  obtain ⟨n, d, r, he, hn⟩ := referenced_eq ok w
  have hcount : (Call.clientMsgComplete :: w.calls).count .clientMsgComplete =
      w.calls.count .clientMsgComplete + 1 := List.count_cons_self
  have hremoves : (Call.clientMsgComplete :: w.calls).count .sessionRemove =
      w.calls.count .sessionRemove := List.count_cons_of_ne (by decide)
  have honce : Once (referenced ok w) → w.calls.count .clientMsgComplete = 0 := by
    intro ho
    rw [he] at ho
    have ho : (Call.clientMsgComplete :: w.calls).count .clientMsgComplete ≤ 1 := ho
    omega
  have hdns : DnsOk (Once (referenced ok w)) (lookups (referenced ok w)) := by
    refine dnsOk_sessionReferenceNew (w := call .clientMsgComplete (onHttp 0 id w)) ok hm.dns hres
      ?_ h.registered ?_ _ (fun _ => by cases ok <;> rfl)
    · intro ho
      have := honce ho
      rw [Once]
      omega
    · intro ho
      have := honce ho
      show w.nextReference = 0
      omega
  rw [he] at hdns ⊢
  constructor
  · exact ⟨hm.alive h.registered, hm.life⟩
  · exact hm.alive
  · exact hm.released
  · show (Call.clientMsgComplete :: w.calls).count .sessionRemove ≤ _
    rw [hremoves]
    exact hm.removes
  · exact hconns
  · exact hdns
  · intro hno
    exact absurd (h.registered.symm.trans hno) (by decide)
  · exact hm.worker
  · exact hm.begun
  · show n ≤ (Call.clientMsgComplete :: w.calls).count .clientMsgComplete
    omega

theorem memory_requested (host : Host) (idx : Slot) {k : ℕ} (h : Memory tidy w)
    (hreg : w.registered = true) (hme : w.session.me = some k) :
    Memory tidy (requested host idx w) where
  life := ⟨h.alive hreg, h.alive hreg, h.life⟩
  alive := h.alive
  released := h.released
  removes := h.removes
  conns := h.conns
  dns := (dnsOk_requested host idx h.dns hme).1
  gone := fun hno => absurd (hreg.symm.trans hno) (by decide)
  worker := h.worker
  begun := h.begun
  blocks := h.blocks

def requestedBoth (w : World P) : World P :=
  sessionStateSet .resolvingWebserverDomains
    (requested .icndb .joke (requested .uinames .name w))

/-- A lookup that is begun is answered before `evdns_getaddrinfo` returns. -/
def answersInside (c : Choices) : Bool :=
  c.referenceNew && c.nameRequest.calloc &&
    (c.nameRequest.inside.isSome || c.jokeRequest.calloc && c.jokeRequest.inside.isSome)

theorem clientMsgComplete_later (lib : Libs P) (c : Choices) (h : Requesting tidy w)
    (hlater : answersInside c = false) :
    clientMsgComplete lib c 0 w =
      if c.referenceNew && c.nameRequest.calloc && c.jokeRequest.calloc then
        requestedBoth (referenced true w)
      else if c.referenceNew && c.nameRequest.calloc then
        httpServiceSessionRemove (requested .uinames .name (referenced true w))
      else httpServiceSessionRemove (referenced c.referenceNew w) := by
  have hw : w.worker = true := h.memory.worker h.registered
  cases hr : c.referenceNew with
  | false =>
    simp only [clientMsgComplete, hr]
    rfl
  | true =>
    have hme : (referenced true w).session.me = some w.nextReference := rfl
    have hin : c.nameRequest.calloc = true → c.nameRequest.inside = none ∧
        (c.jokeRequest.calloc = true → c.jokeRequest.inside = none) := by
      intro hn
      simpa [answersInside, hr, hn] using hlater
    have h1 := dnsRequestNew_later lib c.nameRequest .uinames .name (referenced true w)
      w.nextReference hme hw fun hn => (hin hn).1
    have hsession : onSession (fun s => { s with me := some w.nextReference })
        (sessionReferenceNew true (call .clientMsgComplete (onHttp 0 id w))).2 =
        referenced true w := rfl
    have hfst : (sessionReferenceNew true (call .clientMsgComplete (onHttp 0 id w))).1 =
        some w.nextReference := rfl
    simp only [clientMsgComplete, hr, hfst, hsession, Option.isNone_some, Bool.false_eq_true,
      if_false, h1]
    cases hn : c.nameRequest.calloc with
    | false => rfl
    | true =>
      have h2 := dnsRequestNew_later lib c.jokeRequest .icndb .joke
        (requested .uinames .name (referenced true w)) w.nextReference hme hw (hin hn).2
      simp only [if_true, h2]
      cases hj : c.jokeRequest.calloc <;> rfl

theorem plan_requestedBoth (h : Requesting tidy w) :
    Plan lib .client (requestedBoth (referenced true w)).http
      (requestedBoth (referenced true w)).bev (rest (requestedBoth (referenced true w))) := by
  have hhttp : (requestedBoth (referenced true w)).http = w.http :=
    Function.update_eq_self 0 w.http
  have hslots : (requestedBoth (referenced true w)).session.httpSessions = w.session.httpSessions :=
    rfl
  obtain ⟨hres, hfree⟩ := outstanding_false h.free
  have hslot : ∀ i n, w.session.httpSessions i = some n → i = .client ∧ n = 0 := by
    intro i n hi
    by_cases hc : i = .client
    · subst hc
      exact ⟨rfl, Option.some.inj (hi.symm.trans h.client)⟩
    · exact absurd ((hfree i hc).symm.trans hi) (by simp)
  have hlist : (requestedBoth (referenced true w)).resolving =
      [⟨w.nextRequest + 1, .icndb⟩, ⟨w.nextRequest, .uinames⟩] := by
    show _ :: _ :: w.resolving = _
    rw [hres]
    rfl
  have hjoke : slotOf (rest (requestedBoth (referenced true w))) ⟨w.nextRequest + 1, .icndb⟩ =
      .joke := by
    simp [slotOf, rest, requestedBoth, requested, sessionStateSet, onSession, referenced,
      sessionReferenceNew, call, onHttp]
  have hname : slotOf (rest (requestedBoth (referenced true w))) ⟨w.nextRequest, .uinames⟩ =
      .name := by
    simp [slotOf, rest, requestedBoth, requested, sessionStateSet, onSession, referenced,
      sessionReferenceNew, call, onHttp]
  have hmem : ∀ l ∈ (requestedBoth (referenced true w)).resolving,
      l = ⟨w.nextRequest + 1, .icndb⟩ ∨ l = ⟨w.nextRequest, .uinames⟩ := by
    intro l hl
    rw [hlist] at hl
    simpa using hl
  constructor
  · exact h.client
  · intro i n hi
    obtain ⟨rfl, rfl⟩ := hslot i n hi
    rw [hhttp]
    exact .inl h.complete
  · intro i n hc _ hi
    exact absurd (hslot i n hi).1 hc
  · intro hno
    rw [hhttp] at hno
    exact absurd h.complete hno
  · intro _
    exact List.mem_cons_self
  · intro l hl
    rcases hmem l hl with rfl | rfl
    · rw [hjoke]
      exact ⟨rfl, hfree .joke (by decide)⟩
    · rw [hname]
      exact ⟨rfl, hfree .name (by decide)⟩
  · intro l hl l' hl' he
    rcases hmem l hl with rfl | rfl <;> rcases hmem l' hl' with rfl | rfl
    · rfl
    · rw [hjoke, hname] at he
      cases he
    · rw [hjoke, hname] at he
      cases he
    · rfl

theorem progress_requestedBoth (h : Requesting tidy w)
    (ho : Once (requestedBoth (referenced true w))) :
    Progress (rest (requestedBoth (referenced true w))) := by
  have hcalls : (requestedBoth (referenced true w)).calls = .clientMsgComplete :: w.calls := rfl
  obtain ⟨hs, hnone⟩ := h.first (first_of_once ho hcalls)
  have hflag : ∀ idx, hasReplied idx (requestedBoth (referenced true w)).session = false := by
    intro idx
    show hasReplied idx w.session = false
    rw [hs]
    cases idx <;> rfl
  constructor
  · intro idx _ hr
    exact absurd ((hflag idx).symm.trans hr) (by decide)
  · intro idx _
    show _ ∈ (requestedBoth (referenced true w)).calls ↔ _
    rw [hcalls, hnone]
    show _ ↔ hasReplied idx (requestedBoth (referenced true w)).session = true
    rw [hflag]
    simp
  · refine .inr ⟨⟨?_, ?_, ?_, ?_, ?_⟩, ?_⟩
    · intro hst
      cases hst
    · show w.session.name.isSome = w.session.nameReplied
      rw [hs]
      rfl
    · show w.session.surname.isSome = w.session.nameReplied
      rw [hs]
      rfl
    · show w.session.joke.isSome = w.session.jokeReplied
      rw [hs]
      rfl
    · show (requestedBoth (referenced true w)).calls.count .httpResponseWrite = 0
      rw [hcalls, hnone]
      rfl
    · show (w.session.nameReplied && w.session.jokeReplied) = false
      rw [hs]
      rfl

theorem clientMsgComplete_inv (c : Choices) (h : Requesting tidy w)
    (hlater : answersInside c = false) :
    Inv lib tidy .client (clientMsgComplete lib c 0 w) := by
  have hmr := fun ok => memory_referenced ok h
  have hme : (referenced true w).session.me = some w.nextReference := rfl
  have hm1 := memory_requested .uinames .name (hmr true) h.registered hme
  have hm2 := memory_requested .icndb .joke hm1 h.registered hme
  have htally : ∀ u : World P, u.calls = .clientMsgComplete :: w.calls → Once u →
      Tally u.calls := by
    intro u hu ho
    obtain ⟨-, hnone⟩ := h.first (first_of_once ho hu)
    rw [hu, hnone]
    exact ⟨Nat.zero_le _, by decide⟩
  rw [clientMsgComplete_later lib c h hlater]
  split
  · constructor
    · exact memory_onSession hm2 h.registered
        (fun s => { s with state := .resolvingWebserverDomains }) rfl rfl
    · exact fun _ _ => plan_requestedBoth h
    · exact fun _ ho => progress_requestedBoth h ho
    · exact htally _ rfl
    · exact fun _ _ => h.running
  · split
    · exact (inv_remove hm1 h.registered (htally _ rfl) fun _ => h.running).1
    · obtain ⟨n, d, r, he, -⟩ := referenced_eq c.referenceNew w
      have hcalls : (referenced c.referenceNew w).calls = .clientMsgComplete :: w.calls := by
        rw [he]
        rfl
      have hreg : (referenced c.referenceNew w).registered = true := by
        rw [he]
        exact h.registered
      have hrunning : (referenced c.referenceNew w).crashed = false := by
        rw [he]
        exact h.running
      exact (inv_remove (hmr _) hreg (htally _ hcalls) fun _ => hrunning).1

end Tigera.ClientRequest
