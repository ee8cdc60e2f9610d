import TigeraWebservice.SessionInvariant

/-!
# The callbacks of the upstream connections

Sending a request, an answer of the resolver and a complete reply, each from a
state between callbacks and whatever fails in it: the session is removed or
the invariant holds again.
-/

set_option autoImplicit false

namespace Tigera.UpstreamCallbacks
open ResourceLedger Tigera.HttpReading Tigera.MessageReading Tigera.HttpSegmentation
open Tigera.JokeCreate Tigera.SessionWorld Tigera.SocketChannel Tigera.SessionProgram
open Tigera.HeldConnections Tigera.HeldReferences Tigera.SessionMemory Tigera.SessionInvariant

variable {P : Type} {lib : Libs P} {tidy : Prop} {busy : Slot} {w : World P} {i : Slot} {n : ℕ}

theorem complete_of_upstream {http : ℕ → HttpSession P} {bev : ℕ → Bufferevent} {r : Rest}
    (h : Plan lib busy http bev r) (hi : i ≠ .client) (hn : r.session.httpSessions i = some n) :
    (http 0).state = .messageComplete := by
  by_contra hq
  rw [(h.quiet hq).1] at hn
  simp [started, Function.update_of_ne hi] at hn

theorem plan_session {http : ℕ → HttpSession P} {bev : ℕ → Bufferevent} {r r' : Rest}
    (h : Plan lib busy http bev r) (hq : (http 0).state = .messageComplete)
    (hs : r'.session.httpSessions = r.session.httpSessions) (hl : r'.resolving = r.resolving)
    (hr : r'.request = r.request) (hc : r.calls ⊆ r'.calls) : Plan lib busy http bev r' := by
  constructor
  · rw [hs]; exact h.client
  · rw [hs]; exact h.readable
  · rw [hs]; exact h.reading
  · intro hno
    exact absurd hq hno
  · intro _
    exact hc (h.served hq)
  · simp only [slotOf, hs, hl, hr]; exact h.lookup
  · simp only [slotOf, hl, hr]; exact h.distinct

theorem inv_counters (h : Inv lib tidy busy w) (hreg : w.registered = true)
    (hq : (w.http 0).state = .messageComplete) (f : Session → Session)
    (hslots : (f w.session).httpSessions = w.session.httpSessions)
    (hm : (f w.session).me = w.session.me) (hs : SameReplies w.session (f w.session)) :
    Inv lib tidy busy (onSession f w) where
  memory := memory_onSession h.memory hreg f hslots hm
  plan := fun hr hc => plan_session (h.plan hr hc) hq hslots rfl rfl (List.Subset.refl _)
  progress := fun hr ho => progress_congr (h.progress hr ho) hs hslots rfl rfl rfl
  tally := h.tally
  steady := h.steady

theorem inv_stateSet_remove (h : Memory tidy w) (hreg : w.registered = true)
    (ht : Once w → Tally w.calls) (hs : Once w → w.crashed = false) (state : SessionState) :
    Inv lib tidy busy (httpServiceSessionRemove (sessionStateSet state w)) ∧
      (httpServiceSessionRemove (sessionStateSet state w)).registered = false :=
  inv_remove (memory_onSession h hreg (fun s => { s with state := state }) rfl rfl) hreg ht hs

theorem httpRequest_inv (request : HttpRequest) (c : Choices) (h : Inv lib tidy busy w)
    (hreg : w.registered = true) (hcr : w.crashed = false) (hi : w.session.httpSessions i = some n)
    (hc : i ≠ .client) : Inv lib tidy busy (httpRequest request c n w) := by
  have hq : (w.http 0).state = .messageComplete := complete_of_upstream (h.plan hreg hcr) hc hi
  have h1 := inv_onHttp_id h hi
  have h2 : Inv lib tidy busy (onSession (fun s => { s with
      pendingConnections := s.pendingConnections - 1 }) (onHttp n id w)) :=
    inv_counters h1 hreg (by simpa [onHttp] using hq) _ rfl rfl ⟨rfl, rfl, rfl, rfl, rfl, rfl⟩
  have h3 := inv_onHttp_id h2 hi
  have hch := (h3.memory.conns.held i n hi).channel
  have h4 := inv_evbufferAddAll c.outputAdd 0
    ((request.requestLine :: request.headers ++ [literal "\r\n"]).map fun b => ⟨b, none⟩) h3 hi
  obtain ⟨-, h5, h6, -⟩ := evbufferAddAll_spec c.outputAdd 0
    ((request.requestLine :: request.headers ++ [literal "\r\n"]).map fun b => ⟨b, none⟩)
    h3.memory hi
  simp only [wires] at hch
  simp only [httpRequest, httpRequestWrite, hch]
  generalize evbufferAddAll c.outputAdd n 0 _ _ = r at h4 h5 h6 ⊢
  obtain ⟨ok, u⟩ := r
  have hu : Inv lib tidy busy u := h4
  have hhttp : u.http = w.http := by simpa [onHttp, onSession] using h6
  have hureg : u.registered = true := (congrArg Rest.registered h5).trans hreg
  cases ok with
  | false =>
    exact (inv_stateSet_remove hu.memory hureg hu.tally (hu.steady (.inl hureg))
      .errorRequestingFromWs).1
  | true =>
    refine inv_counters hu hureg ?_ _ rfl rfl ⟨rfl, rfl, rfl, rfl, rfl, rfl⟩
    rw [hhttp]
    exact hq

section Answer

variable {l : Lookup} {k : ℕ}

def released (a : Answer) (l : Lookup) (k : ℕ) (w : World P) : World P :=
  answered l.request k (handOver a l.request (unlisted l w))

theorem handOver_addrs (a : Answer) (r : ℕ) (w : World P) :
    ∃ x, handOver a r w = { w with addrs := x } := by
  cases a with
  | error => exact ⟨w.addrs, rfl⟩
  | addresses families => exact ⟨_, rfl⟩

theorem released_eq (a : Answer) (l : Lookup) (k : ℕ) (w : World P) :
    ∃ x, released a l k w = { answered l.request k (unlisted l w) with addrs := x } := by
  obtain ⟨x, hx⟩ := handOver_addrs a l.request (unlisted l w)
  exact ⟨x, by rw [released, hx]; rfl⟩

theorem memory_released (a : Answer) (h : Memory tidy w) (hl : l ∈ w.resolving)
    (ha : Anchored (lookups w) k) : Memory tidy (released a l k w) := by
  obtain ⟨x, hx⟩ := released_eq a l k w
  rw [hx]
  exact { life := h.life, alive := h.alive, released := h.released, removes := h.removes
          conns := h.conns, dns := dnsOk_answered h.dns hl ha, gone := h.gone
          worker := h.worker, begun := h.begun, blocks := h.blocks }

theorem slotOf_released (a : Answer) {l' : Lookup} (hne : l'.request ≠ l.request) :
    slotOf (rest (released a l k w)) l' = slotOf (rest w) l' := by
  obtain ⟨x, hx⟩ := released_eq a l k w
  rw [hx]
  simp [slotOf, rest, answered, unlisted, hne]

theorem plan_released (a : Answer) (h : Memory tidy w) (hl : l ∈ w.resolving)
    (hp : Plan lib busy w.http w.bev (rest w)) :
    Plan lib busy w.http w.bev (rest (released a l k w)) ∧
      (∀ l' ∈ w.resolving.erase l, slotOf (rest (released a l k w)) l' ≠ slotOf (rest w) l) := by
  obtain ⟨x, hx⟩ := released_eq a l k w
  have hmem : ∀ l', l' ∈ w.resolving.erase l → l' ∈ w.resolving ∧ l'.request ≠ l.request :=
    fun l' => mem_erase_request h.dns.distinct hl
  have hslot : ∀ l' ∈ w.resolving.erase l,
      slotOf (rest (released a l k w)) l' = slotOf (rest w) l' := by
    intro l' hl'
    exact slotOf_released a (hmem l' hl').2
  rw [hx] at hslot ⊢
  refine ⟨⟨hp.client, hp.readable, hp.reading, ?_, hp.served, ?_, ?_⟩, ?_⟩
  · intro hq
    have hno : w.resolving = [] := (hp.quiet hq).2.1
    rw [hno] at hl
    cases hl
  · intro l' hl'
    rw [hslot l' hl']
    exact hp.lookup l' (hmem l' hl').1
  · intro l1 hl1 l2 hl2 heq
    rw [hslot l1 hl1, hslot l2 hl2] at heq
    exact hp.distinct l1 (hmem l1 hl1).1 l2 (hmem l2 hl2).1 heq
  · intro l' hl' heq
    rw [hslot l' hl'] at heq
    have hll := hp.distinct l' (hmem l' hl').1 l hl heq
    exact (hmem l' hl').2 (congrArg Lookup.request hll)

theorem progress_released (a : Answer) (h : Memory tidy w) (hl : l ∈ w.resolving)
    (hp : Progress (rest w)) : Progress (rest (released a l k w)) := by
  obtain ⟨x, hx⟩ := released_eq a l k w
  have hslot : ∀ l', l'.request ≠ l.request →
      slotOf (rest (released a l k w)) l' = slotOf (rest w) l' := fun l' => slotOf_released a
  rw [hx] at hslot ⊢
  refine ⟨?_, hp.replies, ?_⟩
  · intro idx hidx hr
    refine ⟨(hp.idle idx hidx hr).1, ?_⟩
    intro l' hl'
    obtain ⟨hmem, hne⟩ := mem_erase_request h.dns.distinct hl hl'
    rw [hslot l' hne]
    exact (hp.idle idx hidx hr).2 l' hmem
  · exact response_congr hp.response (sameReplies_of_eq rfl) rfl

theorem inv_released (a : Answer) (h : Inv lib tidy busy w) (hl : l ∈ w.resolving)
    (ha : Anchored (lookups w) k) : Inv lib tidy busy (released a l k w) := by
  obtain ⟨x, hx⟩ := released_eq a l k w
  have hm := memory_released a h.memory hl ha
  have hplan : w.registered = true → w.crashed = false →
      Plan lib busy w.http w.bev (rest (released a l k w)) := fun hr hc =>
    (plan_released a h.memory hl (h.plan hr hc)).1
  have hprog : w.registered = true → Once w → Progress (rest (released a l k w)) := fun hr ho =>
    progress_released a h.memory hl (h.progress hr ho)
  rw [hx] at hm hplan hprog ⊢
  exact ⟨hm, hplan, hprog, h.tally, h.steady⟩

end Answer

theorem inv_connected (ss : SockAddr) {idx : Slot} (h : Inv lib tidy busy w)
    (hreg : w.registered = true) (hcr : w.crashed = false)
    (hconns : ConnsOk tidy (wires (connected lib ss idx w))) (hidx : idx ≠ .client)
    (hq : (w.http 0).state = .messageComplete) (hfree : ∀ l ∈ w.resolving, slotOf (rest w) l ≠ idx)
    (hrep : Once w → hasReplied idx w.session = false) :
    Inv lib tidy busy (connected lib ss idx w) := by
  have hp := h.plan hreg hcr
  have hne : (0 : ℕ) ≠ w.nextConn := by
    have := h.memory.begun
    omega
  have hclient : Slot.client ≠ idx := fun he => hidx he.symm
  constructor
  · exact { life := ⟨h.memory.alive hreg, h.memory.life⟩, alive := h.memory.alive
            released := h.memory.released, removes := h.memory.removes, conns := hconns
            dns := h.memory.dns, worker := h.memory.worker, begun := Nat.succ_pos _
            blocks := h.memory.blocks
            gone := fun hno => absurd (hreg.symm.trans hno) (by decide) }
  · intro _ _
    constructor
    · simpa [rest, connected, setSlot, hclient] using hp.client
    · intro j m hj
      by_cases hm : m = w.nextConn
      · subst hm
        simp only [connected, Function.update_self]
        exact readable_init lib .response w.nextConn (upstreamCallbacks idx)
      · by_cases hji : j = idx
        · subst hji
          simp only [rest, connected, setSlot, Function.update_self, Option.some.injEq] at hj
          exact absurd hj.symm hm
        · simp only [rest, connected, setSlot, Function.update_of_ne hji] at hj
          simpa [connected, hm] using hp.readable j m hj
    · intro j m hj hb hs
      by_cases hm : m = w.nextConn
      · subst hm
        simp [connected, httpSessionInit]
      · by_cases hji : j = idx
        · subst hji
          simp only [rest, connected, setSlot, Function.update_self, Option.some.injEq] at hs
          exact absurd hs.symm hm
        · simp only [rest, connected, setSlot, Function.update_of_ne hji] at hs
          simpa [connected, hm] using hp.reading j m hj hb hs
    · intro hno
      simp only [connected, Function.update_of_ne hne] at hno
      exact absurd hq hno
    · intro _
      exact hp.served hq
    · intro l hl
      obtain ⟨h1, h2⟩ := hp.lookup l hl
      have hs : (w.request l.request).idx ≠ idx := hfree l hl
      have h2 : w.session.httpSessions (w.request l.request).idx = none := h2
      exact ⟨h1, by simp [rest, connected, setSlot, slotOf, hs, h2]⟩
    · exact hp.distinct
  · intro _ ho
    have hg := h.progress hreg ho
    refine ⟨?_, hg.replies, ?_⟩
    · intro j hj hr
      have hji : j ≠ idx := by
        rintro rfl
        have hr : hasReplied j w.session = true := hr
        rw [hrep ho] at hr
        cases hr
      obtain ⟨h1, h2⟩ := hg.idle j hj hr
      refine ⟨?_, h2⟩
      simpa [rest, connected, setSlot, hji] using h1
    · exact response_congr hg.response ⟨rfl, rfl, rfl, rfl, rfl, rfl⟩ rfl
  · exact h.tally
  · exact h.steady

theorem inv_addrs (h : Inv lib tidy busy w) (x : List (Entry ℕ)) :
    Inv lib tidy busy { w with addrs := x } where
  memory := { life := h.memory.life, alive := h.memory.alive, released := h.memory.released
              removes := h.memory.removes, conns := h.memory.conns, dns := h.memory.dns
              gone := h.memory.gone, worker := h.memory.worker, begun := h.memory.begun
              blocks := h.memory.blocks }
  plan := fun hr hc => plan_congr (h.plan hr hc) rfl rfl rfl rfl
  progress := fun hr ho =>
    progress_congr (h.progress hr ho) (sameReplies_of_eq rfl) rfl rfl rfl rfl
  tally := h.tally
  steady := h.steady

theorem resolved_inv (a : Answer) (c : ConnectChoices) (r : ℕ) {host : Host} {idx : Slot}
    (h : Inv lib tidy busy w) (hreg : w.registered = true) (hcr : w.crashed = false)
    (hhost : slotHost idx = some host) (hslot : w.session.httpSessions idx = none)
    (hq : (w.http 0).state = .messageComplete) (hfree : ∀ l ∈ w.resolving, slotOf (rest w) l ≠ idx)
    (hrep : Once w → hasReplied idx w.session = false) (hr : tidy → refused c w.worker = false) :
    Inv lib tidy busy (resolved lib a c r host idx w) := by
  have hidx : idx ≠ .client := by
    rintro rfl
    cases hhost
  cases a with
  | error =>
    exact (inv_stateSet_remove h.memory hreg h.tally (fun _ => hcr) .errorResolvingDomain).1
  | addresses families =>
    have h1 := inv_addrs h (.free r :: .use r :: w.addrs)
    simp only [resolved]
    cases hf : families.find? usable with
    | none =>
      exact (inv_stateSet_remove h1.memory hreg h1.tally (fun _ => hcr) .errorResolvingDomain).1
    | some family =>
      have h2 := inv_counters h1 hreg hq
        (fun s => { s with pendingResolutions := s.pendingResolutions - 1 }) rfl
        rfl ⟨rfl, rfl, rfl, rfl, rfl, rfl⟩
      simp only
      rcases httpServerConnect_spec lib c ⟨family, host⟩ idx h2.memory.conns hidx hslot
        hhost.symm hr with ⟨he, hc⟩ | ⟨w', he, hrest, hn, hc⟩
      · rw [he]
        exact inv_connected ⟨family, host⟩ h2 hreg hcr hc hidx hq hfree hrep
      · have hreg' : w'.registered = true := (congrArg Rest.registered hrest).trans hreg
        have hcalls : w'.calls = w.calls := congrArg Rest.calls hrest
        have hbegun : 0 < w'.nextConn := by omega
        have hm : Memory tidy w' := memory_of_rest h2.memory hrest hc hbegun
        have hcr' : w'.crashed = false := (congrArg Rest.crashed hrest).trans hcr
        rw [he]
        refine (inv_stateSet_remove hm hreg' ?_ (fun _ => hcr') .errorConnectingToWs).1
        intro ho
        rw [hcalls]
        exact h.tally (by rwa [Once, hcalls] at ho)

theorem dnsnameResolvedCb_inv (a : Answer) (c : ConnectChoices) {l : Lookup}
    (h : Inv lib tidy busy w) (hcr : w.crashed = false) (hl : l ∈ w.resolving)
    (hr : tidy → refused c w.worker = false) :
    Inv lib tidy busy (dnsnameResolvedCb lib a c l.request l.host
      (handOver a l.request (unlisted l w))) := by
  obtain ⟨k, hk, -⟩ := anchored_of_pending h.memory.dns hl
  obtain ⟨x, hx⟩ := handOver_addrs a l.request (unlisted l w)
  have hreq : ((handOver a l.request (unlisted l w)).request l.request).session = some k := by
    rw [hx]
    exact hk.requests l hl
  have hb : w.reference k = anchor w.registered w.resolving.length := hk.block
  have hptr : ((handOver a l.request (unlisted l w)).reference k).ptr.isSome = w.registered := by
    rw [hx]
    show (w.reference k).ptr.isSome = w.registered
    rw [hb]
    cases w.registered <;> rfl
  have hidx : ((handOver a l.request (unlisted l w)).request l.request).idx =
      slotOf (rest w) l := by
    rw [hx]
    rfl
  have hrel := inv_released (k := k) a h hl hk
  rw [dnsnameResolvedCb_anchored lib a c l.request k l.host _ hreq, hptr, hidx]
  cases hreg : w.registered with
  | false => exact hrel
  | true =>
    have hp := h.plan hreg hcr
    have hq : (w.http 0).state = .messageComplete := by
      by_contra hno
      have hnil : w.resolving = [] := (hp.quiet hno).2.1
      rw [hnil] at hl
      cases hl
    obtain ⟨hhost, hslot⟩ := hp.lookup l hl
    obtain ⟨y, hy⟩ := released_eq a l k w
    have hfree := (plan_released (k := k) a h.memory hl hp).2
    have hrep : Once w → hasReplied (slotOf (rest w) l) w.session = false := by
      intro ho
      by_contra hyes
      have hyes : hasReplied (slotOf (rest w) l) w.session = true := by simpa using hyes
      have hne : slotOf (rest w) l ≠ .client := by
        intro he
        rw [he] at hhost
        cases hhost
      exact ((h.progress hreg ho).idle _ hne hyes).2 l hl rfl
    rw [if_pos rfl]
    show Inv lib tidy busy (resolved lib a c l.request l.host (slotOf (rest w) l) (released a l k w))
    rw [hy] at hrel hfree ⊢
    exact resolved_inv a c l.request hrel hreg hcr hhost hslot hq hfree hrep hr

end Tigera.UpstreamCallbacks
