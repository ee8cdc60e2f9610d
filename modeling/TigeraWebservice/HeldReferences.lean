import Mathlib.Data.List.Nodup
import TigeraWebservice.HeldConnections

/-!
# Pending lookups and the reference block

Between callbacks a DNS request is alive exactly while its lookup is pending.
All pending requests point to one reference block, which counts them, knows
whether the session is still there and is released with the last of them or
with the session, whichever is later. While `once` holds, the session has made
one block at most.
-/

set_option autoImplicit false

namespace Tigera.HeldReferences
open ResourceLedger Tigera.CountedReference Tigera.SessionWorld Tigera.SocketChannel
open Tigera.SessionProgram Tigera.HeldConnections

variable {P : Type}

/-- The part of the world the lookups live in. -/
structure Lookups where
  dns : List (Entry DnsObj)
  request : ℕ → DnsRequest
  reference : ℕ → Reference Unit
  resolving : List Lookup
  me : Option ℕ
  registered : Bool
  nextRequest : ℕ
  nextReference : ℕ

def lookups (w : World P) : Lookups :=
  ⟨w.dns, w.request, w.reference, w.resolving, w.session.me, w.registered, w.nextRequest,
    w.nextReference⟩

/-- What the block of a session holds with `n` requests pending. -/
def anchor (registered : Bool) (n : ℕ) : Reference Unit :=
  ⟨if registered then some () else none, if registered then 1 else 0, n, false⟩

/-- Block `k` is the one that every pending request points to. -/
structure Anchored (v : Lookups) (k : ℕ) : Prop where
  live : status v.dns (.reference k) = .live
  block : v.reference k = anchor v.registered v.resolving.length
  requests : ∀ l ∈ v.resolving, (v.request l.request).session = some k

/-- Where the block is: nowhere needed, with the session, or with the requests
that outlive it. -/
inductive Placed (v : Lookups) : Prop where
  | unneeded (me : v.me = none) (resolving : v.resolving = [])
  | held (k : ℕ) (me : v.me = some k) (registered : v.registered = true) (anchored : Anchored v k)
  | left (k : ℕ) (me : v.me = none) (registered : v.registered = false)
      (resolving : v.resolving ≠ []) (anchored : Anchored v k)

structure DnsOk (once : Prop) (v : Lookups) : Prop where
  sound : Sound v.dns
  pending : ∀ l ∈ v.resolving, status v.dns (.dnsRequest l.request) = .live
  distinct : (v.resolving.map Lookup.request).Nodup
  requests : ∀ r, status v.dns (.dnsRequest r) = .live → ∃ l ∈ v.resolving, l.request = r
  freshRequest : ∀ r, v.nextRequest ≤ r → status v.dns (.dnsRequest r) = .fresh
  freshReference : ∀ k, v.nextReference ≤ k → status v.dns (.reference k) = .fresh
  placed : Placed v
  single : once → v.nextReference ≤ 1
  settled : once → v.me = none → v.resolving = [] → ∀ k, k < v.nextReference →
    v.registered = false ∧ status v.dns (.reference k) = .freed

theorem anchored_of_pending {once : Prop} {v : Lookups} (h : DnsOk once v) {l : Lookup}
    (hl : l ∈ v.resolving) : ∃ k, Anchored v k ∧ (v.me = some k ∨ v.me = none) := by
  cases h.placed with
  | unneeded me resolving => rw [resolving] at hl; cases hl
  | held k me registered anchored => exact ⟨k, anchored, .inl me⟩
  | left k me registered resolving anchored => exact ⟨k, anchored, .inr me⟩

theorem referenceGet_some (k : ℕ) (w : World P) :
    referenceGet (some k) w =
      ((w.reference k).ptr.isSome, { w with dns := .use (.reference k) :: w.dns }) := rfl

theorem referenceWeakInc_block (k : ℕ) (w : World P) :
    referenceWeakInc (block k) w = { w with
      dns := .use (.reference k) :: w.dns
      reference := Function.update w.reference k
        { w.reference k with weakRefcnt := (w.reference k).weakRefcnt + 1 } } := rfl

def lastWeak (b : Reference Unit) : Bool := decide (b.weakRefcnt = 1) && b.ptr.isNone

theorem referenceWeakDec_block (k : ℕ) (w : World P) :
    referenceWeakDec (block k) w = { w with
      dns := if lastWeak (w.reference k) then
          .free (.reference k) :: .use (.reference k) :: w.dns
        else .use (.reference k) :: w.dns
      reference := Function.update w.reference k
        { w.reference k with weakRefcnt := (w.reference k).weakRefcnt - 1 } } := by
  have h1 : (w.reference k).weakRefcnt - 1 = 0 ↔ (w.reference k).weakRefcnt = 1 := by omega
  by_cases h : (w.reference k).weakRefcnt = 1
  · cases hp : (w.reference k).ptr <;> simp [referenceWeakDec, block, lastWeak, h, hp]
  · simp [referenceWeakDec, block, lastWeak, h1, h]

theorem referenceDec_block (k : ℕ) (w : World P) (n : ℕ)
    (hb : w.reference k = anchor true n) :
    referenceDec (block k) w = { w with
      dns := if n = 0 then
          .free (.reference k) :: .use (.reference k) :: .use (.reference k) :: w.dns
        else .use (.reference k) :: .use (.reference k) :: w.dns
      reference := Function.update w.reference k (anchor false n) } := by
  by_cases h : n = 0
  · subst h
    simp [referenceDec, block, hb, anchor]
  · simp [referenceDec, block, hb, anchor, h]

def requested (host : Host) (idx : Slot) (w : World P) : World P :=
  let r := w.nextRequest
  { w with
    nextRequest := r + 1
    dns := .use (.dnsRequest r) :: .use (.reference (w.session.me.getD 0)) ::
      .use (.dnsRequest r) :: .alloc (.dnsRequest r) :: w.dns
    request := Function.update w.request r { idx := idx, evdnsReq := true, session := w.session.me }
    reference := Function.update w.reference (w.session.me.getD 0)
      { w.reference (w.session.me.getD 0) with
        weakRefcnt := (w.reference (w.session.me.getD 0)).weakRefcnt + 1 }
    resolving := ⟨r, host⟩ :: w.resolving
    life := .use () :: .use () :: w.life
    session := { w.session with pendingResolutions := w.session.pendingResolutions + 1 } }

theorem dnsRequestNew_later (lib : Libs P) (c : ResolveChoices) (host : Host) (idx : Slot)
    (w : World P) (k : ℕ) (hme : w.session.me = some k) (hw : w.worker = true)
    (hc : c.calloc = true → c.inside = none) :
    dnsRequestNew lib c host idx w =
      if c.calloc then (true, requested host idx w) else (false, w) := by
  by_cases ha : c.calloc = true
  · simp [dnsRequestNew, dnsnameResolve, onSession, onRequest, onReference,
      referenceWeakInc_block, requested, ha, hme, hw, hc ha]
  · simp [dnsRequestNew, ha]

theorem dnsOk_requested {once : Prop} (host : Host) (idx : Slot) {w : World P} {k : ℕ}
    (h : DnsOk once (lookups w)) (hme : w.session.me = some k) :
    DnsOk once (lookups (requested host idx w)) ∧ (requested host idx w).session.me = some k := by
  refine ⟨?_, hme⟩
  obtain ⟨hreg, hanch⟩ : w.registered = true ∧ Anchored (lookups w) k := by
    cases h.placed with
    | unneeded me resolving => exact absurd (hme.symm.trans me) (by simp)
    | held j me registered anchored =>
      obtain rfl : k = j := Option.some.inj (hme.symm.trans me)
      exact ⟨registered, anchored⟩
    | left j me registered resolving anchored => exact absurd (hme.symm.trans me) (by simp)
  have hfresh : status w.dns (.dnsRequest w.nextRequest) = .fresh :=
    h.freshRequest w.nextRequest (Nat.le_refl _)
  have hlive : status w.dns (.reference k) = .live := hanch.live
  have hblock : w.reference k = anchor w.registered w.resolving.length := hanch.block
  have hold : ∀ l ∈ w.resolving, l.request ≠ w.nextRequest := by
    intro l hl hr
    have hp : status w.dns (.dnsRequest l.request) = .live := h.pending l hl
    rw [hr, hfresh] at hp
    cases hp
  have hs : Sound w.dns := h.sound
  constructor
  · simp [lookups, requested, hme, hfresh, hlive, hs]
  · intro l hl
    rcases List.mem_cons.mp hl with rfl | hl
    · simp [lookups, requested]
    · have hp : status w.dns (.dnsRequest l.request) = .live := h.pending l hl
      simp [lookups, requested, hold l hl, hp]
  · have hd : (w.resolving.map Lookup.request).Nodup := h.distinct
    refine List.nodup_cons.mpr ⟨?_, hd⟩
    intro hm
    obtain ⟨l, hl, hr⟩ := List.mem_map.mp hm
    exact hold l hl hr
  · intro r hr
    by_cases hrn : r = w.nextRequest
    · exact ⟨⟨w.nextRequest, host⟩, List.mem_cons_self, hrn.symm⟩
    · simp only [lookups, requested, status_use, status_alloc, DnsObj.dnsRequest.injEq, hrn,
        if_false] at hr
      obtain ⟨l, hl, rfl⟩ := h.requests r hr
      exact ⟨l, List.mem_cons_of_mem _ hl, rfl⟩
  · intro r hr
    have hr : w.nextRequest + 1 ≤ r := hr
    have hne : r ≠ w.nextRequest := by omega
    have hf : status w.dns (.dnsRequest r) = .fresh := h.freshRequest r (by
      show w.nextRequest ≤ r
      omega)
    simp [lookups, requested, hne, hf]
  · intro j hj
    have hf : status w.dns (.reference j) = .fresh := h.freshReference j hj
    simp [lookups, requested, hf]
  · refine .held k hme hreg ⟨?_, ?_, ?_⟩
    · simp [lookups, requested, hlive]
    · simp [lookups, requested, hme, hblock, anchor]
    · intro l hl
      rcases List.mem_cons.mp hl with rfl | hl
      · simp [lookups, requested, hme]
      · have hr : (w.request l.request).session = some k := hanch.requests l hl
        simp [lookups, requested, hold l hl, hr]
  · exact h.single
  · intro _ hno
    have hno : w.session.me = none := hno
    exact absurd (hme.symm.trans hno) (by simp)

def answered (r k : ℕ) (w : World P) : World P :=
  { w with
    dns := .free (.dnsRequest r) :: .use (.dnsRequest r) ::
      if lastWeak (w.reference k) then
        .free (.reference k) :: .use (.reference k) :: .use (.dnsRequest r) ::
          .use (.reference k) :: .use (.dnsRequest r) :: w.dns
      else .use (.reference k) :: .use (.dnsRequest r) ::
        .use (.reference k) :: .use (.dnsRequest r) :: w.dns
    request := Function.update w.request r
      { w.request r with evdnsReq := false, session := none }
    reference := Function.update w.reference k
      { w.reference k with weakRefcnt := (w.reference k).weakRefcnt - 1 } }

def resolved (lib : Libs P) (a : Answer) (c : ConnectChoices) (r : ℕ) (host : Host) (idx : Slot)
    (w : World P) : World P :=
  match a with
  | .error => httpServiceSessionRemove (sessionStateSet .errorResolvingDomain w)
  | .addresses families =>
    let w := { w with addrs := .free r :: .use r :: w.addrs }
    match families.find? usable with
    | some family =>
      httpServerConnect lib c ⟨family, host⟩ idx
        (onSession (fun s => { s with pendingResolutions := s.pendingResolutions - 1 }) w)
    | none => httpServiceSessionRemove (sessionStateSet .errorResolvingDomain w)

theorem dnsnameResolvedCb_anchored (lib : Libs P) (a : Answer) (c : ConnectChoices) (r k : ℕ)
    (host : Host) (w : World P) (hs : (w.request r).session = some k) :
    dnsnameResolvedCb lib a c r host w =
      if (w.reference k).ptr.isSome then
        resolved lib a c r host (w.request r).idx (answered r k w)
      else answered r k w := by
  have he : dnsRequestFree r (onRequest r (fun q => { q with evdnsReq := false })
      (referenceGet (some k) (onRequest r id w)).2) = answered r k w := by
    simp only [dnsRequestFree, onRequest, referenceGet_some, onReference, Function.update_self, hs,
      id, referenceWeakDec_block, Function.update_idem, Bool.false_eq_true, if_false, answered]
  have hr : (referenceGet ((onRequest r id w).request r).session (onRequest r id w)) =
      ((w.reference k).ptr.isSome, (referenceGet (some k) (onRequest r id w)).2) := by
    simp [onRequest, hs, referenceGet_some]
  have hi : ((referenceGet (some k) (onRequest r id w)).2.request r).idx = (w.request r).idx := by
    simp [referenceGet_some, onRequest]
  simp only [dnsnameResolvedCb, hr, he, hi]
  rfl

theorem mem_erase_request {l l' : Lookup} {ls : List Lookup}
    (hd : (ls.map Lookup.request).Nodup) (hl : l ∈ ls) (hl' : l' ∈ ls.erase l) :
    l' ∈ ls ∧ l'.request ≠ l.request := by
  have hmem := List.mem_of_mem_erase hl'
  refine ⟨hmem, fun hr => ?_⟩
  have hinj := List.inj_on_of_nodup_map hd hmem hl hr
  subst hinj
  exact (List.Nodup.of_map _ hd).not_mem_erase hl'

theorem anchored_unique {v : Lookups} {j k : ℕ} {l : Lookup} (hl : l ∈ v.resolving)
    (hj : Anchored v j) (hk : Anchored v k) : j = k :=
  Option.some.inj ((hj.requests l hl).symm.trans (hk.requests l hl))

theorem lt_of_live {once : Prop} {v : Lookups} {k : ℕ} (h : DnsOk once v)
    (hk : status v.dns (.reference k) = .live) : k < v.nextReference := by
  by_contra hn
  rw [h.freshReference k (by omega)] at hk
  cases hk

section Answered

variable {once : Prop} {w : World P} {l : Lookup} {k : ℕ}

def unlisted (l : Lookup) (w : World P) : World P := { w with resolving := w.resolving.erase l }

theorem answered_last (h : Anchored (lookups w) k) (hl : l ∈ w.resolving) :
    lastWeak (w.reference k) = true ↔
      w.registered = false ∧ w.resolving.erase l = [] := by
  have hb : w.reference k = anchor w.registered w.resolving.length := h.block
  have hlen := List.length_erase_of_mem hl
  have hpos := List.length_pos_of_mem hl
  rw [hb, ← List.length_eq_zero_iff, hlen]
  cases w.registered with
  | true => simp [anchor, lastWeak]
  | false =>
    simp only [anchor, lastWeak, Bool.and_eq_true, true_and]
    simp
    omega

theorem anchored_answered (h : DnsOk once (lookups w)) (hl : l ∈ w.resolving)
    (ha : Anchored (lookups w) k) (hnot : ¬ (w.registered = false ∧ w.resolving.erase l = [])) :
    Anchored (lookups (answered l.request k (unlisted l w))) k := by
  have hb : w.reference k = anchor w.registered w.resolving.length := ha.block
  have hk : status w.dns (.reference k) = .live := ha.live
  have hlast : lastWeak (w.reference k) = false := by
    simpa using (not_congr (answered_last ha hl)).mpr hnot
  have hlen := List.length_erase_of_mem hl
  have hpos := List.length_pos_of_mem hl
  constructor
  · simp [lookups, answered, unlisted, hlast, hk]
  · simp only [lookups, answered, unlisted, Function.update_self, hb, anchor, hlen]
    congr 1
    omega
  · intro l' hl'
    obtain ⟨hmem, hne⟩ := mem_erase_request h.distinct hl hl'
    have hr : (w.request l'.request).session = some k := ha.requests l' hmem
    simp [lookups, answered, unlisted, hne, hr]

theorem dnsOk_answered (h : DnsOk once (lookups w)) (hl : l ∈ w.resolving)
    (ha : Anchored (lookups w) k) :
    DnsOk once (lookups (answered l.request k (unlisted l w))) := by
  have hr : status w.dns (.dnsRequest l.request) = .live := h.pending l hl
  have hk : status w.dns (.reference k) = .live := ha.live
  have hs : Sound w.dns := h.sound
  have hmem : ∀ l', l' ∈ w.resolving.erase l → l' ∈ w.resolving ∧ l'.request ≠ l.request :=
    fun l' => mem_erase_request h.distinct hl
  constructor
  · cases hw : lastWeak (w.reference k) <;> simp [lookups, answered, unlisted, hw, hr, hk, hs]
  · intro l' hl'
    have hne := (hmem l' hl').2
    have hp : status w.dns (.dnsRequest l'.request) = .live := h.pending l' (hmem l' hl').1
    cases hw : lastWeak (w.reference k) <;> simp [lookups, answered, unlisted, hw, hne, hp]
  · exact h.distinct.sublist (List.Sublist.map _ List.erase_sublist)
  · intro r hlive
    have hne : r ≠ l.request := by
      rintro rfl
      simp [lookups, answered, unlisted] at hlive
    have hold : status w.dns (.dnsRequest r) = .live := by
      cases hw : lastWeak (w.reference k) <;>
        simpa [lookups, answered, unlisted, hw, hne] using hlive
    obtain ⟨l', hl', rfl⟩ := h.requests r hold
    have hll : l' ≠ l := fun hll => hne (congrArg Lookup.request hll)
    exact ⟨l', (List.mem_erase_of_ne hll).mpr hl', rfl⟩
  · intro r hle
    have hf : status w.dns (.dnsRequest r) = .fresh := h.freshRequest r hle
    have hne : r ≠ l.request := by
      rintro rfl
      rw [hr] at hf
      cases hf
    cases hw : lastWeak (w.reference k) <;> simp [lookups, answered, unlisted, hw, hne, hf]
  · intro j hle
    have hf : status w.dns (.reference j) = .fresh := h.freshReference j hle
    have hne : j ≠ k := by
      rintro rfl
      rw [hk] at hf
      cases hf
    cases hw : lastWeak (w.reference k) <;> simp [lookups, answered, unlisted, hw, hne, hf]
  · cases h.placed with
    | unneeded me resolving => exact absurd hl (by rw [show w.resolving = [] from resolving]; simp)
    | held j me registered anchored =>
      obtain rfl := anchored_unique hl anchored ha
      refine .held j me registered (anchored_answered h hl ha fun hn => ?_)
      exact absurd (hn.1.symm.trans registered) (by decide)
    | left j me registered resolving anchored =>
      obtain rfl := anchored_unique hl anchored ha
      by_cases he : w.resolving.erase l = []
      · exact .unneeded me he
      · exact .left j me registered he (anchored_answered h hl ha fun hn => he hn.2)
  · exact h.single
  · intro ho hme he j hj
    have hme : w.session.me = none := hme
    have he : w.resolving.erase l = [] := he
    have hreg : w.registered = false := by
      cases h.placed with
      | unneeded me resolving =>
        exact absurd hl (by rw [show w.resolving = [] from resolving]; simp)
      | held j me registered anchored => exact absurd (hme.symm.trans me) (by simp)
      | left j me registered resolving anchored => exact registered
    refine ⟨hreg, ?_⟩
    obtain rfl : j = k := by
      have h1 := h.single ho
      have h2 := lt_of_live h hk
      have h3 : j < (lookups w).nextReference := hj
      omega
    have hlast := (answered_last ha hl).mpr ⟨hreg, he⟩
    simp [lookups, answered, unlisted, hlast]

end Answered

section Release

variable {once : Prop} {w w' : World P}

theorem lookups_of_rest (h : rest w' = rest w) : lookups w' = lookups w := by
  have hs := congrArg Rest.session h
  have hd := congrArg Rest.dns h
  have hq := congrArg Rest.request h
  have hr := congrArg Rest.reference h
  have hl := congrArg Rest.resolving h
  have hg := congrArg Rest.registered h
  have hn := congrArg Rest.nextRequest h
  have hm := congrArg Rest.nextReference h
  simp only [rest] at hs hd hq hr hl hg hn hm
  simp only [lookups, hs, hd, hq, hr, hl, hg, hn, hm]

theorem lookups_freeSlot (i : Slot) (w : World P) : lookups (freeSlot i w) = lookups w := by
  rw [freeSlot]
  split
  · next h _ =>
    show lookups (httpSessionFree h w) = lookups w
    exact lookups_of_rest (rest_httpSessionFree h w)
  · rfl

def dropMe (w : World P) : World P :=
  onSession (fun s => { s with me := none }) (onReference referenceDec w.session.me w)

theorem lookups_sessionFree (w : World P) :
    lookups (sessionFree w) =
      lookups (dropMe (freeSlot .joke (freeSlot .name (freeSlot .client w)))) := by
  have hstr : ∀ (s : Option CStr) (f : Session → Session) (u : World P),
      (∀ x, (f x).me = x.me) → lookups (onSession f (freeStr s u)) = lookups u := by
    intro s f u hf
    cases s <;> simp [lookups, onSession, freeStr, hf]
  simp only [sessionFree]
  refine (hstr _ _ _ fun _ => rfl).trans ?_
  refine (hstr _ _ _ fun _ => rfl).trans ?_
  exact hstr _ _ _ fun _ => rfl

theorem dnsOk_dropMe (h : DnsOk once (lookups w)) (hreg : w.registered = true)
    (hw : lookups w' = { lookups w with registered := false }) :
    DnsOk once (lookups (dropMe w')) := by
  have hme : w'.session.me = w.session.me := congrArg Lookups.me hw
  have hres : w'.resolving = w.resolving := congrArg Lookups.resolving hw
  have hdns : w'.dns = w.dns := congrArg Lookups.dns hw
  have hrefs : w'.reference = w.reference := congrArg Lookups.reference hw
  have hreq : w'.request = w.request := congrArg Lookups.request hw
  have hreg' : w'.registered = false := congrArg Lookups.registered hw
  have hn : w'.nextRequest = w.nextRequest := congrArg Lookups.nextRequest hw
  have hm : w'.nextReference = w.nextReference := congrArg Lookups.nextReference hw
  cases h.placed with
  | unneeded me resolving =>
    have me : w.session.me = none := me
    have resolving : w.resolving = [] := resolving
    have hv : lookups (dropMe w') = { lookups w with registered := false } := by
      simp only [dropMe, hme, me, onReference]
      simp [lookups, onSession, hres, hdns, hrefs, hreq, hreg', hn, hm, me]
    rw [hv]
    refine { h with placed := .unneeded me resolving, settled := ?_ }
    intro ho _ _ k hk
    exact ⟨rfl, (h.settled ho me resolving k hk).2⟩
  | held k me registered anchored =>
    have me : w.session.me = some k := me
    have hk : status w.dns (.reference k) = .live := anchored.live
    have hb : w.reference k = anchor w.registered w.resolving.length := anchored.block
    have hs : Sound w.dns := h.sound
    have hb' : w'.reference k = anchor true w.resolving.length := by rw [hrefs, hb, hreg]
    have hv : lookups (dropMe w') = { lookups w with
        registered := false
        me := none
        reference := Function.update w.reference k (anchor false w.resolving.length)
        dns := if w.resolving.length = 0 then
            .free (.reference k) :: .use (.reference k) :: .use (.reference k) :: w.dns
          else .use (.reference k) :: .use (.reference k) :: w.dns } := by
      simp only [dropMe, hme, me, onReference, referenceDec_block k w' _ hb']
      simp [lookups, onSession, hres, hdns, hrefs, hreq, hreg', hn, hm]
    rw [hv]
    by_cases he : w.resolving = []
    · have hl : w.resolving.length = 0 := by rw [he]; rfl
      refine { h with sound := ?_, pending := ?_, requests := ?_, freshRequest := ?_
                      freshReference := ?_, placed := .unneeded rfl he, settled := ?_ }
      · simp [hl, hk, hs]
      · intro l hl
        simp [lookups, he] at hl
      · simpa [hl, lookups] using h.requests
      · simpa [hl, lookups] using h.freshRequest
      · intro j hj
        have hf : status w.dns (.reference j) = .fresh := h.freshReference j hj
        have hne : j ≠ k := by
          rintro rfl
          rw [hk] at hf
          cases hf
        simp [hl, hne, hf]
      · intro ho _ _ j hj
        refine ⟨rfl, ?_⟩
        obtain rfl : j = k := by
          have h1 := h.single ho
          have h2 := lt_of_live h hk
          have h3 : j < (lookups w).nextReference := hj
          omega
        simp [hl]
    · have hl : ¬ w.resolving.length = 0 := fun hl => he (List.eq_nil_of_length_eq_zero hl)
      refine { h with sound := ?_, pending := ?_, requests := ?_, freshRequest := ?_
                      freshReference := ?_, placed := .left k rfl rfl he ⟨?_, ?_, ?_⟩, settled := ?_ }
      · simp [hl, hk, hs]
      · simpa [hl, lookups] using h.pending
      · simpa [hl, lookups] using h.requests
      · simpa [hl, lookups] using h.freshRequest
      · simpa [hl, lookups] using h.freshReference
      · simp [hl, hk]
      · simp [lookups]
      · exact anchored.requests
      · intro _ _ he'
        exact absurd he' he
  | left k me registered resolving anchored => exact absurd (hreg.symm.trans registered) (by decide)

theorem dnsOk_sessionFree (h : DnsOk once (lookups w)) (hreg : w.registered = true)
    (hw : lookups w' = { lookups w with registered := false }) :
    DnsOk once (lookups (sessionFree w')) := by
  rw [lookups_sessionFree]
  refine dnsOk_dropMe h hreg ?_
  rw [lookups_freeSlot, lookups_freeSlot, lookups_freeSlot, hw]

end Release

theorem dnsOk_sessionReferenceNew {once once' : Prop} {w : World P} (ok : Bool)
    (h : DnsOk once (lookups w)) (hres : w.resolving = []) (hle : once' → once)
    (hreg : w.registered = true) (hfirst : once' → w.nextReference = 0) (f : Session → Session)
    (hf : ∀ s, (f s).me = (sessionReferenceNew ok w).1) :
    DnsOk once' (lookups (onSession f (sessionReferenceNew ok w).2)) := by
  have hs : Sound w.dns := h.sound
  have hv := hf w.session
  cases ok with
  | false =>
    have hl : lookups (onSession f (sessionReferenceNew false w).2) =
        { lookups w with me := none } := by
      simpa [lookups, onSession, sessionReferenceNew] using hv
    rw [hl]
    refine { h with placed := .unneeded rfl hres, single := ?_, settled := ?_ }
    · exact fun ho => h.single (hle ho)
    · intro ho _ _ k hk
      have hk : k < w.nextReference := hk
      have := hfirst ho
      omega
  | true =>
    have hfresh : status w.dns (.reference w.nextReference) = .fresh :=
      h.freshReference w.nextReference (Nat.le_refl _)
    have hl : lookups (onSession f (sessionReferenceNew true w).2) = { lookups w with
        me := some w.nextReference
        nextReference := w.nextReference + 1
        dns := .alloc (.reference w.nextReference) :: w.dns
        reference := Function.update w.reference w.nextReference (referenceNew () false) } := by
      simpa [lookups, onSession, sessionReferenceNew] using hv
    rw [hl]
    refine { h with
      sound := ⟨hfresh, hs⟩
      pending := ?_, requests := ?_, freshRequest := ?_, freshReference := ?_
      placed := .held w.nextReference rfl hreg ⟨?_, ?_, ?_⟩, single := ?_, settled := ?_ }
    · simpa [lookups] using h.pending
    · simpa [lookups] using h.requests
    · simpa [lookups] using h.freshRequest
    · intro k hk
      have hk : w.nextReference + 1 ≤ k := hk
      have hf : status w.dns (.reference k) = .fresh := h.freshReference k (by
        show w.nextReference ≤ k
        omega)
      have hne : k ≠ w.nextReference := by omega
      simp [hne, hf]
    · simp
    · simp [lookups, hres, hreg, anchor, referenceNew]
    · intro l hm
      rw [show (lookups w).resolving = [] from hres] at hm
      cases hm
    · intro ho
      have := hfirst ho
      show w.nextReference + 1 ≤ 1
      omega
    · intro _ hme
      cases hme

end Tigera.HeldReferences
