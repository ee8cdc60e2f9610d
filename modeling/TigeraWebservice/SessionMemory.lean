import TigeraWebservice.HeldReferences

/-!
# The memory of a session

The invariants of connections and of lookups together with the life of the
session itself. Removing a session keeps them and leaves nothing held; a
change of connections only, or of the session's own fields only, keeps them.
-/

set_option autoImplicit false

namespace Tigera.SessionMemory
open ResourceLedger Tigera.CountedReference Tigera.SessionWorld Tigera.SocketChannel
open Tigera.SessionProgram Tigera.HeldConnections Tigera.HeldReferences

variable {P : Type}

/-- `client_msg_complete` has run once at most. -/
def Once (w : World P) : Prop := w.calls.count .clientMsgComplete ≤ 1

structure Memory (tidy : Prop) (w : World P) : Prop where
  life : Sound w.life
  alive : w.registered = true → status w.life () = .live
  released : w.registered = false → w.crashed = false → status w.life () ≠ .live
  removes : w.calls.count .sessionRemove ≤ if w.registered then 0 else 1
  conns : ConnsOk tidy (wires w)
  dns : DnsOk (Once w) (lookups w)
  gone : w.registered = false → w.crashed = false →
    (∀ i, w.session.httpSessions i = none) ∧ w.session.me = none
  worker : w.registered = true → w.worker = true
  begun : 0 < w.nextConn
  blocks : w.nextReference ≤ w.calls.count .clientMsgComplete

section Frame

variable {tidy : Prop} {w w' : World P}

theorem memory_of_rest (h : Memory tidy w) (hr : rest w' = rest w)
    (hc : ConnsOk tidy (wires w')) (hn : 0 < w'.nextConn) : Memory tidy w' := by
  have hl := lookups_of_rest hr
  have h1 : w'.life = w.life := congrArg Rest.life hr
  have h2 : w'.registered = w.registered := congrArg Rest.registered hr
  have h3 : w'.crashed = w.crashed := congrArg Rest.crashed hr
  have h4 : w'.calls = w.calls := congrArg Rest.calls hr
  have h5 : w'.session = w.session := congrArg Rest.session hr
  have h6 : w'.worker = w.worker := congrArg Rest.worker hr
  constructor
  · rw [h1]; exact h.life
  · rw [h1, h2]; exact h.alive
  · rw [h1, h2, h3]; exact h.released
  · rw [h2, h4]; exact h.removes
  · exact hc
  · rw [hl, Once, h4]; exact h.dns
  · rw [h2, h3, h5]; exact h.gone
  · rw [h2, h6]; exact h.worker
  · exact hn
  · rw [h4, show w'.nextReference = w.nextReference from congrArg Rest.nextReference hr]
    exact h.blocks

theorem memory_onSession (h : Memory tidy w) (hreg : w.registered = true)
    (f : Session → Session) (hs : (f w.session).httpSessions = w.session.httpSessions)
    (hm : (f w.session).me = w.session.me) : Memory tidy (onSession f w) := by
  have hv : wires (onSession f w) = wires w := by simp [wires, onSession, hs]
  have hl : lookups (onSession f w) = lookups w := by simp [lookups, onSession, hm]
  constructor
  · exact ⟨h.alive hreg, h.life⟩
  · exact h.alive
  · exact h.released
  · exact h.removes
  · rw [hv]; exact h.conns
  · rw [hl]; exact h.dns
  · intro hno
    exact absurd (hreg.symm.trans hno) (by decide)
  · exact h.worker
  · exact h.begun
  · exact h.blocks

theorem memory_call (h : Memory tidy w) (c : Call) (hr : c ≠ .sessionRemove)
    (hm : c ≠ .clientMsgComplete) : Memory tidy (call c w) := by
  have hcr : (call c w).calls.count .sessionRemove = w.calls.count .sessionRemove :=
    List.count_cons_of_ne hr
  have hcm : (call c w).calls.count .clientMsgComplete = w.calls.count .clientMsgComplete :=
    List.count_cons_of_ne hm
  exact { h with
    removes := by rw [hcr]; exact h.removes
    dns := by rw [Once, hcm]; exact h.dns
    blocks := by rw [hcm]; exact h.blocks }

end Frame

section Release

variable {tidy : Prop} {w w' : World P}

def MeHeld (w : World P) : Prop :=
  ∀ k, w.session.me = some k → ∃ n : ℕ, w.reference k = anchor true n

theorem meHeld (h : Memory tidy w) (hreg : w.registered = true) : MeHeld w := by
  intro k hk
  cases h.dns.placed with
  | unneeded me resolving => exact absurd (hk.symm.trans me) (by simp)
  | held j me registered anchored =>
    obtain rfl : k = j := Option.some.inj (hk.symm.trans me)
    refine ⟨w.resolving.length, ?_⟩
    have hb : w.reference k = anchor w.registered w.resolving.length := anchored.block
    rw [hb, hreg]
  | left j me registered resolving anchored => exact absurd (hk.symm.trans me) (by simp)

theorem onReference_referenceDec (h : MeHeld w) :
    ∃ d r, onReference referenceDec w.session.me w = { w with dns := d, reference := r } := by
  cases hme : w.session.me with
  | none => exact ⟨w.dns, w.reference, rfl⟩
  | some k =>
    obtain ⟨n, hb⟩ := h k hme
    exact ⟨_, _, referenceDec_block k w n hb⟩

theorem rest_freeSlot (i : Slot) (w : World P) :
    rest (freeSlot i w) =
      { rest w with session := setSlot i none w.session, life := .use () :: w.life } := by
  cases hi : w.session.httpSessions i with
  | none => simp only [freeSlot, hi]; rfl
  | some n =>
    have hr := rest_httpSessionFree n w
    have hrest : rest (freeSlot i w) = { rest (httpSessionFree n w) with
        session := setSlot i none (rest (httpSessionFree n w)).session
        life := .use () :: (rest (httpSessionFree n w)).life } := by
      simp only [freeSlot, hi]
      rfl
    rw [hrest, hr]
    rfl

def freedStr : Option CStr → List (Entry ℕ) → List (Entry ℕ)
  | none, l => l
  | some s, l => .free s.addr :: l

theorem freeStr_eq (s : Option CStr) (w : World P) :
    freeStr s w = { w with strs := freedStr s w.strs } := by
  cases s <;> rfl

/-- The three turns of the loop of `session_free`. -/
def freeSlots (w : World P) : World P := freeSlot .joke (freeSlot .name (freeSlot .client w))

theorem rest_freeSlots (w : World P) :
    rest (freeSlots w) = { rest w with
      session := { w.session with httpSessions := fun _ => none }
      life := .use () :: .use () :: .use () :: w.life } := by
  have h1 := rest_freeSlot .client w
  have h2 := rest_freeSlot .name (freeSlot .client w)
  have h3 := rest_freeSlot .joke (freeSlot .name (freeSlot .client w))
  have hs1 : (freeSlot .client w).session = setSlot .client none w.session :=
    congrArg Rest.session h1
  have hl1 : (freeSlot .client w).life = .use () :: w.life := congrArg Rest.life h1
  have hs2 := congrArg Rest.session h2
  have hl2 := congrArg Rest.life h2
  simp only [rest] at hs2 hl2
  rw [freeSlots, h3, h2, h1, hs2, hl2, hs1, hl1]
  simp only [setSlot]
  congr 2
  funext i
  cases i <;> simp [Function.update]

theorem sessionFree_slots (h : MeHeld (freeSlots w)) :
    ∃ d r l, sessionFree w = { freeSlots w with
      dns := d
      reference := r
      strs := l
      session := { (freeSlots w).session with
        me := none, name := none, surname := none, joke := none }
      life := .free () :: .use () :: .use () :: .use () :: .use () :: (freeSlots w).life } := by
  obtain ⟨d, r, hme⟩ := onReference_referenceDec h
  simp only [sessionFree]
  rw [show freeSlot .joke (freeSlot .name (freeSlot .client w)) = freeSlots w from rfl, hme]
  generalize freeSlots w = x
  simp only [freeStr_eq]
  exact ⟨d, r, _, rfl⟩

theorem connsOk_freeSlots (h : ConnsOk tidy (wires w)) : ConnsOk tidy (wires (freeSlots w)) :=
  connsOk_freeSlot (connsOk_freeSlot (connsOk_freeSlot h .client) .name) .joke

theorem memory_sessionFree (h : Memory tidy w) (hreg : w.registered = true)
    (hw : wires w' = wires w) (hl : lookups w' = { lookups w with registered := false })
    (hlife : w'.life = w.life) (hcalls : w'.calls.count .sessionRemove ≤ 1)
    (honce : w'.calls.count .clientMsgComplete = w.calls.count .clientMsgComplete) :
    Memory tidy (sessionFree w') ∧ (sessionFree w').registered = false ∧
      (sessionFree w').crashed = w'.crashed ∧ (sessionFree w').calls = w'.calls := by
  have hdns := dnsOk_sessionFree h.dns hreg hl
  have hrest := rest_freeSlots w'
  have h1 : (freeSlots w').life = .use () :: .use () :: .use () :: w'.life :=
    congrArg Rest.life hrest
  have h2 : (freeSlots w').registered = w'.registered := congrArg Rest.registered hrest
  have h3 : (freeSlots w').crashed = w'.crashed := congrArg Rest.crashed hrest
  have h4 : (freeSlots w').calls = w'.calls := congrArg Rest.calls hrest
  have h5 : (freeSlots w').session = { w'.session with httpSessions := fun _ => none } :=
    congrArg Rest.session hrest
  have h6 : (freeSlots w').reference = w'.reference := congrArg Rest.reference hrest
  have hreg' : w'.registered = false := congrArg Lookups.registered hl
  have hheld : MeHeld (freeSlots w') := by
    intro k hk
    have hme : w'.session.me = w.session.me := congrArg Lookups.me hl
    have href : w'.reference = w.reference := congrArg Lookups.reference hl
    rw [h6, href]
    rw [h5] at hk
    exact meHeld h hreg k (hme ▸ hk)
  have hconns : ConnsOk tidy (wires (freeSlots w')) := connsOk_freeSlots (by rw [hw]; exact h.conns)
  have hn : (freeSlots w').nextConn = w.nextConn := by
    rw [freeSlots, nextConn_freeSlot, nextConn_freeSlot, nextConn_freeSlot]
    exact congrArg Wires.next hw
  obtain ⟨d, r, l, he⟩ := sessionFree_slots hheld
  rw [he] at hdns ⊢
  refine ⟨?_, h2.trans hreg', h3, h4⟩
  have halive := h.alive hreg
  constructor
  · simp only [h1, hlife]
    simp [halive, h.life]
  · intro hno
    exact absurd (hno.symm.trans (h2.trans hreg')) (by decide)
  · intro _ _
    simp
  · simp only [h2, hreg', h4]
    exact hcalls
  · simp only [wires, h5] at hconns ⊢
    exact hconns
  · simp only [Once, h4, honce]
    exact hdns
  · intro _ _
    simp [h5]
  · intro hno
    exact absurd (hno.symm.trans (h2.trans hreg')) (by decide)
  · simp only [hn]
    exact h.begun
  · have hr : (freeSlots w').nextReference = w.nextReference :=
      (congrArg Rest.nextReference hrest).trans (congrArg Lookups.nextReference hl)
    simp only [hr, h4, honce]
    exact h.blocks

end Release

end Tigera.SessionMemory
