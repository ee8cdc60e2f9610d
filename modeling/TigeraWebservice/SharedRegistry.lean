import TigeraWebservice.LockedObject
import TigeraWebservice.SessionRegistry

/-!
# The session registry among the workers

`http_service_session_add` and `http_service_session_remove` in the single
assignments of `list.c`, each made while its worker holds `session_mutex` and
other workers' steps come in between. The allocation of a node succeeds. Whatever
the calls are they are answered in the order in which they give the mutex back,
and workers that remove what they have entered make the calls of the registry.
-/

set_option autoImplicit false

namespace Tigera.SharedRegistry
open ResourceLedger TransitionRuns LockedObject LinkChain Tigera.DoublyLinkedList
open Tigera.SessionRegistry (Registry Exact accepted removed standing)

structure Shared where
  sessions : NodeList ℕ
  released : List ℕ

/-- `hint` tells where the allocator would place the node of the session. -/
inductive Request where
  | add (worker session hint : ℕ)
  | remove (worker session : ℕ)
  deriving DecidableEq

inductive Outcome where
  | added
  | removed (found : Bool)
  deriving DecidableEq

inductive Point where
  | allocating (session hint : ℕ)
  | filling (session node : ℕ)
  | linking (node : ℕ)
  | backing (node : ℕ)
  | ending (node : ℕ)
  | opening (session : ℕ)
  | searching (session : ℕ) (node : Option ℕ)
  | unlinking (session node : ℕ)
  | relinking (session node : ℕ)
  | retailing (session node : ℕ)
  | freeing (session node : ℕ)
  | releasing (session : ℕ)

/-- An address that is not in use: the one hinted at, if it is free. -/
def malloc (hint : ℕ) (l : NodeList ℕ) : ℕ :=
  if (l.node hint).isNone then hint
  else ((List.range (l.made + 1)).find? fun a => (l.node a).isNone).getD 0

def goOn (p : Point) (s : Shared) (l : Option (NodeList ℕ)) : Option ((Point ⊕ Outcome) × Shared) :=
  l.map fun l => (.inl p, { s with sessions := l })

def lockedStep : Point → Shared → Option ((Point ⊕ Outcome) × Shared)
  -- `list_push_back`
  | .allocating session hint, s =>
    goOn (.filling session (malloc hint s.sessions)) s
      (some (nodeNew (malloc hint s.sessions) s.sessions))
  | .filling session a, s =>
    goOn (.linking a) s (alter a (fun n => { n with data := some session }) s.sessions)
  | .linking a, s => goOn (.backing a) s (store s.sessions.tail (some a) s.sessions)
  | .backing a, s =>
    goOn (.ending a) s (alter a (fun n => { n with previous := s.sessions.tail }) s.sessions)
  | .ending a, s => some (.inr .added, { s with sessions := { s.sessions with tail := .next a } })
  -- `list_foreach`
  | .opening session, s => some (.inl (.searching session s.sessions.head), s)
  | .searching _ none, s => some (.inr (.removed false), s)
  | .searching session (some a), s =>
    (s.sessions.node a).map fun n =>
      (.inl (if n.data = some session then .unlinking session a else .searching session n.next), s)
  -- `list_remove`
  | .unlinking session a, s =>
    (s.sessions.node a).bind fun n =>
      goOn (.relinking session a) s (store n.previous n.next s.sessions)
  | .relinking session a, s =>
    (s.sessions.node a).bind fun n =>
      goOn (.retailing session a) s (setPrevious n.next n.previous s.sessions)
  | .retailing session a, s =>
    (s.sessions.node a).bind fun n =>
      goOn (.freeing session a) s (some (if s.sessions.tail = .next a
        then { s.sessions with tail := n.previous } else s.sessions))
  | .freeing session a, s => goOn (.releasing session) s (nodeFree a s.sessions)
  | .releasing session, s =>
    some (.inr (.removed true), { s with released := session :: s.released })

def pointOf : Request → Point
  | .add _ session hint => .allocating session hint
  | .remove _ session => .opening session

/-- The calls of the registry under its mutex. -/
def calls : Program Shared Request Outcome Point where
  mode _ := .exclusive
  prepare r _ := some (pointOf r)
  step := lockedStep

theorem calls_lawful : Lawful calls :=
  ⟨fun _ _ _ _ _ _ => rfl, fun _ _ _ _ _ _ hm => nomatch hm⟩

variable {l l' : NodeList ℕ} {xs ys zs : List (ℕ × Option ℕ)} {s u : Shared} {r : Request}
  {o : Outcome} {session hint a : ℕ} {d : Option ℕ}

theorem malloc_free (h : Represents l xs) (hint : ℕ) : l.node (malloc hint l) = none := by
  rw [malloc]
  split
  · next hfree => exact Option.isNone_iff_eq_none.mp hfree
  · cases hfind : (List.range (l.made + 1)).find? fun a => (l.node a).isNone with
    | some a =>
      have hnone := List.find?_some hfind
      exact Option.isNone_iff_eq_none.mp hnone
    | none =>
      -- there are more addresses than nodes
      have hall : List.range (l.made + 1) ⊆ addresses xs := by
        intro a ha
        by_contra hno
        have hnone := List.find?_eq_none.mp hfind a ha
        rw [h.only a hno] at hnone
        exact hnone rfl
      have hlength := (List.subperm_of_subset List.nodup_range hall).length_le
      rw [List.length_range, addresses, List.length_map] at hlength
      exact absurd (Nat.le_trans hlength h.made) (Nat.not_succ_le_self _)

theorem steps_goOn {p q : Point} (h : lockedStep p s = goOn q s (some l))
    (rest : Steps calls q { s with sessions := l } o u) : Steps calls p s o u :=
  .more h rest

theorem adding_steps
    (h : listPushBack (malloc hint s.sessions) (some session) s.sessions = some l) :
    Steps calls (.allocating session hint) s .added { s with sessions := l } := by
  simp only [listPushBack, Option.bind_eq_bind, Option.bind_eq_some_iff] at h
  obtain ⟨l1, h1, l2, h2, l3, h3, hl⟩ := h
  obtain rfl := Option.some.inj hl
  generalize ha : malloc hint s.sessions = a at h1 h2 h3
  refine steps_goOn (q := .filling session a) (l := nodeNew a s.sessions) (by rw [← ha]; rfl) ?_
  refine steps_goOn (congrArg (goOn (.linking a) _) h1) ?_
  refine steps_goOn (congrArg (goOn (.backing a) _) h2) ?_
  refine steps_goOn (congrArg (goOn (.ending a) _) h3) ?_
  exact .last rfl

theorem removing_steps (h : listRemove (some a) s.sessions = some (d, l)) :
    Steps calls (.unlinking session a) s (.removed true)
      { sessions := l, released := session :: s.released } := by
  simp only [listRemove, Option.bind_eq_bind, Option.bind_eq_some_iff] at h
  obtain ⟨n, hn, l1, h1, n1, hn1, l2, h2, n2, hn2, l3, h3, hl⟩ := h
  obtain ⟨-, rfl⟩ := Prod.mk.inj (Option.some.inj hl)
  refine steps_goOn ((congrArg (Option.bind · _) hn).trans
    (congrArg (goOn (.relinking session a) _) h1)) ?_
  refine steps_goOn ((congrArg (Option.bind · _) hn1).trans
    (congrArg (goOn (.retailing session a) _) h2)) ?_
  refine steps_goOn (q := .freeing session a) (congrArg (Option.bind · _) hn2) ?_
  refine steps_goOn (congrArg (goOn (.releasing session) _) h3) ?_
  exact .last rfl

theorem searching_step {n : Node ℕ (Option ℕ)} (hn : s.sessions.node a = some n) :
    lockedStep (.searching session (some a)) s = some (.inl (if n.data = some session
      then .unlinking session a else .searching session n.next), s) := by
  rw [lockedStep, hn]
  rfl

theorem searching_found (xs : List (ℕ × Option ℕ)) (hd : ∀ x ∈ ys, x.2 ≠ some session)
    (h : Represents s.sessions (xs ++ (ys ++ (a, some session) :: zs)))
    (rest : Steps calls (.unlinking session a) s o u) :
    Steps calls (.searching session (first (ys ++ (a, some session) :: zs) none)) s o u := by
  induction ys generalizing xs with
  | nil =>
    refine .more ((searching_step (linked_node h.linked)).trans ?_) rest
    rw [if_pos rfl]
  | cons y ys ih =>
    have hy := hd y List.mem_cons_self
    rw [List.cons_append] at h
    have hrest := ih (xs ++ [y]) (fun x hx => hd x (List.mem_cons_of_mem _ hx))
      (by rwa [List.append_assoc])
    refine .more ((searching_step (linked_node h.linked)).trans ?_) hrest
    rw [if_neg hy]

theorem searching_missing (xs : List (ℕ × Option ℕ)) (hd : ∀ x ∈ ys, x.2 ≠ some session)
    (h : Represents s.sessions (xs ++ ys)) :
    Steps calls (.searching session (first ys none)) s (.removed false) s := by
  induction ys generalizing xs with
  | nil => exact .last rfl
  | cons y ys ih =>
    have hy := hd y List.mem_cons_self
    have hrest := ih (xs ++ [y]) (fun x hx => hd x (List.mem_cons_of_mem _ hx))
      (by rwa [List.append_assoc])
    refine .more ((searching_step (linked_node h.linked)).trans ?_) hrest
    rw [if_neg hy]

theorem executes_add (worker : ℕ)
    (h : listPushBack (malloc hint s.sessions) (some session) s.sessions = some l) :
    Executes calls (.add worker session hint) s .added { s with sessions := l } :=
  ⟨_, rfl, adding_steps h⟩

theorem executes_remove (worker : ℕ) (hd : ∀ x ∈ xs, x.2 ≠ some session)
    (h : Represents s.sessions (xs ++ (a, some session) :: ys))
    (hl : listRemove (some a) s.sessions = some (d, l)) :
    Executes calls (.remove worker session) s (.removed true)
      { sessions := l, released := session :: s.released } := by
  refine ⟨_, rfl, .more rfl ?_⟩
  rw [h.head]
  exact searching_found [] hd h (removing_steps hl)

theorem executes_missing (worker : ℕ) (hd : ∀ x ∈ xs, x.2 ≠ some session)
    (h : Represents s.sessions xs) :
    Executes calls (.remove worker session) s (.removed false) s := by
  refine ⟨_, rfl, .more rfl ?_⟩
  rw [h.head]
  exact searching_missing [] hd h

structure Members where
  members : List ℕ
  released : List ℕ

def serve (m : Members) : Request → Outcome × Members
  | .add _ session _ => (.added, { m with members := m.members ++ [session] })
  | .remove _ session =>
    if session ∈ m.members then
      (.removed true, ⟨m.members.erase session, session :: m.released⟩)
    else (.removed false, m)

def Holds (s : Shared) (m : Members) : Prop :=
  s.released = m.released ∧
    ∃ xs, Represents s.sessions xs ∧ xs.map Prod.snd = m.members.map some

theorem holds_empty : Holds ⟨listNew, []⟩ ⟨[], []⟩ := ⟨rfl, [], represents_new, rfl⟩

theorem member_node {m : List ℕ} (hx : xs.map Prod.snd = m.map some) (hm : session ∈ m) :
    ∃ ys a zs, xs = ys ++ (a, some session) :: zs ∧ (∀ x ∈ ys, x.2 ≠ some session) ∧
      (ys ++ zs).map Prod.snd = (m.erase session).map some := by
  obtain ⟨before, after, hno, rfl, herase⟩ := List.exists_erase_eq hm
  rw [List.map_append, List.map_cons, List.map_eq_append_iff] at hx
  obtain ⟨ys, rest, rfl, hys, hrest⟩ := hx
  obtain ⟨⟨a, d⟩, zs, rfl, hd, hzs⟩ := List.map_eq_cons_iff.mp hrest
  obtain rfl : d = some session := hd
  refine ⟨ys, a, zs, rfl, ?_, ?_⟩
  · intro x hx he
    have hmem : x.2 ∈ before.map some := hys ▸ List.mem_map_of_mem hx
    obtain ⟨t, ht, hts⟩ := List.mem_map.mp hmem
    obtain rfl := Option.some.inj (hts.trans he)
    exact hno ht
  · rw [herase, List.map_append, List.map_append, hys, hzs]

theorem executes_serve {m : Members} (h : Holds s m) (r : Request) :
    ∃ u, Executes calls r s (serve m r).1 u ∧ Holds u (serve m r).2 := by
  obtain ⟨hr, xs, hx, hd⟩ := h
  cases r with
  | add worker session hint =>
    obtain ⟨l, hl, hx'⟩ := listPushBack_spec (some session) hx (malloc_free hx hint)
    refine ⟨_, executes_add worker hl, hr, _, hx', ?_⟩
    simp only [serve, List.map_append, hd, List.map_cons, List.map_nil]
  | remove worker session =>
    by_cases hm : session ∈ m.members
    · obtain ⟨ys, a, zs, rfl, hys, herase⟩ := member_node hd hm
      obtain ⟨l, hl, hx'⟩ := listRemove_spec hx
      rw [serve, if_pos hm]
      exact ⟨_, executes_remove worker hys hx hl, congrArg (session :: ·) hr, _, hx', herase⟩
    · have hmissing : ∀ x ∈ xs, x.2 ≠ some session := by
        intro x hxs he
        have hmem : x.2 ∈ m.members.map some := hd ▸ List.mem_map_of_mem hxs
        obtain ⟨t, ht, hts⟩ := List.mem_map.mp hmem
        obtain rfl := Option.some.inj (hts.trans he)
        exact hm ht
      rw [serve, if_neg hm]
      exact ⟨s, executes_missing worker hmissing hx, hr, xs, hx, hd⟩

theorem serve_simulated (s : Shared) (m : Members) (r : Request) (o : Outcome) (u : Shared)
    (h : Holds s m) (he : Executes calls r s o u) : o = (serve m r).1 ∧ Holds u (serve m r).2 := by
  obtain ⟨u', he', hu'⟩ := executes_serve h r
  obtain ⟨rfl, rfl⟩ := executes_unique he' he
  exact ⟨rfl, hu'⟩

/-- What the registry is before any worker has started. -/
def empty : Shared := ⟨listNew, []⟩

theorem calls_answering : Answering calls empty := by
  intro log u h r
  obtain ⟨hu, -⟩ := serial_simulates serve_simulated h holds_empty
  obtain ⟨u', he, -⟩ := executes_serve hu r
  exact ⟨_, u', he⟩

abbrev Workers := State ℕ Shared Request Outcome Point

variable {w w' : Workers} {es fs : List (LockedObject.Event ℕ Request)} {i j : ℕ}

/-- The calls that have returned, in the order in which they gave the mutex back. -/
def requests (w : Workers) : List Request := w.log.map Prod.fst

/-- The calls that have returned in the state `w`, which `w'` follows, are
answered as by a plain sequence of members, which the list holds between two calls. -/
structure Linearized (w w' : Workers) : Prop where
  answers : w.log = replies serve ⟨[], []⟩ (requests w)
  order : w.log <+: w'.log
  members : w.lock.writer = none →
    let m := (requests w).foldl (fun m r => (serve m r).2) ⟨[], []⟩
    w.object.released = m.released ∧
      ∃ xs, Shape w.object.sessions xs ∧ xs.map Prod.snd = m.members.map some

/-- However the assignments of the workers come between one another. -/
theorem workers_linearized (h : Goes calls (LockedObject.initial empty) es w)
    (h' : Goes calls w fs w') : Linearized w w' := by
  obtain ⟨-, base, hb⟩ := run_inv calls_lawful h (inv_initial _ empty)
  obtain ⟨⟨hr, xs, hx, hd⟩, hlog⟩ := serial_simulates serve_simulated hb.serial holds_empty
  refine ⟨hlog, run_log h', fun hnone => ?_⟩
  rw [hb.unchanged hnone]
  exact ⟨hr, xs, represents_shape hx, hd⟩

/-- No worker is stuck: an idle one may call, one that has the mutex may go on,
and one that waits for it can still be answered. -/
structure Live (w : Workers) (i : ℕ) : Prop where
  calls : w.phase i = .idle → ∀ r, enabled calls w (.call i r) = true
  works : ∀ r p, w.phase i = .working r p → enabled SharedRegistry.calls w (.step i) = true
  answered : ∀ r, callOf (w.phase i) = some r → ∃ fs w' o, Goes SharedRegistry.calls w fs w' ∧
    w'.phase i = .idle ∧ ∃ between, w'.log = w.log ++ between ++ [(r, o)]

theorem workers_live (h : Goes calls (LockedObject.initial empty) es w) (i : ℕ) : Live w i := by
  have hi := run_inv calls_lawful h (inv_initial _ empty)
  refine ⟨?_, fun r p hp => step_enabled calls_answering hi hp,
    fun r hr => goes_answer calls_lawful calls_answering hi hr⟩
  intro hidle r
  rw [enabled, hidle]
  rfl

def entered (rs : List Request) : List (ℕ × ℕ) :=
  rs.filterMap fun
    | .add worker session _ => some (session, worker)
    | .remove _ _ => none

def left (rs : List Request) : List ℕ :=
  rs.filterMap fun
    | .add _ _ _ => none
    | .remove _ session => some session

/-- A new session is entered, and a worker removes one of its own, once. -/
def Admissible (rs : List Request) : Request → Prop
  | .add _ session _ => session ∉ (entered rs).map Prod.fst
  | .remove worker session => (session, worker) ∈ entered rs ∧ session ∉ left rs

inductive Orderly : List Request → Prop where
  | nil : Orderly []
  | snoc {rs : List Request} {r : Request} (before : Orderly rs) (admissible : Admissible rs r) :
      Orderly (rs ++ [r])

def Request.worker : Request → ℕ
  | .add worker _ _ => worker
  | .remove worker _ => worker

def Clash : Request → Request → Prop
  | .add _ session _, .add _ session' _ => session = session'
  | _, _ => False

def Proper (w : Workers) : LockedObject.Event ℕ Request → Prop
  | .call i r => r.worker = i ∧ Admissible (requests w) r ∧
      ∀ j r', callOf (w.phase j) = some r' → ¬ Clash r r'
  | _ => True

variable {rs : List Request}

theorem entered_append (rs ts : List Request) : entered (rs ++ ts) = entered rs ++ entered ts :=
  List.filterMap_append

theorem left_append (rs ts : List Request) : left (rs ++ ts) = left rs ++ left ts :=
  List.filterMap_append

theorem entered_nodup (h : Orderly rs) : ((entered rs).map Prod.fst).Nodup := by
  induction h with
  | nil => exact List.nodup_nil
  | @snoc rs r before admissible ih =>
    rw [entered_append, List.map_append]
    cases r with
    | add worker session hint =>
      refine List.nodup_append.mpr ⟨ih, List.nodup_singleton _, ?_⟩
      rintro t ht t' ht' rfl
      obtain rfl := List.mem_singleton.mp ht'
      exact admissible ht
    | remove worker session => simpa [entered] using ih

theorem entered_unique (h : Orderly rs) (hi : (session, i) ∈ entered rs)
    (hj : (session, j) ∈ entered rs) : i = j :=
  congrArg Prod.snd (List.inj_on_of_nodup_map (entered_nodup h) hi hj rfl)

structure Tidy (w : Workers) : Prop where
  orderly : Orderly (requests w)
  pending : ∀ i r, callOf (w.phase i) = some r → r.worker = i ∧ Admissible (requests w) r
  apart : ∀ i j r r', i ≠ j → callOf (w.phase i) = some r → callOf (w.phase j) = some r' →
    ¬ Clash r r'

theorem tidy_congr (h : Tidy w) (hlog : w'.log = w.log)
    (hcall : ∀ j, callOf (w'.phase j) = callOf (w.phase j)) : Tidy w' := by
  have hrequests : requests w' = requests w := congrArg (List.map Prod.fst) hlog
  constructor
  · rw [hrequests]
    exact h.orderly
  · intro i r hr
    rw [hrequests]
    exact h.pending i r ((hcall i).symm.trans hr)
  · intro i j r r' hij hr hr'
    exact h.apart i j r r' hij ((hcall i).symm.trans hr) ((hcall j).symm.trans hr')

theorem admissible_after {r r' : Request} (h : Orderly rs) (hr : Admissible rs r)
    (hr' : Admissible rs r') (hw : r.worker ≠ r'.worker) (hclash : ¬ Clash r r') :
    Admissible (rs ++ [r]) r' := by
  cases r' with
  | add worker' session' hint' =>
    intro hmem
    rw [entered_append, List.map_append, List.mem_append] at hmem
    rcases hmem with hmem | hmem
    · exact hr' hmem
    · cases r with
      | add worker session hint => exact hclash (List.mem_singleton.mp hmem).symm
      | remove worker session => cases hmem
  | remove worker' session' =>
    refine ⟨?_, ?_⟩
    · rw [entered_append]
      exact List.mem_append_left _ hr'.1
    · intro hmem
      rw [left_append, List.mem_append] at hmem
      rcases hmem with hmem | hmem
      · exact hr'.2 hmem
      · cases r with
        | add worker session hint => cases hmem
        | remove worker session =>
          obtain rfl := List.mem_singleton.mp hmem
          exact hw (entered_unique h hr.1 hr'.1)

theorem clash_symm {r r' : Request} (h : Clash r r') : Clash r' r := by
  cases r <;> cases r' <;> first | exact h.symm | exact h

theorem callOf_setPhase {f : Phase Request Outcome Point} (hf : callOf f = callOf (w.phase i))
    (j : ℕ) : callOf ((setPhase i f w).phase j) = callOf (w.phase j) := by
  by_cases hj : j = i
  · subst hj
    rw [setPhase_self, hf]
  · rw [setPhase_of_ne hj]

theorem tidy_call {r : Request} (h : Tidy w) (hidle : w.phase i = .idle)
    (hp : Proper w (.call i r)) : Tidy (setPhase i (.waiting r (pointOf r)) w) := by
  obtain ⟨hw, ha, hclash⟩ := hp
  refine ⟨h.orderly, ?_, ?_⟩
  · intro j r' hr'
    by_cases hj : j = i
    · subst hj
      rw [setPhase_self] at hr'
      obtain rfl := Option.some.inj hr'
      exact ⟨hw, ha⟩
    · rw [setPhase_of_ne hj] at hr'
      exact h.pending j r' hr'
  · intro j k r₁ r₂ hjk h₁ h₂
    by_cases hj : j = i
    · subst hj
      rw [setPhase_self] at h₁
      rw [setPhase_of_ne (Ne.symm hjk)] at h₂
      obtain rfl := Option.some.inj h₁
      exact hclash k r₂ h₂
    · rw [setPhase_of_ne hj] at h₁
      by_cases hk : k = i
      · subst hk
        rw [setPhase_self] at h₂
        obtain rfl := Option.some.inj h₂
        exact fun hc => hclash j r₁ h₁ (clash_symm hc)
      · rw [setPhase_of_ne hk] at h₂
        exact h.apart j k r₁ r₂ hjk h₁ h₂

theorem tidy_return {r : Request} (h : Tidy w) (hi : w.phase i = .leaving r o) (k : Lock ℕ) :
    Tidy { setPhase i .idle w with lock := k, log := w.log ++ [(r, o)] } := by
  have hr : callOf (w.phase i) = some r := by rw [hi]; rfl
  obtain ⟨hw, ha⟩ := h.pending i r hr
  have hrequests : requests { setPhase i .idle w with lock := k, log := w.log ++ [(r, o)] } =
      requests w ++ [r] := List.map_append
  have hother : ∀ j r', callOf ((setPhase i .idle w).phase j) = some r' →
      j ≠ i ∧ callOf (w.phase j) = some r' := by
    intro j r' hr'
    by_cases hj : j = i
    · subst hj
      rw [setPhase_self] at hr'
      cases hr'
    · rw [setPhase_of_ne hj] at hr'
      exact ⟨hj, hr'⟩
  constructor
  · rw [hrequests]
    exact .snoc h.orderly ha
  · intro j r' hr'
    obtain ⟨hj, hr'⟩ := hother j r' hr'
    obtain ⟨hw', ha'⟩ := h.pending j r' hr'
    rw [hrequests]
    refine ⟨hw', admissible_after h.orderly ha ha' ?_ (h.apart i j r r' (Ne.symm hj) hr hr')⟩
    rw [hw, hw']
    exact Ne.symm hj
  · intro j j' r₁ r₂ hjj h₁ h₂
    exact h.apart j j' r₁ r₂ hjj (hother j r₁ h₁).2 (hother j' r₂ h₂).2

theorem next_tidy {e : LockedObject.Event ℕ Request} (h : Tidy w) (he : enabled calls w e = true)
    (hp : Proper w e) : Tidy (LockedObject.next calls w e) := by
  cases e with
  | call i r =>
    cases hi : w.phase i with
    | idle => exact tidy_call h hi hp
    | _ => simp only [enabled, hi, Bool.false_eq_true] at he
  | lock i =>
    cases hi : w.phase i with
    | waiting r p =>
      simp only [LockedObject.next, hi]
      exact tidy_congr h rfl (callOf_setPhase (by rw [hi]; rfl))
    | _ => simp only [enabled, hi, Bool.false_eq_true] at he
  | step i =>
    cases hi : w.phase i with
    | working r p =>
      simp only [LockedObject.next, hi]
      split
      · exact tidy_congr h rfl (callOf_setPhase (by rw [hi]; rfl))
      · exact tidy_congr h rfl (callOf_setPhase (by rw [hi]; rfl))
      · exact h
    | _ => simp only [enabled, hi, Bool.false_eq_true] at he
  | unlock i =>
    cases hi : w.phase i with
    | leaving r o =>
      simp only [LockedObject.next, hi]
      exact tidy_return h hi _
    | _ => simp only [enabled, hi, Bool.false_eq_true] at he

theorem tidy_initial : Tidy (LockedObject.initial empty) :=
  ⟨.nil, fun _ _ h => (nomatch h), fun _ _ _ _ _ h => (nomatch h)⟩

/-- A worker removes a session of its own, once. -/
def Own (w : Workers) : LockedObject.Event ℕ Request → Prop
  | .call i (.add worker _ _) => worker = i
  | .call i (.remove worker session) =>
    worker = i ∧ Admissible (requests w) (.remove worker session)
  | _ => True

def sessionOf : LockedObject.Event ℕ Request → Option ℕ
  | .call _ (.add _ session _) => some session
  | _ => none

/-- The sessions that `session_new` has made for the calls of the workers. -/
def brought (es : List (LockedObject.Event ℕ Request)) : List ℕ := es.filterMap sessionOf

structure Known (es : List (LockedObject.Event ℕ Request)) (w : Workers) : Prop where
  returned : ∀ x ∈ entered (requests w), x.1 ∈ brought es
  pending : ∀ i k t h, callOf (w.phase i) = some (.add k t h) → t ∈ brought es

theorem brought_mono {e : LockedObject.Event ℕ Request} {t : ℕ} (h : t ∈ brought es) :
    t ∈ brought (es ++ [e]) := by
  rw [brought, List.filterMap_append]
  exact List.mem_append_left _ h

theorem known_congr {e : LockedObject.Event ℕ Request} (h : Known es w) (hlog : w'.log = w.log)
    (hcall : ∀ j, callOf (w'.phase j) = callOf (w.phase j)) : Known (es ++ [e]) w' := by
  have hrequests : requests w' = requests w := congrArg (List.map Prod.fst) hlog
  constructor
  · rw [hrequests]
    exact fun x hx => brought_mono (h.returned x hx)
  · exact fun i k t hint hc => brought_mono (h.pending i k t hint ((hcall i).symm.trans hc))

theorem next_known {e : LockedObject.Event ℕ Request} (h : Known es w)
    (he : enabled calls w e = true) : Known (es ++ [e]) (LockedObject.next calls w e) := by
  cases e with
  | call i r =>
    refine ⟨fun x hx => brought_mono (h.returned x hx), fun j k t hint hc => ?_⟩
    by_cases hj : j = i
    · subst hj
      obtain rfl : r = .add k t hint :=
        Option.some.inj ((congrArg callOf (setPhase_self ..)).symm.trans hc)
      rw [brought, List.filterMap_append]
      exact List.mem_append_right _ (List.mem_singleton_self t)
    · refine brought_mono (h.pending j k t hint ?_)
      rw [← hc]
      exact congrArg callOf (setPhase_of_ne hj _ w).symm
  | lock i =>
    cases hi : w.phase i with
    | waiting r p =>
      simp only [LockedObject.next, hi]
      exact known_congr h rfl (callOf_setPhase (by rw [hi]; rfl))
    | _ => simp only [enabled, hi, Bool.false_eq_true] at he
  | step i =>
    cases hi : w.phase i with
    | working r p =>
      simp only [LockedObject.next, hi]
      split
      · exact known_congr h rfl (callOf_setPhase (by rw [hi]; rfl))
      · exact known_congr h rfl (callOf_setPhase (by rw [hi]; rfl))
      · exact known_congr h rfl fun _ => rfl
    | _ => simp only [enabled, hi, Bool.false_eq_true] at he
  | unlock i =>
    cases hi : w.phase i with
    | leaving r o =>
      simp only [LockedObject.next, hi]
      constructor
      · intro x hx
        have hsplit : x ∈ entered (requests w) ++ entered [r] := by
          rw [← entered_append]
          simpa [requests] using hx
        refine brought_mono ((List.mem_append.mp hsplit).elim (h.returned x) fun hr => ?_)
        cases r with
        | add worker session hint =>
          obtain rfl := List.mem_singleton.mp hr
          exact h.pending i worker session hint (by rw [hi]; rfl)
        | remove worker session => cases hr
      · intro j k t hint hc
        by_cases hj : j = i
        · subst hj
          cases (congrArg callOf (setPhase_self ..)).symm.trans hc
        · refine brought_mono (h.pending j k t hint ?_)
          rw [← hc]
          exact congrArg callOf (setPhase_of_ne hj _ w).symm
    | _ => simp only [enabled, hi, Bool.false_eq_true] at he

theorem next_proper {e : LockedObject.Event ℕ Request} (h : Known es w) (ho : Own w e)
    (hb : (brought (es ++ [e])).Nodup) : Proper w e := by
  cases e with
  | call i r =>
    cases r with
    | add worker session hint =>
      rw [brought, List.filterMap_append, List.nodup_append] at hb
      have hnew : session ∉ brought es := fun hmem => hb.2.2 session hmem session
        (List.mem_singleton_self session) rfl
      refine ⟨ho, ?_, ?_⟩
      · intro hmem
        obtain ⟨x, hx, rfl⟩ := List.mem_map.mp hmem
        exact hnew (h.returned x hx)
      · intro j r' hr' hclash
        cases r' with
        | add worker' session' hint' =>
          obtain rfl : session = session' := hclash
          exact hnew (h.pending j _ _ _ hr')
        | remove worker' session' => exact hclash
    | remove worker session => exact ⟨ho.1, ho.2, fun _ _ _ => id⟩
  | _ => trivial

theorem run_tidy (h : Run (system calls) Own (LockedObject.initial empty) es w)
    (hb : (brought es).Nodup) : Tidy w := by
  refine (run_history (H := fun es w => (brought es).Nodup → Tidy w ∧ Known es w) ?_ h
    (fun _ => ⟨tidy_initial, ⟨fun x hx => (nomatch hx), fun _ _ _ _ hc => (nomatch hc)⟩⟩) hb).1
  intro es w e ih he ho hb
  have hbefore : (brought es).Nodup := by
    rw [brought, List.filterMap_append] at hb
    exact (List.nodup_append.mp hb).1
  obtain ⟨ht, hk⟩ := ih hbefore
  exact ⟨next_tidy ht he (next_proper hk ho hb), next_known hk he⟩

inductive Matches : Request → SessionRegistry.Event → Prop where
  | add (worker session hint node : ℕ) :
      Matches (.add worker session hint) (.add worker session node)
  | remove (worker session : ℕ) : Matches (.remove worker session) (.remove worker session)

variable {calls' : List SessionRegistry.Event}

theorem matches_accepted (h : List.Forall₂ Matches rs calls') :
    accepted calls' = (entered rs).map Prod.fst ∧ removed calls' = left rs := by
  induction h with
  | nil => exact ⟨rfl, rfl⟩
  | @cons r e rs calls' hmatch _ ih =>
    obtain ⟨ha, hr⟩ := ih
    cases hmatch with
    | add worker session hint node => exact ⟨congrArg (session :: ·) ha, hr⟩
    | remove worker session => exact ⟨ha, congrArg (session :: ·) hr⟩

/-- The registry `r` has made the calls `rs`, and its list is that of `s`. -/
structure Made (rs : List Request) (s : Shared) (calls' : List SessionRegistry.Event)
    (r : Registry) : Prop where
  run : Run SessionRegistry.system (fun _ _ => True) (some SessionRegistry.initial) calls' (some r)
  follows : List.Forall₂ Matches rs calls'
  sessions : s.sessions = r.sessions
  owners : ∀ x ∈ entered rs, r.owner x.1 = some x.2
  released : s.released = (removed calls').reverse

theorem run_snoc {r r' : Registry} {e : SessionRegistry.Event}
    (h : Run SessionRegistry.system (fun _ _ => True) (some SessionRegistry.initial) calls' (some r))
    (he : SessionRegistry.enabled (some r) e = true)
    (hn : SessionRegistry.next (some r) e = some r') :
    Run SessionRegistry.system (fun _ _ => True) (some SessionRegistry.initial) (calls' ++ [e])
      (some r') := by
  refine run_append h (.cons he trivial ?_)
  rw [show SessionRegistry.system.next (some r) e = some r' from hn]
  exact .nil _

theorem left_entered (h : Orderly rs) (hs : session ∈ left rs) :
    session ∈ (entered rs).map Prod.fst := by
  induction h with
  | nil => cases hs
  | @snoc rs r before admissible ih =>
    rw [entered_append, List.map_append, List.mem_append]
    rw [left_append, List.mem_append] at hs
    rcases hs with hs | hs
    · exact .inl (ih hs)
    · cases r with
      | add worker session' hint => cases hs
      | remove worker session' =>
        obtain rfl := List.mem_singleton.mp hs
        exact .inl (List.mem_map_of_mem admissible.1)

variable {r : Registry} {worker : ℕ}

theorem made_exact (h : Made rs s calls' r) : Exact calls' r := by
  obtain ⟨r', hr, hexact⟩ := SessionRegistry.run_exact h.run
  obtain rfl := Option.some.inj hr
  exact hexact

theorem follows_snoc {q : Request} {e : SessionRegistry.Event} (h : List.Forall₂ Matches rs calls')
    (hm : Matches q e) : List.Forall₂ Matches (rs ++ [q]) (calls' ++ [e]) :=
  List.rel_append h (.cons hm .nil)

theorem made_add (h : Made rs s calls' r) (ho : Orderly rs)
    (ha : Admissible rs (.add worker session hint))
    (he : Executes calls (.add worker session hint) s o u) :
    o = .added ∧ ∃ e r', Made (rs ++ [.add worker session hint]) u (calls' ++ [e]) r' := by
  have hexact := made_exact h
  obtain ⟨haccepted, hremoved⟩ := matches_accepted h.follows
  obtain ⟨xs, hx, -⟩ := hexact.represented
  rw [← h.sessions] at hx
  obtain ⟨l, hl, -⟩ := listPushBack_spec (some session) hx (malloc_free hx hint)
  obtain ⟨rfl, rfl⟩ := executes_unique (executes_add worker hl) he
  have hfresh : status r.life session = .fresh := by
    apply (SessionRegistry.fresh_iff hexact).mpr
    rw [haccepted, hremoved]
    exact ⟨fun hleft => ha (left_entered ho hleft), ha⟩
  have hfree : (r.sessions.node (malloc hint s.sessions)).isNone = true := by
    rw [← h.sessions, malloc_free hx hint]
    rfl
  refine ⟨rfl, .add worker session (malloc hint s.sessions),
    ⟨l, .alloc session :: r.life, Function.update r.owner session (some worker)⟩,
    run_snoc h.run ?_ ?_, follows_snoc h.follows (.add worker session hint _), rfl, ?_, ?_⟩
  · simp only [SessionRegistry.enabled, hfresh, decide_true, hfree, Bool.and_true]
  · rw [SessionRegistry.next, SessionRegistry.httpServiceSessionAdd, ← h.sessions, hl]
    rfl
  · rintro x hx
    rw [entered_append, List.mem_append] at hx
    rcases hx with hx | hx
    · have hne : x.1 ≠ session := fun hxs => ha (hxs ▸ List.mem_map_of_mem hx)
      exact (Function.update_of_ne hne _ _).trans (h.owners x hx)
    · obtain rfl := List.mem_singleton.mp hx
      exact Function.update_self ..
  · rw [SessionRegistry.removed_add]
    exact h.released

theorem made_remove (h : Made rs s calls' r) (ha : Admissible rs (.remove worker session))
    (he : Executes calls (.remove worker session) s o u) :
    o = .removed true ∧ ∃ e r', Made (rs ++ [.remove worker session]) u (calls' ++ [e]) r' := by
  have hexact := made_exact h
  obtain ⟨haccepted, hremoved⟩ := matches_accepted h.follows
  have haccept : session ∈ accepted calls' := haccepted ▸ List.mem_map_of_mem ha.1
  have hstays : session ∉ removed calls' := hremoved ▸ ha.2
  have hstanding : session ∈ standing calls' := List.mem_filter.mpr ⟨haccept, by simpa using hstays⟩
  obtain ⟨xs, hx, hd⟩ := hexact.represented
  obtain ⟨ys, a, zs, rfl, hys, -⟩ := SessionRegistry.node_of_session hd hexact.once hstanding
  obtain ⟨l, hl, -⟩ := listRemove_spec hx
  have hlength : ys.length < r.sessions.made := by
    have hmade := hx.made
    simp only [List.length_append, List.length_cons] at hmade
    omega
  have hfind := SessionRegistry.searchFrom_spec hys ⟨[], hx⟩ hlength
  have hx' := hx
  have hl' := hl
  rw [← h.sessions] at hx' hl'
  obtain ⟨rfl, rfl⟩ := executes_unique (executes_remove worker hys hx' hl') he
  have hlive : status r.life session = .live :=
    (SessionRegistry.live_iff hexact).mpr ⟨hstays, haccept⟩
  have howner : r.owner session = some worker := h.owners _ ha.1
  refine ⟨rfl, .remove worker session,
    SessionRegistry.sessionFree session { r with sessions := l }, run_snoc h.run ?_ ?_,
    follows_snoc h.follows (.remove worker session), rfl, ?_, ?_⟩
  · simp only [SessionRegistry.enabled, hlive, howner, decide_true, Bool.and_self]
  · rw [SessionRegistry.next, SessionRegistry.httpServiceSessionRemove, hx.head, hfind, hl]
    rfl
  · rw [entered_append]
    intro x hx
    exact h.owners x ((List.mem_append.mp hx).resolve_right List.not_mem_nil)
  · rw [SessionRegistry.removed_remove, List.reverse_append, h.released]
    rfl

theorem serial_made (h : Orderly rs) {log : List (Request × Outcome)} (hlog : log.map Prod.fst = rs)
    (hs : Serial calls empty log u) :
    (∃ calls' r, Made rs u calls' r) ∧ ∀ e ∈ log, e.2 ≠ .removed false := by
  induction h generalizing log u with
  | nil =>
    obtain rfl := List.map_eq_nil_iff.mp hlog
    obtain rfl : u = empty := hs
    exact ⟨⟨[], SessionRegistry.initial, .nil _, .nil, rfl, fun x hx => (nomatch hx), rfl⟩,
      fun e he => (nomatch he)⟩
  | @snoc rs q before admissible ih =>
    obtain ⟨log, last, rfl, hbefore, hlast⟩ := List.map_eq_append_iff.mp hlog
    obtain ⟨⟨q', o⟩, rest, rfl, hq, hrest⟩ := List.map_eq_cons_iff.mp hlast
    obtain rfl := List.map_eq_nil_iff.mp hrest
    obtain rfl : q' = q := hq
    obtain ⟨t, ht, he⟩ := serial_last hs
    obtain ⟨⟨calls', r, hmade⟩, hfound⟩ := ih hbefore ht
    have hstep : o ≠ .removed false ∧ ∃ e r', Made (rs ++ [q']) u (calls' ++ [e]) r' := by
      cases q' with
      | add worker session hint =>
        obtain ⟨rfl, hm⟩ := made_add hmade before admissible he
        exact ⟨fun ho => (nomatch ho), hm⟩
      | remove worker session =>
        obtain ⟨rfl, hm⟩ := made_remove hmade admissible he
        exact ⟨fun ho => (nomatch ho), hm⟩
    obtain ⟨ho, e, r', hm⟩ := hstep
    refine ⟨⟨_, r', hm⟩, fun e he => ?_⟩
    rcases List.mem_append.mp he with he | he
    · exact hfound e he
    · obtain rfl := List.mem_singleton.mp he
      exact ho

/-- The workers have made the calls of the registry `r`, one after the other in
the order in which they gave the mutex back. -/
structure Registered (w : Workers) (calls' : List SessionRegistry.Event) (r : Registry) : Prop where
  run : Run SessionRegistry.system (fun _ _ => True) (some SessionRegistry.initial) calls' (some r)
  follows : List.Forall₂ Matches (requests w) calls'
  found : ∀ e ∈ w.log, e.2 ≠ .removed false
  contents : SessionRegistry.contents r = some ((standing calls').map some)
  list : w.lock.writer = none → w.object.sessions = r.sessions
  released : w.lock.writer = none → w.object.released = (removed calls').reverse
  once : (removed calls').Nodup
  ends : ∃ r', SessionRegistry.httpServiceFiniSessions r = some r' ∧
    (∀ a, r'.sessions.node a = none) ∧ Sound r'.life ∧ ∀ t ∈ accepted calls', frees r'.life t = 1

theorem left_nodup (h : Orderly rs) : (left rs).Nodup := by
  induction h with
  | nil => exact List.nodup_nil
  | @snoc rs r before admissible ih =>
    rw [left_append]
    cases r with
    | add worker session hint => simpa [left] using ih
    | remove worker session =>
      refine List.nodup_append.mpr ⟨ih, List.nodup_singleton _, ?_⟩
      rintro t ht t' ht' rfl
      obtain rfl := List.mem_singleton.mp ht'
      exact admissible.2 ht

/-- Workers that each remove what they have entered share one registry: however
their assignments come between one another, the list is the sessions entered and
not removed, and each session is released once. -/
theorem workers_registered (h : Run (system calls) Own (LockedObject.initial empty) es w)
    (hb : (brought es).Nodup) : ∃ calls' r, Registered w calls' r := by
  obtain ⟨-, base, hbase⟩ := run_inv calls_lawful h (inv_initial _ empty)
  have ht := (run_tidy h hb).orderly
  obtain ⟨⟨calls', r, hm⟩, hfound⟩ := serial_made ht rfl hbase.serial
  obtain ⟨xs, hx, hd⟩ := (made_exact hm).represented
  refine ⟨calls', r, hm.run, hm.follows, hfound, ?_, ?_, ?_, ?_,
    SessionRegistry.fini_exact (made_exact hm)⟩
  · rw [SessionRegistry.contents_eq hx, hd]
  · intro hnone
    rw [hbase.unchanged hnone]
    exact hm.sessions
  · intro hnone
    rw [hbase.unchanged hnone]
    exact hm.released
  · rw [(matches_accepted hm.follows).2]
    exact left_nodup ht

instance (rs : List Request) (r : Request) : Decidable (Admissible rs r) :=
  match r with
  | .add _ session _ => inferInstanceAs (Decidable (session ∉ (entered rs).map Prod.fst))
  | .remove worker session =>
    inferInstanceAs (Decidable ((session, worker) ∈ entered rs ∧ session ∉ left rs))

instance (w : Workers) (e : LockedObject.Event ℕ Request) : Decidable (Own w e) :=
  match e with
  | .call i (.add worker _ _) => inferInstanceAs (Decidable (worker = i))
  | .call i (.remove worker session) =>
    inferInstanceAs (Decidable (worker = i ∧ Admissible (requests w) (.remove worker session)))
  | .lock _ | .step _ | .unlock _ => inferInstanceAs (Decidable True)

/-- Two sessions are entered at once, by allocators that think of one address;
the first is removed while the other worker waits. -/
def atOnce : List (LockedObject.Event ℕ Request) :=
  [.call 0 (.add 0 7 1), .call 1 (.add 1 8 1), .lock 0, .step 0, .step 0, .step 0, .step 0, .step 0,
    .unlock 0, .lock 1, .step 1, .step 1, .call 0 (.remove 0 7), .step 1, .step 1, .step 1,
    .unlock 1, .lock 0, .call 1 (.add 1 9 1), .step 0, .step 0, .step 0, .step 0, .step 0]

def meanwhile : Workers := atOnce.foldl (LockedObject.next calls) (LockedObject.initial empty)

theorem run_atOnce : Run (system calls) Own (LockedObject.initial empty) atOnce meanwhile :=
  run_of_admits (LockedObject.initial empty) atOnce (by decide +kernel)

theorem goes_atOnce : Goes calls (LockedObject.initial empty) atOnce meanwhile :=
  run_weaken (fun _ _ _ => trivial) run_atOnce

theorem workers_linearized_atOnce : Linearized meanwhile meanwhile :=
  workers_linearized goes_atOnce (.nil _)

theorem workers_live_atOnce : Live meanwhile 1 := workers_live goes_atOnce 1

theorem workers_registered_atOnce : ∃ calls' r, Registered meanwhile calls' r :=
  workers_registered run_atOnce (by decide)

end Tigera.SharedRegistry
