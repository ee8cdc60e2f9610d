import TigeraWebservice.DoublyLinkedList
import TigeraWebservice.Ledger

/-!
# The session registry

The list of sessions in `http_service.c`, which the workers share. A session is
entered when its worker has accepted it and leaves when that worker removes it;
both happen under `session_mutex`, so they follow one another in some order.
What is left when the workers have stopped is released by `http_service_fini`.
-/

set_option autoImplicit false

namespace Tigera.SessionRegistry
open ResourceLedger TransitionRuns LinkChain Tigera.DoublyLinkedList

/-- The list, the ledger of the sessions and the worker that accepted each. -/
structure Registry where
  sessions : NodeList ℕ
  life : List (Entry ℕ)
  owner : ℕ → Option ℕ

def initial : Registry where
  sessions := listNew
  life := []
  owner _ := none

def sessionFree (session : ℕ) (r : Registry) : Registry := { r with life := .free session :: r.life }

/-- `node` is the address of the new list node. -/
def httpServiceSessionAdd (session node : ℕ) (r : Registry) : Option Registry :=
  (listPushBack node (some session) r.sessions).map fun l => { r with sessions := l }

def searchFrom (session : ℕ) : ℕ → Option ℕ → Registry → Option (Bool × Registry)
  | _, none, r => some (false, r)
  | 0, some _, _ => none
  | fuel + 1, some a, r =>
    match r.sessions.node a with
    | none => none
    | some n =>
      if n.data = some session then
        (listRemove (some a) r.sessions).map fun (_, l) =>
          (true, sessionFree session { r with sessions := l })
      else searchFrom session fuel n.next r

def httpServiceSessionRemove (session : ℕ) (r : Registry) : Option Registry :=
  (searchFrom session r.sessions.made r.sessions.head r).map fun (found, r) =>
    if found then r else sessionFree session r

/-- The loop of `http_service_fini`; `session_free` accepts a null pointer. -/
def freeFrom : ℕ → Option ℕ → Registry → Option Registry
  | _, none, r => some r
  | 0, some _, _ => none
  | fuel + 1, some a, r =>
    match r.sessions.node a with
    | none => none
    | some n => freeFrom fuel n.next (match n.data with
      | none => r
      | some session => sessionFree session r)

/-- The part of `http_service_fini` that is about sessions. -/
def httpServiceFiniSessions (r : Registry) : Option Registry :=
  match freeFrom r.sessions.made r.sessions.head r with
  | none => none
  | some r => (listFree (r.sessions.made + 1) r.sessions).map fun l => { r with sessions := l }

inductive Event where
  | add (worker session node : ℕ)
  | remove (worker session : ℕ)
  deriving DecidableEq

/-- A new session and a new node are not in use; a worker removes only live
sessions of its own. After a fault nothing happens any more. -/
def enabled : Option Registry → Event → Bool
  | none, _ => false
  | some r, .add _ session node => status r.life session = .fresh && (r.sessions.node node).isNone
  | some r, .remove worker session =>
    status r.life session = .live && r.owner session = some worker

def next : Option Registry → Event → Option Registry
  | none, _ => none
  | some r, .add worker session node =>
    httpServiceSessionAdd session node
      { r with life := .alloc session :: r.life
               owner := Function.update r.owner session (some worker) }
  | some r, .remove _ session => httpServiceSessionRemove session r

def system : System (Option Registry) Event where
  enabled r e := enabled r e = true
  next := next

instance (r : Option Registry) (e : Event) : Decidable (system.enabled r e) :=
  inferInstanceAs (Decidable (enabled r e = true))

def accepted (es : List Event) : List ℕ :=
  es.filterMap fun
    | .add _ session _ => some session
    | .remove _ _ => none

def removed (es : List Event) : List ℕ :=
  es.filterMap fun
    | .add _ _ _ => none
    | .remove _ session => some session

def standing (es : List Event) : List ℕ := (accepted es).filter fun s => s ∉ removed es

/-- What `list_foreach` finds in the list. -/
def contents (r : Registry) : Option (List (Option ℕ)) :=
  (listForeach r.sessions r.sessions.made r.sessions.head).map fun as =>
    as.map fun a => (r.sessions.node a).bind Node.data

variable {r : Registry} {xs ys : List (ℕ × Option ℕ)} {es : List Event} {s : ℕ}

theorem contents_eq (h : Represents r.sessions xs) : contents r = some (xs.map Prod.snd) := by
  have hs := represents_shape h
  rw [contents, hs.forward _ h.made, Option.map_some, addresses, List.map_map]
  congr 1
  apply List.map_congr_left
  intro x hx
  have hd := hs.data x hx
  rw [Function.comp_apply]
  cases hn : r.sessions.node x.1 with
  | none =>
    rw [hn] at hd
    cases hd
  | some n =>
    rw [hn] at hd
    exact Option.some.inj hd

theorem searchFrom_spec {a fuel : ℕ} (hx : ∀ x ∈ xs, x.2 ≠ some s)
    (h : ∃ us, Represents r.sessions (us ++ (xs ++ (a, some s) :: ys))) (hf : xs.length < fuel) :
    searchFrom s fuel (first (xs ++ (a, some s) :: ys) none) r =
      (listRemove (some a) r.sessions).map fun (_, l) =>
        (true, sessionFree s { r with sessions := l }) := by
  induction fuel generalizing xs with
  | zero => cases hf
  | succ fuel ih =>
    obtain ⟨us, h⟩ := h
    cases xs with
    | nil =>
      rw [List.nil_append, first_cons, searchFrom, linked_node h.linked]
      exact if_pos rfl
    | cons x xs =>
      rw [List.cons_append] at h ⊢
      rw [first_cons, searchFrom, linked_node h.linked]
      simp only
      rw [if_neg (hx x List.mem_cons_self)]
      apply ih (fun y hy => hx y (List.mem_cons_of_mem _ hy)) _ (Nat.lt_of_succ_lt_succ hf)
      exact ⟨us ++ [x], by rwa [List.append_assoc]⟩

theorem freeFrom_spec {fuel : ℕ} (sessions : List ℕ) (hd : xs.map Prod.snd = sessions.map some)
    (h : ∃ us, Represents r.sessions (us ++ xs)) (hf : xs.length ≤ fuel) :
    freeFrom fuel (first xs none) r =
      some { r with life := (sessions.map Entry.free).reverse ++ r.life } := by
  induction sessions generalizing r xs fuel with
  | nil =>
    rw [List.map_nil, List.map_eq_nil_iff] at hd
    subst hd
    cases fuel <;> rfl
  | cons s sessions ih =>
    cases xs with
    | nil => cases hd
    | cons x xs =>
      cases fuel with
      | zero => cases hf
      | succ fuel =>
        obtain ⟨us, h⟩ := h
        rw [List.map_cons, List.map_cons, List.cons.injEq] at hd
        rw [first_cons, freeFrom, linked_node h.linked]
        simp only [hd.1]
        rw [ih (r := sessionFree s r) hd.2 _ (Nat.le_of_succ_le_succ hf)]
        · simp [sessionFree]
        · exact ⟨us ++ [x], by rw [List.append_assoc]; exact h⟩

theorem accepted_add (worker session node : ℕ) :
    accepted (es ++ [.add worker session node]) = accepted es ++ [session] := by
  simp [accepted]

theorem accepted_remove (worker session : ℕ) :
    accepted (es ++ [.remove worker session]) = accepted es := by
  simp [accepted]

theorem removed_add (worker session node : ℕ) :
    removed (es ++ [.add worker session node]) = removed es := by
  simp [removed]

theorem removed_remove (worker session : ℕ) :
    removed (es ++ [.remove worker session]) = removed es ++ [session] := by
  simp [removed]

theorem standing_add (worker session node : ℕ) (h : session ∉ removed es) :
    standing (es ++ [.add worker session node]) = standing es ++ [session] := by
  rw [standing, accepted_add, removed_add, List.filter_append, standing]
  simp [h]

theorem standing_remove (worker session : ℕ) :
    standing (es ++ [.remove worker session]) = (standing es).filter fun s => s ≠ session := by
  rw [standing, accepted_remove, removed_remove, standing, List.filter_filter]
  apply List.filter_congr
  intro s _
  simp [Bool.and_comm]

/-- The registry after the events `es`. -/
structure Exact (es : List Event) (r : Registry) : Prop where
  represented : ∃ xs, Represents r.sessions xs ∧ xs.map Prod.snd = (standing es).map some
  sound : Sound r.life
  status : ∀ s, status r.life s =
    if s ∈ removed es then .freed else if s ∈ accepted es then .live else .fresh
  once : (accepted es).Nodup

theorem exact_initial : Exact [] initial :=
  ⟨⟨[], represents_new, rfl⟩, trivial, fun _ => rfl, List.nodup_nil⟩

theorem fresh_iff (h : Exact es r) :
    status r.life s = .fresh ↔ s ∉ removed es ∧ s ∉ accepted es := by
  rw [h.status s]
  split
  · simp_all
  · split <;> simp_all

theorem live_iff (h : Exact es r) :
    status r.life s = .live ↔ s ∉ removed es ∧ s ∈ accepted es := by
  rw [h.status s]
  split
  · simp_all
  · split <;> simp_all

theorem add_exact {worker session node : ℕ} (h : Exact es r)
    (hg : enabled (some r) (.add worker session node) = true) :
    ∃ r', next (some r) (.add worker session node) = some r' ∧
      Exact (es ++ [.add worker session node]) r' := by
  simp only [enabled, Bool.and_eq_true, decide_eq_true_eq, Option.isNone_iff_eq_none] at hg
  obtain ⟨hr, ha⟩ := (fresh_iff h).mp hg.1
  obtain ⟨xs, hx, hd⟩ := h.represented
  obtain ⟨l, hl, hx'⟩ := listPushBack_spec (some session) hx hg.2
  refine ⟨{ sessions := l, life := .alloc session :: r.life
            owner := Function.update r.owner session (some worker) }, ?_, ?_⟩
  · rw [next, httpServiceSessionAdd, hl]
    rfl
  · constructor
    · refine ⟨_, hx', ?_⟩
      rw [standing_add worker session node hr, List.map_append, List.map_append, hd]
      rfl
    · exact ⟨hg.1, h.sound⟩
    · intro s
      rw [accepted_add, removed_add, status_alloc, h.status s]
      simp only [List.mem_append, List.mem_singleton]
      by_cases hs : s = session
      · subst hs
        rw [if_pos rfl, if_neg hr, if_pos (.inr rfl)]
      · simp only [hs, or_false, if_false]
    · rw [accepted_add, List.nodup_append]
      refine ⟨h.once, List.nodup_singleton _, ?_⟩
      rintro b hb c hc rfl
      rw [List.mem_singleton] at hc
      subst hc
      exact ha hb

theorem node_of_session (hd : xs.map Prod.snd = (standing es).map some) (hn : (accepted es).Nodup)
    (hs : s ∈ standing es) : ∃ us a vs, xs = us ++ (a, some s) :: vs ∧
      (∀ x ∈ us, x.2 ≠ some s) ∧ ∀ x ∈ vs, x.2 ≠ some s := by
  have hm : some s ∈ xs.map Prod.snd := by
    rw [hd]
    exact List.mem_map_of_mem hs
  obtain ⟨⟨a, d⟩, hx, hds⟩ := List.mem_map.mp hm
  have hds : d = some s := hds
  subst hds
  obtain ⟨us, vs, rfl⟩ := List.append_of_mem hx
  have hnodup : ((us ++ (a, some s) :: vs).map Prod.snd).Nodup := by
    rw [hd]
    exact (hn.filter _).map fun _ _ => Option.some.inj
  rw [List.map_append, List.map_cons, List.nodup_middle, List.nodup_cons, List.mem_append,
    not_or] at hnodup
  obtain ⟨⟨hu, hv⟩, -⟩ := hnodup
  refine ⟨us, a, vs, rfl, ?_, ?_⟩
  · intro x hx hxs
    exact hu (List.mem_map.mpr ⟨x, hx, hxs⟩)
  · intro x hx hxs
    exact hv (List.mem_map.mpr ⟨x, hx, hxs⟩)

theorem remove_exact {worker session : ℕ} (h : Exact es r)
    (hg : enabled (some r) (.remove worker session) = true) :
    ∃ r', next (some r) (.remove worker session) = some r' ∧
      Exact (es ++ [.remove worker session]) r' := by
  simp only [enabled, Bool.and_eq_true, decide_eq_true_eq] at hg
  obtain ⟨hr, ha⟩ := (live_iff h).mp hg.1
  obtain ⟨xs, hx, hd⟩ := h.represented
  have hs : session ∈ standing es := List.mem_filter.mpr ⟨ha, by simpa using hr⟩
  obtain ⟨us, a, vs, rfl, hu, hv⟩ := node_of_session hd h.once hs
  obtain ⟨l, hl, hx'⟩ := listRemove_spec hx
  have hlen : us.length < r.sessions.made := by
    have hm := hx.made
    simp only [List.length_append, List.length_cons] at hm
    omega
  have hfind := searchFrom_spec (r := r) hu ⟨[], hx⟩ hlen
  refine ⟨sessionFree session { r with sessions := l }, ?_, ?_⟩
  · rw [next, httpServiceSessionRemove, hx.head, hfind, hl]
    rfl
  · constructor
    · refine ⟨_, hx', ?_⟩
      have hkept : (us ++ vs).map Prod.snd =
          ((us ++ (a, some session) :: vs).map Prod.snd).filter fun d => d ≠ some session := by
        rw [List.map_append, List.map_append, List.map_cons, List.filter_append,
          List.filter_cons_of_neg (by simp), List.filter_eq_self.mpr, List.filter_eq_self.mpr]
        · intro d hdv
          obtain ⟨x, hxv, rfl⟩ := List.mem_map.mp hdv
          simpa using hv x hxv
        · intro d hdu
          obtain ⟨x, hxu, rfl⟩ := List.mem_map.mp hdu
          simpa using hu x hxu
      rw [hkept, hd, standing_remove, List.filter_map]
      congr 1
      apply List.filter_congr
      intro s _
      simp
    · exact ⟨hg.1, h.sound⟩
    · intro s
      rw [accepted_remove, removed_remove, sessionFree, status_free, h.status s]
      simp only [List.mem_append, List.mem_singleton]
      by_cases hs : s = session
      · rw [if_pos hs, if_pos (.inr hs)]
      · simp only [hs, or_false, if_false]
    · rw [accepted_remove]
      exact h.once

theorem run_exact {C : Option Registry → Event → Prop} {u : Option Registry}
    (h : Run system C (some initial) es u) : ∃ r, u = some r ∧ Exact es r := by
  refine run_history (H := fun es u => ∃ r, u = some r ∧ Exact es r) ?_ h ⟨_, rfl, exact_initial⟩
  rintro es _ e ⟨r, rfl, hr⟩ hg _
  cases e with
  | add worker session node => exact add_exact hr hg
  | remove worker session => exact remove_exact hr hg

theorem fini_exact (h : Exact es r) :
    ∃ r', httpServiceFiniSessions r = some r' ∧ (∀ a, r'.sessions.node a = none) ∧
      Sound r'.life ∧ ∀ s ∈ accepted es, frees r'.life s = 1 := by
  obtain ⟨xs, hx, hd⟩ := h.represented
  have hfree := freeFrom_spec (r := r) (standing es) hd ⟨[], hx⟩ hx.made
  have hsome : ∀ x ∈ xs, x.2.isSome := by
    intro x hx
    have hm : x.2 ∈ (standing es).map some := hd ▸ List.mem_map_of_mem hx
    obtain ⟨s, -, hs⟩ := List.mem_map.mp hm
    rw [← hs]
    rfl
  obtain ⟨l, hl, hnone⟩ := listFree_spec _ hx hsome (Nat.lt_succ_of_le hx.made)
  have hlive : ∀ s ∈ standing es, status r.life s = .live := by
    intro s hs
    obtain ⟨ha, hr⟩ := List.mem_filter.mp hs
    exact (live_iff h).mpr ⟨by simpa using hr, ha⟩
  have hstanding : (standing es).Nodup := h.once.filter _
  have h1 := sound_frees h.sound hstanding hlive
  have h2 := status_frees r.life (standing es)
  refine ⟨{ r with sessions := l, life := ((standing es).map Entry.free).reverse ++ r.life },
    ?_, hnone, h1, ?_⟩
  · rw [httpServiceFiniSessions, hx.head, hfree]
    simp only [hl, Option.map_some]
  · intro s hs
    apply (frees_eq_one _ h1 s).mpr
    rw [h2 s]
    split
    · rfl
    · next hno =>
      rw [h.status s, if_pos]
      by_contra hr
      exact hno (List.mem_filter.mpr ⟨hs, by simpa using hr⟩)

/-- The list is the set of the live sessions, in order of acceptance. -/
structure Exactly (es : List Event) (r : Registry) : Prop where
  contents : contents r = some ((standing es).map some)
  once : (standing es).Nodup
  sound : Sound r.life
  released : ∀ s, frees r.life s = if s ∈ removed es then 1 else 0
  held : ∀ s, s ∈ standing es ↔ status r.life s = .live
  nodes : ∃ xs, Shape r.sessions xs ∧ xs.map Prod.snd = (standing es).map some

/-- In every interleaving the registry is exact, and the end releases the rest. -/
theorem registry_exact {u : Option Registry}
    (h : Run system (fun _ _ => True) (some initial) es u) :
    ∃ r, u = some r ∧ Exactly es r ∧
      ∃ r', httpServiceFiniSessions r = some r' ∧ (∀ a, r'.sessions.node a = none) ∧
        Sound r'.life ∧ ∀ s ∈ accepted es, frees r'.life s = 1 := by
  obtain ⟨r, rfl, hr⟩ := run_exact h
  refine ⟨r, rfl, ?_, fini_exact hr⟩
  obtain ⟨xs, hx, hd⟩ := hr.represented
  constructor
  · rw [contents_eq hx, hd]
  · exact hr.once.filter _
  · exact hr.sound
  · intro s
    rw [frees_of_sound _ hr.sound, hr.status s]
    split
    · rfl
    · split <;> rfl
  · intro s
    rw [live_iff hr, standing, List.mem_filter, and_comm]
    simp
  · exact ⟨xs, represents_shape hx, hd⟩

def turns : List Event :=
  [.add 0 7 1, .add 1 8 2, .add 0 9 3, .remove 1 8, .add 1 10 2, .remove 0 9, .remove 0 7]

theorem turns_exact : ∃ r, Exactly turns r ∧
    ∃ r', httpServiceFiniSessions r = some r' ∧ ∀ s ∈ [7, 8, 9, 10], frees r'.life s = 1 := by
  obtain ⟨r, -, hr, r', hfini, -, -, hfrees⟩ :=
    registry_exact (run_of_admits (some initial) turns (by decide +kernel))
  exact ⟨r, hr, r', hfini, hfrees⟩

end Tigera.SessionRegistry
