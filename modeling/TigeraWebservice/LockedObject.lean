import Mathlib.Logic.Function.Basic
import TigeraWebservice.Runs

/-!
# Objects behind a reader/writer lock

Threads call the operations of one object. A call works out what it can before
it takes the lock, takes it for itself or together with others, works in steps
that other threads' steps come between, and gives its answer with the lock. The
calls that have returned are logged. Their answers are those of the same calls
made one after the other, and no call is kept from its answer for good.
-/

set_option autoImplicit false

namespace LockedObject
open TransitionRuns

variable {τ σ ω ω' ρ ℓ : Type*}

inductive Mode where
  | shared
  | exclusive
  deriving DecidableEq, Repr

/-- `prepare` is what a call does without the lock and `step` what it does next
with it; either may fault. The last step gives the answer. -/
structure Program (σ ω ρ ℓ : Type*) where
  mode : ω → Mode
  prepare : ω → σ → Option ℓ
  step : ℓ → σ → Option ((ℓ ⊕ ρ) × σ)

def Program.through (f : ω' → ω) (p : Program σ ω ρ ℓ) : Program σ ω' ρ ℓ where
  mode op := p.mode (f op)
  prepare op := p.prepare (f op)
  step := p.step

inductive Phase (ω ρ ℓ : Type*) where
  | idle
  | waiting (op : ω) (l : ℓ)
  | working (op : ω) (l : ℓ)
  | leaving (op : ω) (r : ρ)

structure Lock (τ : Type*) where
  readers : List τ
  writer : Option τ

structure State (τ σ ω ρ ℓ : Type*) where
  object : σ
  lock : Lock τ
  phase : τ → Phase ω ρ ℓ
  log : List (ω × ρ)

inductive Event (τ ω : Type*) where
  | call (i : τ) (op : ω)
  | lock (i : τ)
  | step (i : τ)
  | unlock (i : τ)

def initial (object : σ) : State τ σ ω ρ ℓ where
  object := object
  lock := ⟨[], none⟩
  phase _ := .idle
  log := []

def admitted : Mode → Lock τ → Bool
  | .shared, k => k.writer.isNone
  | .exclusive, k => k.writer.isNone && k.readers.isEmpty

def enabled (p : Program σ ω ρ ℓ) (s : State τ σ ω ρ ℓ) : Event τ ω → Bool
  | .call i op =>
    match s.phase i with
    | .idle => (p.prepare op s.object).isSome
    | _ => false
  | .lock i =>
    match s.phase i with
    | .waiting op _ => admitted (p.mode op) s.lock
    | _ => false
  | .step i =>
    match s.phase i with
    | .working _ l => (p.step l s.object).isSome
    | _ => false
  | .unlock i =>
    match s.phase i with
    | .leaving _ _ => true
    | _ => false

section system
variable [DecidableEq τ]

def Lock.take (m : Mode) (i : τ) (k : Lock τ) : Lock τ :=
  match m with
  | .shared => { k with readers := i :: k.readers }
  | .exclusive => { k with writer := some i }

def Lock.giveBack (i : τ) (k : Lock τ) : Lock τ :=
  if k.writer = some i then { k with writer := none } else { k with readers := k.readers.erase i }

def setPhase (i : τ) (f : Phase ω ρ ℓ) (s : State τ σ ω ρ ℓ) : State τ σ ω ρ ℓ :=
  { s with phase := Function.update s.phase i f }

def next (p : Program σ ω ρ ℓ) (s : State τ σ ω ρ ℓ) : Event τ ω → State τ σ ω ρ ℓ
  | .call i op =>
    match p.prepare op s.object with
    | some l => setPhase i (.waiting op l) s
    | none => s
  | .lock i =>
    match s.phase i with
    | .waiting op l =>
      { setPhase i (.working op l) s with lock := s.lock.take (p.mode op) i }
    | _ => s
  | .step i =>
    match s.phase i with
    | .working op l =>
      match p.step l s.object with
      | some (.inl l', o) => { setPhase i (.working op l') s with object := o }
      | some (.inr r, o) => { setPhase i (.leaving op r) s with object := o }
      | none => s
    | _ => s
  | .unlock i =>
    match s.phase i with
    | .leaving op r =>
      { setPhase i .idle s with lock := s.lock.giveBack i, log := s.log ++ [(op, r)] }
    | _ => s

def system (p : Program σ ω ρ ℓ) : System (State τ σ ω ρ ℓ) (Event τ ω) where
  enabled s e := enabled p s e = true
  next := next p

instance (p : Program σ ω ρ ℓ) (s : State τ σ ω ρ ℓ) (e : Event τ ω) :
    Decidable ((system p).enabled s e) :=
  inferInstanceAs (Decidable (enabled p s e = true))

end system

inductive Begun (p : Program σ ω ρ ℓ) (l : ℓ) (s : σ) : ℓ → σ → Prop where
  | refl : Begun p l s l s
  | tail {l' l'' : ℓ} {s' s'' : σ} (before : Begun p l s l' s')
      (step : p.step l' s' = some (.inl l'', s'')) : Begun p l s l'' s''

/-- Steps up to the answer. -/
inductive Steps (p : Program σ ω ρ ℓ) : ℓ → σ → ρ → σ → Prop where
  | last {l : ℓ} {s s' : σ} {r : ρ} (step : p.step l s = some (.inr r, s')) : Steps p l s r s'
  | more {l l' : ℓ} {s s' u : σ} {r : ρ} (step : p.step l s = some (.inl l', s'))
      (rest : Steps p l' s' r u) : Steps p l s r u

/-- A call with nothing in between. -/
def Executes (p : Program σ ω ρ ℓ) (op : ω) (s : σ) (r : ρ) (u : σ) : Prop :=
  ∃ l, p.prepare op s = some l ∧ Steps p l s r u

def Serial (p : Program σ ω ρ ℓ) : σ → List (ω × ρ) → σ → Prop
  | s, [], u => u = s
  | s, e :: log, u => ∃ t, Executes p e.1 s e.2 t ∧ Serial p t log u

/-- What is prepared stays right whatever steps are taken, and the calls that
share the lock change nothing. -/
structure Lawful (p : Program σ ω ρ ℓ) : Prop where
  stable : ∀ op l s x s', p.step l s = some (x, s') → p.prepare op s' = p.prepare op s
  shared : ∀ op s l l' x s', p.mode op = .shared → p.prepare op s = some l →
    Begun p l s l' s → p.step l' s = some (x, s') → s' = s

variable {p : Program σ ω ρ ℓ} {s s' t u : σ} {l l' : ℓ} {r : ρ} {op : ω} {log log' : List (ω × ρ)}

theorem lawful_of_reading (reading : ℓ → Prop)
    (stable : ∀ op l s x s', p.step l s = some (x, s') → p.prepare op s' = p.prepare op s)
    (begins : ∀ op s l, p.mode op = .shared → p.prepare op s = some l → reading l)
    (reads : ∀ l s x s', reading l → p.step l s = some (x, s') →
      s' = s ∧ ∀ l', x = .inl l' → reading l') : Lawful p := by
  refine ⟨stable, ?_⟩
  intro op s l l' x s' hm hl hbegun hstep
  have hreading : ∀ l'' u, Begun p l s l'' u → reading l'' := by
    intro l'' u h
    induction h with
    | refl => exact begins op s l hm hl
    | tail before step ih => exact (reads _ _ _ _ ih step).2 _ rfl
  exact (reads l' s x s' (hreading l' s hbegun) hstep).1

theorem begun_through {f : ω' → ω} : Begun (p.through f) l s l' s' ↔ Begun p l s l' s' := by
  constructor
  · intro h
    induction h with
    | refl => exact .refl
    | tail before step ih => exact .tail ih step
  · intro h
    induction h with
    | refl => exact .refl
    | tail before step ih => exact .tail ih step

theorem steps_through {f : ω' → ω} : Steps (p.through f) l s r u ↔ Steps p l s r u := by
  constructor
  · intro h
    induction h with
    | last step => exact .last step
    | more step rest ih => exact .more step ih
  · intro h
    induction h with
    | last step => exact .last step
    | more step rest ih => exact .more step ih

theorem executes_through {f : ω' → ω} {op : ω'} :
    Executes (p.through f) op s r u ↔ Executes p (f op) s r u :=
  exists_congr fun _ => and_congr Iff.rfl steps_through

theorem lawful_through (f : ω' → ω) (h : Lawful p) : Lawful (p.through f) where
  stable op l s x s' hstep := h.stable (f op) l s x s' hstep
  shared op s l l' x s' hm hl hbegun hstep :=
    h.shared (f op) s l l' x s' hm hl (begun_through.mp hbegun) hstep

theorem steps_of_begun (h : Begun p l s l' s') (h' : Steps p l' s' r u) : Steps p l s r u := by
  induction h with
  | refl => exact h'
  | tail before step ih => exact ih (.more step h')

theorem steps_after_begun (h : Begun p l s l' s') (h' : Steps p l s r u) :
    Steps p l' s' r u := by
  induction h with
  | refl => exact h'
  | tail before step ih =>
    cases ih with
    | last step' => cases step.symm.trans step'
    | more step' rest =>
      obtain ⟨hl, rfl⟩ := Prod.mk.inj (Option.some.inj (step.symm.trans step'))
      obtain rfl := Sum.inl.inj hl
      exact rest

theorem begun_stable (hl : Lawful p) (h : Begun p l s l' s') (op : ω) :
    p.prepare op s' = p.prepare op s := by
  induction h with
  | refl => rfl
  | tail before step ih => exact (hl.stable op _ _ _ _ step).trans ih

theorem steps_stable (hl : Lawful p) (h : Steps p l s r u) (op : ω) :
    p.prepare op u = p.prepare op s := by
  induction h with
  | last step => exact hl.stable op _ _ _ _ step
  | more step rest ih => exact ih.trans (hl.stable op _ _ _ _ step)

theorem steps_unique {r' : ρ} {u' : σ} (h : Steps p l s r u) (h' : Steps p l s r' u') :
    r' = r ∧ u' = u := by
  induction h with
  | last step =>
    cases h' with
    | last step' =>
      obtain ⟨hr, rfl⟩ := Prod.mk.inj (Option.some.inj (step.symm.trans step'))
      exact ⟨(Sum.inr.inj hr).symm, rfl⟩
    | more step' rest => cases step.symm.trans step'
  | more step rest ih =>
    cases h' with
    | last step' => cases step.symm.trans step'
    | more step' rest' =>
      obtain ⟨hl, rfl⟩ := Prod.mk.inj (Option.some.inj (step.symm.trans step'))
      obtain rfl := Sum.inl.inj hl
      exact ih rest'

theorem executes_unique {r' : ρ} {u' : σ} (h : Executes p op s r u) (h' : Executes p op s r' u') :
    r' = r ∧ u' = u := by
  obtain ⟨l, hl, hs⟩ := h
  obtain ⟨l', hl', hs'⟩ := h'
  obtain rfl := Option.some.inj (hl.symm.trans hl')
  exact steps_unique hs hs'

theorem serial_snoc (h : Serial p s log t) (h' : Executes p op t r u) :
    Serial p s (log ++ [(op, r)]) u := by
  induction log generalizing s with
  | nil =>
    obtain rfl : t = s := h
    exact ⟨u, h', rfl⟩
  | cons e log ih =>
    obtain ⟨v, hv, hrest⟩ := h
    exact ⟨v, hv, ih hrest⟩

theorem serial_last (h : Serial p s (log ++ [(op, r)]) u) :
    ∃ t, Serial p s log t ∧ Executes p op t r u := by
  induction log generalizing s with
  | nil =>
    obtain ⟨t, ht, rfl⟩ := h
    exact ⟨s, rfl, ht⟩
  | cons e log ih =>
    obtain ⟨v, hv, hrest⟩ := h
    obtain ⟨t, ht, hlast⟩ := ih hrest
    exact ⟨t, ⟨v, hv, ht⟩, hlast⟩

def replies {α : Type*} (serve : α → ω → ρ × α) : α → List ω → List (ω × ρ)
  | _, [] => []
  | a, op :: ops => (op, (serve a op).1) :: replies serve (serve a op).2 ops

/-- Calls one after the other are answered as by the abstract object that each
of them simulates. -/
theorem serial_simulates {α : Type*} {R : σ → α → Prop} {serve : α → ω → ρ × α}
    (sim : ∀ s a op r u, R s a → Executes p op s r u → r = (serve a op).1 ∧ R u (serve a op).2)
    {a : α} (h : Serial p s log u) (hs : R s a) :
    R u ((log.map Prod.fst).foldl (fun a op => (serve a op).2) a) ∧
      log = replies serve a (log.map Prod.fst) := by
  induction log generalizing s a with
  | nil =>
    obtain rfl : u = s := h
    exact ⟨hs, rfl⟩
  | cons e log ih =>
    obtain ⟨t, ht, hrest⟩ := h
    obtain ⟨hr, ht⟩ := sim s a e.1 e.2 t hs ht
    obtain ⟨hu, hlog⟩ := ih hrest ht
    refine ⟨hu, ?_⟩
    rw [List.map_cons, replies, ← hr, ← hlog]

section runs
variable [DecidableEq τ] {w : State τ σ ω ρ ℓ} {e : Event τ ω}

inductive Move (p : Program σ ω ρ ℓ) (w : State τ σ ω ρ ℓ) : State τ σ ω ρ ℓ → Prop where
  | calls (i : τ) (op : ω) (l : ℓ) (idle : w.phase i = .idle)
      (prepared : p.prepare op w.object = some l) : Move p w (setPhase i (.waiting op l) w)
  | locks (i : τ) (op : ω) (l : ℓ) (waiting : w.phase i = .waiting op l)
      (free : admitted (p.mode op) w.lock = true) :
      Move p w { setPhase i (.working op l) w with lock := w.lock.take (p.mode op) i }
  | works (i : τ) (op : ω) (l l' : ℓ) (o : σ) (working : w.phase i = .working op l)
      (step : p.step l w.object = some (.inl l', o)) :
      Move p w { setPhase i (.working op l') w with object := o }
  | ends (i : τ) (op : ω) (l : ℓ) (r : ρ) (o : σ) (working : w.phase i = .working op l)
      (step : p.step l w.object = some (.inr r, o)) :
      Move p w { setPhase i (.leaving op r) w with object := o }
  | unlocks (i : τ) (op : ω) (r : ρ) (leaving : w.phase i = .leaving op r) :
      Move p w { setPhase i .idle w with lock := w.lock.giveBack i, log := w.log ++ [(op, r)] }

theorem next_move (he : enabled p w e = true) : Move p w (next p w e) := by
  cases e with
  | call i op =>
    cases hi : w.phase i with
    | idle =>
      simp only [enabled, hi] at he
      obtain ⟨l, hl⟩ := Option.isSome_iff_exists.mp he
      simp only [next, hl]
      exact .calls i op l hi hl
    | _ => simp [enabled, hi] at he
  | lock i =>
    cases hi : w.phase i with
    | waiting op l =>
      simp only [enabled, hi] at he
      simp only [next, hi]
      exact .locks i op l hi he
    | _ => simp [enabled, hi] at he
  | step i =>
    cases hi : w.phase i with
    | working op l =>
      simp only [enabled, hi] at he
      obtain ⟨⟨x, o⟩, hx⟩ := Option.isSome_iff_exists.mp he
      cases x with
      | inl l' =>
        simp only [next, hi, hx]
        exact .works i op l l' o hi hx
      | inr r =>
        simp only [next, hi, hx]
        exact .ends i op l r o hi hx
    | _ => simp [enabled, hi] at he
  | unlock i =>
    cases hi : w.phase i with
    | leaving op r =>
      simp only [next, hi]
      exact .unlocks i op r hi
    | _ => simp [enabled, hi] at he

end runs

def held (p : Program σ ω ρ ℓ) : Phase ω ρ ℓ → Option Mode
  | .working op _ | .leaving op _ => some (p.mode op)
  | _ => none

/-- How far a call has come from the object `base`, which is `o` by now. -/
def Underway (p : Program σ ω ρ ℓ) (base o : σ) : Phase ω ρ ℓ → Prop
  | .idle => True
  | .waiting op l => p.prepare op o = some l
  | .working op l => ∃ l₀, p.prepare op base = some l₀ ∧ Begun p l₀ base l o
  | .leaving op r => Executes p op base r o

structure Guarded (p : Program σ ω ρ ℓ) (w : State τ σ ω ρ ℓ) : Prop where
  readers : ∀ i, i ∈ w.lock.readers ↔ held p (w.phase i) = some .shared
  nodup : w.lock.readers.Nodup
  writer : ∀ i, w.lock.writer = some i ↔ held p (w.phase i) = some .exclusive
  alone : w.lock.writer ≠ none → w.lock.readers = []

/-- The calls logged have made the object `base`, and only the one that has the
lock alone has changed it since. -/
structure Based (p : Program σ ω ρ ℓ) (start : σ) (w : State τ σ ω ρ ℓ) (base : σ) : Prop where
  serial : Serial p start w.log base
  unchanged : w.lock.writer = none → w.object = base
  underway : ∀ i, Underway p base w.object (w.phase i)

structure Inv (p : Program σ ω ρ ℓ) (start : σ) (w : State τ σ ω ρ ℓ) : Prop where
  guarded : Guarded p w
  based : ∃ base, Based p start w base

variable {v w : State τ σ ω ρ ℓ} {start base : σ} {i j : τ} {f : Phase ω ρ ℓ}

theorem inv_initial (p : Program σ ω ρ ℓ) (start : σ) :
    Inv p start (initial start : State τ σ ω ρ ℓ) := by
  refine ⟨⟨?_, List.nodup_nil, ?_, fun _ => rfl⟩, start, rfl, fun _ => rfl, fun _ => trivial⟩
  · exact fun i => iff_of_false List.not_mem_nil fun h => nomatch h
  · exact fun i => iff_of_false (fun h => nomatch h) fun h => nomatch h

theorem guarded_congr (h : Guarded p w) (hlock : v.lock = w.lock)
    (hheld : ∀ j, held p (v.phase j) = held p (w.phase j)) : Guarded p v := by
  constructor
  · intro j
    rw [hlock, hheld]
    exact h.readers j
  · rw [hlock]
    exact h.nodup
  · intro j
    rw [hlock, hheld]
    exact h.writer j
  · rw [hlock]
    exact h.alone

theorem others_free (h : Guarded p w) (hi : held p (w.phase i) = some .exclusive) (hj : j ≠ i) :
    held p (w.phase j) = none := by
  have hw := (h.writer i).mpr hi
  cases hm : held p (w.phase j) with
  | none => rfl
  | some m =>
    cases m with
    | shared =>
      have hmem := (h.readers j).mpr hm
      rw [h.alone (by rw [hw]; exact Option.some_ne_none i)] at hmem
      exact absurd hmem List.not_mem_nil
    | exclusive =>
      have hwj := (h.writer j).mpr hm
      exact absurd (Option.some.inj (hwj.symm.trans hw)) hj

theorem no_writer (h : Guarded p w) (hi : held p (w.phase i) = some .shared) :
    w.lock.writer = none := by
  by_contra hne
  have hmem := (h.readers i).mpr hi
  rw [h.alone hne] at hmem
  exact List.not_mem_nil hmem

theorem admitted_writer {m : Mode} {k : Lock τ} (h : admitted m k = true) : k.writer = none := by
  cases m with
  | shared => simpa [admitted] using h
  | exclusive =>
    rw [admitted, Bool.and_eq_true] at h
    simpa using h.1

theorem shared_step (hl : Lawful p) (hg : Guarded p w) (hb : Based p start w base) {op : ω} {l : ℓ}
    {x : ℓ ⊕ ρ} {o : σ} (hi : w.phase i = .working op l) (hm : p.mode op = .shared)
    (hstep : p.step l w.object = some (x, o)) : o = w.object := by
  have hobject := hb.unchanged (no_writer hg (by rw [hi, held, hm]))
  have hu := hb.underway i
  rw [hi] at hu
  obtain ⟨l₀, h₀, hbegun⟩ := hu
  rw [hobject] at hbegun hstep ⊢
  exact hl.shared op base l₀ l x o hm h₀ hbegun hstep

theorem underway_changed (hl : Lawful p) {o : σ} {l : ℓ} {x : ℓ ⊕ ρ}
    (hstep : p.step l w.object = some (x, o)) (hf : held p f = none)
    (hu : Underway p base w.object f) : Underway p base o f := by
  cases f with
  | idle => trivial
  | waiting op l' => exact (hl.stable op l w.object x o hstep).trans hu
  | working op l' => cases hf
  | leaving op r => cases hf

def Answering (p : Program σ ω ρ ℓ) (start : σ) : Prop :=
  ∀ log s, Serial p start log s → ∀ op, ∃ r u, Executes p op s r u

theorem prepare_isSome (hl : Lawful p) (ha : Answering p start) (h : Inv p start w) (op : ω) :
    (p.prepare op w.object).isSome = true := by
  obtain ⟨hg, base, hb⟩ := h
  obtain ⟨r, u, l, hbase, -⟩ := ha w.log base hb.serial op
  have hsame : p.prepare op w.object = p.prepare op base := by
    cases hw : w.lock.writer with
    | none => rw [hb.unchanged hw]
    | some i =>
      have hi := (hg.writer i).mp hw
      have hu := hb.underway i
      cases hf : w.phase i with
      | working op' l' =>
        rw [hf] at hu
        obtain ⟨l₀, -, hbegun⟩ := hu
        exact begun_stable hl hbegun op
      | leaving op' r' =>
        rw [hf] at hu
        obtain ⟨l₀, -, hsteps⟩ := hu
        exact steps_stable hl hsteps op
      | idle =>
        rw [hf] at hi
        cases hi
      | waiting op' l' =>
        rw [hf] at hi
        cases hi
  rw [hsame, hbase]
  rfl

theorem step_enabled (ha : Answering p start) (h : Inv p start w) {op : ω} {l : ℓ}
    (hi : w.phase i = .working op l) : enabled p w (.step i) = true := by
  obtain ⟨-, base, hb⟩ := h
  have hu := hb.underway i
  rw [hi] at hu
  obtain ⟨l₀, h₀, hbegun⟩ := hu
  obtain ⟨r, u, l₁, h₁, hsteps⟩ := ha w.log base hb.serial op
  obtain rfl := Option.some.inj (h₀.symm.trans h₁)
  simp only [enabled, hi]
  cases steps_after_begun hbegun hsteps with
  | last step => rw [step]; rfl
  | more step rest => rw [step]; rfl

section runs
variable [DecidableEq τ]

@[simp] theorem setPhase_self (i : τ) (f : Phase ω ρ ℓ) (w : State τ σ ω ρ ℓ) :
    (setPhase i f w).phase i = f :=
  Function.update_self ..

theorem setPhase_of_ne (hj : j ≠ i) (f : Phase ω ρ ℓ) (w : State τ σ ω ρ ℓ) :
    (setPhase i f w).phase j = w.phase j :=
  Function.update_of_ne hj ..

theorem held_setPhase (hf : held p f = held p (w.phase i)) (j : τ) :
    held p ((setPhase i f w).phase j) = held p (w.phase j) := by
  by_cases hj : j = i
  · subst hj
    rw [setPhase_self, hf]
  · rw [setPhase_of_ne hj]

theorem underway_setPhase {o : σ} (hi : Underway p base o f)
    (hj : ∀ j, j ≠ i → Underway p base o (w.phase j)) (j : τ) :
    Underway p base o ((setPhase i f w).phase j) := by
  by_cases hji : j = i
  · subst hji
    rwa [setPhase_self]
  · rw [setPhase_of_ne hji]
    exact hj j hji

theorem guarded_take (h : Guarded p w) {op : ω} {l : ℓ} (hi : w.phase i = .waiting op l)
    (hfree : admitted (p.mode op) w.lock = true) :
    Guarded p { setPhase i (.working op l) w with lock := w.lock.take (p.mode op) i } := by
  have hnone : held p (w.phase i) = none := by rw [hi]; rfl
  have hself : held p ((setPhase i (.working op l) w).phase i) = some (p.mode op) := by
    rw [setPhase_self]
    rfl
  have hother : ∀ j, j ≠ i → held p ((setPhase i (.working op l) w).phase j) = held p (w.phase j) :=
    fun j hj => by rw [setPhase_of_ne hj]
  have hwriter : w.lock.writer = none := admitted_writer hfree
  have hnot : i ∉ w.lock.readers := fun hmem => by
    rw [h.readers, hnone] at hmem
    cases hmem
  cases hm : p.mode op with
  | shared =>
    rw [hm] at hself
    constructor
    · intro j
      show j ∈ i :: w.lock.readers ↔ _
      by_cases hj : j = i
      · subst hj
        exact iff_of_true List.mem_cons_self hself
      · rw [List.mem_cons, or_iff_right hj, h.readers]
        exact (congrArg (· = some Mode.shared) (hother j hj)).symm.to_iff
    · exact List.nodup_cons.mpr ⟨hnot, h.nodup⟩
    · intro j
      show w.lock.writer = some j ↔ _
      by_cases hj : j = i
      · subst hj
        rw [hwriter]
        exact iff_of_false (fun he => nomatch he) fun he => nomatch hself.symm.trans he
      · rw [h.writer]
        exact (congrArg (· = some Mode.exclusive) (hother j hj)).symm.to_iff
    · exact fun hne => absurd hwriter hne
  | exclusive =>
    rw [hm] at hself
    have hempty : w.lock.readers = [] := by
      rw [hm, admitted, Bool.and_eq_true] at hfree
      simpa using hfree.2
    constructor
    · intro j
      show j ∈ w.lock.readers ↔ _
      by_cases hj : j = i
      · subst hj
        exact iff_of_false hnot fun he => nomatch hself.symm.trans he
      · rw [h.readers]
        exact (congrArg (· = some Mode.shared) (hother j hj)).symm.to_iff
    · exact h.nodup
    · intro j
      show some i = some j ↔ _
      by_cases hj : j = i
      · subst hj
        exact iff_of_true rfl hself
      · refine iff_of_false (fun he => hj (Option.some.inj he).symm) fun he => ?_
        have hw := (h.writer j).mpr ((hother j hj).symm.trans he)
        rw [hwriter] at hw
        cases hw
    · exact fun _ => hempty

theorem guarded_giveBack (h : Guarded p w) {op : ω} {r : ρ} (hi : w.phase i = .leaving op r)
    (log : List (ω × ρ)) :
    Guarded p { setPhase i .idle w with lock := w.lock.giveBack i, log := log } := by
  have hself : held p ((setPhase i .idle w).phase i) = none := by rw [setPhase_self]; rfl
  have hother : ∀ j, j ≠ i → held p ((setPhase i .idle w).phase j) = held p (w.phase j) :=
    fun j hj => by rw [setPhase_of_ne hj]
  have hmode : held p (w.phase i) = some (p.mode op) := by rw [hi]; rfl
  by_cases hw : w.lock.writer = some i
  · have hempty := h.alone (by rw [hw]; exact Option.some_ne_none i)
    have hlock : w.lock.giveBack i = ⟨[], none⟩ := by rw [Lock.giveBack, if_pos hw, hempty]
    have hfree : ∀ j, held p ((setPhase i .idle w).phase j) = none := by
      intro j
      by_cases hj : j = i
      · rw [hj, hself]
      · rw [hother j hj]
        exact others_free h ((h.writer i).mp hw) hj
    constructor
    · intro j
      show j ∈ (w.lock.giveBack i).readers ↔ _
      rw [hlock]
      exact iff_of_false List.not_mem_nil fun he => nomatch (hfree j).symm.trans he
    · show (w.lock.giveBack i).readers.Nodup
      rw [hlock]
      exact List.nodup_nil
    · intro j
      show (w.lock.giveBack i).writer = some j ↔ _
      rw [hlock]
      exact iff_of_false (fun he => nomatch he) fun he => nomatch (hfree j).symm.trans he
    · intro _
      show (w.lock.giveBack i).readers = []
      rw [hlock]
  · have hlock : w.lock.giveBack i = { w.lock with readers := w.lock.readers.erase i } := if_neg hw
    constructor
    · intro j
      show j ∈ (w.lock.giveBack i).readers ↔ held p ((setPhase i .idle w).phase j) = _
      rw [hlock, h.nodup.mem_erase_iff]
      by_cases hj : j = i
      · subst hj
        exact iff_of_false (fun he => he.1 rfl) fun he => nomatch hself.symm.trans he
      · rw [hother j hj, ← h.readers]
        exact and_iff_right hj
    · show (w.lock.giveBack i).readers.Nodup
      rw [hlock]
      exact h.nodup.erase i
    · intro j
      show (w.lock.giveBack i).writer = some j ↔ held p ((setPhase i .idle w).phase j) = _
      rw [hlock]
      by_cases hj : j = i
      · subst hj
        exact iff_of_false hw fun he => nomatch hself.symm.trans he
      · rw [hother j hj]
        exact h.writer j
    · intro hne
      show (w.lock.giveBack i).readers = []
      rw [hlock] at hne ⊢
      show w.lock.readers.erase i = []
      rw [h.alone hne]
      rfl

theorem based_step (hl : Lawful p) (hg : Guarded p w) (hb : Based p start w base) {op : ω} {l : ℓ}
    {x : ℓ ⊕ ρ} {o : σ} (hi : w.phase i = .working op l) (hstep : p.step l w.object = some (x, o))
    (hf : Underway p base o f) : Based p start { setPhase i f w with object := o } base := by
  cases hm : p.mode op with
  | shared =>
    obtain rfl := shared_step hl hg hb hi hm hstep
    exact ⟨hb.serial, hb.unchanged, underway_setPhase hf fun j _ => hb.underway j⟩
  | exclusive =>
    have hexcl : held p (w.phase i) = some .exclusive := by rw [hi, held, hm]
    refine ⟨hb.serial, ?_, underway_setPhase hf fun j hj => ?_⟩
    · intro hnone
      have hw := (hg.writer i).mpr hexcl
      cases hw.symm.trans hnone
    · exact underway_changed hl hstep (others_free hg hexcl hj) (hb.underway j)

theorem underway_free {base' o : σ} (hf : held p f = none) (hu : Underway p base o f) :
    Underway p base' o f := by
  cases f with
  | idle => trivial
  | waiting op l => exact hu
  | working op l => cases hf
  | leaving op r => cases hf

theorem based_giveBack (hg : Guarded p w) (hb : Based p start w base) {op : ω} {r : ρ}
    (hi : w.phase i = .leaving op r) : ∃ base', Based p start
      { setPhase i .idle w with lock := w.lock.giveBack i, log := w.log ++ [(op, r)] } base' := by
  have hexec := hb.underway i
  rw [hi] at hexec
  refine ⟨w.object, serial_snoc hb.serial hexec, fun _ => rfl, ?_⟩
  cases hm : p.mode op with
  | shared =>
    have hbase := hb.underway
    rw [← hb.unchanged (no_writer hg (by rw [hi, held, hm]))] at hbase
    exact underway_setPhase trivial fun j _ => hbase j
  | exclusive =>
    have hexcl : held p (w.phase i) = some .exclusive := by rw [hi, held, hm]
    exact underway_setPhase trivial fun j hj => underway_free (others_free hg hexcl hj) (hb.underway j)

theorem move_inv (hl : Lawful p) (h : Inv p start w) (hmove : Move p w v) : Inv p start v := by
  obtain ⟨hg, base, hb⟩ := h
  cases hmove with
  | calls i op l idle prepared =>
    refine ⟨guarded_congr hg rfl (held_setPhase ?_), base, hb.serial, hb.unchanged, ?_⟩
    · rw [idle]
      rfl
    · exact underway_setPhase prepared fun j _ => hb.underway j
  | locks i op l waiting free =>
    refine ⟨guarded_take hg waiting free, base, hb.serial, ?_, ?_⟩
    · intro hnone
      cases hm : p.mode op with
      | shared =>
        rw [hm] at hnone
        exact hb.unchanged hnone
      | exclusive =>
        rw [hm] at hnone
        cases hnone
    · have hobject := hb.unchanged (admitted_writer free)
      have hprepared := hb.underway i
      rw [waiting, hobject] at hprepared
      have hstart : Begun p l base l w.object := by
        rw [hobject]
        exact .refl
      exact underway_setPhase ⟨l, hprepared, hstart⟩ fun j _ => hb.underway j
  | works i op l l' o working step =>
    refine ⟨guarded_congr hg rfl (held_setPhase ?_), base, based_step hl hg hb working step ?_⟩
    · rw [working]
      rfl
    · have hu := hb.underway i
      rw [working] at hu
      obtain ⟨l₀, h₀, hbegun⟩ := hu
      exact ⟨l₀, h₀, .tail hbegun step⟩
  | ends i op l r o working step =>
    refine ⟨guarded_congr hg rfl (held_setPhase ?_), base, based_step hl hg hb working step ?_⟩
    · rw [working]
      rfl
    · have hu := hb.underway i
      rw [working] at hu
      obtain ⟨l₀, h₀, hbegun⟩ := hu
      exact ⟨l₀, h₀, steps_of_begun hbegun (.last step)⟩
  | unlocks i op r leaving => exact ⟨guarded_giveBack hg leaving _, based_giveBack hg hb leaving⟩

theorem run_inv {C : State τ σ ω ρ ℓ → Event τ ω → Prop} {es : List (Event τ ω)} (hl : Lawful p)
    (h : Run (system p) C w es v) (hw : Inv p start w) : Inv p start v :=
  run_invariant (I := Inv p start) (fun _ _ hi he _ => move_inv hl hi (next_move he)) h hw

theorem run_log {C : State τ σ ω ρ ℓ → Event τ ω → Prop} {es : List (Event τ ω)}
    (h : Run (system p) C w es v) : w.log <+: v.log := by
  refine run_invariant (I := fun v => w.log <+: v.log) ?_ h (List.prefix_refl _)
  intro u e hu he _
  have hmove := next_move he
  show w.log <+: (next p u e).log
  generalize next p u e = v at hmove ⊢
  cases hmove with
  | unlocks i op r leaving => exact hu.trans (List.prefix_append u.log [(op, r)])
  | _ => exact hu

def callOf : Phase ω ρ ℓ → Option ω
  | .idle => none
  | .waiting op _ | .working op _ | .leaving op _ => some op

/-- A run in which nothing is asked of the environment. -/
abbrev Goes (p : Program σ ω ρ ℓ) (w : State τ σ ω ρ ℓ) (es : List (Event τ ω))
    (v : State τ σ ω ρ ℓ) : Prop :=
  Run (system p) (fun _ _ => True) w es v

theorem goes_steps {op : ω} {o : σ} (h : Steps p l o r u) (hi : w.phase i = .working op l)
    (ho : w.object = o) : ∃ es v, Goes p w es v ∧ v.phase i = .leaving op r ∧
      v.lock = w.lock ∧ v.log = w.log ∧ ∀ j, j ≠ i → v.phase j = w.phase j := by
  induction h generalizing w with
  | @last l s s' r step =>
    rw [← ho] at step
    have he : enabled p w (.step i) = true := by simp [enabled, hi, step]
    have hn : next p w (.step i) = { setPhase i (.leaving op r) w with object := s' } := by
      simp only [next, hi, step]
    refine ⟨[.step i], _, .cons he trivial (.nil _), ?_⟩
    show (next p w (.step i)).phase i = _ ∧ (next p w (.step i)).lock = _ ∧
      (next p w (.step i)).log = _ ∧ ∀ j, j ≠ i → (next p w (.step i)).phase j = _
    rw [hn]
    exact ⟨setPhase_self i _ w, rfl, rfl, fun j hj => setPhase_of_ne hj _ w⟩
  | @more l l' s s' u r step rest ih =>
    rw [← ho] at step
    have he : enabled p w (.step i) = true := by simp [enabled, hi, step]
    have hn : next p w (.step i) = { setPhase i (.working op l') w with object := s' } := by
      simp only [next, hi, step]
    obtain ⟨es, v, hrun, hv, hlock, hlog, hother⟩ :=
      ih (w := next p w (.step i)) (by rw [hn]; exact setPhase_self i _ w) (by rw [hn])
    refine ⟨.step i :: es, v, .cons he trivial hrun, hv, ?_, ?_, fun j hj => ?_⟩
    · rw [hlock, hn]
      rfl
    · rw [hlog, hn]
      rfl
    · rw [hother j hj, hn]
      exact setPhase_of_ne hj _ w

theorem goes_unlock {op : ω} (hi : w.phase i = .leaving op r) : ∃ v, Goes p w [.unlock i] v ∧
    v.phase i = .idle ∧ v.lock = w.lock.giveBack i ∧ v.log = w.log ++ [(op, r)] ∧
      ∀ j, j ≠ i → v.phase j = w.phase j := by
  have he : enabled p w (.unlock i) = true := by simp only [enabled, hi]
  have hn : next p w (.unlock i) =
      { setPhase i .idle w with lock := w.lock.giveBack i, log := w.log ++ [(op, r)] } := by
    simp only [next, hi]
  refine ⟨next p w (.unlock i), .cons he trivial (.nil _), ?_⟩
  rw [hn]
  exact ⟨setPhase_self i _ w, rfl, rfl, fun j hj => setPhase_of_ne hj _ w⟩

theorem goes_finish (ha : Answering p start) (h : Inv p start w) {op : ω}
    (hop : callOf (w.phase i) = some op) (hi : held p (w.phase i) ≠ none) :
    ∃ es v r, Goes p w es v ∧ v.phase i = .idle ∧ v.lock = w.lock.giveBack i ∧
      v.log = w.log ++ [(op, r)] ∧ ∀ j, j ≠ i → v.phase j = w.phase j := by
  obtain ⟨-, base, hb⟩ := h
  cases hf : w.phase i with
  | idle => exact absurd (by rw [hf]; rfl) hi
  | waiting op' l => exact absurd (by rw [hf]; rfl) hi
  | working op' l =>
    rw [hf] at hop
    obtain rfl := Option.some.inj hop
    have hu := hb.underway i
    rw [hf] at hu
    obtain ⟨l₀, h₀, hbegun⟩ := hu
    obtain ⟨r, u, l₁, h₁, hsteps⟩ := ha w.log base hb.serial op'
    obtain rfl := Option.some.inj (h₀.symm.trans h₁)
    obtain ⟨es, v, hrun, hv, hlock, hlog, hother⟩ :=
      goes_steps (steps_after_begun hbegun hsteps) hf rfl
    obtain ⟨v', hrun', hv', hlock', hlog', hother'⟩ := goes_unlock (p := p) hv
    refine ⟨es ++ [.unlock i], v', r, run_append hrun hrun', hv', ?_, ?_, fun j hj => ?_⟩
    · rw [hlock', hlock]
    · rw [hlog', hlog]
    · rw [hother' j hj, hother j hj]
  | leaving op' r =>
    rw [hf] at hop
    obtain rfl := Option.some.inj hop
    obtain ⟨v, hrun, hv⟩ := goes_unlock (p := p) hf
    exact ⟨[.unlock i], v, r, hrun, hv⟩

theorem goes_free (hl : Lawful p) (ha : Answering p start) (n : ℕ) (h : Inv p start w)
    (hn : w.lock.readers.length + w.lock.writer.toList.length = n) :
    ∃ es v, Goes p w es v ∧ v.lock = ⟨[], none⟩ ∧
      ∀ j, held p (w.phase j) = none → v.phase j = w.phase j := by
  have hholder : ∀ i, held p (w.phase i) ≠ none → ∃ op, callOf (w.phase i) = some op := by
    intro i hi
    cases hf : w.phase i with
    | idle => exact absurd (by rw [hf]; rfl) hi
    | waiting op l => exact ⟨op, rfl⟩
    | working op l => exact ⟨op, rfl⟩
    | leaving op r => exact ⟨op, rfl⟩
  induction n generalizing w with
  | zero =>
    refine ⟨[], w, .nil w, ?_, fun j _ => rfl⟩
    have hr : w.lock.readers = [] := List.eq_nil_of_length_eq_zero (by omega)
    have hw : w.lock.writer = none := by
      cases hw : w.lock.writer with
      | none => rfl
      | some i =>
        rw [hw] at hn
        simp at hn
    rw [← hr, ← hw]
  | succ n ih =>
    obtain ⟨i, m, hi, hless⟩ : ∃ i m, held p (w.phase i) = some m ∧
        (w.lock.giveBack i).readers.length + (w.lock.giveBack i).writer.toList.length = n := by
      cases hw : w.lock.writer with
      | some i =>
        refine ⟨i, .exclusive, (h.guarded.writer i).mp hw, ?_⟩
        have hempty := h.guarded.alone (by rw [hw]; exact Option.some_ne_none i)
        rw [hw, hempty] at hn
        rw [Lock.giveBack, if_pos hw, hempty]
        exact Nat.succ.inj hn
      | none =>
        cases hr : w.lock.readers with
        | nil =>
          rw [hw, hr] at hn
          cases hn
        | cons i rest =>
          have hmem : i ∈ w.lock.readers := by rw [hr]; exact List.mem_cons_self
          refine ⟨i, .shared, (h.guarded.readers i).mp hmem, ?_⟩
          rw [hw, hr] at hn
          rw [Lock.giveBack, hw, if_neg (fun he => nomatch he), hr, List.erase_cons_head]
          simpa using hn
    have hhas : held p (w.phase i) ≠ none := by
      rw [hi]
      exact Option.some_ne_none m
    obtain ⟨op, hop⟩ := hholder i hhas
    obtain ⟨es, v, r, hrun, hidle, hlock, -, hother⟩ := goes_finish ha h hop hhas
    obtain ⟨fs, v', hrun', hfree, hkept⟩ := ih (run_inv hl hrun h) (by rw [hlock]; exact hless) (by
      intro j hj
      by_cases hji : j = i
      · rw [hji, hidle] at hj
        exact absurd rfl hj
      · rw [hother j hji] at hj ⊢
        exact hholder j hj)
    refine ⟨es ++ fs, v', run_append hrun hrun', hfree, fun j hj => ?_⟩
    have hji : j ≠ i := fun he => hhas (he ▸ hj)
    rw [hkept j (by rw [hother j hji]; exact hj), hother j hji]

theorem goes_answer (hl : Lawful p) (ha : Answering p start) (h : Inv p start w) {op : ω}
    (hop : callOf (w.phase i) = some op) : ∃ es v r, Goes p w es v ∧ v.phase i = .idle ∧
      ∃ between, v.log = w.log ++ between ++ [(op, r)] := by
  by_cases hhas : held p (w.phase i) = none
  · cases hf : w.phase i with
    | waiting op' l =>
      rw [hf] at hop
      obtain rfl := Option.some.inj hop
      obtain ⟨es, v, hrun, hfree, hkept⟩ := goes_free hl ha _ h rfl
      have hv : v.phase i = .waiting op' l := (hkept i hhas).trans hf
      have he : enabled p v (.lock i) = true := by
        simp only [enabled, hv, hfree]
        cases p.mode op' <;> rfl
      have hn : next p v (.lock i) =
          { setPhase i (.working op' l) v with lock := v.lock.take (p.mode op') i } := by
        simp only [next, hv]
      have htaken : Goes p v [.lock i] (next p v (.lock i)) := .cons he trivial (.nil _)
      have hworking : (next p v (.lock i)).phase i = .working op' l := by
        rw [hn]
        exact setPhase_self i _ v
      have hcall : callOf ((next p v (.lock i)).phase i) = some op' := by rw [hworking]; rfl
      have hheld : held p ((next p v (.lock i)).phase i) ≠ none := by
        rw [hworking]
        exact Option.some_ne_none _
      obtain ⟨fs, v', r, hrun', hidle, -, hlog, -⟩ :=
        goes_finish ha (run_inv hl (run_append hrun htaken) h) hcall hheld
      obtain ⟨between, hbetween⟩ := run_log (run_append hrun htaken)
      refine ⟨es ++ [.lock i] ++ fs, v', r, run_append (run_append hrun htaken) hrun', hidle,
        between, ?_⟩
      rw [hlog, hbetween]
    | idle =>
      rw [hf] at hop
      cases hop
    | working op' l =>
      rw [hf] at hhas
      cases hhas
    | leaving op' r =>
      rw [hf] at hhas
      cases hhas
  · obtain ⟨es, v, r, hrun, hidle, -, hlog, -⟩ := goes_finish ha h hop hhas
    exact ⟨es, v, r, hrun, hidle, [], by rw [hlog, List.append_nil]⟩

end runs

end LockedObject
