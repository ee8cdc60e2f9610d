import Mathlib.Data.List.Basic
import Mathlib.Data.Nat.Notation

/-!
# Guarded systems and their runs

A system offers, in every state, the events its guard admits; an admitted
event has one successor. A run lists the events taken. Each of its steps may be
restricted by a condition on the state before the step and the event, so that a
statement can name the environment it assumes.
-/

set_option autoImplicit false

namespace TransitionRuns

variable {σ ε : Type*}

structure System (σ ε : Type*) where
  enabled : σ → ε → Prop
  next : σ → ε → σ

variable (S : System σ ε) (C : σ → ε → Prop)

inductive Run : σ → List ε → σ → Prop where
  | nil (s : σ) : Run s [] s
  | cons {s u : σ} {e : ε} {es : List ε} (admitted : S.enabled s e) (condition : C s e)
      (rest : Run (S.next s e) es u) : Run s (e :: es) u

variable {S C}

theorem run_cons_iff {s u : σ} {e : ε} {es : List ε} :
    Run S C s (e :: es) u ↔ S.enabled s e ∧ C s e ∧ Run S C (S.next s e) es u := by
  constructor
  · intro h
    cases h with
    | cons admitted condition rest => exact ⟨admitted, condition, rest⟩
  · rintro ⟨admitted, condition, rest⟩
    exact .cons admitted condition rest

theorem run_weaken {D : σ → ε → Prop} (hCD : ∀ s e, C s e → D s e) {s u : σ} {es : List ε}
    (h : Run S C s es u) : Run S D s es u := by
  induction h with
  | nil s => exact .nil s
  | cons admitted condition rest ih => exact .cons admitted (hCD _ _ condition) ih

theorem run_of_events {E : ε → Prop} {s u : σ} {es : List ε} (h : Run S C s es u)
    (hE : ∀ e ∈ es, E e) : Run S (fun s e => C s e ∧ E e) s es u := by
  induction h with
  | nil s => exact .nil s
  | cons admitted condition rest ih =>
    exact .cons admitted ⟨condition, hE _ (List.mem_cons_self ..)⟩
      (ih fun e he => hE e (List.mem_cons_of_mem _ he))

theorem run_append {s t u : σ} {es fs : List ε} (h : Run S C s es t) (h' : Run S C t fs u) :
    Run S C s (es ++ fs) u := by
  induction h with
  | nil s => exact h'
  | cons admitted condition rest ih => exact .cons admitted condition (ih h')

theorem run_invariant {I : σ → Prop}
    (step : ∀ s e, I s → S.enabled s e → C s e → I (S.next s e))
    {s u : σ} {es : List ε} (h : Run S C s es u) (hs : I s) : I u := by
  induction h with
  | nil s => exact hs
  | cons admitted condition rest ih => exact ih (step _ _ hs admitted condition)

theorem run_history {H : List ε → σ → Prop}
    (step : ∀ es s e, H es s → S.enabled s e → C s e → H (es ++ [e]) (S.next s e))
    {s u : σ} {es : List ε} (h : Run S C s es u) (hs : H [] s) : H es u := by
  suffices general : ∀ fs, H fs s → H (fs ++ es) u from general [] hs
  clear hs
  induction h with
  | nil s => exact fun fs hs => by rwa [List.append_nil]
  | cons admitted condition rest ih =>
    intro fs hs
    have hnext := ih (fs ++ _) (step fs _ _ hs admitted condition)
    rwa [List.append_assoc] at hnext

/-- What somebody who watches the steps of a run has noted at its end. -/
def monitored {α : Type*} (S : System σ ε) (watch : σ → ε → α → α) : σ → List ε → α → α
  | _, [], a => a
  | s, e :: es, a => monitored S watch (S.next s e) es (watch s e a)

theorem run_monitored {α : Type*} {watch : σ → ε → α → α} {I : α → σ → Prop}
    (step : ∀ a s e, I a s → S.enabled s e → C s e → I (watch s e a) (S.next s e))
    {s u : σ} {es : List ε} {a : α} (h : Run S C s es u) (hs : I a s) :
    I (monitored S watch s es a) u := by
  induction h generalizing a with
  | nil s => exact hs
  | cons admitted condition rest ih => exact ih (step _ _ _ hs admitted condition)

theorem run_length_le {I : σ → Prop} (μ : σ → ℕ)
    (step : ∀ s e, I s → S.enabled s e → C s e → I (S.next s e) ∧ μ (S.next s e) < μ s)
    {s u : σ} {es : List ε} (h : Run S C s es u) (hs : I s) : es.length + μ u ≤ μ s := by
  induction h with
  | nil s => exact Nat.le_of_eq (Nat.zero_add _)
  | cons admitted condition rest ih =>
    obtain ⟨hnext, hless⟩ := step _ _ hs admitted condition
    have hrest := ih hnext
    rw [List.length_cons]
    omega

def admits (S : System σ ε) (C : σ → ε → Prop) [∀ s e, Decidable (S.enabled s e)]
    [∀ s e, Decidable (C s e)] : σ → List ε → Bool
  | _, [] => true
  | s, e :: es => decide (S.enabled s e) && decide (C s e) && admits S C (S.next s e) es

theorem run_of_admits [∀ s e, Decidable (S.enabled s e)] [∀ s e, Decidable (C s e)]
    (s : σ) (es : List ε) (h : admits S C s es = true) : Run S C s es (es.foldl S.next s) := by
  induction es generalizing s with
  | nil => exact .nil s
  | cons e es ih =>
    simp only [admits, Bool.and_eq_true, decide_eq_true_eq] at h
    exact .cons h.1.1 h.1.2 (ih _ h.2)

section Copies

variable {ι : Type*} [DecidableEq ι]

/-- Copies of a system that take steps one at a time, in any order. -/
def copies (ι : Type*) [DecidableEq ι] (S : System σ ε) : System (ι → σ) (ι × ε) where
  enabled s e := S.enabled (s e.1) e.2
  next s e := Function.update s e.1 (S.next (s e.1) e.2)

instance (S : System σ ε) [∀ s e, Decidable (S.enabled s e)] (s : ι → σ) (e : ι × ε) :
    Decidable ((copies ι S).enabled s e) :=
  inferInstanceAs (Decidable (S.enabled (s e.1) e.2))

def eventsOf (k : ι) (es : List (ι × ε)) : List ε :=
  es.filterMap fun e => if e.1 = k then some e.2 else none

theorem run_copy (k : ι) {s u : ι → σ} {es : List (ι × ε)}
    (h : Run (copies ι S) (fun s e => C (s e.1) e.2) s es u) :
    Run S C (s k) (eventsOf k es) (u k) := by
  induction h with
  | nil s => exact .nil (s k)
  | @cons s u e es admitted condition rest ih =>
    obtain ⟨j, e⟩ := e
    by_cases hj : j = k
    · subst hj
      have hes : eventsOf j ((j, e) :: es) = e :: eventsOf j es := by simp [eventsOf]
      have hnext : (copies ι S).next s (j, e) j = S.next (s j) e := Function.update_self ..
      rw [hes]
      exact .cons admitted condition (hnext ▸ ih)
    · have hes : eventsOf k ((j, e) :: es) = eventsOf k es := by simp [eventsOf, hj]
      have hnext : (copies ι S).next s (j, e) k = s k :=
        Function.update_of_ne (fun hk => hj hk.symm) _ _
      rw [hes]
      exact hnext ▸ ih

end Copies

end TransitionRuns
