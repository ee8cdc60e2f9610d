import Mathlib.Algebra.BigOperators.Group.Finset.Basic
import Mathlib.Algebra.Order.BigOperators.Group.Finset
import TigeraWebservice.WorkerThreads

/-!
# The service comes to rest

Left alone, the threads of the service take a bounded number of steps up to
`http_service_fini`, none of which ends the process. Then either all workers are
in their dispatch while the main thread waits for a signal, or the main thread
begins to free. Once a signal has been taken it comes to that, whatever the
prologues that are still under way do.
-/

set_option autoImplicit false

namespace Tigera.Shutdown
open TransitionRuns Tigera.WorkerThreads

variable {s t u : State} {e : Event} {es fs : List Event} {nworkers started i : ℕ}

def internal : Event → Bool
  | .signal _ => false
  | _ => true

/-- No signal comes from outside, and `http_service_fini` has not begun. -/
def Undisturbed (s : State) (e : Event) : Prop := internal e = true ∧ s.phase ≠ .freeing

instance (s : State) (e : Event) : Decidable (Undisturbed s e) :=
  inferInstanceAs (Decidable (_ ∧ _))

def Stopping : Phase → Bool
  | .stopping _ | .deleting | .returning => true
  | _ => false

/-- No base is told to exit before its worker is stopped. -/
def Exits (s : State) : Prop :=
  match s.phase with
  | .starting _ | .dispatching => ∀ k, s.exit k = false
  | .stopping i => ∀ k, i < k ∨ s.nworkers ≤ k → s.exit k = false
  | _ => True

/-- `event_del` may have been called. -/
def late : Phase → Bool
  | .deleting | .returning | .freeing | .killed => true
  | _ => false

structure Disarmed (s : State) : Prop where
  phase : late s.phase = true
  idle : ∀ i, s.thread i = .unstarted ∨ s.thread i = .ended

def early : Phase → Bool
  | .starting _ | .dispatching => true
  | _ => false

def Noticed (s : State) : Prop :=
  early s.phase = true → ∀ i, s.thread i = .ended → s.pending .sigterm = true

structure Orderly (s : State) : Prop where
  inv : Inv s
  within : ∀ i, s.thread i ≠ .unstarted → i < s.nworkers
  exits : Exits s
  noticed : Noticed s
  disarmed : s.armed .sigterm = false → Disarmed s

theorem orderly_initial (nworkers : ℕ) : Orderly (initial nworkers) where
  inv := inv_initial nworkers
  within _ hi := absurd rfl hi
  exits _ := rfl
  noticed _ _ hi := by cases hi
  disarmed h := by cases h

theorem next_nworkers (s : State) (e : Event) : (next s e).nworkers = s.nworkers := by
  have hraise : ∀ signal (v : State), (raise signal v).nworkers = v.nworkers :=
    fun signal v => (raise_fields signal v).2.2.1
  cases e with
  | workerStart ok =>
    rw [next]
    split
    · cases ok <;> rfl
    · rfl
  | loopexit =>
    rw [next]
    split <;> rfl
  | join =>
    rw [next]
    split <;> rfl
  | signal signal => exact hraise signal s
  | prologue i ok =>
    cases ok with
    | true => rfl
    | false => exact hraise .sigterm _
  | _ => rfl

theorem next_within (h : Orderly s) (he : enabled s e = true) (k : ℕ)
    (hk : (next s e).thread k ≠ .unstarted) : k < (next s e).nworkers := by
  rw [next_nworkers]
  have hset : ∀ (i : ℕ) (t : Thread), s.thread i ≠ .unstarted →
      (setThread i t s).thread k ≠ .unstarted → k < s.nworkers := by
    intro i t hi hk
    by_cases hki : k = i
    · exact h.within k (hki ▸ hi)
    · exact h.within k (by simpa [setThread, hki] using hk)
  cases e with
  | workerStart ok =>
    simp only [enabled, next] at he hk
    split at he
    · next i hph =>
      simp only [hph] at hk
      cases ok with
      | true =>
        by_cases hki : k = i
        · exact hki ▸ of_decide_eq_true he
        · exact h.within k (by simpa [workerStart, setThread, hki] using hk)
      | false => exact h.within k hk
    · cases he
  | loopexit =>
    rw [next] at hk
    split at hk <;> exact h.within k hk
  | join =>
    rw [next] at hk
    split at hk <;> exact h.within k hk
  | signal signal =>
    rw [next, (raise_fields signal s).1] at hk
    exact h.within k hk
  | prologue i ok =>
    simp only [enabled, Bool.and_eq_true, decide_eq_true_eq] at he
    cases ok with
    | true => exact hset i .looping (by simp [he.2]) hk
    | false =>
      rw [next, (raise_fields .sigterm _).1] at hk
      exact hset i .ended (by simp [he.2]) hk
  | workerReturn i =>
    simp only [enabled, Bool.and_eq_true, decide_eq_true_eq] at he
    exact hset i .ended (by simp [he.1.2]) hk
  | _ => exact h.within k hk

theorem exits_raise (signal : Signal) (h : Exits s) : Exits (raise signal s) := by
  rw [raise]
  split
  · exact h
  · trivial

theorem next_exits (h : Orderly s) (he : enabled s e = true) : Exits (next s e) := by
  have hx := h.exits
  cases e with
  | workerStart ok =>
    simp only [enabled, next] at he ⊢
    split at he
    · next i hph =>
      rw [Exits, hph] at hx
      cases ok with
      | true => exact hx
      | false => trivial
    · cases he
  | dispatch =>
    simp only [enabled, decide_eq_true_eq] at he
    rw [Exits, he] at hx
    exact hx
  | callback signal =>
    simp only [enabled, Bool.and_eq_true, decide_eq_true_eq] at he
    rw [Exits, he.1] at hx
    exact fun k _ => hx k
  | loopexit =>
    simp only [enabled, next] at he ⊢
    split at he
    · next i hph =>
      simp only [Bool.and_eq_true, decide_eq_true_eq] at he
      rw [Exits, hph] at hx
      simp only [Exits, loopexit, hph]
      intro k hk
      have hki : k ≠ i := by omega
      rw [Function.update_of_ne hki]
      exact hx k hk
    · cases he
  | join =>
    simp only [enabled, next] at he ⊢
    split at he
    · next i hph =>
      rw [Exits, hph] at hx
      exact fun k hk => hx k (hk.imp_left Nat.lt_of_succ_lt)
    · cases he
  | eventDel signal => cases signal <;> trivial
  | dispatchReturn => trivial
  | signal signal => exact exits_raise signal hx
  | prologue i ok =>
    cases ok with
    | true => exact hx
    | false => exact exits_raise .sigterm (s := setThread i .ended s) hx
  | workerReturn i => exact hx

theorem armed_of_thread (h : Orderly s) (i : ℕ) (hne : s.thread i ≠ .unstarted)
    (hgoes : s.thread i ≠ .ended) : s.armed .sigterm = true := by
  by_contra hno
  rcases (h.disarmed (by simpa using hno)).idle i with hi | hi
  · exact hne hi
  · exact hgoes hi

theorem armed_of_phase (h : Orderly s) (hp : late s.phase = false) : s.armed .sigterm = true := by
  by_contra hno
  have hlate := (h.disarmed (by simpa using hno)).phase
  exact absurd (hp.symm.trans hlate) (by decide)

theorem over_of_joined (h : Ordered s started started) (k : ℕ) :
    s.thread k = .unstarted ∨ s.thread k = .ended := by
  by_cases hk : s.thread k = .unstarted
  · exact .inl hk
  · exact .inr (h.ended k ((h.started k).mp hk))

theorem raise_armed {signal : Signal} (h : s.armed signal = true) : raise signal s =
    { s with pending := Function.update s.pending signal true } := if_pos h

theorem disarmed_raise (signal : Signal) (h : s.armed .sigterm = false → Disarmed s)
    (hno : (raise signal s).armed .sigterm = false) : Disarmed (raise signal s) := by
  rw [raise] at hno ⊢
  split at hno
  · next ha =>
    rw [if_pos ha]
    obtain ⟨hphase, hover⟩ := h hno
    exact ⟨hphase, hover⟩
  · next ha =>
    rw [if_neg ha]
    exact ⟨rfl, (h hno).idle⟩

theorem next_disarmed (h : Orderly s) (he : enabled s e = true)
    (hno : (next s e).armed .sigterm = false) : Disarmed (next s e) := by
  cases e with
  | workerStart ok =>
    simp only [enabled, next] at he hno ⊢
    split at he
    · next i hph =>
      have ha : s.armed .sigterm = true := armed_of_phase h (hph ▸ rfl)
      rw [hph] at hno
      cases ok <;> exact absurd (ha.symm.trans hno) (by decide)
    · cases he
  | dispatch =>
    simp only [enabled, decide_eq_true_eq] at he
    have ha : s.armed .sigterm = true := armed_of_phase h (he ▸ rfl)
    exact absurd (ha.symm.trans hno) (by decide)
  | callback signal =>
    simp only [enabled, Bool.and_eq_true, decide_eq_true_eq] at he
    have ha : s.armed .sigterm = true := armed_of_phase h (he.1 ▸ rfl)
    exact absurd (ha.symm.trans hno) (by decide)
  | loopexit =>
    simp only [enabled, next] at he hno ⊢
    split at he
    · next i hph =>
      have ha : s.armed .sigterm = true := armed_of_phase h (hph ▸ rfl)
      rw [hph] at hno
      exact absurd (ha.symm.trans hno) (by decide)
    · cases he
  | join =>
    simp only [enabled, next] at he hno ⊢
    split at he
    · next i hph =>
      have ha : s.armed .sigterm = true := armed_of_phase h (hph ▸ rfl)
      rw [hph] at hno
      exact absurd (ha.symm.trans hno) (by decide)
    · cases he
  | eventDel signal =>
    obtain ⟨m, j, ho, hp⟩ := h.inv
    cases signal with
    | sigterm =>
      simp only [enabled, decide_eq_true_eq] at he
      rw [he] at hp
      obtain ⟨rfl, rfl, -⟩ := hp
      exact ⟨rfl, fun k => over_of_joined ho k⟩
    | sigint =>
      simp only [enabled, decide_eq_true_eq] at he
      rw [he] at hp
      obtain ⟨rfl, rfl⟩ := hp
      exact ⟨rfl, fun k => over_of_joined ho k⟩
  | dispatchReturn => exact ⟨rfl, (h.disarmed hno).idle⟩
  | signal signal => exact disarmed_raise signal h.disarmed hno
  | prologue i ok =>
    simp only [enabled, Bool.and_eq_true, decide_eq_true_eq] at he
    have ha : s.armed .sigterm = true := armed_of_thread h i (by simp [he.2]) (by simp [he.2])
    cases ok with
    | true => exact absurd (ha.symm.trans hno) (by decide)
    | false =>
      have ha' : (setThread i .ended s).armed .sigterm = true := ha
      rw [next, raise_armed ha'] at hno
      exact absurd (ha.symm.trans hno) (by decide)
  | workerReturn i =>
    simp only [enabled, Bool.and_eq_true, decide_eq_true_eq] at he
    have ha : s.armed .sigterm = true := armed_of_thread h i (by simp [he.1.2]) (by simp [he.1.2])
    exact absurd (ha.symm.trans hno) (by decide)

theorem exit_of_early (h : Orderly s) (hp : early s.phase = true) (k : ℕ) : s.exit k = false := by
  have hx := h.exits
  cases hph : s.phase <;> rw [hph] at hp <;> rw [Exits, hph] at hx <;> first | exact hx k | cases hp

theorem next_noticed (h : Orderly s) (he : enabled s e = true) : Noticed (next s e) := by
  have hn := h.noticed
  cases e with
  | workerStart ok =>
    simp only [enabled, next] at he ⊢
    split at he
    · next i hph =>
      cases ok with
      | true =>
        intro _ k hk
        by_cases hki : k = i
        · subst hki
          simp [workerStart, setThread] at hk
        · have hk : s.thread k = .ended := by simpa [workerStart, setThread, hki] using hk
          exact hn (hph ▸ rfl) k hk
      | false => exact fun hp => by cases hp
    · cases he
  | dispatch =>
    simp only [enabled, decide_eq_true_eq] at he
    exact fun _ => hn (he ▸ rfl)
  | callback signal => exact fun hp => by cases hp
  | loopexit =>
    simp only [enabled, next] at he ⊢
    split at he
    · next i hph =>
      intro hp
      simp only [loopexit, hph] at hp
      cases hp
    · cases he
  | join =>
    simp only [enabled, next] at he ⊢
    split at he
    · exact fun hp => by cases hp
    · cases he
  | eventDel signal =>
    intro hp
    cases signal <;> cases hp
  | dispatchReturn => exact fun hp => by cases hp
  | signal signal =>
    intro hp k hk
    rw [next, raise] at hp hk ⊢
    split at hp
    · next ha =>
      rw [if_pos ha] at hk ⊢
      have hold := hn hp k hk
      by_cases hs : signal = .sigterm
      · subst hs
        simp
      · exact (Function.update_of_ne (Ne.symm hs) true s.pending).trans hold
    · cases hp
  | prologue i ok =>
    simp only [enabled, Bool.and_eq_true, decide_eq_true_eq] at he
    cases ok with
    | true =>
      intro hp k hk
      by_cases hki : k = i
      · subst hki
        simp [next, setThread] at hk
      · exact hn hp k (by simpa [next, setThread, hki] using hk)
    | false =>
      have ha : s.armed .sigterm = true := armed_of_thread h i (by simp [he.2]) (by simp [he.2])
      have ha' : (setThread i .ended s).armed .sigterm = true := ha
      rw [next, raise_armed ha']
      intro _ _ _
      simp
  | workerReturn i =>
    simp only [enabled, Bool.and_eq_true, decide_eq_true_eq] at he
    intro hp
    exact absurd (he.2.symm.trans (exit_of_early h hp i)) (by decide)

theorem next_orderly (h : Orderly s) (he : enabled s e = true) : Orderly (next s e) where
  inv := next_inv h.inv he
  within := next_within h he
  exits := next_exits h he
  noticed := next_noticed h he
  disarmed := next_disarmed h he

theorem next_alive (h : Orderly s) (he : enabled s e = true) (hin : internal e = true)
    (halive : s.phase ≠ .killed) : (next s e).phase ≠ .killed := by
  cases e with
  | workerStart ok =>
    simp only [enabled, next] at he ⊢
    split at he
    · next i hph => cases ok <;> simp [workerStart]
    · cases he
  | loopexit =>
    rw [next]
    split <;> exact halive
  | join =>
    rw [next]
    split
    · simp [join]
    · exact halive
  | eventDel signal => cases signal <;> simp [next, eventDel]
  | signal signal => cases hin
  | prologue i ok =>
    simp only [enabled, Bool.and_eq_true, decide_eq_true_eq] at he
    cases ok with
    | true => exact halive
    | false =>
      have ha : s.armed .sigterm = true := armed_of_thread h i (by simp [he.2]) (by simp [he.2])
      have ha' : (setThread i .ended s).armed .sigterm = true := ha
      rw [next, raise_armed ha']
      exact halive
  | workerReturn i => exact halive
  | _ => simp [next]

def threadSteps : Thread → ℕ
  | .unstarted => 2
  | .entered => 2
  | .looping => 1
  | .ended => 0

/-- The steps the main thread may still take. -/
def mainSteps (nworkers : ℕ) (exit : ℕ → Bool) : Phase → ℕ
  | .starting i => 2 * nworkers + 5 + (nworkers - i)
  | .dispatching => 2 * nworkers + 4
  | .stopping i => 2 * (nworkers - i) + (if exit i then 2 else 3)
  | .deleting => 2
  | .returning => 1
  | .freeing => 0
  | .killed => 0

def steps (s : State) : ℕ :=
  mainSteps s.nworkers s.exit s.phase + ∑ i ∈ Finset.range s.nworkers, threadSteps (s.thread i)

theorem steps_le (s : State) : steps s ≤ 5 * s.nworkers + 5 := by
  have hsum : ∑ i ∈ Finset.range s.nworkers, threadSteps (s.thread i) ≤ s.nworkers * 2 := by
    have hconst : ∑ _i ∈ Finset.range s.nworkers, 2 = s.nworkers * 2 := by
      rw [Finset.sum_const_nat (m := 2) (fun _ _ => rfl), Finset.card_range]
    rw [← hconst]
    apply Finset.sum_le_sum
    intro i _
    cases s.thread i <;> decide
  have hmain : mainSteps s.nworkers s.exit s.phase ≤ 3 * s.nworkers + 5 := by
    cases s.phase with
    | stopping i =>
      simp only [mainSteps]
      split <;> omega
    | _ =>
      simp only [mainSteps]
      omega
  rw [steps]
  omega

theorem steps_main (hn : t.nworkers = s.nworkers)
    (ht : ∀ k, threadSteps (t.thread k) = threadSteps (s.thread k))
    (hm : mainSteps s.nworkers t.exit t.phase < mainSteps s.nworkers s.exit s.phase) :
    steps t < steps s := by
  have hsum : ∑ k ∈ Finset.range s.nworkers, threadSteps (t.thread k) =
      ∑ k ∈ Finset.range s.nworkers, threadSteps (s.thread k) :=
    Finset.sum_congr rfl fun k _ => ht k
  rw [steps, steps, hn, hsum]
  exact Nat.add_lt_add_right hm _

theorem steps_thread {next : Thread} (hi : i < s.nworkers) (hn : t.nworkers = s.nworkers)
    (ht : t.thread = Function.update s.thread i next) (hx : t.exit = s.exit)
    (hp : t.phase = s.phase) (hless : threadSteps next < threadSteps (s.thread i)) :
    steps t < steps s := by
  have hsum : ∑ k ∈ Finset.range s.nworkers, threadSteps (t.thread k) <
      ∑ k ∈ Finset.range s.nworkers, threadSteps (s.thread k) := by
    rw [ht]
    apply Finset.sum_lt_sum
    · intro k _
      by_cases hk : k = i
      · subst hk
        rw [Function.update_self]
        exact Nat.le_of_lt hless
      · rw [Function.update_of_ne hk]
    · refine ⟨i, Finset.mem_range.mpr hi, ?_⟩
      rw [Function.update_self]
      exact hless
  rw [steps, steps, hn, hx, hp]
  exact Nat.add_lt_add_left hsum _

theorem next_steps (h : Orderly s) (he : enabled s e = true) (hin : internal e = true) :
    steps (next s e) < steps s := by
  have hx := h.exits
  cases e with
  | workerStart ok =>
    simp only [enabled, next] at he ⊢
    split at he
    · next i hph =>
      have hi : i < s.nworkers := of_decide_eq_true he
      cases ok with
      | true =>
        obtain ⟨m, j, ho, hp⟩ := h.inv
        rw [hph] at hp
        have hun : s.thread i = .unstarted := by
          by_contra hno
          exact absurd ((ho.started i).mp hno) (by rw [hp.1]; exact Nat.lt_irrefl i)
        refine steps_main rfl (fun k => ?_) ?_
        · by_cases hk : k = i
          · subst hk
            simp [workerStart, setThread, hun, threadSteps]
          · simp [workerStart, setThread, hk]
        · rw [hph]
          show 2 * s.nworkers + 5 + (s.nworkers - (i + 1)) <
            2 * s.nworkers + 5 + (s.nworkers - i)
          omega
      | false =>
        refine steps_main rfl (fun _ => rfl) ?_
        rw [hph]
        show 0 < 2 * s.nworkers + 5 + (s.nworkers - i)
        omega
    · cases he
  | dispatch =>
    simp only [enabled, decide_eq_true_eq] at he
    refine steps_main rfl (fun _ => rfl) ?_
    rw [he]
    show 2 * s.nworkers + 4 < 2 * s.nworkers + 5 + (s.nworkers - s.nworkers)
    omega
  | callback signal =>
    simp only [enabled, Bool.and_eq_true, decide_eq_true_eq] at he
    refine steps_main rfl (fun _ => rfl) ?_
    have hexit : s.exit 0 = false := by
      rw [Exits, he.1] at hx
      exact hx 0
    rw [he.1]
    show 2 * (s.nworkers - 0) + (if s.exit 0 then 2 else 3) < 2 * s.nworkers + 4
    rw [hexit, if_neg (by decide)]
    omega
  | loopexit =>
    simp only [enabled, next] at he ⊢
    split at he
    · next i hph =>
      simp only [Bool.and_eq_true, decide_eq_true_eq, Bool.not_eq_true'] at he
      refine steps_main rfl (fun _ => rfl) ?_
      simp only [loopexit, hph, mainSteps, Function.update_self, he.2]
      simp
    · cases he
  | join =>
    simp only [enabled, next] at he ⊢
    split at he
    · next i hph =>
      simp only [Bool.and_eq_true, decide_eq_true_eq] at he
      have hi : i < s.nworkers := he.1.1
      have hexit : s.exit (i + 1) = false := by
        rw [Exits, hph] at hx
        exact hx (i + 1) (.inl (Nat.lt_succ_self i))
      refine steps_main rfl (fun _ => rfl) ?_
      simp only [join, hph, mainSteps, he.1.2, hexit, if_true, Bool.false_eq_true, if_false]
      omega
    · cases he
  | eventDel signal =>
    cases signal with
    | sigterm =>
      simp only [enabled, decide_eq_true_eq] at he
      refine steps_main rfl (fun _ => rfl) ?_
      rw [he]
      show 2 < 2 * (s.nworkers - s.nworkers) + (if s.exit s.nworkers then 2 else 3)
      have hexit : s.exit s.nworkers = false := by
        rw [Exits, he] at hx
        exact hx s.nworkers (.inr (Nat.le_refl _))
      rw [hexit, if_neg (by decide)]
      omega
    | sigint =>
      simp only [enabled, decide_eq_true_eq] at he
      refine steps_main rfl (fun _ => rfl) ?_
      rw [he]
      exact Nat.lt_succ_self 1
  | dispatchReturn =>
    simp only [enabled, decide_eq_true_eq] at he
    refine steps_main rfl (fun _ => rfl) ?_
    rw [he]
    exact Nat.lt_succ_self 0
  | signal signal => cases hin
  | prologue i ok =>
    simp only [enabled, Bool.and_eq_true, decide_eq_true_eq] at he
    have hi : i < s.nworkers := h.within i (by simp [he.2])
    cases ok with
    | true =>
      refine steps_thread hi rfl rfl rfl rfl ?_
      rw [he.2]
      decide
    | false =>
      have ha : s.armed .sigterm = true := armed_of_thread h i (by simp [he.2]) (by simp [he.2])
      have ha' : (setThread i .ended s).armed .sigterm = true := ha
      rw [next, raise_armed ha']
      refine steps_thread hi rfl rfl rfl rfl ?_
      rw [he.2]
      decide
  | workerReturn i =>
    simp only [enabled, Bool.and_eq_true, decide_eq_true_eq] at he
    refine steps_thread (h.within i (by simp [he.1.2])) rfl rfl rfl rfl ?_
    rw [he.1.2]
    decide

/-- Left alone, nothing can happen before `http_service_fini`. -/
def Resting (s : State) : Prop := ∀ e, Undisturbed s e → enabled s e = false

structure Waiting (s : State) : Prop where
  phase : s.phase = .dispatching
  quiet : ∀ signal, s.pending signal = false
  working : ∀ i, i < s.nworkers → s.thread i = .looping

theorem resting_thread (hr : Resting s) (halive : s.phase ≠ .killed) (hf : s.phase ≠ .freeing)
    (i : ℕ) : s.thread i ≠ .entered ∧ (s.exit i = true → s.thread i ≠ .looping) := by
  constructor
  · intro hi
    exact absurd (hr (.prologue i true) ⟨rfl, hf⟩) (by simp [enabled, halive, hi])
  · intro hx hi
    exact absurd (hr (.workerReturn i) ⟨rfl, hf⟩) (by simp [enabled, halive, hi, hx])

theorem not_resting_stopping (h : Orderly s) (hs : Stopping s.phase = true) : ¬ Resting s := by
  intro hr
  obtain ⟨m, j, ho, hp⟩ := h.inv
  have hf : s.phase ≠ .freeing := by
    intro hf
    rw [hf] at hs
    cases hs
  cases hph : s.phase with
  | stopping i =>
    rw [hph] at hp
    obtain ⟨rfl, rfl, hle⟩ := hp
    rcases Nat.lt_or_eq_of_le hle with hlt | rfl
    · have halive : s.phase ≠ .killed := by rw [hph]; simp
      obtain ⟨hentered, hlooping⟩ := resting_thread hr halive hf j
      cases hx : s.exit j with
      | false => exact absurd (hr .loopexit ⟨rfl, hf⟩) (by simp [enabled, hph, hlt, hx])
      | true =>
        have hended : s.thread j = .ended := by
          have hstarted : s.thread j ≠ .unstarted := (ho.started j).mpr hlt
          cases ht : s.thread j with
          | unstarted => exact absurd ht hstarted
          | entered => exact absurd ht hentered
          | looping => exact absurd ht (hlooping hx)
          | ended => rfl
        exact absurd (hr .join ⟨rfl, hf⟩) (by simp [enabled, hph, hlt, hx, hended])
    · exact absurd (hr (.eventDel .sigterm) ⟨rfl, hf⟩) (by simp [enabled, hph])
  | deleting => exact absurd (hr (.eventDel .sigint) ⟨rfl, hf⟩) (by simp [enabled, hph])
  | returning => exact absurd (hr .dispatchReturn ⟨rfl, hf⟩) (by simp [enabled, hph])
  | _ =>
    rw [hph] at hs
    cases hs

theorem resting_cases (h : Orderly s) (hr : Resting s) (halive : s.phase ≠ .killed) :
    Waiting s ∨ s.phase = .freeing := by
  obtain ⟨m, j, ho, hp⟩ := h.inv
  by_cases hf : s.phase = .freeing
  · exact .inr hf
  cases hph : s.phase with
  | starting i =>
    rw [hph] at hp
    rcases Nat.lt_or_eq_of_le hp.2.2 with hlt | rfl
    · exact absurd (hr (.workerStart true) ⟨rfl, hf⟩) (by simp [enabled, hph, hlt])
    · exact absurd (hr .dispatch ⟨rfl, hf⟩) (by simp [enabled, hph])
  | dispatching =>
    rw [hph] at hp
    left
    refine ⟨hph, ?_, ?_⟩
    · intro signal
      by_contra hno
      exact absurd (hr (.callback signal) ⟨rfl, hf⟩) (by simpa [enabled, hph] using hno)
    · intro i hi
      have hstarted : s.thread i ≠ .unstarted := (ho.started i).mpr (hp.1 ▸ hi)
      have hentered := (resting_thread hr halive hf i).1
      have hended : s.thread i ≠ .ended := by
        intro hended
        refine absurd (hr (.callback .sigterm) ⟨rfl, hf⟩) ?_
        simp [enabled, hph, h.noticed (hph ▸ rfl) i hended]
      cases ht : s.thread i with
      | unstarted => exact absurd ht hstarted
      | entered => exact absurd ht hentered
      | looping => rfl
      | ended => exact absurd ht hended
  | freeing => exact absurd hph hf
  | killed => exact absurd hph halive
  | _ => exact absurd hr (not_resting_stopping h (by rw [hph]; rfl))

def Past (p : Phase) : Prop := Stopping p = true ∨ p = .freeing

theorem next_past (hp : Past s.phase) (he : enabled s e = true)
    (hin : internal e = true) (halive : (next s e).phase ≠ .killed) : Past (next s e).phase := by
  have hearly : early s.phase = false := by
    rcases hp with hs | hf
    · cases hph : s.phase <;> rw [hph] at hs <;> first | rfl | cases hs
    · rw [hf]
      rfl
  cases e with
  | workerStart ok =>
    simp only [enabled] at he
    split at he
    · next i hph =>
      rw [hph] at hearly
      cases hearly
    · cases he
  | dispatch =>
    simp only [enabled, decide_eq_true_eq] at he
    rw [he] at hearly
    cases hearly
  | callback signal => exact .inl rfl
  | loopexit =>
    rw [next]
    split <;> exact hp
  | join =>
    rw [next]
    split
    · exact .inl rfl
    · exact hp
  | eventDel signal => cases signal <;> exact .inl rfl
  | dispatchReturn => exact .inr rfl
  | signal signal => cases hin
  | prologue i ok =>
    cases ok with
    | true => exact hp
    | false =>
      rcases (raise_fields .sigterm (setThread i .ended s)).2.2.2 with hsame | hkilled
      · rw [next, hsame]
        exact hp
      · exact absurd hkilled halive
  | workerReturn i => exact hp

/-- What has become of the service, begun in the state `s` and left alone, in
the state `t` on its way to `http_service_fini`. -/
structure Settles (s t : State) (fs : List Event) : Prop where
  bounded : fs.length ≤ 5 * s.nworkers + 5
  alive : t.phase ≠ .killed
  rests : Resting t → Waiting t ∨ t.phase = .freeing
  stops : Stopping s.phase = true → Resting t → t.phase = .freeing ∧ AllJoined t

theorem service_settles (h : Run system (fun _ _ => True) (initial nworkers) es s)
    (halive : s.phase ≠ .killed)
    (h' : Run system Undisturbed s fs t) : Settles s t fs := by
  have hs : Orderly s :=
    run_invariant (I := Orderly) (fun _ _ hs he _ => next_orderly hs he) h (orderly_initial nworkers)
  obtain ⟨ht, halive'⟩ : Orderly t ∧ t.phase ≠ .killed :=
    run_invariant (I := fun s => Orderly s ∧ s.phase ≠ .killed)
      (fun _ _ hs he hin => ⟨next_orderly hs.1 he, next_alive hs.1 he hin.1 hs.2⟩) h' ⟨hs, halive⟩
  refine ⟨?_, halive', fun hr => resting_cases ht hr halive', ?_⟩
  · have hle := run_length_le (I := Orderly) steps
      (fun _ _ hs he hin => ⟨next_orderly hs he, next_steps hs he hin.1⟩) h' hs
    have hstart := steps_le s
    omega
  · intro hstop hr
    have hpast : (Orderly t ∧ t.phase ≠ .killed) ∧ Joined t ∧ Past t.phase := by
      refine run_invariant (I := fun s => (Orderly s ∧ s.phase ≠ .killed) ∧ Joined s ∧ Past s.phase)
        ?_ h' ⟨⟨hs, halive⟩, ?_, .inl hstop⟩
      · rintro s e ⟨⟨hs, halive⟩, hj, hp⟩ he ⟨hin, -⟩
        have hnext := next_alive hs he hin halive
        refine ⟨⟨next_orderly hs he, hnext⟩, ?_, next_past hp he hin hnext⟩
        apply next_joined hs.inv hj he
        rintro rfl
        have he : enabled s (.workerStart false) = true := he
        simp only [enabled] at he
        split at he
        · next i hph =>
          rw [hph] at hp
          rcases hp with hp | hp <;> cases hp
        · cases he
      · intro hf
        rw [hf] at hstop
        cases hstop
    obtain ⟨-, hj, hp⟩ := hpast
    have hf : t.phase = .freeing := hp.resolve_left fun hno => not_resting_stopping ht hno hr
    exact ⟨hf, hj hf⟩

def signalled : List Event :=
  [.workerStart true, .workerStart true, .prologue 0 true, .dispatch, .signal .sigterm,
    .callback .sigterm, .loopexit]

def settling : List Event :=
  [.prologue 1 false, .workerReturn 0, .join, .loopexit, .join, .eventDel .sigterm,
    .eventDel .sigint, .dispatchReturn]

theorem service_settles_signalled : Settles (signalled.foldl next (initial 2))
    (settling.foldl next (signalled.foldl next (initial 2))) settling :=
  service_settles
    (run_of_admits (S := system) (C := fun _ _ => True) (initial 2) signalled (by decide +kernel))
    (by decide +kernel)
    (run_of_admits (S := system) (C := Undisturbed) (signalled.foldl next (initial 2)) settling
      (by decide +kernel))

end Tigera.Shutdown
