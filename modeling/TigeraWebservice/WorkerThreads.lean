import Mathlib.Logic.Function.Basic
import TigeraWebservice.Runs

/-!
# The worker threads

The main thread in `http_service_start`, the callback of its signals and the
beginning of `http_service_fini`, together with the workers' threads and the
signals that arrive from outside or from a worker whose prologue has failed.
A signal whose event has been deleted ends the process. `event_base_loopexit`
succeeds and makes the dispatch of its base return, be it running or to come.
-/

set_option autoImplicit false

namespace Tigera.WorkerThreads
open TransitionRuns

inductive Thread where
  | unstarted
  | entered
  | looping
  | ended
  deriving DecidableEq, Repr

inductive Signal where
  | sigterm
  | sigint
  deriving DecidableEq, Repr

/-- Where the main thread is: in the loop of `http_service_start`, in its
dispatch, in the loop of `http_service_stop`, between the two `event_del`,
behind them, or in `http_service_fini`. -/
inductive Phase where
  | starting (i : ℕ)
  | dispatching
  | stopping (i : ℕ)
  | deleting
  | returning
  | freeing
  | killed
  deriving DecidableEq, Repr

structure State where
  nworkers : ℕ
  phase : Phase
  thread : ℕ → Thread
  exit : ℕ → Bool
  joins : ℕ → ℕ
  armed : Signal → Bool
  pending : Signal → Bool

/-- After a successful `http_service_init`. -/
def initial (nworkers : ℕ) : State where
  nworkers := nworkers
  phase := .starting 0
  thread _ := .unstarted
  exit _ := false
  joins _ := 0
  armed _ := true
  pending _ := false

inductive Event where
  | workerStart (ok : Bool)
  | dispatch
  | callback (signal : Signal)
  | loopexit
  | join
  | eventDel (signal : Signal)
  | dispatchReturn
  | signal (signal : Signal)
  | prologue (i : ℕ) (ok : Bool)
  | workerReturn (i : ℕ)
  deriving DecidableEq, Repr

def enabled (s : State) : Event → Bool
  | .workerStart _ =>
    match s.phase with
    | .starting i => i < s.nworkers
    | _ => false
  | .dispatch => s.phase = .starting s.nworkers
  | .callback signal => s.phase = .dispatching && s.pending signal
  | .loopexit =>
    match s.phase with
    | .stopping i => i < s.nworkers && !s.exit i
    | _ => false
  | .join =>
    match s.phase with
    | .stopping i => i < s.nworkers && s.exit i && s.thread i = .ended
    | _ => false
  | .eventDel .sigterm => s.phase = .stopping s.nworkers
  | .eventDel .sigint => s.phase = .deleting
  | .dispatchReturn => s.phase = .returning
  | .signal _ => s.phase ≠ .killed
  | .prologue i _ => s.phase ≠ .killed && s.thread i = .entered
  | .workerReturn i => s.phase ≠ .killed && s.thread i = .looping && s.exit i

def raise (signal : Signal) (s : State) : State :=
  if s.armed signal then { s with pending := Function.update s.pending signal true }
  else { s with phase := .killed }

def setThread (i : ℕ) (t : Thread) (s : State) : State :=
  { s with thread := Function.update s.thread i t }

/-- `worker_start`; a failure makes `http_service_start` return, and `main`
goes on to `http_service_fini`. -/
def workerStart (ok : Bool) (i : ℕ) (s : State) : State :=
  if ok then { setThread i .entered s with phase := .starting (i + 1) }
  else { s with phase := .freeing }

/-- The two halves of `worker_stop`. -/
def loopexit (i : ℕ) (s : State) : State := { s with exit := Function.update s.exit i true }

def join (i : ℕ) (s : State) : State :=
  { s with joins := Function.update s.joins i (s.joins i + 1), phase := .stopping (i + 1) }

def eventDel (signal : Signal) (s : State) : State :=
  { s with armed := Function.update s.armed signal false
           pending := Function.update s.pending signal false
           phase := if signal = .sigterm then .deleting else .returning }

def next (s : State) : Event → State
  | .workerStart ok =>
    match s.phase with
    | .starting i => workerStart ok i s
    | _ => s
  | .dispatch => { s with phase := .dispatching }
  | .callback signal =>
    { s with pending := Function.update s.pending signal false, phase := .stopping 0 }
  | .loopexit =>
    match s.phase with
    | .stopping i => loopexit i s
    | _ => s
  | .join =>
    match s.phase with
    | .stopping i => join i s
    | _ => s
  | .eventDel signal => eventDel signal s
  | .dispatchReturn => { s with phase := .freeing }
  | .signal signal => raise signal s
  | .prologue i true => setThread i .looping s
  | .prologue i false => raise .sigterm (setThread i .ended s)
  | .workerReturn i => setThread i .ended s

def system : System State Event where
  enabled s e := enabled s e = true
  next := next

instance (s : State) (e : Event) : Decidable (system.enabled s e) :=
  inferInstanceAs (Decidable (enabled s e = true))

/-- Every thread that was started has ended and has been joined. -/
def AllJoined (s : State) : Prop :=
  ∀ i, s.thread i ≠ .unstarted → s.thread i = .ended ∧ s.joins i = 1

/-- Only the first `worker_start` may fail. -/
def FirstOnly (s : State) (e : Event) : Prop := e = .workerStart false → s.phase = .starting 0

instance (s : State) (e : Event) : Decidable (FirstOnly s e) :=
  inferInstanceAs (Decidable (_ → _))

/-- The first `started` threads have been started and the first `joined` of
them have been joined. -/
structure Ordered (s : State) (started joined : ℕ) : Prop where
  started : ∀ i, s.thread i ≠ .unstarted ↔ i < started
  ended : ∀ i, i < joined → s.thread i = .ended
  joins : ∀ i, s.joins i = if i < joined then 1 else 0

def Progress (nworkers started joined : ℕ) : Phase → Prop
  | .starting i => started = i ∧ joined = 0 ∧ i ≤ nworkers
  | .dispatching => started = nworkers ∧ joined = 0
  | .stopping i => started = nworkers ∧ joined = i ∧ i ≤ nworkers
  | .deleting => started = nworkers ∧ joined = nworkers
  | .returning => started = nworkers ∧ joined = nworkers
  | .freeing => True
  | .killed => True

def Inv (s : State) : Prop :=
  ∃ started joined, Ordered s started joined ∧ Progress s.nworkers started joined s.phase

variable {s : State} {e : Event} {started joined nworkers i : ℕ}

theorem ordered_initial (nworkers : ℕ) : Ordered (initial nworkers) 0 0 where
  started i := by simp [initial]
  ended i h := absurd h (Nat.not_lt_zero i)
  joins i := rfl

theorem inv_initial (nworkers : ℕ) : Inv (initial nworkers) :=
  ⟨0, 0, ordered_initial nworkers, rfl, rfl, Nat.zero_le _⟩

theorem ordered_setThread {t : Thread} (h : Ordered s started joined) (hi : s.thread i ≠ .unstarted)
    (hne : s.thread i ≠ .ended) (ht : t ≠ .unstarted) : Ordered (setThread i t s) started joined where
  started k := by
    rw [← h.started k]
    by_cases hk : k = i
    · subst hk
      simp [setThread, ht, hi]
    · simp [setThread, hk]
  ended k hk := by
    have hki : k ≠ i := fun hki => hne (hki ▸ h.ended k hk)
    simpa [setThread, hki] using h.ended k hk
  joins := h.joins

theorem ordered_start (h : Ordered s i 0) : Ordered (workerStart true i s) (i + 1) 0 where
  started k := by
    by_cases hk : k = i
    · subst hk
      simp [workerStart, setThread]
    · have hs := h.started k
      simp only [workerStart, setThread, if_true, Function.update_of_ne hk, hs]
      omega
  ended k hk := absurd hk (Nat.not_lt_zero k)
  joins := h.joins

theorem ordered_join (h : Ordered s started i) (hi : s.thread i = .ended) :
    Ordered (join i s) started (i + 1) where
  started := h.started
  ended k hk := by
    rcases Nat.lt_succ_iff_lt_or_eq.mp hk with hk | rfl
    · exact h.ended k hk
    · exact hi
  joins k := by
    by_cases hk : k = i
    · subst hk
      simp [join, h.joins]
    · simp only [join, Function.update_of_ne hk, h.joins]
      apply if_congr _ rfl rfl
      omega

theorem ordered_congr {s' : State} (h : Ordered s started joined) (ht : s'.thread = s.thread)
    (hj : s'.joins = s.joins) : Ordered s' started joined where
  started i := by rw [ht]; exact h.started i
  ended i hi := by rw [ht]; exact h.ended i hi
  joins i := by rw [hj]; exact h.joins i

theorem raise_fields (signal : Signal) (s : State) :
    (raise signal s).thread = s.thread ∧ (raise signal s).joins = s.joins ∧
      (raise signal s).nworkers = s.nworkers ∧
      ((raise signal s).phase = s.phase ∨ (raise signal s).phase = .killed) := by
  rw [raise]
  split
  · exact ⟨rfl, rfl, rfl, .inl rfl⟩
  · exact ⟨rfl, rfl, rfl, .inr rfl⟩

theorem inv_raise (signal : Signal) (h : Inv s) : Inv (raise signal s) := by
  obtain ⟨m, j, ho, hp⟩ := h
  obtain ⟨ht, hj, hn, hph⟩ := raise_fields signal s
  refine ⟨m, j, ordered_congr ho ht hj, ?_⟩
  rcases hph with hph | hph
  · rw [hph, hn]
    exact hp
  · rw [hph]
    trivial

theorem inv_setThread {t : Thread} (h : Inv s) (hi : s.thread i ≠ .unstarted)
    (hne : s.thread i ≠ .ended) (ht : t ≠ .unstarted) : Inv (setThread i t s) := by
  obtain ⟨m, j, ho, hp⟩ := h
  exact ⟨m, j, ordered_setThread ho hi hne ht, hp⟩

theorem next_inv (h : Inv s) (he : enabled s e = true) : Inv (next s e) := by
  have h' := h
  obtain ⟨m, j, ho, hp⟩ := h'
  cases e with
  | workerStart ok =>
    simp only [enabled, next] at he ⊢
    split at he
    · next i hph =>
      simp only [hph, Progress] at hp ⊢
      obtain ⟨rfl, rfl, hle⟩ := hp
      cases ok with
      | true =>
        refine ⟨m + 1, 0, ordered_start ho, rfl, rfl, ?_⟩
        exact Nat.succ_le_of_lt (of_decide_eq_true he)
      | false => exact ⟨m, 0, ordered_congr ho rfl rfl, trivial⟩
    · cases he
  | dispatch =>
    simp only [enabled, decide_eq_true_eq] at he
    rw [he] at hp
    exact ⟨m, j, ordered_congr ho rfl rfl, hp.1, hp.2.1⟩
  | callback signal =>
    simp only [enabled, Bool.and_eq_true, decide_eq_true_eq] at he
    rw [he.1] at hp
    exact ⟨m, j, ordered_congr ho rfl rfl, hp.1, hp.2, Nat.zero_le _⟩
  | loopexit =>
    simp only [enabled, next] at he ⊢
    split at he
    · next i hph =>
      simp only [hph] at hp ⊢
      refine ⟨m, j, ordered_congr ho rfl rfl, ?_⟩
      rw [loopexit]
      exact hph ▸ hp
    · cases he
  | join =>
    simp only [enabled, next] at he ⊢
    split at he
    · next i hph =>
      simp only [hph, Bool.and_eq_true, decide_eq_true_eq] at hp he ⊢
      obtain ⟨hm, rfl, hle⟩ := hp
      exact ⟨m, j + 1, ordered_join ho he.2, hm, rfl, he.1.1⟩
    · cases he
  | eventDel signal =>
    cases signal with
    | sigterm =>
      simp only [enabled, decide_eq_true_eq] at he
      rw [he] at hp
      exact ⟨m, j, ordered_congr ho rfl rfl, hp.1, hp.2.1⟩
    | sigint =>
      simp only [enabled, decide_eq_true_eq] at he
      rw [he] at hp
      exact ⟨m, j, ordered_congr ho rfl rfl, hp⟩
  | dispatchReturn => exact ⟨m, j, ordered_congr ho rfl rfl, trivial⟩
  | signal signal => exact inv_raise signal h
  | prologue i ok =>
    simp only [enabled, Bool.and_eq_true, decide_eq_true_eq] at he
    cases ok with
    | true => exact inv_setThread h (by simp [he.2]) (by simp [he.2]) (by decide)
    | false =>
      exact inv_raise _ (inv_setThread h (by simp [he.2]) (by simp [he.2]) (by decide))
  | workerReturn i =>
    simp only [enabled, Bool.and_eq_true, decide_eq_true_eq] at he
    exact inv_setThread h (by simp [he.1.2]) (by simp [he.1.2]) (by decide)

def Joined (s : State) : Prop := s.phase = .freeing → AllJoined s

theorem allJoined_of_ordered (h : Ordered s joined joined) : AllJoined s := by
  intro i hi
  have hlt := (h.started i).mp hi
  exact ⟨h.ended i hlt, by rw [h.joins i, if_pos hlt]⟩

theorem joined_raise (signal : Signal) (h : Joined s) : Joined (raise signal s) := by
  obtain ⟨ht, hj, -, hph⟩ := raise_fields signal s
  intro hf i hi
  rcases hph with hph | hph
  · rw [ht] at hi ⊢
    rw [hj]
    exact h (hph.symm.trans hf) i hi
  · rw [hph] at hf
    cases hf

theorem joined_setThread {t : Thread} (h : Joined s) (hi : s.thread i ≠ .unstarted)
    (hne : s.thread i ≠ .ended) : Joined (setThread i t s) :=
  fun hf => absurd (h hf i hi).1 hne

theorem next_joined (hi : Inv s) (hj : Joined s) (he : enabled s e = true) (hc : FirstOnly s e) :
    Joined (next s e) := by
  obtain ⟨m, j, ho, hp⟩ := hi
  cases e with
  | workerStart ok =>
    cases ok with
    | true =>
      intro hf
      simp only [enabled, next] at he hf
      split at he
      · next i hph =>
        rw [hph] at hf
        cases hf
      · cases he
    | false =>
      have hph := hc rfl
      rw [hph] at hp
      obtain ⟨rfl, rfl, -⟩ := hp
      have ho' : Ordered (next s (.workerStart false)) 0 0 := by
        rw [next, hph]
        exact ordered_congr ho rfl rfl
      exact fun _ => allJoined_of_ordered ho'
  | dispatch => intro hf; cases hf
  | callback signal => intro hf; cases hf
  | loopexit =>
    intro hf
    simp only [enabled, next] at he hf
    split at he
    · next i hph =>
      simp only [hph, loopexit] at hf
      cases hf
    · cases he
  | join =>
    intro hf
    simp only [enabled, next] at he hf
    split at he
    · next i hph =>
      rw [hph] at hf
      cases hf
    · cases he
  | eventDel signal =>
    intro hf
    cases signal <;> cases hf
  | dispatchReturn =>
    simp only [enabled, decide_eq_true_eq] at he
    rw [he] at hp
    obtain ⟨rfl, rfl⟩ := hp
    intro _
    exact allJoined_of_ordered (ordered_congr ho rfl rfl)
  | signal signal => exact joined_raise signal hj
  | prologue i ok =>
    simp only [enabled, Bool.and_eq_true, decide_eq_true_eq] at he
    cases ok with
    | true => exact joined_setThread hj (by simp [he.2]) (by simp [he.2])
    | false => exact joined_raise _ (joined_setThread hj (by simp [he.2]) (by simp [he.2]))
  | workerReturn i =>
    simp only [enabled, Bool.and_eq_true, decide_eq_true_eq] at he
    exact joined_setThread hj (by simp [he.1.2]) (by simp [he.1.2])

/-- The first thread has been started and will not be joined any more. -/
structure Left (s : State) : Prop where
  phase : s.phase = .freeing ∨ s.phase = .killed
  started : s.thread 0 ≠ .unstarted
  unjoined : s.joins 0 = 0

theorem left_raise (signal : Signal) (h : Left s) : Left (raise signal s) := by
  obtain ⟨ht, hj, -, hph⟩ := raise_fields signal s
  constructor
  · rcases hph with hph | hph
    · rw [hph]
      exact h.phase
    · exact .inr hph
  · rw [ht]
    exact h.started
  · rw [hj]
    exact h.unjoined

theorem left_setThread {t : Thread} (i : ℕ) (h : Left s) (ht : t ≠ .unstarted) :
    Left (setThread i t s) where
  phase := h.phase
  started := by
    by_cases hi : i = 0
    · subst hi
      simpa [setThread] using ht
    · simpa [setThread, Ne.symm hi] using h.started
  unjoined := h.unjoined

theorem next_left (h : Left s) (he : enabled s e = true) : Left (next s e) := by
  have hph := h.phase
  cases e with
  | signal signal => exact left_raise signal h
  | prologue i ok =>
    cases ok with
    | true => exact left_setThread i h (by decide)
    | false => exact left_raise _ (left_setThread i h (by decide))
  | workerReturn i => exact left_setThread i h (by decide)
  | eventDel signal => cases signal <;> rcases hph with hph | hph <;> simp [enabled, hph] at he
  | workerStart ok => rcases hph with hph | hph <;> simp [enabled, hph] at he
  | dispatch => rcases hph with hph | hph <;> simp [enabled, hph] at he
  | callback signal => rcases hph with hph | hph <;> simp [enabled, hph] at he
  | loopexit => rcases hph with hph | hph <;> simp [enabled, hph] at he
  | join => rcases hph with hph | hph <;> simp [enabled, hph] at he
  | dispatchReturn => rcases hph with hph | hph <;> simp [enabled, hph] at he

theorem left_of_failure (hi : Inv s) (he : enabled s e = true) (hc : ¬ FirstOnly s e) :
    Left (next s e) := by
  rw [FirstOnly, Classical.not_imp] at hc
  obtain ⟨rfl, hne⟩ := hc
  obtain ⟨m, j, ho, hp⟩ := hi
  simp only [enabled, next] at he ⊢
  split at he
  · next i hph =>
    rw [hph] at hp hne
    obtain ⟨rfl, rfl, -⟩ := hp
    have hpos : 0 < m := by
      rcases Nat.eq_zero_or_pos m with rfl | hpos
      · exact absurd rfl hne
      · exact hpos
    exact ⟨.inl rfl, (ho.started 0).mpr hpos, ho.joins 0⟩
  · cases he

theorem run_left {C : State → Event → Prop} {u : State} {es : List Event} (h : Run system C s es u)
    (hs : Left s) : Left u :=
  run_invariant (I := Left) (fun _ _ hl he _ => next_left hl he) h hs

theorem run_firstOnly {C : State → Event → Prop} {u : State} {es : List Event}
    (h : Run system C s es u) (hs : Inv s) (hu : AllJoined u) : Run system FirstOnly s es u := by
  induction h with
  | nil s => exact .nil s
  | @cons s u e es he _ rest ih =>
    have hfirst : FirstOnly s e := by
      by_contra hno
      have hl := run_left rest (left_of_failure hs he hno)
      have hone := (hu 0 hl.started).2
      rw [hl.unjoined] at hone
      cases hone
    exact .cons he hfirst (ih (next_inv hs he) hu)

/-- No thread is joined twice, and when the freeing has begun all threads are
joined exactly if no `worker_start` but the first has failed. -/
theorem joined_before_freed {u : State} {es : List Event}
    (h : Run system (fun _ _ => True) (initial nworkers) es u) :
    (∀ i, u.joins i ≤ 1) ∧
      (u.phase = .freeing → (AllJoined u ↔ Run system FirstOnly (initial nworkers) es u)) := by
  constructor
  · obtain ⟨m, j, ho, -⟩ := run_invariant (I := Inv) (fun _ _ hs he _ => next_inv hs he) h
      (inv_initial nworkers)
    intro i
    rw [ho.joins i]
    split <;> omega
  · intro hf
    constructor
    · exact run_firstOnly h (inv_initial nworkers)
    · intro hrun
      refine (run_invariant (I := fun s => Inv s ∧ Joined s) ?_ hrun ⟨inv_initial nworkers, ?_⟩).2 hf
      · rintro s e ⟨hs, hj⟩ he hc
        exact ⟨next_inv hs he, next_joined hs hj he hc⟩
      · intro hno
        cases hno

def stopped : List Event :=
  [.workerStart true, .prologue 0 true, .workerStart true, .signal .sigint, .dispatch,
    .prologue 1 false, .callback .sigterm, .loopexit, .workerReturn 0, .join, .loopexit, .join,
    .eventDel .sigterm, .eventDel .sigint, .dispatchReturn]

theorem stopped_joined :
    (∀ i, (stopped.foldl next (initial 2)).joins i ≤ 1) ∧
      AllJoined (stopped.foldl next (initial 2)) := by
  have hrun := run_of_admits (S := system) (C := fun _ _ => True) (initial 2) stopped
    (by decide +kernel)
  obtain ⟨hone, hjoined⟩ := joined_before_freed hrun
  exact ⟨hone, (hjoined (by decide +kernel)).mpr
    (run_of_admits (S := system) (C := FirstOnly) (initial 2) stopped (by decide +kernel))⟩

/-- The second of two workers does not start. -/
theorem second_start_fails :
    ¬ ∀ (nworkers : ℕ) (es : List Event) (u : State),
      Run system (fun _ _ => True) (initial nworkers) es u → u.phase = .freeing → AllJoined u := by
  intro h
  have hrun := run_of_admits (S := system) (C := fun _ _ => True) (initial 2)
    [.workerStart true, .workerStart false] (by decide +kernel)
  have hone := (h 2 _ _ hrun rfl 0 (by decide)).2
  revert hone
  decide

end Tigera.WorkerThreads
