import TigeraWebservice.CommandLine
import TigeraWebservice.ServiceLife

/-!
# The main program

`main` and `daemonize` of `tigera_webserver.c`, up to the moment in which the
main thread dispatches its events. `main` does not look at the result of
`http_service_init`, so the steps of an initialisation that failed decide what
`http_service_start` finds.
-/

set_option autoImplicit false

namespace Tigera.MainProgram
open ResourceLedger Tigera.JokeCreate Tigera.CommandLine Tigera.ServiceSetup Tigera.ServiceLife

/-- What the calls of the system and of the library come to, those of
`worker_init` apart, which succeed. -/
structure Calls where
  strdup : ℕ → Bool
  fork : ℤ
  setsid : Bool
  chdir : Bool
  init : Step → Bool
  workerStart : ℕ → Bool

inductive Daemonized where
  | failed
  | parent
  | child
  deriving DecidableEq, Repr

def daemonize (c : Calls) : Daemonized :=
  if c.fork < 0 then .failed
  else if 0 < c.fork then .parent
  else if !c.setsid then .failed
  else if !c.chdir then .failed
  else .child

/-- `calloc` of a negative number of pointers gets no memory. -/
def initFails (c : Calls) (nworkers : Int32) (step : Step) : Bool :=
  c.init step || (nworkers.toInt < 0 && (step = .listeners || step = .workers))

inductive Started where
  | faults
  | refused (i : ℕ)
  | dispatches
  deriving DecidableEq, Repr

/-- The loop of `http_service_start` from worker `i` on. -/
def startFrom (workerStart : ℕ → Bool) (s : Service) : ℕ → ℕ → Started
  | _, 0 => if s.ebase then .dispatches else .faults
  | i, left + 1 =>
    match s.workers.map fun worker => worker i with
    | none | some none => .faults
    | some (some _) =>
      if workerStart i then startFrom workerStart s (i + 1) left else .refused i

def httpServiceStart (workerStart : ℕ → Bool) (s : Service) : Started :=
  startFrom workerStart s 0 s.nworkers

/-- How far `main` comes. -/
inductive Fate where
  | exits (status : ℤ)
  | faults
  | refused (i : ℕ) (service : Service)
  | dispatches (service : Service)

def serve (c : Calls) (nworkers : Int32) : Fate :=
  let service := (httpServiceInit (initFails c nworkers) nworkers.toInt.toNat).2
  if service.crashed then .faults
  else match httpServiceStart c.workerStart service with
    | .faults => .faults
    | .refused i => .refused i service
    | .dispatches => .dispatches service

def main (c : Calls) (argv0 : Bytes) (ws : List Bytes) : Fate :=
  let r := processArgs c.strdup argv0 ws (defaults c.strdup)
  if r.1 < 0 then .exits 1
  else if r.2.settings.resolver = none then .exits 1
  else match if r.2.settings.background then daemonize c else .child with
    | .failed => .exits 1
    | .parent => .exits 0
    | .child => serve c r.2.settings.nworkers

/-- A step of `http_service_init` up to the listeners fails. -/
def FailsEarly (fails : Step → Bool) (nworkers : ℕ) : Prop :=
  (∃ step ∈ [Step.listNew, .mutexNew, .eventBaseNew, .evSigterm, .addSigterm, .evSigint, .addSigint,
    .listeners], fails step = true) ∨ ∃ i < nworkers, fails (.listener i) = true

def FailsLate (fails : Step → Bool) (nworkers : ℕ) : Prop :=
  ∃ i < nworkers, ∃ step, fails (.worker i step) = true

/-- The service with its listeners, before the array of workers. -/
def prepared (n : ℕ) : Service where
  mainThreadId := true
  threadKey := true
  sessions := true
  sessionMutex := true
  ebase := true
  evSigterm := true
  evSigint := true
  listeners := some fun i => decide (i < n)
  ledger := (((List.range n).map Obj.listener).map .alloc).reverse ++
    ([Obj.mainThreadId, .threadKey, .sessions, .sessionMutex, .ebase, .evSigterm, .evSigint,
      .listeners].map Entry.alloc).reverse

variable {fails : Step → Bool} {n : ℕ} {is : List ℕ} {s t : Service} {c : Calls}

theorem foldlM_congr {f g : Service → ℕ → Except Exit Service} (h : ∀ i ∈ is, ∀ s, f s i = g s i)
    (s : Service) : is.foldlM f s = is.foldlM g s := by
  induction is generalizing s with
  | nil => rfl
  | cons i is ih =>
    have hrest := ih fun j hj => h j (List.mem_cons_of_mem _ hj)
    rw [List.foldlM_cons, List.foldlM_cons, h i List.mem_cons_self]
    exact congrArg (g s i >>= ·) (funext hrest)

theorem initListeners_prepared (h : ¬ FailsEarly fails n) :
    initListeners fails n {} = .ok (prepared n) := by
  rw [FailsEarly, not_or] at h
  obtain ⟨hsteps, hlisteners⟩ := h
  have hstep : ∀ step ∈ [Step.listNew, .mutexNew, .eventBaseNew, .evSigterm, .addSigterm, .evSigint,
      .addSigint, .listeners], fails step = false := by
    intro step hs
    cases hf : fails step with
    | false => rfl
    | true => exact absurd ⟨step, hs, hf⟩ hsteps
  have hlistener : ∀ i ∈ List.range n, ∀ s, listenerInit fails s i = listenerInit (fun _ => false) s i := by
    intro i hi s
    have hf : fails (.listener i) = false := by
      cases hf : fails (.listener i) with
      | false => rfl
      | true => exact absurd ⟨i, List.mem_range.mp hi, hf⟩ hlisteners
    rw [listenerInit, listenerInit, hf]
  simp only [List.forall_mem_cons] at hstep
  obtain ⟨h1, h2, h3, h4, h5, h6, h7, h8, -⟩ := hstep
  have hfold : (fun s => (List.range n).foldlM (listenerInit fails) s) =
      fun s => (List.range n).foldlM (listenerInit fun _ => false) s :=
    funext (foldlM_congr hlistener)
  have hsame : initListeners fails n {} = initListeners (fun _ => false) n {} := by
    simp only [initListeners, h1, h2, h3, h4, h5, h6, h7, h8, hfold]
  exact hsame.trans (listeners_loop n _ rfl)

theorem acquire_ok {ok : Bool} {o : Obj} {set : Service → Service} (h : acquire ok o set s = .ok t) :
    ok = true := by
  cases ok with
  | false => cases h
  | true => rfl

theorem check_ok {ok : Bool} (h : check ok s = .ok t) : ok = true := by
  cases ok with
  | false => cases h
  | true => rfl

theorem bind_ok {x : Except Exit Service} {f : Service → Except Exit Service} (h : x >>= f = .ok t) :
    ∃ u, x = .ok u ∧ f u = .ok t := by
  cases x with
  | ok u => exact ⟨u, rfl, h⟩
  | error e => cases h

theorem loop_ok {f : Service → ℕ → Except Exit Service} {P : ℕ → Prop}
    (hf : ∀ s i t, f s i = .ok t → P i) (h : is.foldlM f s = .ok t) : ∀ i ∈ is, P i := by
  induction is generalizing s with
  | nil => exact fun _ hi => (nomatch hi)
  | cons i is ih =>
    rw [List.foldlM_cons] at h
    obtain ⟨u, hu, hrest⟩ := bind_ok h
    exact List.forall_mem_cons.mpr ⟨hf s i u hu, ih hrest⟩

theorem not_failsEarly (h : initListeners fails n {} = .ok t) : ¬ FailsEarly fails n := by
  rw [initListeners] at h
  obtain ⟨s1, h1, h⟩ := bind_ok h
  obtain ⟨s2, h2, h⟩ := bind_ok h
  obtain ⟨s3, h3, h⟩ := bind_ok h
  obtain ⟨s4, h4, h⟩ := bind_ok h
  obtain ⟨s5, h5, h⟩ := bind_ok h
  obtain ⟨s6, h6, h⟩ := bind_ok h
  obtain ⟨s7, h7, h⟩ := bind_ok h
  obtain ⟨s8, h8, h⟩ := bind_ok h
  have hlisteners : ∀ i ∈ List.range n, (!fails (.listener i)) = true :=
    loop_ok (fun s i t hi => acquire_ok hi) h
  rintro (⟨step, hstep, hf⟩ | ⟨i, hi, hf⟩)
  · have hall : ∀ step ∈ [Step.listNew, .mutexNew, .eventBaseNew, .evSigterm, .addSigterm, .evSigint,
        .addSigint, .listeners], (!fails step) = true := by
      simp only [List.forall_mem_cons]
      exact ⟨acquire_ok h1, acquire_ok h2, acquire_ok h3, acquire_ok h4, check_ok h5, acquire_ok h6,
        check_ok h7, acquire_ok h8, fun _ hs => absurd hs List.not_mem_nil⟩
    have hno := hall step hstep
    rw [hf] at hno
    cases hno
  · have hno := hlisteners i (List.mem_range.mpr hi)
    rw [hf] at hno
    cases hno

theorem workerSetup_ok {f : WorkerStep → Bool} {i : ℕ} {r : Worker × Service}
    (h : workerSetup f i s = .ok r) {step : WorkerStep} (hstep : step ≠ .calloc) : f step = false := by
  unfold workerSetup at h
  simp only at h
  split at h
  · cases h
  split at h
  · cases h
  split at h
  · cases h
  split at h
  · cases h
  split at h
  · cases h
  cases step <;> simp_all

theorem workerNew_some {f : WorkerStep → Bool} {i : ℕ} {w : Worker}
    (h : workerNew f i s = (some w, t)) (step : WorkerStep) : f step = false := by
  unfold workerNew at h
  split at h
  · cases h
  · next hcalloc =>
    split at h
    · cases h
    · next hsetup =>
      by_cases hstep : step = .calloc
      · subst hstep
        simpa using hcalloc
      · exact workerSetup_ok hsetup hstep

theorem workers_loop_ok (h : is.foldlM (workerInstall fails) s = .ok t) :
    ∀ i ∈ is, ∀ step, fails (.worker i step) = false := by
  refine loop_ok (fun s i t hi => ?_) h
  rw [workerInstall] at hi
  split at hi
  · cases hi
  · next hw => exact workerNew_some hw

theorem late_of_workers (h : ∀ i ∈ List.range n, ∀ step, fails (.worker i step) = false) :
    ¬ FailsLate fails n := by
  rintro ⟨i, hi, step, hf⟩
  rw [h i (List.mem_range.mpr hi) step] at hf
  cases hf

/-- An initialisation that fails runs `http_service_fini`, unless it is the
array of workers that it has no memory for. -/
theorem init_failed (h : FailsEarly fails n ∨ fails .workers = false ∧ FailsLate fails n) :
    ∃ s, httpServiceInit fails n = (-1, httpServiceFini s) := by
  rw [httpServiceInit]
  have hl := initListeners_leads fails n
  cases hx : initListeners fails n {} with
  | error e =>
    rw [hx] at hl
    cases e with
    | error s => exact ⟨s, rfl⟩
    | direct s => exact hl.elim
  | ok s =>
    obtain ⟨hworkers, hlate⟩ := h.resolve_left (not_failsEarly hx)
    have hw := initWorkers_loop fails (List.range n)
      { alloc .workers s with nworkers := n, workers := some fun _ => none }
    rw [ok_bind, initWorkers, hworkers, if_neg (by decide)]
    cases hy : (List.range n).foldlM (workerInstall fails)
        { alloc .workers s with nworkers := n, workers := some fun _ => none } with
    | ok t => exact absurd hlate (late_of_workers (workers_loop_ok hy))
    | error e =>
      rw [hy] at hw
      cases e with
      | error t => exact ⟨t, rfl⟩
      | direct t => exact hw.elim

theorem init_workless (h : ¬ FailsEarly fails n) (hw : fails .workers = true) :
    httpServiceInit fails n = (-1, prepared n) := by
  rw [httpServiceInit, initListeners_prepared h, ok_bind, initWorkers, if_pos hw]

theorem init_whole (h : ¬ FailsEarly fails n) (hw : fails .workers = false)
    (hl : ¬ FailsLate fails n) :
    httpServiceInit fails n = (0, serving n ((acquired n).map .alloc).reverse) := by
  have hearly : ¬ FailsEarly (fun _ => false) n := by
    rintro (⟨_, _, hf⟩ | ⟨_, _, hf⟩) <;> cases hf
  have hinstall : ∀ i ∈ List.range n, ∀ s, workerInstall fails s i =
      workerInstall (fun _ => false) s i := by
    intro i hi s
    have hf : (fun step => fails (.worker i step)) = fun _ => false := by
      funext step
      cases hf : fails (.worker i step) with
      | false => rfl
      | true => exact absurd ⟨i, List.mem_range.mp hi, step, hf⟩ hl
    rw [workerInstall, workerInstall, hf]
  rw [← httpServiceInit_serving, httpServiceInit, httpServiceInit, initListeners_prepared h,
    initListeners_prepared hearly, ok_bind, ok_bind, initWorkers, initWorkers, hw,
    foldlM_congr hinstall]

/-- A released service has neither workers nor an event base. -/
structure Released (s : Service) : Prop where
  ebase : s.ebase = false
  workers : s.workers = none

theorem freeIf_alike (held : Bool) (o : Obj) (s : Service) :
    (freeIf held o s).ebase = s.ebase ∧ (freeIf held o s).workers = s.workers := by
  cases held <;> exact ⟨rfl, rfl⟩

theorem freeWorkers_none (s : Service) : (freeWorkers s).workers = none := by
  rw [freeWorkers]
  split
  · next h => exact h
  · rfl

theorem fini_released (s : Service) :
    (httpServiceFini s).crashed = true ∨ Released (httpServiceFini s) := by
  rw [httpServiceFini]
  split
  · next h => exact .inl h
  split
  · refine .inr ⟨?_, ?_⟩
    · simp only [workerFini, freeEvents, freeIf_alike]
    · simp only [workerFini, freeEvents, freeIf_alike, freeWorkers_none]
  · exact .inl rfl

theorem start_released (workerStart : ℕ → Bool) (h : Released s) :
    httpServiceStart workerStart s = .faults := by
  rw [httpServiceStart]
  cases s.nworkers with
  | zero =>
    rw [startFrom, h.ebase]
    rfl
  | succ k =>
    rw [startFrom, h.workers]
    rfl

theorem startFrom_serving (workerStart : ℕ → Bool) (ledger : List (Entry Obj)) {i left : ℕ}
    (h : i + left = n) :
    ((∀ j, i ≤ j → j < n → workerStart j = true) →
      startFrom workerStart (serving n ledger) i left = .dispatches) ∧
    ∀ j, i ≤ j → j < n → workerStart j = false → (∀ k, i ≤ k → k < j → workerStart k = true) →
      startFrom workerStart (serving n ledger) i left = .refused j := by
  induction left generalizing i with
  | zero =>
    refine ⟨fun _ => rfl, fun j hij hj => ?_⟩
    omega
  | succ left ih =>
    have hi : i < n := by omega
    obtain ⟨h1, h2⟩ := ih (show i + 1 + left = n by omega)
    have hstep : startFrom workerStart (serving n ledger) i (left + 1) =
        if workerStart i then startFrom workerStart (serving n ledger) (i + 1) left
        else .refused i := by
      rw [startFrom]
      simp only [serving, Option.map_some, hi, if_true]
    rw [hstep]
    refine ⟨fun hall => ?_, fun j hij hj hno hall => ?_⟩
    · rw [hall i (Nat.le_refl i) hi]
      exact h1 fun j hij hj => hall j (by omega) hj
    · rcases Nat.eq_or_lt_of_le hij with rfl | hij
      · rw [hno]
        rfl
      · rw [hall i (Nat.le_refl i) hij]
        exact h2 j hij hj hno fun k hik hk => hall k (by omega) hk

structure Leaks (n : ℕ) (s : Service) : Prop where
  workers : s.workers = none
  running : (httpServiceFini s).crashed = false
  listeners : ∀ i < n, .alloc (.listener i) ∈ (httpServiceFini s).ledger ∧
    frees (httpServiceFini s).ledger (.listener i) = 0

/-- What the failed steps of `http_service_init` make of the process. -/
structure Fated (c : Calls) (fails : Step → Bool) (n : ℕ) (fate : Fate) : Prop where
  faults : fate = .faults ↔ FailsEarly fails n ∨ fails .workers = false ∧ FailsLate fails n
  workless : ¬ FailsEarly fails n → fails .workers = true →
    ∃ s, fate = .dispatches s ∧ Leaks n s
  whole : ¬ FailsEarly fails n → fails .workers = false → ¬ FailsLate fails n →
    (∀ i < n, c.workerStart i = true) →
      fate = .dispatches (serving n ((acquired n).map .alloc).reverse)
  partly : ¬ FailsEarly fails n → fails .workers = false → ¬ FailsLate fails n →
    ∀ i < n, c.workerStart i = false → (∀ j < i, c.workerStart j = true) →
      fate = .refused i (serving n ((acquired n).map .alloc).reverse)

theorem prepared_leaks (n : ℕ) : Leaks n (prepared n) := by
  have hledger : (httpServiceFini (prepared n)).ledger =
      [Entry.free Obj.mainThreadId, .free .threadKey, .free .ebase, .free .evSigint, .free .evSigterm,
        .free .listeners, .free .sessions] ++ (prepared n).ledger := rfl
  refine ⟨rfl, rfl, fun i hi => ?_⟩
  rw [hledger]
  constructor
  · simp [prepared, hi]
  · rw [frees, List.count_eq_zero]
    simp [prepared]

theorem start_cases (workerStart : ℕ → Bool) (n : ℕ) :
    (∀ i < n, workerStart i = true) ∨
      ∃ i < n, workerStart i = false ∧ ∀ j < i, workerStart j = true := by
  induction n with
  | zero => exact .inl fun i hi => (nomatch hi)
  | succ n ih =>
    rcases ih with hall | ⟨i, hi, hno, hall⟩
    · cases hn : workerStart n with
      | true =>
        refine .inl fun i hi => ?_
        rcases Nat.eq_or_lt_of_le (Nat.le_of_lt_succ hi) with rfl | hi
        · exact hn
        · exact hall i hi
      | false => exact .inr ⟨n, Nat.lt_succ_self n, hn, hall⟩
    · exact .inr ⟨i, Nat.lt_succ_of_lt hi, hno, hall⟩

variable {nworkers : Int32}

theorem serve_failed (h : FailsEarly (initFails c nworkers) nworkers.toInt.toNat ∨
    initFails c nworkers .workers = false ∧ FailsLate (initFails c nworkers) nworkers.toInt.toNat) :
    serve c nworkers = .faults := by
  obtain ⟨s, hs⟩ := init_failed h
  simp only [serve, hs]
  rcases fini_released s with hcrashed | hreleased
  · rw [if_pos hcrashed]
  · rw [start_released c.workerStart hreleased]
    exact ite_self _

theorem serve_workless (h : ¬ FailsEarly (initFails c nworkers) nworkers.toInt.toNat)
    (hw : initFails c nworkers .workers = true) :
    serve c nworkers = .dispatches (prepared nworkers.toInt.toNat) := by
  simp only [serve, init_workless h hw]
  rfl

theorem serve_whole (h : ¬ FailsEarly (initFails c nworkers) nworkers.toInt.toNat)
    (hw : initFails c nworkers .workers = false)
    (hl : ¬ FailsLate (initFails c nworkers) nworkers.toInt.toNat) {n : ℕ} {s : Service}
    (hn : nworkers.toInt.toNat = n) (hs : serving n ((acquired n).map .alloc).reverse = s) :
    ((∀ i < n, c.workerStart i = true) → serve c nworkers = .dispatches s) ∧
      ∀ i < n, c.workerStart i = false → (∀ j < i, c.workerStart j = true) →
        serve c nworkers = .refused i s := by
  have hstart := startFrom_serving (i := 0) c.workerStart ((acquired n).map .alloc).reverse (Nat.zero_add n)
  have hserve : serve c nworkers = match startFrom c.workerStart s 0 n with
      | .faults => .faults
      | .refused i => .refused i s
      | .dispatches => .dispatches s := by
    simp only [serve, init_whole h hw hl, httpServiceStart]
    rw [hn, hs]
    have hrunning : s.crashed = false := by rw [← hs]; rfl
    have hnworkers : s.nworkers = n := by rw [← hs]; rfl
    rw [hrunning, hnworkers]
    rfl
  rw [hs] at hstart
  rw [hserve]
  refine ⟨fun hall => ?_, fun i hi hno hall => ?_⟩
  · rw [hstart.1 fun j _ hj => hall j hj]
  · rw [hstart.2 i (Nat.zero_le i) hi hno fun k _ hk => hall k hk]

theorem serve_fated (c : Calls) (nworkers : Int32) :
    Fated c (initFails c nworkers) nworkers.toInt.toNat (serve c nworkers) := by
  refine ⟨⟨fun hfaults => ?_, serve_failed⟩, fun h hw => ?_, fun h hw hl => (serve_whole h hw hl rfl rfl).1,
    fun h hw hl => (serve_whole h hw hl rfl rfl).2⟩
  · by_contra hno
    obtain ⟨hearly, hlate⟩ := not_or.mp hno
    cases hw : initFails c nworkers .workers with
    | true =>
      rw [serve_workless hearly hw] at hfaults
      cases hfaults
    | false =>
      have hl := fun hl => hlate ⟨hw, hl⟩
      obtain ⟨h1, h2⟩ := serve_whole hearly hw hl rfl rfl
      rcases start_cases c.workerStart nworkers.toInt.toNat with hall | ⟨i, hi, hno, hall⟩
      · rw [h1 hall] at hfaults
        cases hfaults
      · rw [h2 i hi hno hall] at hfaults
        cases hfaults
  · exact ⟨_, serve_workless h hw, prepared_leaks _⟩

/-- The line is accepted, the resolver's name has been copied, and this is the
process that goes on. -/
def Admitted (c : Calls) (argv0 : Bytes) (ws : List Bytes) : Prop :=
  let r := processArgs c.strdup argv0 ws (defaults c.strdup)
  r.1 = 0 ∧ r.2.settings.resolver ≠ none ∧ (r.2.settings.background = true → daemonize c = .child)

def workersAsked (c : Calls) (argv0 : Bytes) (ws : List Bytes) : Int32 :=
  (processArgs c.strdup argv0 ws (defaults c.strdup)).2.settings.nworkers

theorem main_admitted {argv0 : Bytes} {ws : List Bytes} (h : Admitted c argv0 ws) :
    main c argv0 ws = serve c (workersAsked c argv0 ws) := by
  obtain ⟨hzero, hresolver, hchild⟩ := h
  rw [main, workersAsked]
  generalize processArgs c.strdup argv0 ws (defaults c.strdup) = r at hzero hresolver hchild
  have hgoes : (if r.2.settings.background then daemonize c else .child) = .child := by
    cases hb : r.2.settings.background with
    | true => exact hchild hb
    | false => rfl
  simp only [hzero, hresolver, hgoes, lt_irrefl, if_false]

theorem main_refused {argv0 : Bytes} {ws : List Bytes} (h : ¬ Admitted c argv0 ws) :
    ∃ status, main c argv0 ws = .exits status := by
  rw [main]
  rw [Admitted] at h
  have hresult : (processArgs c.strdup argv0 ws (defaults c.strdup)).1 ≠ 0 →
      (processArgs c.strdup argv0 ws (defaults c.strdup)).1 = -1 := fun hne => (refused_usage hne).1
  generalize processArgs c.strdup argv0 ws (defaults c.strdup) = r at h hresult
  split
  · exact ⟨1, rfl⟩
  next hpos =>
  split
  · exact ⟨1, rfl⟩
  next hresolver =>
  have hzero : r.1 = 0 := by
    by_contra hne
    exact hpos (hresult hne ▸ by decide)
  split
  · exact ⟨1, rfl⟩
  · exact ⟨0, rfl⟩
  · next hchild =>
    refine absurd ⟨hzero, hresolver, fun hb => ?_⟩ h
    rwa [hb, if_pos rfl] at hchild

/-- `main` ends with a status, or the failed steps of the initialisation whose
result it does not look at decide. A negative number of workers is a fault. -/
theorem main_fate (c : Calls) (argv0 : Bytes) (ws : List Bytes) :
    (¬ Admitted c argv0 ws ∧ ∃ status, main c argv0 ws = .exits status) ∨
      (Admitted c argv0 ws ∧ Fated c (initFails c (workersAsked c argv0 ws))
        (workersAsked c argv0 ws).toInt.toNat (main c argv0 ws) ∧
        ((workersAsked c argv0 ws).toInt < 0 → main c argv0 ws = .faults)) := by
  by_cases h : Admitted c argv0 ws
  · right
    rw [main_admitted h]
    have hfated := serve_fated c (workersAsked c argv0 ws)
    refine ⟨h, hfated, fun hneg => hfated.faults.mpr (.inl (.inl ⟨.listeners, by simp, ?_⟩))⟩
    simp [initFails, hneg]
  · exact .inl ⟨h, main_refused h⟩

end Tigera.MainProgram
