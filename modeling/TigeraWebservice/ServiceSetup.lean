import Mathlib.Data.Int.Notation
import Mathlib.Logic.Function.Basic
import TigeraWebservice.Ledger

/-!
# Setting up the service

`http_service_init` and `http_service_fini` with the construction and release
of workers. Every fallible step is named, and an initialisation is told which
of them fail. The ledger records the objects acquired and released. A failed
step either goes to the `error` label, which runs `http_service_fini`, or
returns at once. No session is registered yet.
-/

set_option autoImplicit false

namespace Tigera.ServiceSetup
open ResourceLedger

inductive WorkerStep where
  | calloc
  | eventBaseNew
  | makeBaseNotifiable
  | evdnsBaseNew
  | nameserverAdd
  | timeout
  | attempts
  | maxTimeouts
  | randomizeCase
  | threadNew
  deriving DecidableEq, Repr

inductive Step where
  | listNew
  | mutexNew
  | eventBaseNew
  | evSigterm
  | addSigterm
  | evSigint
  | addSigint
  | listeners
  | listener (i : ℕ)
  | workers
  | worker (i : ℕ) (step : WorkerStep)
  deriving DecidableEq, Repr

inductive Obj where
  | mainThreadId
  | threadKey
  | sessions
  | sessionMutex
  | ebase
  | evSigterm
  | evSigint
  | listeners
  | listener (i : ℕ)
  | workers
  | worker (i : ℕ)
  | workerEbase (i : ℕ)
  | workerDnsbase (i : ℕ)
  | workerThread (i : ℕ)
  deriving DecidableEq, Repr

/-- `struct worker`: which of its pointers are set. -/
structure Worker where
  ebase : Bool := false
  dnsbase : Bool := false
  thread : Bool := false
  prologue : Bool := false

/-- `struct http_service` and the statics of `worker.c`: which pointers are
set, and what the two arrays hold. -/
structure Service where
  nworkers : ℕ := 0
  mainThreadId : Bool := false
  threadKey : Bool := false
  sessions : Bool := false
  sessionMutex : Bool := false
  ebase : Bool := false
  evSigterm : Bool := false
  evSigint : Bool := false
  listeners : Option (ℕ → Bool) := none
  workers : Option (ℕ → Option Worker) := none
  crashed : Bool := false
  ledger : List (Entry Obj) := []

def alloc (o : Obj) (s : Service) : Service := { s with ledger := .alloc o :: s.ledger }

def free (o : Obj) (s : Service) : Service := { s with ledger := .free o :: s.ledger }

def freeIf (held : Bool) (o : Obj) (s : Service) : Service := if held then free o s else s

def workerFree (i : ℕ) (w : Worker) (s : Service) : Service :=
  free (.worker i) (freeIf w.thread (.workerThread i)
    (freeIf w.ebase (.workerEbase i) (freeIf w.dnsbase (.workerDnsbase i) s)))

def workerFini (s : Service) : Service :=
  { freeIf s.mainThreadId .mainThreadId (freeIf s.threadKey .threadKey s) with
    threadKey := false, mainThreadId := false }

def freeListeners (s : Service) : Service :=
  match s.listeners with
  | none => s
  | some listener =>
    free .listeners { (List.range s.nworkers).foldl
      (fun s i => freeIf (listener i) (.listener i) s) s with listeners := none }

def freeWorkers (s : Service) : Service :=
  match s.workers with
  | none => s
  | some worker =>
    free .workers { (List.range s.nworkers).foldl
      (fun s i => match worker i with
        | none => s
        | some w => workerFree i w s) s with workers := none }

def freeEvents (s : Service) : Service :=
  let s := { freeIf s.evSigterm .evSigterm s with evSigterm := false }
  let s := { freeIf s.evSigint .evSigint s with evSigint := false }
  { freeIf s.ebase .ebase s with ebase := false }

/-- The list of sessions is walked without a test for a null one. -/
def httpServiceFini (s : Service) : Service :=
  if s.crashed then s
  else if s.sessions then
    let s := { free .sessions s with sessions := false }
    workerFini (freeEvents (freeWorkers (freeListeners s)))
  else { s with crashed := true }

/-- How control leaves before the end: to `error`, or by a direct return. -/
inductive Exit where
  | error (s : Service)
  | direct (s : Service)

def check (ok : Bool) (s : Service) : Except Exit Service := if ok then .ok s else .error (.error s)

def acquire (ok : Bool) (o : Obj) (set : Service → Service) (s : Service) : Except Exit Service :=
  if ok then .ok (set (alloc o s)) else .error (.error s)

/-- The part of `worker_new` after its `calloc`; on failure the worker so far. -/
def workerSetup (fails : WorkerStep → Bool) (i : ℕ) (s : Service) :
    Except (Worker × Service) (Worker × Service) :=
  let w : Worker := {}
  if fails .eventBaseNew then .error (w, s)
  else
    let s := alloc (.workerEbase i) s
    if fails .makeBaseNotifiable then .error (w, s)
    else
      let w := { w with ebase := true }
      if fails .evdnsBaseNew then .error (w, s)
      else
        let s := alloc (.workerDnsbase i) s
        let w := { w with dnsbase := true }
        if fails .nameserverAdd || fails .timeout || fails .attempts || fails .maxTimeouts ||
            fails .randomizeCase then .error (w, s)
        else if fails .threadNew then .error (w, s)
        else .ok ({ w with thread := true }, alloc (.workerThread i) s)

def workerNew (fails : WorkerStep → Bool) (i : ℕ) (s : Service) : Option Worker × Service :=
  if fails .calloc then (none, s)
  else match workerSetup fails i (alloc (.worker i) s) with
    | .error (w, s) => (none, workerFree i w s)
    | .ok (w, s) => (some w, s)

/-- `worker_init` succeeds. Its result would not be looked at. -/
def workerInit (s : Service) : Service :=
  { alloc .threadKey (alloc .mainThreadId s) with mainThreadId := true, threadKey := true }

def listenerInit (fails : Step → Bool) (s : Service) (i : ℕ) : Except Exit Service :=
  acquire (!fails (.listener i)) (.listener i)
    (fun s => { s with listeners := s.listeners.map fun l => Function.update l i true }) s

def workerInstall (fails : Step → Bool) (s : Service) (i : ℕ) : Except Exit Service :=
  match workerNew (fun t => fails (.worker i t)) i s with
  | (none, s) => .error (.error s)
  | (some w, s) =>
    let w := { w with prologue := true }
    .ok { s with workers := s.workers.map fun l => Function.update l i (some w) }

/-- `http_service_init` up to its array of workers. -/
def initListeners (fails : Step → Bool) (nworkers : ℕ) (s : Service) : Except Exit Service := do
  let s ← acquire (!fails .listNew) .sessions (fun s => { s with sessions := true }) (workerInit s)
  let s ← acquire (!fails .mutexNew) .sessionMutex (fun s => { s with sessionMutex := true }) s
  let s ← acquire (!fails .eventBaseNew) .ebase (fun s => { s with ebase := true }) s
  let s ← acquire (!fails .evSigterm) .evSigterm (fun s => { s with evSigterm := true }) s
  let s ← check (!fails .addSigterm) s
  let s ← acquire (!fails .evSigint) .evSigint (fun s => { s with evSigint := true }) s
  let s ← check (!fails .addSigint) s
  let s ← acquire (!fails .listeners) .listeners
    (fun s => { s with listeners := some fun _ => false }) s
  (List.range nworkers).foldlM (listenerInit fails) s

/-- The rest: only a failure to allocate the array returns directly. -/
def initWorkers (fails : Step → Bool) (nworkers : ℕ) (s : Service) : Except Exit Service :=
  if fails .workers then .error (.direct s)
  else (List.range nworkers).foldlM (workerInstall fails)
    { alloc .workers s with nworkers := nworkers, workers := some fun _ => none }

def httpServiceInit (fails : Step → Bool) (nworkers : ℕ) : ℤ × Service :=
  match initListeners fails nworkers {} >>= initWorkers fails nworkers with
  | .ok s => (0, s)
  | .error (.error s) => (-1, httpServiceFini s)
  | .error (.direct s) => (-1, s)

/-- All objects are released and `http_service_fini` may run again. -/
structure Unwound (s : Service) : Prop where
  running : s.crashed = false
  released : ∀ o, .alloc o ∈ s.ledger → frees s.ledger o = 1
  again : (httpServiceFini s).crashed = false
  nothing : (httpServiceFini s).ledger = s.ledger

/-- The result of an initialisation in which one step fails. -/
def Unwinds (nworkers : ℕ) (step : Step) : Prop :=
  (httpServiceInit (fun t => t = step) nworkers).1 = -1 ∧
    Unwound (httpServiceInit (fun t => t = step) nworkers).2

structure Unreleased (s : Service) : Prop where
  sessions : .alloc .sessions ∈ s.ledger
  none : ∀ o, .free o ∉ s.ledger

theorem unreleased_alloc {s : Service} (o : Obj) (h : Unreleased s) : Unreleased (alloc o s) where
  sessions := List.mem_cons_of_mem _ h.sessions
  none := fun p hp => h.none p (by simpa [alloc] using hp)

theorem unreleased_of_ledger {s s' : Service} (h : Unreleased s) (hl : s'.ledger = s.ledger) :
    Unreleased s' := by
  constructor
  · rw [hl]
    exact h.sessions
  · rw [hl]
    exact h.none

def Leads (Good : Service → Prop) : Except Exit Service → Prop
  | .ok s => Good s
  | .error (.error _) => True
  | .error (.direct _) => False

variable {Good Good' : Service → Prop}

theorem leads_bind {x : Except Exit Service} {f : Service → Except Exit Service}
    (hx : Leads Good x) (hf : ∀ s, Good s → Leads Good' (f s)) : Leads Good' (x >>= f) := by
  cases x with
  | ok s => exact hf s hx
  | error e =>
    cases e with
    | error s => trivial
    | direct s => exact hx.elim

theorem leads_acquire (ok : Bool) (o : Obj) (set : Service → Service) (s : Service)
    (h : Good (set (alloc o s))) : Leads Good (acquire ok o set s) := by
  rw [acquire]
  split
  · exact h
  · trivial

theorem leads_check (ok : Bool) (s : Service) (h : Good s) : Leads Good (check ok s) := by
  rw [check]
  split
  · exact h
  · trivial

theorem leads_foldlM {f : Service → ℕ → Except Exit Service} (is : List ℕ) (s : Service)
    (hf : ∀ s i, Good s → Leads Good (f s i)) (hs : Good s) : Leads Good (is.foldlM f s) := by
  induction is generalizing s with
  | nil => exact hs
  | cons i is ih =>
    rw [List.foldlM_cons]
    exact leads_bind (hf s i hs) ih

theorem acquire_unreleased (ok : Bool) (o : Obj) (set : Service → Service) (s : Service)
    (hset : ∀ u : Service, (set u).ledger = u.ledger) (hs : Unreleased s) :
    Leads Unreleased (acquire ok o set s) :=
  leads_acquire ok o set s (unreleased_of_ledger (unreleased_alloc o hs) (hset _))

theorem initListeners_leads (fails : Step → Bool) (nworkers : ℕ) :
    Leads Unreleased (initListeners fails nworkers {}) := by
  rw [initListeners]
  refine leads_bind (x := acquire _ _ _ _) ?_ fun s (hs : Unreleased s) => ?_
  · apply leads_acquire
    constructor
    · exact List.mem_cons_self
    · intro o ho
      simp [alloc, workerInit] at ho
  refine leads_bind (acquire_unreleased _ _ _ s (fun _ => rfl) hs) fun s hs => ?_
  refine leads_bind (acquire_unreleased _ _ _ s (fun _ => rfl) hs) fun s hs => ?_
  refine leads_bind (acquire_unreleased _ _ _ s (fun _ => rfl) hs) fun s hs => ?_
  refine leads_bind (leads_check _ s hs) fun s hs => ?_
  refine leads_bind (acquire_unreleased _ _ _ s (fun _ => rfl) hs) fun s hs => ?_
  refine leads_bind (leads_check _ s hs) fun s hs => ?_
  refine leads_bind (acquire_unreleased _ _ _ s (fun _ => rfl) hs) fun s hs => ?_
  apply leads_foldlM _ _ _ hs
  intro s i hs
  exact acquire_unreleased _ _ _ s (fun _ => rfl) hs

theorem initWorkers_loop (fails : Step → Bool) (is : List ℕ) (s : Service) :
    Leads (fun _ => True) (is.foldlM (workerInstall fails) s) := by
  apply leads_foldlM _ _ _ trivial
  intro s i _
  rw [workerInstall]
  split <;> trivial

theorem freeIf_sessions (held : Bool) (o : Obj) (s : Service) :
    (freeIf held o s).sessions = s.sessions := by
  cases held <;> rfl

theorem workerFree_sessions (i : ℕ) (w : Worker) (s : Service) :
    (workerFree i w s).sessions = s.sessions := by
  simp only [workerFree, free, freeIf_sessions]

theorem foldl_sessions {f : Service → ℕ → Service} (hf : ∀ s i, (f s i).sessions = s.sessions)
    (is : List ℕ) (s : Service) : (is.foldl f s).sessions = s.sessions := by
  induction is generalizing s with
  | nil => rfl
  | cons i is ih => rw [List.foldl_cons, ih, hf]

theorem freeListeners_sessions (s : Service) : (freeListeners s).sessions = s.sessions := by
  rw [freeListeners]
  split
  · rfl
  · exact foldl_sessions (fun s i => freeIf_sessions _ _ s) _ s

theorem freeWorkers_sessions (s : Service) : (freeWorkers s).sessions = s.sessions := by
  rw [freeWorkers]
  split
  · rfl
  · apply foldl_sessions
    intro s i
    split
    · rfl
    · exact workerFree_sessions _ _ s

theorem fini_sessions (s : Service) (h : (httpServiceFini s).crashed = false) :
    (httpServiceFini s).sessions = false := by
  rw [httpServiceFini] at h ⊢
  split at h
  · next hc => exact absurd (hc.symm.trans h) (by decide)
  · split at h
    · simp only [workerFini, freeEvents, freeIf_sessions, freeWorkers_sessions,
        freeListeners_sessions]
      rw [if_neg ‹_›, if_pos ‹_›]
    · cases h

theorem fini_null (s : Service) (h : s.sessions = false) : (httpServiceFini s).crashed = true := by
  rw [httpServiceFini, h]
  split
  · assumption
  · rfl

theorem fini_twice (s : Service) : ¬ Unwound (httpServiceFini s) := by
  intro h
  have hnull := fini_null _ (fini_sessions s h.running)
  exact absurd (hnull.symm.trans h.again) (by decide)

theorem unreleased_not_unwound {s : Service} (h : Unreleased s) : ¬ Unwound s := by
  intro hu
  have hone := hu.released .sessions h.sessions
  rw [frees, List.count_eq_zero_of_not_mem (h.none _)] at hone
  cases hone

/-- Whatever step fails, the initialisation does not unwind: `http_service_fini`
runs twice, or not at all before it returns. -/
theorem failed_init_never_unwinds (nworkers : ℕ) (step : Step) : ¬ Unwinds nworkers step := by
  rintro ⟨hret, hu⟩
  rw [httpServiceInit] at hret hu
  have hl := initListeners_leads (fun t => decide (t = step)) nworkers
  generalize initListeners _ nworkers {} = x at hret hu hl
  cases x with
  | error e =>
    cases e with
    | error s => exact fini_twice s hu
    | direct s => exact hl
  | ok s =>
    have hw : initWorkers (fun t => decide (t = step)) nworkers s = .error (.direct s) ∨
        Leads (fun _ => True) (initWorkers (fun t => decide (t = step)) nworkers s) := by
      rw [initWorkers]
      split
      · exact .inl rfl
      · exact .inr (initWorkers_loop _ _ _)
    have hb : (Except.ok s >>= initWorkers (fun t => decide (t = step)) nworkers) =
      initWorkers (fun t => decide (t = step)) nworkers s := rfl
    rw [hb] at hret hu
    rcases hw with hw | hw
    · rw [hw] at hu
      exact unreleased_not_unwound hl hu
    · generalize initWorkers _ nworkers s = y at hret hu hw
      cases y with
      | ok s => cases hret
      | error e =>
        cases e with
        | error s => exact fini_twice s hu
        | direct s => exact hw

/-- Without memory for the second listener of four, the first one leaks and
`main` runs `http_service_fini` on a null list. -/
theorem second_listener_fails :
    (httpServiceInit (fun t => t = .listener 1) 4).1 = -1 ∧
      frees (httpServiceInit (fun t => t = .listener 1) 4).2.ledger (.listener 0) = 0 ∧
      ¬ Unwinds 4 (.listener 1) := by
  refine ⟨by decide +kernel, by decide +kernel, ?_⟩
  rintro ⟨-, hu⟩
  exact absurd hu.again (by decide +kernel)

example : (httpServiceInit (fun _ => false) 2).1 = 0 := by decide +kernel

end Tigera.ServiceSetup
