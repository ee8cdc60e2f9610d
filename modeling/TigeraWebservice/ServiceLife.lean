import Mathlib.Data.List.Nodup
import TigeraWebservice.ServiceSetup

/-!
# A service set up and torn down

When no step fails, `http_service_init` acquires a fixed list of objects in a
fixed order. The `http_service_fini` after it releases each of them, the mutex
of the sessions excepted.
-/

set_option autoImplicit false

namespace Tigera.ServiceLife
open ResourceLedger Tigera.ServiceSetup

variable {nworkers : ℕ} {s : Service}

def workerAcquired (i : ℕ) : List Obj :=
  [.worker i, .workerEbase i, .workerDnsbase i, .workerThread i]

def workerReleased (i : ℕ) : List Obj :=
  [.workerDnsbase i, .workerEbase i, .workerThread i, .worker i]

def acquired (nworkers : ℕ) : List Obj :=
  [.mainThreadId, .threadKey, .sessions, .sessionMutex, .ebase, .evSigterm, .evSigint, .listeners] ++
    (List.range nworkers).map .listener ++ [.workers] ++
    (List.range nworkers).flatMap workerAcquired

def released (nworkers : ℕ) : List Obj :=
  [.sessions] ++ (List.range nworkers).map .listener ++ [.listeners] ++
    (List.range nworkers).flatMap workerReleased ++
    [.workers, .evSigterm, .evSigint, .ebase, .threadKey, .mainThreadId]

/-- The service that is ready to start. -/
def serving (nworkers : ℕ) (ledger : List (Entry Obj)) : Service where
  nworkers := nworkers
  mainThreadId := true
  threadKey := true
  sessions := true
  sessionMutex := true
  ebase := true
  evSigterm := true
  evSigint := true
  listeners := some fun i => decide (i < nworkers)
  workers := some fun i => if i < nworkers then some ⟨true, true, true, true⟩ else none
  ledger := ledger

theorem update_below (k : ℕ) :
    Function.update (fun i => decide (i < k)) k true = fun i => decide (i < k + 1) := by
  funext i
  by_cases hi : i = k
  · simp [hi]
  · rw [Function.update_of_ne hi]
    exact decide_eq_decide.mpr (by omega)

theorem update_workers (k : ℕ) (w : Worker) :
    Function.update (fun i => if i < k then some w else none) k (some w) =
      fun i => if i < k + 1 then some w else none := by
  funext i
  by_cases hi : i = k
  · simp [hi]
  · rw [Function.update_of_ne hi]
    exact if_congr (by omega) rfl rfl

theorem ok_bind (v : Service) (f : Service → Except Exit Service) :
    ((Except.ok v : Except Exit Service) >>= f) = f v := rfl

theorem listeners_loop (k : ℕ) (s : Service) (hs : s.listeners = some fun _ => false) :
    (List.range k).foldlM (listenerInit fun _ => false) s = .ok { s with
      listeners := some fun i => decide (i < k)
      ledger := (((List.range k).map Obj.listener).map .alloc).reverse ++ s.ledger } := by
  induction k with
  | zero =>
    simp only [Nat.not_lt_zero, decide_false, List.range_zero, List.foldlM_nil]
    rw [← hs]
    rfl
  | succ k ih =>
    rw [List.range_succ, List.foldlM_append, ih]
    have hstep : ∀ v : Service, listenerInit (fun _ => false) v k = .ok { v with
        listeners := v.listeners.map fun l => Function.update l k true
        ledger := .alloc (.listener k) :: v.ledger } := fun v => rfl
    rw [ok_bind, List.foldlM_cons, hstep, ok_bind, List.foldlM_nil]
    simp only [Option.map_some, update_below, List.map_append, List.map_cons, List.map_nil,
      List.reverse_append, List.reverse_cons, List.reverse_nil, List.nil_append,
      List.cons_append]
    rfl

theorem workerNew_whole (i : ℕ) (s : Service) : workerNew (fun _ => false) i s =
    (some ⟨true, true, true, false⟩, { s with
      ledger := ((workerAcquired i).map .alloc).reverse ++ s.ledger }) := by
  rw [workerNew, workerSetup]
  rfl

theorem workerInstall_whole (i : ℕ) (s : Service) : workerInstall (fun _ => false) s i = .ok { s with
    workers := s.workers.map fun l => Function.update l i (some ⟨true, true, true, true⟩)
    ledger := ((workerAcquired i).map .alloc).reverse ++ s.ledger } := by
  rw [workerInstall, workerNew_whole]

theorem workers_loop (k : ℕ) (s : Service) (hs : s.workers = some fun _ => none) :
    (List.range k).foldlM (workerInstall fun _ => false) s = .ok { s with
      workers := some fun i => if i < k then some ⟨true, true, true, true⟩ else none
      ledger := (((List.range k).flatMap workerAcquired).map .alloc).reverse ++ s.ledger } := by
  induction k with
  | zero =>
    simp only [Nat.not_lt_zero, if_false, List.range_zero, List.foldlM_nil]
    rw [← hs]
    rfl
  | succ k ih =>
    rw [List.range_succ, List.foldlM_append, ih]
    rw [ok_bind, List.foldlM_cons, workerInstall_whole, ok_bind, List.foldlM_nil]
    simp only [Option.map_some, update_workers, List.flatMap_append, List.flatMap_singleton,
      List.map_append, List.reverse_append, List.append_assoc]
    rfl

theorem httpServiceInit_serving (nworkers : ℕ) : httpServiceInit (fun _ => false) nworkers =
    (0, serving nworkers ((acquired nworkers).map .alloc).reverse) := by
  have hl : initListeners (fun _ => false) nworkers {} = .ok { ({} : Service) with
      mainThreadId := true, threadKey := true, sessions := true, sessionMutex := true
      ebase := true, evSigterm := true, evSigint := true
      listeners := some fun i => decide (i < nworkers)
      ledger := (((List.range nworkers).map Obj.listener).map .alloc).reverse ++
        ([Obj.mainThreadId, .threadKey, .sessions, .sessionMutex, .ebase, .evSigterm, .evSigint,
          .listeners].map Entry.alloc).reverse } :=
    listeners_loop nworkers _ rfl
  rw [httpServiceInit, hl, ok_bind, initWorkers, if_neg (by decide), workers_loop nworkers _ rfl]
  simp only [serving, alloc, acquired, List.map_append, List.reverse_append, List.append_assoc]
  rfl

theorem foldl_released {f : Service → ℕ → Service} (objs : ℕ → List Obj) (k : ℕ) (s : Service)
    (hf : ∀ i, i < k → ∀ v, f v i = { v with
      ledger := ((objs i).map .free).reverse ++ v.ledger }) :
    (List.range k).foldl f s =
      { s with ledger := (((List.range k).flatMap objs).map .free).reverse ++ s.ledger } := by
  induction k with
  | zero => rfl
  | succ k ih =>
    rw [List.range_succ, List.foldl_append, ih fun i hi => hf i (Nat.lt_succ_of_lt hi)]
    show f _ k = _
    rw [hf k (Nat.lt_succ_self k)]
    simp only [List.flatMap_append, List.flatMap_singleton, List.map_append, List.reverse_append,
      List.append_assoc]

theorem freeListeners_serving (s : Service) (hl : s.listeners = some fun i => decide (i < s.nworkers)) :
    freeListeners s = { s with
      listeners := none
      ledger := .free .listeners :: (((List.range s.nworkers).map Obj.listener).map .free).reverse ++
        s.ledger } := by
  have hmap : (List.range s.nworkers).flatMap (fun i => [Obj.listener i]) =
      (List.range s.nworkers).map Obj.listener := List.flatMap_pure_eq_map _ _
  rw [freeListeners, hl]
  dsimp only
  rw [foldl_released fun i => [Obj.listener i], hmap]
  · rfl
  · intro i hi v
    rw [decide_eq_true hi]
    rfl

theorem freeWorkers_serving (s : Service) (hw : s.workers =
      some fun i => if i < s.nworkers then some ⟨true, true, true, true⟩ else none) :
    freeWorkers s = { s with
      workers := none
      ledger := .free .workers :: (((List.range s.nworkers).flatMap workerReleased).map .free).reverse ++
        s.ledger } := by
  rw [freeWorkers, hw]
  dsimp only
  rw [foldl_released workerReleased]
  · rfl
  · intro i hi v
    rw [if_pos hi]
    rfl

theorem httpServiceFini_serving (nworkers : ℕ) (l : List (Entry Obj)) :
    (httpServiceFini (serving nworkers l)).ledger = ((released nworkers).map .free).reverse ++ l ∧
      (httpServiceFini (serving nworkers l)).crashed = false := by
  have hl := freeListeners_serving
    { free .sessions (serving nworkers l) with sessions := false } rfl
  have hw := freeWorkers_serving (freeListeners
    { free .sessions (serving nworkers l) with sessions := false }) (by rw [hl]; rfl)
  have hfini : httpServiceFini (serving nworkers l) = workerFini (freeEvents (freeWorkers
      (freeListeners { free .sessions (serving nworkers l) with sessions := false }))) := rfl
  rw [hfini, hw, hl]
  constructor
  · simp only [released, List.map_append, List.reverse_append, List.append_assoc]
    rfl
  · rfl

theorem workers_nodup {objs : ℕ → List Obj} (k : ℕ) (hone : ∀ i, (objs i).Nodup)
    (hnumber : ∀ i o, o ∈ objs i → o = .worker i ∨ o = .workerEbase i ∨ o = .workerDnsbase i ∨
      o = .workerThread i) : ((List.range k).flatMap objs).Nodup := by
  rw [List.nodup_flatMap]
  refine ⟨fun i _ => hone i, ?_⟩
  apply List.Pairwise.imp _ List.nodup_range
  intro i j hij o hi hj
  have h1 := hnumber i o hi
  have h2 := hnumber j o hj
  rcases h1 with rfl | rfl | rfl | rfl <;> simp [hij] at h2

theorem listeners_nodup (k : ℕ) : ((List.range k).map Obj.listener).Nodup :=
  List.nodup_range.map fun i j h => by injection h

theorem acquired_nodup (nworkers : ℕ) : (acquired nworkers).Nodup := by
  have hworkers : ((List.range nworkers).flatMap workerAcquired).Nodup :=
    workers_nodup nworkers (fun i => by simp [workerAcquired])
      fun i o ho => by simpa [workerAcquired] using ho
  have hother : ∀ i, i < nworkers → ∀ (o : Obj) j, j < nworkers → o = .worker j ∨ o = .workerEbase j ∨
      o = .workerDnsbase j ∨ o = .workerThread j → Obj.listener i ≠ o := by
    rintro i - o j - (rfl | rfl | rfl | rfl) <;> exact Obj.noConfusion
  simpa [acquired, List.nodup_append, hworkers, listeners_nodup, workerAcquired] using hother

theorem released_nodup (nworkers : ℕ) : (released nworkers).Nodup := by
  have hworkers : ((List.range nworkers).flatMap workerReleased).Nodup := by
    refine workers_nodup nworkers (fun i => by simp [workerReleased]) fun i o ho => ?_
    simp only [workerReleased, List.mem_cons, List.not_mem_nil, or_false] at ho
    rcases ho with rfl | rfl | rfl | rfl <;> simp
  have hnumbered : ∀ (o : Obj) i, i < nworkers → o = .workerDnsbase i ∨ o = .workerEbase i ∨
      o = .workerThread i ∨ o = .worker i → o ≠ .workers ∧ o ≠ .evSigterm ∧ o ≠ .evSigint ∧
        o ≠ .ebase ∧ o ≠ .threadKey ∧ o ≠ .mainThreadId := by
    rintro o i - (rfl | rfl | rfl | rfl) <;> simp
  have hother : ∀ i, i < nworkers → ∀ o : Obj, (∃ j, j < nworkers ∧ (o = .workerDnsbase j ∨
      o = .workerEbase j ∨ o = .workerThread j ∨ o = .worker j)) ∨ o = .workers ∨
      o = .evSigterm ∨ o = .evSigint ∨ o = .ebase ∨ o = .threadKey ∨ o = .mainThreadId →
        Obj.listener i ≠ o := by
    rintro i - o (⟨j, -, rfl | rfl | rfl | rfl⟩ | rfl | rfl | rfl | rfl | rfl | rfl) <;> simp
  simpa [released, List.nodup_append, hworkers, listeners_nodup, workerReleased] using
    ⟨hnumbered, hother⟩

theorem mem_acquired (nworkers : ℕ) (o : Obj) :
    o ∈ acquired nworkers ↔ o ∈ released nworkers ∨ o = .sessionMutex := by
  cases o <;> simp [acquired, released, workerAcquired, workerReleased]

theorem sessionMutex_kept (nworkers : ℕ) : .sessionMutex ∉ released nworkers := by
  simp [released, workerReleased]

end Tigera.ServiceLife
