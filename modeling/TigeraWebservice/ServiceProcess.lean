import TigeraWebservice.ServiceLife
import TigeraWebservice.Shutdown

/-!
# The life of the process

The main thread and its workers with what they acquire: the argument that
`thread_start` hands to a thread, the worker that the thread keeps under its
key, the descriptor and the listener of `tcp_socket_listen`, and the objects of
`http_service_init`, down to the end of `http_service_fini`. The threads take
their steps as in the plain model of the workers. Of the sessions only what they
reach for in the service is recorded.
-/

set_option autoImplicit false

namespace Tigera.ServiceProcess
open ResourceLedger TransitionRuns Tigera.WorkerThreads Tigera.Shutdown
open Tigera.ServiceSetup Tigera.ServiceLife

/-- The argument of a worker's thread, the descriptor it listens on and its listener. -/
inductive Resource where
  | threadArg (i : ℕ)
  | fd (i : ℕ)
  | evconnlistener (i : ℕ)
  deriving DecidableEq, Repr

/-- A listening `struct tcp_socket`: its listener, with the event base that was
given for it, and its flag. -/
structure Socket where
  listener : Option (Option ℕ) := none
  listen : Bool := false
  deriving DecidableEq, Repr

structure Process where
  threads : State
  begun : ℕ → Bool
  key : ℕ → Option ℕ
  socket : ℕ → Socket
  service : Service
  ledger : List (Entry Resource)
  finished : Bool

/-- After a successful `http_service_init`. -/
def launched (nworkers : ℕ) : Process where
  threads := WorkerThreads.initial nworkers
  begun _ := false
  key _ := none
  socket _ := {}
  service := (httpServiceInit (fun _ => false) nworkers).2
  ledger := []
  finished := false

def mark (e : Entry Resource) (p : Process) : Process := { p with ledger := e :: p.ledger }

def touch (os : List Obj) (p : Process) : Process :=
  { p with service := { p.service with ledger := os.map .use ++ p.service.ledger } }

/-- `worker_start` hands the worker to its thread. -/
def threadStart (calloc pthreadCreate : Bool) (i : ℕ) (p : Process) : Process :=
  let p := touch [.workerThread i, .worker i, .workers] p
  if calloc then
    let p := mark (.use (.threadArg i)) (mark (.alloc (.threadArg i)) p)
    if pthreadCreate then p else mark (.free (.threadArg i)) p
  else p

/-- `thread_routine`, and `worker_loop` up to its prologue. -/
def threadRoutine (setspecific : Bool) (i : ℕ) (p : Process) : Process :=
  let p := mark (.free (.threadArg i)) (mark (.use (.threadArg i)) p)
  let p := touch [.threadKey, .workerThread i] p
  { p with begun := Function.update p.begun i true
           key := if setspecific then Function.update p.key i (some i) else p.key }

def thisEventBase (i : ℕ) (p : Process) : Option ℕ := p.key i

/-- What `this_event_base` and `this_dnsbase` reach for, with the part of the
worker that they return. -/
def reached (part : ℕ → Obj) (i : ℕ) (p : Process) : List Obj :=
  match p.key i with
  | none => [.threadKey]
  | some k => [part k, .worker k, .threadKey]

structure ListenChoices where
  family : Bool := true
  socket : Bool := true
  setsockopt : Bool := true
  bind : Bool := true
  evconnlistenerNew : Bool := true
  deriving DecidableEq, Repr

def tcpSocketListen (c : ListenChoices) (i : ℕ) (p : Process) : Bool × Process :=
  if !c.family then (false, p)
  else if !c.socket then (false, p)
  else
    let p := mark (.alloc (.fd i)) p
    if !c.setsockopt then (false, mark (.free (.fd i)) p)
    else if !c.bind then (false, mark (.free (.fd i)) p)
    else
      let ebase := thisEventBase i p
      let p := touch (reached .workerEbase i p) p
      if !c.evconnlistenerNew then (false, mark (.free (.fd i)) p)
      else
        let p := mark (.alloc (.evconnlistener i)) p
        (true, { p with socket := Function.update p.socket i ⟨some ebase, true⟩ })

/-- The prologue of a worker is `http_service_listener_start`. -/
def listenerStart (c : ListenChoices) (i : ℕ) (p : Process) : Bool × Process :=
  tcpSocketListen c i (touch [.listener i, .worker i] p)

/-- `worker_loop` with its prologue: it goes on to dispatch, or to `worker_failure`. -/
def workerLoop (c : ListenChoices) (i : ℕ) (p : Process) : Process :=
  touch (if (listenerStart c i p).1 then [.workerEbase i, .worker i] else [.mainThreadId])
    (listenerStart c i p).2

/-- The listener calls back: `channel_accept` and `http_service_session_add`. -/
def accepting (i : ℕ) (p : Process) : Process :=
  mark (.use (.evconnlistener i))
    (touch ([.sessions, .sessionMutex] ++ reached .workerEbase i p ++ [.listener i, .workerEbase i]) p)

inductive Work where
  | connect
  | resolve
  | remove
  deriving DecidableEq, Repr

/-- `tcp_socket_connect`, `dnsname_resolve` and `http_service_session_remove`. -/
def working (work : Work) (i : ℕ) (p : Process) : Process :=
  touch (match work with
    | .connect => reached .workerEbase i p
    | .resolve => reached .workerDnsbase i p
    | .remove => [.sessions, .sessionMutex]) p

/-- What the main thread, or a signal, reaches for. -/
def mainObjects (s : State) : WorkerThreads.Event → List Obj
  | .loopexit =>
    match s.phase with
    | .stopping i => [.workerEbase i, .worker i, .workers]
    | _ => []
  | .join =>
    match s.phase with
    | .stopping i => [.workerThread i, .worker i, .workers]
    | _ => []
  | .dispatch | .dispatchReturn => [.ebase]
  | .callback .sigterm | .eventDel .sigterm => [.ebase, .evSigterm]
  | .callback .sigint | .eventDel .sigint => [.ebase, .evSigint]
  | _ => []

/-- What `tcp_socket_free` releases with a listening socket; the listener closes
its descriptor. -/
def tcpSocketFree (i : ℕ) (s : Socket) : List Resource :=
  if s.listen then
    match s.listener with
    | some _ => [.evconnlistener i, .fd i]
    | none => []
  else []

def listenersFree (p : Process) : Process :=
  let rs := (List.range p.threads.nworkers).flatMap fun i => tcpSocketFree i (p.socket i)
  { p with ledger := (rs.map .free).reverse ++ p.ledger }

/-- `http_service_fini` begins with the sessions that are left. -/
def serviceFini (p : Process) : Process :=
  let p := listenersFree (touch [.sessions] p)
  { p with service := httpServiceFini p.service, finished := true }

inductive Event where
  | main (e : WorkerThreads.Event)
  | threadStart (calloc pthreadCreate : Bool)
  | threadRoutine (i : ℕ) (setspecific : Bool)
  | prologue (i : ℕ) (c : ListenChoices)
  | accept (i : ℕ)
  | session (i : ℕ) (work : Work)
  | workerReturn (i : ℕ)
  | fini
  deriving DecidableEq, Repr

def listens (c : ListenChoices) : Bool :=
  c.family && c.socket && c.setsockopt && c.bind && c.evconnlistenerNew

def plain : Event → Option WorkerThreads.Event
  | .main e => some e
  | .threadStart calloc pthreadCreate => some (.workerStart (calloc && pthreadCreate))
  | .prologue i c => some (.prologue i (listens c))
  | .workerReturn i => some (.workerReturn i)
  | _ => none

def isMain : WorkerThreads.Event → Bool
  | .workerStart _ | .prologue _ _ | .workerReturn _ => false
  | _ => true

def enabled (p : Process) : Event → Bool
  | .main e => isMain e && WorkerThreads.enabled p.threads e
  | .threadStart calloc pthreadCreate =>
    WorkerThreads.enabled p.threads (.workerStart (calloc && pthreadCreate))
  | .threadRoutine i _ =>
    p.threads.phase ≠ .killed && p.threads.thread i = .entered && !p.begun i
  | .prologue i c => WorkerThreads.enabled p.threads (.prologue i (listens c)) && p.begun i
  | .accept i | .session i _ => p.threads.phase ≠ .killed && p.threads.thread i = .looping
  | .workerReturn i => WorkerThreads.enabled p.threads (.workerReturn i)
  | .fini => p.threads.phase = .freeing && !p.finished

def effect (p : Process) : Event → Process
  | .main e => touch (mainObjects p.threads e) p
  | .threadStart calloc pthreadCreate =>
    match p.threads.phase with
    | .starting i => threadStart calloc pthreadCreate i p
    | _ => p
  | .threadRoutine i setspecific => threadRoutine setspecific i p
  | .prologue i c => workerLoop c i p
  | .accept i => accepting i p
  | .session i work => working work i p
  | .workerReturn i => touch [.workerEbase i, .worker i] p
  | .fini => serviceFini p

def next (p : Process) (e : Event) : Process :=
  match plain e with
  | some e' => { effect p e with threads := WorkerThreads.next p.threads e' }
  | none => effect p e

def system : System Process Event where
  enabled p e := enabled p e = true
  next := next

instance (p : Process) (e : Event) : Decidable (system.enabled p e) :=
  inferInstanceAs (Decidable (enabled p e = true))

/-- Only the first thread may fail to start, and `pthread_setspecific` succeeds. -/
def steady (p : Process) : Event → Bool
  | .threadStart calloc pthreadCreate => calloc && pthreadCreate || p.threads.phase = .starting 0
  | .threadRoutine _ setspecific => setspecific
  | _ => true

variable {p q : Process} {e : Event} {i j nworkers : ℕ} {c : ListenChoices}

theorem listenerStart_listens (c : ListenChoices) (i : ℕ) (p : Process) :
    (listenerStart c i p).1 = listens c := by
  rw [listenerStart, tcpSocketListen, listens]
  cases c.family <;> cases c.socket <;> cases c.setsockopt <;> cases c.bind <;>
    cases c.evconnlistenerNew <;> rfl

theorem effect_threads (p : Process) (e : Event) : (effect p e).threads = p.threads := by
  cases e with
  | threadStart calloc pthreadCreate =>
    rw [effect]
    split
    · cases calloc <;> cases pthreadCreate <;> rfl
    · rfl
  | prologue i c =>
    rw [effect, workerLoop, listenerStart, tcpSocketListen]
    cases c.family <;> cases c.socket <;> cases c.setsockopt <;> cases c.bind <;>
      cases c.evconnlistenerNew <;> rfl
  | _ => rfl

theorem next_threads (p : Process) (e : Event) : (next p e).threads =
    (match plain e with
    | some e' => WorkerThreads.next p.threads e'
    | none => p.threads) := by
  rw [next]
  split
  · rfl
  · exact effect_threads p e

theorem enabled_plain (he : enabled p e = true) (e' : WorkerThreads.Event)
    (hp : plain e = some e') : WorkerThreads.enabled p.threads e' = true := by
  cases e with
  | main f =>
    obtain rfl : f = e' := Option.some.inj hp
    simp only [enabled, Bool.and_eq_true] at he
    exact he.2
  | threadStart calloc pthreadCreate => exact Option.some.inj hp ▸ he
  | prologue i c =>
    simp only [enabled, Bool.and_eq_true] at he
    exact Option.some.inj hp ▸ he.1
  | workerReturn i => exact Option.some.inj hp ▸ he
  | _ => cases hp

theorem steady_plain (he : enabled p e = true) (hc : steady p e = true) (e' : WorkerThreads.Event)
    (hp : plain e = some e') : FirstOnly p.threads e' := by
  intro hfail
  subst hfail
  cases e with
  | main f =>
    obtain rfl : f = .workerStart false := Option.some.inj hp
    cases he
  | threadStart calloc pthreadCreate =>
    have hno : (calloc && pthreadCreate) = false := by injection Option.some.inj hp
    simp only [steady, hno, Bool.false_or, decide_eq_true_eq] at hc
    exact hc
  | prologue i c => cases hp
  | workerReturn i => cases hp
  | _ => cases hp

structure Threaded (s : State) : Prop where
  orderly : Orderly s
  joined : Joined s

theorem next_threaded (h : Threaded p.threads) (he : enabled p e = true) (hc : steady p e = true) :
    Threaded (next p e).threads := by
  rw [next_threads]
  split
  · next e' hp =>
    have he' := enabled_plain he e' hp
    exact ⟨next_orderly h.orderly he', next_joined h.orderly.inv h.joined he' (steady_plain he hc e' hp)⟩
  · exact h

theorem enabled_freeing (h : Threaded p.threads) (hf : p.threads.phase = .freeing)
    (he : enabled p e = true) :
    (∃ signal, e = .main (.signal signal)) ∨ e = .fini ∧ p.finished = false := by
  have hover : ∀ i, p.threads.thread i = .unstarted ∨ p.threads.thread i = .ended := by
    intro i
    by_cases hi : p.threads.thread i = .unstarted
    · exact .inl hi
    · exact .inr (h.joined hf i hi).1
  cases e with
  | main f =>
    simp only [enabled, Bool.and_eq_true] at he
    cases f with
    | signal signal => exact .inl ⟨signal, rfl⟩
    | workerStart ok => cases he.1
    | prologue i ok => cases he.1
    | workerReturn i => cases he.1
    | eventDel signal => cases signal <;> simp [WorkerThreads.enabled, hf] at he
    | _ => simp [WorkerThreads.enabled, hf] at he
  | threadStart calloc pthreadCreate => simp [enabled, WorkerThreads.enabled, hf] at he
  | threadRoutine i setspecific => rcases hover i with hi | hi <;> simp [enabled, hi] at he
  | prologue i c => rcases hover i with hi | hi <;> simp [enabled, WorkerThreads.enabled, hi] at he
  | accept i => rcases hover i with hi | hi <;> simp [enabled, hi] at he
  | session i work => rcases hover i with hi | hi <;> simp [enabled, hi] at he
  | workerReturn i =>
    rcases hover i with hi | hi <;> simp [enabled, WorkerThreads.enabled, hi] at he
  | fini =>
    simp only [enabled, Bool.and_eq_true, Bool.not_eq_true'] at he
    exact .inr ⟨rfl, he.2⟩

theorem not_enabled_killed (hk : p.threads.phase = .killed) : enabled p e = false := by
  cases e with
  | main f =>
    cases f with
    | eventDel signal => cases signal <;> simp [enabled, isMain, WorkerThreads.enabled, hk]
    | _ => simp [enabled, isMain, WorkerThreads.enabled, hk]
  | _ => simp [enabled, WorkerThreads.enabled, hk]

def Stocked (nworkers : ℕ) (p : Process) : Prop :=
  Sound p.service.ledger ∧
    if p.finished then ∀ o, status p.service.ledger o =
      if o ∈ released nworkers then .freed else if o = .sessionMutex then .live else .fresh
    else (∃ l, p.service = serving nworkers l) ∧
      ∀ o, status p.service.ledger o = if o ∈ acquired nworkers then .live else .fresh

/-- The objects that worker `i`, its listener and its sessions reach for. -/
def own (i : ℕ) : List Obj :=
  [.mainThreadId, .threadKey, .sessions, .sessionMutex, .workers, .listener i, .worker i,
    .workerEbase i, .workerDnsbase i, .workerThread i]

theorem own_acquired (hi : i < nworkers) : own i ⊆ acquired nworkers := by
  intro o ho
  simp only [own, List.mem_cons, List.not_mem_nil, or_false] at ho
  rcases ho with rfl | rfl | rfl | rfl | rfl | rfl | rfl | rfl | rfl | rfl <;>
    simp [acquired, workerAcquired, hi]

theorem reached_own (hk : p.key i = some i) :
    reached .workerEbase i p ⊆ own i ∧ reached .workerDnsbase i p ⊆ own i := by
  rw [reached, reached, hk]
  constructor <;> simp [own]

theorem stocked_touch {os : List Obj} (h : Stocked nworkers p) (hf : p.finished = false)
    (hos : os ⊆ acquired nworkers) (hq : q.service = (touch os p).service)
    (hqf : q.finished = p.finished) : Stocked nworkers q := by
  obtain ⟨hsound, hst⟩ := h
  rw [if_neg (by simp [hf])] at hst
  obtain ⟨⟨l, hl⟩, hst⟩ := hst
  refine ⟨?_, ?_⟩
  · rw [hq]
    exact sound_uses hsound fun o ho => by rw [hst, if_pos (hos ho)]
  · rw [if_neg (by simp [hqf, hf]), hq]
    refine ⟨⟨os.map .use ++ l, ?_⟩, ?_⟩
    · rw [touch, hl]
      rfl
    · intro o
      exact (status_uses _ _ _).trans (hst o)

theorem stocked_launched (nworkers : ℕ) : Stocked nworkers (launched nworkers) := by
  have hs : (launched nworkers).service =
      serving nworkers ((acquired nworkers).map .alloc).reverse := by
    rw [launched, httpServiceInit_serving]
  have hl : (launched nworkers).service.ledger =
      ((acquired nworkers).map Entry.alloc).reverse ++ [] := by
    rw [hs, List.append_nil]
    rfl
  refine ⟨?_, ?_⟩
  · rw [hl]
    exact sound_allocs sound_nil (acquired_nodup nworkers) fun _ _ => rfl
  · rw [if_neg (by simp [launched])]
    refine ⟨⟨_, hs⟩, ?_⟩
    intro o
    rw [hl, status_allocs]
    rfl

theorem stocked_release (h : Stocked nworkers p) (hf : p.finished = false)
    (hq : q.service = httpServiceFini p.service) (hqf : q.finished = true) :
    Stocked nworkers q := by
  obtain ⟨hsound, hst⟩ := h
  rw [if_neg (by simp [hf])] at hst
  obtain ⟨⟨l, hl⟩, hst⟩ := hst
  have hledger : q.service.ledger =
      ((released nworkers).map .free).reverse ++ p.service.ledger := by
    rw [hq, hl]
    exact (httpServiceFini_serving nworkers l).1
  have hrel : ∀ o, o ∈ released nworkers → status p.service.ledger o = .live := by
    intro o ho
    rw [hst, if_pos ((mem_acquired nworkers o).mpr (.inl ho))]
  refine ⟨?_, ?_⟩
  · rw [hledger]
    exact sound_frees hsound (released_nodup nworkers) hrel
  · rw [if_pos hqf, hledger]
    intro o
    rw [status_frees, hst]
    simp only [mem_acquired]
    by_cases ho : o ∈ released nworkers
    · rw [if_pos ho, if_pos ho]
    · rw [if_neg ho, if_neg ho]
      simp [ho]

theorem stocked_fini (h : Stocked nworkers p) (hf : p.finished = false) :
    Stocked nworkers (serviceFini p) := by
  have hwalk : Stocked nworkers (touch [.sessions] p) :=
    stocked_touch h hf (by simp [acquired]) rfl rfl
  exact stocked_release hwalk hf rfl rfl

theorem effect_fields (p : Process) (e : Event) : (next p e).service = (effect p e).service ∧
    (next p e).ledger = (effect p e).ledger ∧ (next p e).finished = (effect p e).finished ∧
    (next p e).begun = (effect p e).begun ∧ (next p e).key = (effect p e).key ∧
    (next p e).socket = (effect p e).socket := by
  rw [next]
  split <;> exact ⟨rfl, rfl, rfl, rfl, rfl, rfl⟩

theorem touch_append (os os' : List Obj) (p : Process) :
    (touch (os ++ os') p).service = (touch os (touch os' p)).service := by
  simp [touch]

theorem listenerStart_service (c : ListenChoices) (i : ℕ) (p : Process) : ∃ os,
    (listenerStart c i p).2.service = (touch os p).service ∧
      (p.key i = some i → os ⊆ own i) := by
  have hshort : p.key i = some i → [Obj.listener i, .worker i] ⊆ own i := fun _ => by simp [own]
  rw [listenerStart, tcpSocketListen]
  cases c.family
  · exact ⟨_, rfl, hshort⟩
  cases c.socket
  · exact ⟨_, rfl, hshort⟩
  cases c.setsockopt
  · exact ⟨_, rfl, hshort⟩
  cases c.bind
  · exact ⟨_, rfl, hshort⟩
  refine ⟨reached .workerEbase i p ++ [.listener i, .worker i], ?_, fun hk => ?_⟩
  · rw [touch_append]
    cases c.evconnlistenerNew <;> rfl
  · exact List.append_subset.mpr ⟨(reached_own hk).1, hshort hk⟩

theorem workerLoop_service (c : ListenChoices) (i : ℕ) (p : Process) : ∃ os,
    (workerLoop c i p).service = (touch os p).service ∧ (p.key i = some i → os ⊆ own i) := by
  obtain ⟨os, hos, hown⟩ := listenerStart_service c i p
  refine ⟨(if (listenerStart c i p).1 then [.workerEbase i, .worker i] else [.mainThreadId]) ++ os,
    ?_, fun hk => List.append_subset.mpr ⟨?_, hown hk⟩⟩
  · rw [touch_append, workerLoop, touch, touch, hos]
  · split <;> simp [own]

/-- The end of `http_service_fini` comes after its beginning and finds no thread. -/
def Over (p : Process) : Prop :=
  p.finished = true → (p.threads.phase = .freeing ∨ p.threads.phase = .killed) ∧
    ∀ i, p.threads.thread i ≠ .entered

theorem not_finished_of_step (ht : Threaded p.threads) (ho : Over p) (he : enabled p e = true)
    (hs : ∀ signal, e ≠ .main (.signal signal)) : p.finished = false := by
  by_contra hno
  have hf : p.finished = true := by simpa using hno
  rcases (ho hf).1 with hph | hph
  · rcases enabled_freeing ht hph he with ⟨signal, he⟩ | ⟨-, hnot⟩
    · exact hs signal he
    · exact absurd (hnot.symm.trans hf) (by decide)
  · exact absurd ((not_enabled_killed (e := e) hph).symm.trans he) (by decide)

theorem next_stocked (h : Stocked nworkers p) (ht : Threaded p.threads)
    (hn : p.threads.nworkers = nworkers) (ho : Over p)
    (hkey : ∀ i, p.begun i = true ∨ p.threads.thread i = .looping → p.key i = some i)
    (he : enabled p e = true) : Stocked nworkers (next p e) := by
  subst hn
  obtain ⟨hservice, -, hfinished, -⟩ := effect_fields p e
  have hwithin : ∀ i, p.threads.thread i ≠ .unstarted → i < p.threads.nworkers := ht.orderly.within
  cases e with
  | main f =>
    cases f with
    | signal signal =>
      have hsame : touch (mainObjects p.threads (.signal signal)) p = p := rfl
      rw [effect, hsame] at hservice hfinished
      rw [Stocked, hservice, hfinished]
      exact h
    | workerStart ok => cases he
    | prologue i ok => cases he
    | workerReturn i => cases he
    | loopexit =>
      have hf := not_finished_of_step ht ho he fun _ => by simp
      refine stocked_touch h hf ?_ hservice hfinished
      simp only [enabled, isMain, WorkerThreads.enabled, Bool.true_and] at he
      split at he
      · next i hph =>
        simp only [Bool.and_eq_true, decide_eq_true_eq] at he
        simp only [mainObjects, hph]
        exact List.Subset.trans (by simp [own]) (own_acquired he.1)
      · cases he
    | join =>
      have hf := not_finished_of_step ht ho he fun _ => by simp
      refine stocked_touch h hf ?_ hservice hfinished
      simp only [enabled, isMain, WorkerThreads.enabled, Bool.true_and] at he
      split at he
      · next i hph =>
        simp only [Bool.and_eq_true, decide_eq_true_eq] at he
        simp only [mainObjects, hph]
        exact List.Subset.trans (by simp [own]) (own_acquired he.1.1)
      · cases he
    | eventDel signal =>
      have hf := not_finished_of_step ht ho he fun _ => by simp
      refine stocked_touch h hf ?_ hservice hfinished
      cases signal <;> simp [mainObjects, acquired]
    | callback signal =>
      have hf := not_finished_of_step ht ho he fun _ => by simp
      refine stocked_touch h hf ?_ hservice hfinished
      cases signal <;> simp [mainObjects, acquired]
    | dispatch | dispatchReturn =>
      have hf := not_finished_of_step ht ho he fun _ => by simp
      refine stocked_touch h hf ?_ hservice hfinished
      simp [mainObjects, acquired]
  | threadStart calloc pthreadCreate =>
    have hf := not_finished_of_step ht ho he fun _ => by simp
    simp only [enabled, WorkerThreads.enabled] at he
    split at he
    · next i hph =>
      have hown := own_acquired (of_decide_eq_true he)
      have heffect : (effect p (.threadStart calloc pthreadCreate)).service =
          (touch [.workerThread i, .worker i, .workers] p).service ∧
          (effect p (.threadStart calloc pthreadCreate)).finished = p.finished := by
        rw [effect, hph]
        cases calloc <;> cases pthreadCreate <;> exact ⟨rfl, rfl⟩
      exact stocked_touch h hf (List.Subset.trans (by simp [own]) hown)
        (hservice.trans heffect.1) (hfinished.trans heffect.2)
    · cases he
  | threadRoutine i setspecific =>
    have hf := not_finished_of_step ht ho he fun _ => by simp
    simp only [enabled, Bool.and_eq_true, decide_eq_true_eq] at he
    have hown := own_acquired (hwithin i (by simp [he.1.2]))
    have hos : [.threadKey, .workerThread i] ⊆ own i := by simp [own]
    exact stocked_touch h hf (List.Subset.trans hos hown) hservice hfinished
  | prologue i c =>
    have hf := not_finished_of_step ht ho he fun _ => by simp
    simp only [enabled, WorkerThreads.enabled, Bool.and_eq_true, decide_eq_true_eq] at he
    have hown := own_acquired (hwithin i (by simp [he.1.2]))
    obtain ⟨os, hos, hmem⟩ := workerLoop_service c i p
    have hfin : (workerLoop c i p).finished = p.finished := by
      rw [workerLoop, listenerStart, tcpSocketListen]
      cases c.family <;> cases c.socket <;> cases c.setsockopt <;> cases c.bind <;>
        cases c.evconnlistenerNew <;> rfl
    exact stocked_touch h hf (List.Subset.trans (hmem (hkey i (.inl he.2))) hown)
      (hservice.trans hos) (hfinished.trans hfin)
  | accept i =>
    have hf := not_finished_of_step ht ho he fun _ => by simp
    simp only [enabled, Bool.and_eq_true, decide_eq_true_eq] at he
    have hown := own_acquired (hwithin i (by simp [he.2]))
    have hos : [.sessions, .sessionMutex] ++ reached .workerEbase i p ++
        [.listener i, .workerEbase i] ⊆ own i := by
      have hreached := (reached_own (hkey i (.inr he.2))).1
      exact List.append_subset.mpr
        ⟨List.append_subset.mpr ⟨by simp [own], hreached⟩, by simp [own]⟩
    exact stocked_touch h hf (List.Subset.trans hos hown) hservice hfinished
  | session i work =>
    have hf := not_finished_of_step ht ho he fun _ => by simp
    simp only [enabled, Bool.and_eq_true, decide_eq_true_eq] at he
    have hown := own_acquired (hwithin i (by simp [he.2]))
    obtain ⟨hbase, hdns⟩ := reached_own (hkey i (.inr he.2))
    cases work with
    | connect => exact stocked_touch h hf (List.Subset.trans hbase hown) hservice hfinished
    | resolve => exact stocked_touch h hf (List.Subset.trans hdns hown) hservice hfinished
    | remove =>
      have hos : [.sessions, .sessionMutex] ⊆ own i := by simp [own]
      exact stocked_touch h hf (List.Subset.trans hos hown) hservice hfinished
  | workerReturn i =>
    have hf := not_finished_of_step ht ho he fun _ => by simp
    simp only [enabled, WorkerThreads.enabled, Bool.and_eq_true, decide_eq_true_eq] at he
    have hown := own_acquired (hwithin i (by simp [he.1.2]))
    have hos : [.workerEbase i, .worker i] ⊆ own i := by simp [own]
    exact stocked_touch h hf (List.Subset.trans hos hown) hservice hfinished
  | fini =>
    simp only [enabled, Bool.and_eq_true, Bool.not_eq_true'] at he
    exact stocked_fini h he.2

end Tigera.ServiceProcess
