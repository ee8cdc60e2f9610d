import TigeraWebservice.ServiceProcess

/-!
# The accounts of the process

Each worker's thread frees the argument it was given, and what its socket holds
is closed with the socket, by the thread itself when it cannot listen or at the
end of `http_service_fini`. Over a whole run everything that was acquired is
released once, the mutex of the sessions excepted.
-/

set_option autoImplicit false

namespace Tigera.ProcessAccounts
open ResourceLedger TransitionRuns Tigera.Shutdown Tigera.ServiceSetup Tigera.ServiceLife
open Tigera.ServiceProcess
open Tigera.WorkerThreads hiding Event enabled next system

variable {p q : Process} {e : Event} {i j nworkers : ℕ} {c : ListenChoices}

/-- What worker `i` has acquired, by the state of its thread and its socket. -/
structure Worked (p : Process) (i : ℕ) : Prop where
  argFresh : early p.threads.phase = true → p.threads.thread i = .unstarted →
    status p.ledger (.threadArg i) = .fresh
  arg : status p.ledger (.threadArg i) = .live ↔
    p.threads.thread i = .entered ∧ p.begun i = false
  begun : p.begun i = true → p.threads.thread i ≠ .unstarted ∧ p.key i = some i
  waiting : p.threads.thread i = .unstarted ∨ p.threads.thread i = .entered →
    p.socket i = {} ∧ status p.ledger (.fd i) = .fresh ∧
      status p.ledger (.evconnlistener i) = .fresh
  listening : p.socket i = {} ∨ p.socket i = ⟨some (some i), true⟩
  looping : p.threads.thread i = .looping →
    p.socket i = ⟨some (some i), true⟩ ∧ p.begun i = true
  fd : status p.ledger (.fd i) = .live ↔ (p.socket i).listen = true ∧ p.finished = false
  evconnlistener : status p.ledger (.evconnlistener i) = .live ↔
    (p.socket i).listen = true ∧ p.finished = false

/-- Nothing of worker `i` has changed. -/
structure Alike (p q : Process) (i : ℕ) : Prop where
  early : early q.threads.phase = true → early p.threads.phase = true
  thread : q.threads.thread i = p.threads.thread i
  begun : q.begun i = p.begun i
  key : q.key i = p.key i
  socket : q.socket i = p.socket i
  finished : q.finished = p.finished
  ledger : ∀ r ∈ [Resource.threadArg i, .fd i, .evconnlistener i],
    status q.ledger r = status p.ledger r

theorem worked_alike (h : Worked p i) (ha : Alike p q i) : Worked q i := by
  have harg : status q.ledger (.threadArg i) = status p.ledger (.threadArg i) :=
    ha.ledger _ (by simp)
  have hfd : status q.ledger (.fd i) = status p.ledger (.fd i) := ha.ledger _ (by simp)
  have hev : status q.ledger (.evconnlistener i) = status p.ledger (.evconnlistener i) :=
    ha.ledger _ (by simp)
  constructor
  · intro hearly
    rw [ha.thread, harg]
    exact h.argFresh (ha.early hearly)
  · rw [harg, ha.thread, ha.begun]
    exact h.arg
  · rw [ha.begun, ha.thread, ha.key]
    exact h.begun
  · rw [ha.thread, ha.socket, hfd, hev]
    exact h.waiting
  · rw [ha.socket]
    exact h.listening
  · rw [ha.thread, ha.socket, ha.begun]
    exact h.looping
  · rw [hfd, ha.socket, ha.finished]
    exact h.fd
  · rw [hev, ha.socket, ha.finished]
    exact h.evconnlistener

theorem early_of_next {s : State} {e : WorkerThreads.Event}
    (he : WorkerThreads.enabled s e = true) (hearly : early (WorkerThreads.next s e).phase = true) :
    early s.phase = true := by
  cases e with
  | workerStart ok =>
    simp only [WorkerThreads.enabled] at he
    split at he
    · next i hph => rw [hph]; rfl
    · cases he
  | dispatch =>
    simp only [WorkerThreads.enabled, decide_eq_true_eq] at he
    rw [he]
    rfl
  | callback signal => cases hearly
  | loopexit =>
    rw [WorkerThreads.next] at hearly
    split at hearly <;> exact hearly
  | join =>
    rw [WorkerThreads.next] at hearly
    split at hearly
    · cases hearly
    · exact hearly
  | eventDel signal => cases signal <;> cases hearly
  | dispatchReturn => cases hearly
  | signal signal =>
    rcases (raise_fields signal s).2.2.2 with hsame | hkilled
    · rw [WorkerThreads.next, hsame] at hearly
      exact hearly
    · rw [WorkerThreads.next, hkilled] at hearly
      cases hearly
  | prologue i ok =>
    cases ok with
    | true => exact hearly
    | false =>
      rcases (raise_fields .sigterm (setThread i .ended s)).2.2.2 with hsame | hkilled
      · rw [WorkerThreads.next, hsame] at hearly
        exact hearly
      · rw [WorkerThreads.next, hkilled] at hearly
        cases hearly
  | workerReturn i => exact hearly

theorem main_thread {s : State} {e : WorkerThreads.Event} (hm : isMain e = true) :
    (WorkerThreads.next s e).thread = s.thread := by
  cases e with
  | workerStart ok => cases hm
  | prologue i ok => cases hm
  | workerReturn i => cases hm
  | loopexit =>
    rw [WorkerThreads.next]
    split <;> rfl
  | join =>
    rw [WorkerThreads.next]
    split <;> rfl
  | signal signal => exact (raise_fields signal s).1
  | _ => rfl

/-- What `tcp_socket_listen` has done when it returns. -/
inductive Listened (i : ℕ) (p q : Process) : Bool → Prop where
  | refused (ledger : q.ledger = p.ledger) (socket : q.socket = p.socket) : Listened i p q false
  | closed (ledger : q.ledger = .free (.fd i) :: .alloc (.fd i) :: p.ledger)
      (socket : q.socket = p.socket) : Listened i p q false
  | bound (ledger : q.ledger = .alloc (.evconnlistener i) :: .alloc (.fd i) :: p.ledger)
      (socket : q.socket = Function.update p.socket i ⟨some (thisEventBase i p), true⟩) :
      Listened i p q true

theorem listenerStart_listened (c : ListenChoices) (i : ℕ) (p : Process) :
    Listened i p (listenerStart c i p).2 (listens c) ∧ (listenerStart c i p).2.begun = p.begun ∧
      (listenerStart c i p).2.key = p.key ∧ (listenerStart c i p).2.finished = p.finished := by
  rw [listenerStart, tcpSocketListen, listens]
  cases c.family
  · exact ⟨.refused rfl rfl, rfl, rfl, rfl⟩
  cases c.socket
  · exact ⟨.refused rfl rfl, rfl, rfl, rfl⟩
  cases c.setsockopt
  · exact ⟨.closed rfl rfl, rfl, rfl, rfl⟩
  cases c.bind
  · exact ⟨.closed rfl rfl, rfl, rfl, rfl⟩
  cases c.evconnlistenerNew
  · exact ⟨.closed rfl rfl, rfl, rfl, rfl⟩
  · exact ⟨.bound rfl rfl, rfl, rfl, rfl⟩

theorem listened_congr {v : Process} {ok : Bool} (h : Listened i p q ok)
    (hl : v.ledger = q.ledger) (hs : v.socket = q.socket) : Listened i p v ok := by
  cases h with
  | refused ledger socket => exact .refused (hl.trans ledger) (hs.trans socket)
  | closed ledger socket => exact .closed (hl.trans ledger) (hs.trans socket)
  | bound ledger socket => exact .bound (hl.trans ledger) (hs.trans socket)

theorem workerLoop_listened (c : ListenChoices) (i : ℕ) (p : Process) :
    Listened i p (workerLoop c i p) (listens c) ∧ (workerLoop c i p).begun = p.begun ∧
      (workerLoop c i p).key = p.key ∧ (workerLoop c i p).finished = p.finished := by
  obtain ⟨hl, hb, hk, hf⟩ := listenerStart_listened c i p
  exact ⟨listened_congr hl rfl rfl, hb, hk, hf⟩

theorem unstarted_of_starting {s : State} (h : Orderly s) (hph : s.phase = .starting i) :
    s.thread i = .unstarted := by
  obtain ⟨m, k, ho, hp⟩ := h.inv
  rw [hph] at hp
  by_contra hno
  exact absurd ((ho.started i).mp hno) (by rw [hp.1]; exact Nat.lt_irrefl i)

structure Books (p : Process) : Prop where
  worked : ∀ i, Worked p i
  sound : Sound p.ledger

theorem books_alike (h : Books p) (hl : q.ledger = p.ledger)
    (ha : ∀ i, Alike p q i) : Books q where
  worked i := worked_alike (h.worked i) (ha i)
  sound := by
    rw [hl]
    exact h.sound

theorem books_one (h : Books p) (hi : Worked q i) (hs : Sound q.ledger)
    (ha : ∀ j, j ≠ i → Alike p q j) : Books q where
  worked j := by
    by_cases hj : j = i
    · exact hj ▸ hi
    · exact worked_alike (h.worked j) (ha j hj)
  sound := hs

theorem threadStart_books (h : Books p) (ht : Threaded p.threads)
    (hph : p.threads.phase = .starting i) (calloc pthreadCreate : Bool) :
    Books { threadStart calloc pthreadCreate i p with
      threads := WorkerThreads.workerStart (calloc && pthreadCreate) i p.threads } := by
  have hun := unstarted_of_starting ht.orderly hph
  have hw := h.worked i
  have hfresh : status p.ledger (.threadArg i) = .fresh := hw.argFresh (by rw [hph]; rfl) hun
  have hbegun : p.begun i = false := by
    by_contra hno
    exact (hw.begun (by simpa using hno)).1 hun
  have hempty := (hw.waiting (.inl hun)).1
  have hlate : early (WorkerThreads.workerStart false i p.threads).phase = false := rfl
  cases calloc with
  | false =>
    refine books_alike h rfl fun j => ⟨?_, rfl, rfl, rfl, rfl, rfl, fun _ _ => rfl⟩
    exact fun hearly => absurd (hlate.symm.trans hearly) (by decide)
  | true =>
    cases pthreadCreate with
    | false =>
      refine books_one (i := i) h ?_ ?_ ?_
      · constructor
        · exact fun hearly => absurd (hlate.symm.trans hearly) (by decide)
        · constructor
          · intro hlive
            simp [threadStart, mark, touch] at hlive
          · rintro ⟨hentered, -⟩
            exact absurd (hun.symm.trans hentered) (by decide)
        · exact hw.begun
        · intro hwaiting
          simpa [threadStart, mark, touch] using hw.waiting hwaiting
        · exact hw.listening
        · exact hw.looping
        · simpa [threadStart, mark, touch] using hw.fd
        · simpa [threadStart, mark, touch] using hw.evconnlistener
      · simp [threadStart, mark, touch, hfresh, h.sound]
      · intro j hj
        refine ⟨fun hearly => absurd (hlate.symm.trans hearly) (by decide), rfl, rfl, rfl, rfl, rfl, ?_⟩
        intro r hr
        simp only [List.mem_cons, List.not_mem_nil, or_false] at hr
        rcases hr with rfl | rfl | rfl <;> simp [threadStart, mark, touch, hj]
    | true =>
      have hearly : early p.threads.phase = true := by
        rw [hph]
        rfl
      refine books_one (i := i) h ?_ ?_ ?_
      · constructor
        · intro _ hno
          simp [WorkerThreads.workerStart, setThread] at hno
        · simp [threadStart, mark, touch, WorkerThreads.workerStart, setThread, hbegun]
        · intro hyes
          exact absurd (hbegun.symm.trans hyes) (by decide)
        · intro _
          simpa [threadStart, mark, touch] using hw.waiting (.inl hun)
        · exact hw.listening
        · intro hno
          simp [WorkerThreads.workerStart, setThread] at hno
        · simpa [threadStart, mark, touch] using hw.fd
        · simpa [threadStart, mark, touch] using hw.evconnlistener
      · simp [threadStart, mark, touch, hfresh, h.sound]
      · intro j hj
        refine ⟨fun _ => hearly, ?_, rfl, rfl, rfl, rfl, ?_⟩
        · simp [WorkerThreads.workerStart, setThread, hj]
        · intro r hr
          simp only [List.mem_cons, List.not_mem_nil, or_false] at hr
          rcases hr with rfl | rfl | rfl <;> simp [threadStart, mark, touch, hj]

theorem threadRoutine_books (h : Books p) (hentered : p.threads.thread i = .entered)
    (hbegun : p.begun i = false) : Books (threadRoutine true i p) := by
  have hw := h.worked i
  have hlive : status p.ledger (.threadArg i) = .live := hw.arg.mpr ⟨hentered, hbegun⟩
  refine books_one (i := i) h ?_ ?_ ?_
  · constructor
    · intro _ hno
      exact absurd (hentered.symm.trans hno) (by decide)
    · simp [threadRoutine, mark, touch]
    · intro _
      refine ⟨fun hno => absurd (hentered.symm.trans hno) (by decide), ?_⟩
      simp [threadRoutine]
    · intro hwaiting
      simpa [threadRoutine, mark, touch] using hw.waiting hwaiting
    · exact hw.listening
    · exact fun hno => absurd (hentered.symm.trans hno) (by decide)
    · simpa [threadRoutine, mark, touch] using hw.fd
    · simpa [threadRoutine, mark, touch] using hw.evconnlistener
  · simp [threadRoutine, mark, touch, hlive, h.sound]
  · intro j hj
    refine ⟨id, rfl, ?_, ?_, rfl, rfl, ?_⟩
    · simp [threadRoutine, hj, mark, touch]
    · simp [threadRoutine, hj, mark, touch]
    · intro r hr
      simp only [List.mem_cons, List.not_mem_nil, or_false] at hr
      rcases hr with rfl | rfl | rfl <;> simp [threadRoutine, mark, touch, hj]

structure Moved (i : ℕ) (t : Thread) (p q : Process) : Prop where
  early : early q.threads.phase = true → early p.threads.phase = true
  thread : q.threads.thread = Function.update p.threads.thread i t
  begun : q.begun = p.begun
  key : q.key = p.key
  finished : q.finished = p.finished

theorem moved_alike {t : Thread} (h : Moved i t p q) (hj : j ≠ i)
    (hs : q.socket j = p.socket j) (hl : ∀ r ∈ [Resource.threadArg j, .fd j, .evconnlistener j],
      status q.ledger r = status p.ledger r) : Alike p q j where
  early := h.early
  thread := by rw [h.thread, Function.update_of_ne hj]
  begun := by rw [h.begun]
  key := by rw [h.key]
  socket := hs
  finished := h.finished
  ledger := hl

theorem prologue_books {ok : Bool} (h : Books p) (hentered : p.threads.thread i = .entered)
    (hbegun : p.begun i = true) (hf : p.finished = false)
    (hl : Listened i p q ok) (hm : Moved i (if ok then .looping else .ended) p q) : Books q := by
  have hw := h.worked i
  obtain ⟨hempty, hfd, hev⟩ := hw.waiting (.inr hentered)
  have harg : status p.ledger (.threadArg i) ≠ .live := by
    intro hlive
    exact absurd (hbegun.symm.trans (hw.arg.mp hlive).2) (by decide)
  have hkey : p.key i = some i := (hw.begun hbegun).2
  cases hl with
  | refused ledger socket =>
    have ht : q.threads.thread i = .ended := by
      rw [hm.thread, if_neg (by decide), Function.update_self]
    refine books_one (i := i) h ?_ (ledger ▸ h.sound) fun j hj => ?_
    · constructor
      · simp [ht]
      · rw [ledger, ht]
        simp [harg]
      · intro _
        rw [ht, hm.key]
        exact ⟨by decide, hkey⟩
      · simp [ht]
      · rw [socket]
        exact .inl hempty
      · simp [ht]
      · rw [ledger, socket, hempty, hfd]
        simp
      · rw [ledger, socket, hempty, hev]
        simp
    · exact moved_alike hm hj (by rw [socket]) fun r _ => by rw [ledger]
  | closed ledger socket =>
    have ht : q.threads.thread i = .ended := by
      rw [hm.thread, if_neg (by decide), Function.update_self]
    refine books_one (i := i) h ?_ ?_ fun j hj => ?_
    · constructor
      · simp [ht]
      · rw [ledger, ht]
        simp [harg]
      · intro _
        rw [ht, hm.key]
        exact ⟨by decide, hkey⟩
      · simp [ht]
      · rw [socket]
        exact .inl hempty
      · simp [ht]
      · rw [ledger, socket, hempty]
        simp
      · rw [ledger, socket, hempty]
        simp [hev]
    · rw [ledger]
      simp [hfd, h.sound]
    · refine moved_alike hm hj (by rw [socket]) fun r hr => ?_
      simp only [List.mem_cons, List.not_mem_nil, or_false] at hr
      rw [ledger]
      rcases hr with rfl | rfl | rfl <;> simp [hj]
  | bound ledger socket =>
    have ht : q.threads.thread i = .looping := by
      rw [hm.thread, if_pos rfl, Function.update_self]
    have hsocket : q.socket i = ⟨some (some i), true⟩ := by
      rw [socket, Function.update_self, thisEventBase, hkey]
    refine books_one (i := i) h ?_ ?_ fun j hj => ?_
    · constructor
      · simp [ht]
      · rw [ledger, ht]
        simp [harg]
      · intro _
        rw [ht, hm.key]
        exact ⟨by decide, hkey⟩
      · simp [ht]
      · exact .inr hsocket
      · intro _
        rw [hm.begun]
        exact ⟨hsocket, hbegun⟩
      · rw [ledger, hsocket, hm.finished, hf]
        simp
      · rw [ledger, hsocket, hm.finished, hf]
        simp
    · rw [ledger]
      simp [hfd, hev, h.sound]
    · refine moved_alike hm hj (by rw [socket, Function.update_of_ne hj]) fun r hr => ?_
      simp only [List.mem_cons, List.not_mem_nil, or_false] at hr
      rw [ledger]
      rcases hr with rfl | rfl | rfl <;> simp [hj]

theorem mem_tcpSocketFree {s : Socket} (hs : s = {} ∨ s = ⟨some (some i), true⟩) (r : Resource) :
    r ∈ tcpSocketFree j s ↔ s.listen = true ∧ (r = .evconnlistener j ∨ r = .fd j) := by
  rcases hs with rfl | rfl <;> simp [tcpSocketFree]

theorem within_of_listen (h : Books p) (ht : Threaded p.threads)
    (hl : (p.socket i).listen = true) : i < p.threads.nworkers := by
  apply ht.orderly.within
  intro hun
  rw [((h.worked i).waiting (.inl hun)).1] at hl
  cases hl

def closings (p : Process) : List Resource :=
  (List.range p.threads.nworkers).flatMap fun i => tcpSocketFree i (p.socket i)

theorem mem_closings (h : Books p) (ht : Threaded p.threads) (r : Resource) :
    r ∈ closings p ↔ ∃ i, (p.socket i).listen = true ∧ (r = .evconnlistener i ∨ r = .fd i) := by
  simp only [closings, List.mem_flatMap, List.mem_range]
  constructor
  · rintro ⟨i, -, hr⟩
    exact ⟨i, (mem_tcpSocketFree (h.worked i).listening r).mp hr⟩
  · rintro ⟨i, hl, hr⟩
    exact ⟨i, within_of_listen h ht hl, (mem_tcpSocketFree (h.worked i).listening r).mpr ⟨hl, hr⟩⟩

theorem closings_nodup (h : Books p) : (closings p).Nodup := by
  rw [closings, List.nodup_flatMap]
  constructor
  · intro i _
    rcases (h.worked i).listening with hs | hs <;> simp [hs, tcpSocketFree]
  · apply List.Pairwise.imp _ List.nodup_range
    intro i j hij r hi hj
    have h1 := ((mem_tcpSocketFree (h.worked i).listening r).mp hi).2
    have h2 := ((mem_tcpSocketFree (h.worked j).listening r).mp hj).2
    rcases h1 with rfl | rfl <;> simp [hij] at h2

theorem fini_books (h : Books p) (ht : Threaded p.threads) (hf : p.finished = false) :
    Books (serviceFini p) := by
  have hledger : (serviceFini p).ledger = ((closings p).map .free).reverse ++ p.ledger := rfl
  have hlive : ∀ r ∈ closings p, status p.ledger r = .live := by
    intro r hr
    obtain ⟨i, hl, rfl | rfl⟩ := (mem_closings h ht r).mp hr
    · exact (h.worked i).evconnlistener.mpr ⟨hl, hf⟩
    · exact (h.worked i).fd.mpr ⟨hl, hf⟩
  have harg : ∀ i, status (serviceFini p).ledger (.threadArg i) = status p.ledger (.threadArg i) := by
    intro i
    rw [hledger, status_frees, if_neg]
    rw [mem_closings h ht]
    simp
  have hother : ∀ i, (p.socket i).listen = false →
      status (serviceFini p).ledger (.fd i) = status p.ledger (.fd i) ∧
        status (serviceFini p).ledger (.evconnlistener i) =
          status p.ledger (.evconnlistener i) := by
    intro i hl
    rw [hledger, status_frees, status_frees, if_neg, if_neg]
    · exact ⟨rfl, rfl⟩
    · rw [mem_closings h ht]
      simp [hl]
    · rw [mem_closings h ht]
      simp [hl]
  have hover : ∀ i r, r = .fd i ∨ r = .evconnlistener i →
      status (serviceFini p).ledger r ≠ .live := by
    intro i r hr
    cases hl : (p.socket i).listen with
    | true =>
      rw [hledger, status_frees, if_pos ((mem_closings h ht r).mpr ⟨i, hl, hr.symm⟩)]
      decide
    | false =>
      have hw := h.worked i
      rcases hr with rfl | rfl
      · rw [(hother i hl).1]
        intro hno
        exact absurd (hl.symm.trans (hw.fd.mp hno).1) (by decide)
      · rw [(hother i hl).2]
        intro hno
        exact absurd (hl.symm.trans (hw.evconnlistener.mp hno).1) (by decide)
  have hsound : Sound (serviceFini p).ledger := by
    rw [hledger]
    exact sound_frees h.sound (closings_nodup h) hlive
  refine ⟨fun i => ?_, hsound⟩
  have hw := h.worked i
  constructor
  · rw [harg i]
    exact hw.argFresh
  · rw [harg i]
    exact hw.arg
  · exact hw.begun
  · intro hwaiting
    obtain ⟨hempty, hfd, hev⟩ := hw.waiting hwaiting
    have hl : (p.socket i).listen = false := by
      rw [hempty]
    rw [(hother i hl).1, (hother i hl).2]
    exact ⟨hempty, hfd, hev⟩
  · exact hw.listening
  · exact hw.looping
  · constructor
    · exact fun hno => absurd hno (hover i _ (.inl rfl))
    · exact fun hno => absurd hno.2 (by simp [serviceFini])
  · constructor
    · exact fun hno => absurd hno (hover i _ (.inr rfl))
    · exact fun hno => absurd hno.2 (by simp [serviceFini])

theorem next_books (h : Books p) (ht : Threaded p.threads) (ho : Over p) (he : enabled p e = true)
    (hc : steady p e = true) : Books (next p e) := by
  cases e with
  | main f =>
    have hm : isMain f = true := by
      simp only [enabled, Bool.and_eq_true] at he
      exact he.1
    have he' : WorkerThreads.enabled p.threads f = true := enabled_plain he f rfl
    refine books_alike h rfl fun i => ⟨early_of_next he', ?_, rfl, rfl, rfl, rfl, fun _ _ => rfl⟩
    exact congrFun (main_thread hm) i
  | threadStart calloc pthreadCreate =>
    have he' := he
    simp only [enabled, WorkerThreads.enabled] at he'
    split at he'
    · next i hph =>
      have hnext : next p (.threadStart calloc pthreadCreate) =
          { threadStart calloc pthreadCreate i p with
            threads := WorkerThreads.workerStart (calloc && pthreadCreate) i p.threads } := by
        simp only [next, plain, effect, WorkerThreads.next, hph]
      rw [hnext]
      exact threadStart_books h ht hph calloc pthreadCreate
    · cases he'
  | threadRoutine i setspecific =>
    obtain rfl : setspecific = true := hc
    simp only [enabled, Bool.and_eq_true, decide_eq_true_eq, Bool.not_eq_true'] at he
    exact threadRoutine_books h he.1.2 he.2
  | prologue i c =>
    have hf := not_finished_of_step ht ho he fun _ => by simp
    have he' : WorkerThreads.enabled p.threads (.prologue i (listens c)) = true :=
      enabled_plain he _ rfl
    simp only [enabled, WorkerThreads.enabled, Bool.and_eq_true, decide_eq_true_eq] at he
    obtain ⟨hl, h1, h2, h3⟩ := workerLoop_listened c i p
    have hlistened : Listened i p (next p (.prologue i c)) (listens c) :=
      listened_congr hl rfl rfl
    refine prologue_books h he.1.2 he.2 hf hlistened ⟨early_of_next he', ?_, h1, h2, h3⟩
    show (WorkerThreads.next p.threads (.prologue i (listens c))).thread = _
    cases listens c with
    | true => rfl
    | false => exact (raise_fields .sigterm (setThread i .ended p.threads)).1
  | accept i =>
    have hf := not_finished_of_step ht ho he fun _ => by simp
    simp only [enabled, Bool.and_eq_true, decide_eq_true_eq] at he
    have hlive : status p.ledger (.evconnlistener i) = .live := by
      refine (h.worked i).evconnlistener.mpr ⟨?_, hf⟩
      rw [((h.worked i).looping he.2).1]
    refine ⟨fun j => worked_alike (h.worked j) ⟨id, rfl, rfl, rfl, rfl, rfl, fun _ _ => rfl⟩, ?_⟩
    exact ⟨hlive, h.sound⟩
  | session i work =>
    exact books_alike h rfl fun j => ⟨id, rfl, rfl, rfl, rfl, rfl, fun _ _ => rfl⟩
  | workerReturn i =>
    have hf := not_finished_of_step ht ho he fun _ => by simp
    have he' : WorkerThreads.enabled p.threads (.workerReturn i) = true := he
    simp only [enabled, WorkerThreads.enabled, Bool.and_eq_true, decide_eq_true_eq] at he
    have hw := h.worked i
    have hended : (next p (.workerReturn i)).threads.thread i = .ended := by
      show Function.update p.threads.thread i Thread.ended i = _
      rw [Function.update_self]
    refine books_one (i := i) h ?_ h.sound fun j hj => ?_
    · constructor
      · simp [hended]
      · rw [hended]
        constructor
        · intro hlive
          exact absurd (he.1.2.symm.trans (hw.arg.mp hlive).1) (by decide)
        · rintro ⟨hno, -⟩
          cases hno
      · intro hbegun
        rw [hended]
        exact ⟨by decide, (hw.begun hbegun).2⟩
      · simp [hended]
      · exact hw.listening
      · simp [hended]
      · exact hw.fd
      · exact hw.evconnlistener
    · refine ⟨early_of_next he', ?_, rfl, rfl, rfl, rfl, fun _ _ => rfl⟩
      exact Function.update_of_ne hj _ _
  | fini =>
    simp only [enabled, Bool.and_eq_true, Bool.not_eq_true'] at he
    exact fini_books h ht he.2

structure Inv (nworkers : ℕ) (p : Process) : Prop where
  threaded : Threaded p.threads
  workers : p.threads.nworkers = nworkers
  closed : Over p
  stocked : Stocked nworkers p
  books : Books p

theorem inv_launched (nworkers : ℕ) : Inv nworkers (launched nworkers) where
  threaded := ⟨orderly_initial nworkers, fun hf => by cases hf⟩
  workers := rfl
  closed hf := by cases hf
  stocked := stocked_launched nworkers
  books := by
    refine ⟨fun i => ?_, sound_nil⟩
    constructor
    · exact fun _ _ => rfl
    · simp [launched, WorkerThreads.initial]
    · intro hno
      cases hno
    · exact fun _ => ⟨rfl, rfl, rfl⟩
    · exact .inl rfl
    · intro hno
      cases hno
    · simp [launched]
    · simp [launched]

theorem effect_finished (p : Process) (e : Event) (hf : p.finished = false) (he : e ≠ .fini) :
    (effect p e).finished = false := by
  cases e with
  | threadStart calloc pthreadCreate =>
    rw [effect]
    split
    · cases calloc <;> cases pthreadCreate <;> exact hf
    · exact hf
  | prologue i c => exact (workerLoop_listened c i p).2.2.2.trans hf
  | fini => exact absurd rfl he
  | _ => exact hf

theorem next_over (h : Inv nworkers p) (he : enabled p e = true) : Over (next p e) := by
  intro hf
  by_cases hs : ∃ signal, e = .main (.signal signal)
  · obtain ⟨signal, rfl⟩ := hs
    obtain ⟨hphase, hthreads⟩ := h.closed hf
    have hnext : (next p (.main (.signal signal))).threads = raise signal p.threads := rfl
    obtain ⟨hthread, -, -, hph⟩ := raise_fields signal p.threads
    rw [hnext, hthread]
    refine ⟨?_, hthreads⟩
    rcases hph with hsame | hkilled
    · rw [hsame]
      exact hphase
    · exact .inr hkilled
  · have hnot := not_finished_of_step h.threaded h.closed he fun signal hsignal =>
      hs ⟨signal, hsignal⟩
    by_cases hfini : e = .fini
    · subst hfini
      simp only [enabled, Bool.and_eq_true, decide_eq_true_eq] at he
      refine ⟨.inl he.1, fun i hi => ?_⟩
      have hi : p.threads.thread i = .entered := hi
      have hended := (h.threaded.joined he.1 i (by simp [hi])).1
      exact absurd (hi.symm.trans hended) (by decide)
    · rw [(effect_fields p e).2.2.1, effect_finished p e hnot hfini] at hf
      cases hf

theorem next_inv (h : Inv nworkers p) (he : enabled p e = true) (hc : steady p e = true) :
    Inv nworkers (next p e) where
  threaded := next_threaded h.threaded he hc
  workers := by
    rw [next_threads]
    split
    · rw [next_nworkers]
      exact h.workers
    · exact h.workers
  closed := next_over h he
  stocked := next_stocked h.stocked h.threaded h.workers h.closed
    (fun i hi => ((h.books.worked i).begun (hi.elim id fun hl =>
      ((h.books.worked i).looping hl).2)).2) he
  books := next_books h.books h.threaded h.closed he hc

/-- Nothing is used after its release or released twice; every listener is on
the base of its own worker; and at the end all has been released but the mutex
of the sessions. -/
structure Accounts (p : Process) : Prop where
  sound : Sound p.ledger ∧ Sound p.service.ledger
  bases : ∀ i ebase, (p.socket i).listener = some ebase → ebase = some i
  released : p.finished = true → (∀ r, .alloc r ∈ p.ledger → frees p.ledger r = 1) ∧
    ∀ o, .alloc o ∈ p.service.ledger →
      frees p.service.ledger o = if o = .sessionMutex then 0 else 1

theorem process_accounts {es : List Event} (h : Run system (fun p e => steady p e = true)
    (launched nworkers) es p) : Accounts p := by
  have hi : Inv nworkers p := run_invariant (I := Inv nworkers)
    (fun _ _ hs he hc => next_inv hs he hc) h (inv_launched nworkers)
  refine ⟨⟨hi.books.sound, hi.stocked.1⟩, ?_, ?_⟩
  · intro i ebase hl
    rcases (hi.books.worked i).listening with hs | hs
    · rw [hs] at hl
      cases hl
    · rw [hs] at hl
      exact (Option.some.inj hl).symm
  · intro hf
    constructor
    · intro r hr
      rw [frees_of_made hi.books.sound hr, if_neg]
      cases r with
      | threadArg i => exact fun hl => (hi.closed hf).2 i ((hi.books.worked i).arg.mp hl).1
      | fd i => exact fun hl => absurd (((hi.books.worked i).fd.mp hl).2.symm.trans hf) (by decide)
      | evconnlistener i =>
        exact fun hl => absurd (((hi.books.worked i).evconnlistener.mp hl).2.symm.trans hf) (by decide)
    · intro o ho
      obtain ⟨hsound, hst⟩ := hi.stocked
      rw [if_pos hf] at hst
      have hmade := frees_of_made hsound ho
      have hfresh := status_of_alloc_mem _ hsound o ho
      rw [hst] at hmade hfresh
      by_cases hmutex : o = .sessionMutex
      · subst hmutex
        rw [hmade, if_neg (sessionMutex_kept nworkers)]
        rfl
      · rw [if_neg hmutex, hmade]
        by_cases hrel : o ∈ released nworkers
        · rw [if_pos hrel]
          rfl
        · rw [if_neg hrel, if_neg hmutex] at hfresh
          exact absurd rfl hfresh

def lifetime : List Event :=
  [.threadStart true true, .threadRoutine 0 true, .threadStart true true, .prologue 0 {},
    .main .dispatch, .accept 0, .threadRoutine 1 true, .session 0 .resolve,
    .prologue 1 { bind := false }, .session 0 .connect, .session 0 .remove,
    .main (.callback .sigterm), .main .loopexit, .workerReturn 0, .main .join, .main .loopexit,
    .main .join, .main (.eventDel .sigterm), .main (.eventDel .sigint), .main .dispatchReturn, .fini]

theorem process_accounts_lifetime : Accounts (lifetime.foldl next (launched 2)) :=
  process_accounts (run_of_admits (S := system) (C := fun p e => steady p e = true) (launched 2)
    lifetime (by decide +kernel))

example : (lifetime.foldl next (launched 2)).finished = true := by decide +kernel

end Tigera.ProcessAccounts
