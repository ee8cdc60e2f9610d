import TigeraWebservice.SessionTurns
import TigeraWebservice.UpstreamSlots

/-!
# The accounting of the upstreams

As long as a session with one request is there, each upstream is in one phase,
which its lookup, its connection and its reply tell, and the counters, slots,
flags and strings of the session agree with the phases of both.
-/

set_option autoImplicit false

namespace Tigera.UpstreamAccounting
open ResourceLedger TransitionRuns Tigera.JokeCreate Tigera.SessionWorld Tigera.SocketChannel
open Tigera.SessionProgram Tigera.SessionSystem Tigera.HeldConnections Tigera.SessionMemory
open Tigera.SessionInvariant Tigera.ReplyCallbacks Tigera.SessionRuns Tigera.OneResponse
open Tigera.SessionTurns Tigera.PlainMessages

variable {P : Type} {lib : Libs P} {w : World P} {f f' : Front} {idx : Slot}

inductive Phase where
  | resolving
  | connecting
  | awaiting
  | replied
  deriving DecidableEq, Repr

def connection (f : Front) (idx : Slot) (connecting : Bool) : Bool :=
  (f.session.httpSessions idx).any fun n => f.connecting n == connecting

def noted (f : Front) (idx : Slot) : Phase → Bool
  | .resolving => f.pending idx
  | .connecting => connection f idx true
  | .awaiting => connection f idx false
  | .replied => hasReplied idx f.session

def number (phase : Slot → Phase) (p : Phase) : ℕ := [Slot.name, .joke].countP fun i => phase i = p

structure Booked (f : Front) (phase : Slot → Phase) : Prop where
  noted : ∀ idx, idx ≠ .client → ∀ p, noted f idx p = true ↔ p = phase idx
  resolutions : f.session.pendingResolutions = number phase .resolving
  connections : f.session.pendingConnections = number phase .connecting
  replies : f.session.pendingReplies = number phase .awaiting
  distinct : ∀ i j n, f.session.httpSessions i = some n → f.session.httpSessions j = some n → i = j

structure Untried (f : Front) : Prop where
  session : f.session = started
  pending : f.pending = fun _ => false
  calls : f.calls = []

theorem number_update (phase : Slot → Phase) (hidx : idx ≠ .client) (p q : Phase) :
    (number (Function.update phase idx q) p : ℤ) =
      number phase p - (if phase idx = p then 1 else 0) + if q = p then 1 else 0 := by
  cases idx with
  | client => exact absurd rfl hidx
  | name =>
    by_cases h1 : phase .name = p <;> by_cases h2 : phase .joke = p <;> by_cases h3 : q = p <;>
      simp [number, Function.update, h1, h2, h3]
  | joke =>
    by_cases h1 : phase .name = p <;> by_cases h2 : phase .joke = p <;> by_cases h3 : q = p <;>
      simp [number, Function.update, h1, h2, h3]

def indicator (b : Prop) [Decidable b] : ℤ := if b then 1 else 0

theorem booked_moves {phase : Slot → Phase} {q : Phase} (h : Booked f phase)
    (hidx : idx ≠ .client)
    (hsame : ∀ j, j ≠ .client → j ≠ idx → ∀ p, noted f' j p = noted f j p)
    (hnew : ∀ p, noted f' idx p = true ↔ p = q)
    (h1 : f'.session.pendingResolutions = f.session.pendingResolutions -
      indicator (phase idx = .resolving) + indicator (q = .resolving))
    (h2 : f'.session.pendingConnections = f.session.pendingConnections -
      indicator (phase idx = .connecting) + indicator (q = .connecting))
    (h3 : f'.session.pendingReplies = f.session.pendingReplies -
      indicator (phase idx = .awaiting) + indicator (q = .awaiting))
    (hd : ∀ i j n, f'.session.httpSessions i = some n → f'.session.httpSessions j = some n → i = j) :
    Booked f' (Function.update phase idx q) := by
  constructor
  · intro j hj p
    by_cases hji : j = idx
    · subst hji
      rw [Function.update_self]
      exact hnew p
    · rw [Function.update_of_ne hji, hsame j hj hji]
      exact h.noted j hj p
  · rw [number_update phase hidx, h1, h.resolutions]
    rfl
  · rw [number_update phase hidx, h2, h.connections]
    rfl
  · rw [number_update phase hidx, h3, h.replies]
    rfl
  · exact hd

theorem noted_congr (hs : f'.session.httpSessions idx = f.session.httpSessions idx)
    (hp : f'.pending idx = f.pending idx)
    (hc : ∀ n, f.session.httpSessions idx = some n → f'.connecting n = f.connecting n)
    (hr : hasReplied idx f'.session = hasReplied idx f.session) (p : Phase) :
    noted f' idx p = noted f idx p := by
  have hconn : ∀ b, connection f' idx b = connection f idx b := by
    intro b
    rw [connection, connection, hs]
    cases hi : f.session.httpSessions idx with
    | none => rfl
    | some n => simp [hc n hi]
  cases p with
  | resolving => exact hp
  | connecting => exact hconn true
  | awaiting => exact hconn false
  | replied => exact hr

theorem booked_same {phase : Slot → Phase} (h : Booked f phase) (hs : f'.session = f.session)
    (hp : f'.pending = f.pending)
    (hc : ∀ idx n, idx ≠ .client → f.session.httpSessions idx = some n →
      f'.connecting n = f.connecting n) : Booked f' phase := by
  constructor
  · intro idx hidx p
    rw [noted_congr (by rw [hs]) (by rw [hp]) (fun n hn => hc idx n hidx hn) (by rw [hs])]
    exact h.noted idx hidx p
  · rw [hs]; exact h.resolutions
  · rw [hs]; exact h.connections
  · rw [hs]; exact h.replies
  · rw [hs]; exact h.distinct

theorem setSlot_distinct {s : Session} {n : ℕ}
    (hd : ∀ i j n, s.httpSessions i = some n → s.httpSessions j = some n → i = j)
    (hn : ∀ i, s.httpSessions i ≠ some n) (i j : Slot) (m : ℕ)
    (hi : (setSlot idx (some n) s).httpSessions i = some m)
    (hj : (setSlot idx (some n) s).httpSessions j = some m) : i = j := by
  simp only [setSlot, Function.update_apply] at hi hj
  split at hi <;> split at hj
  · next h1 h2 => rw [h1, h2]
  · rw [← hi] at hj
    exact absurd hj (hn j)
  · rw [← hj] at hi
    exact absurd hi (hn i)
  · exact hd i j m hi hj

theorem clearSlot_distinct {s : Session}
    (hd : ∀ i j n, s.httpSessions i = some n → s.httpSessions j = some n → i = j) (i j : Slot) (m : ℕ)
    (hi : (setSlot idx none s).httpSessions i = some m)
    (hj : (setSlot idx none s).httpSessions j = some m) : i = j := by
  simp only [setSlot, Function.update_apply] at hi hj
  split at hi
  · cases hi
  · split at hj
    · cases hj
    · exact hd i j m hi hj

theorem hasReplied_of_fields {s t : Session} (hn : t.nameReplied = s.nameReplied)
    (hj : t.jokeReplied = s.jokeReplied) (idx : Slot) : hasReplied idx t = hasReplied idx s := by
  rw [hasReplied, hasReplied, hn, hj]

theorem phase_of_noted {phase : Slot → Phase} (h : Booked f phase) (hidx : idx ≠ .client)
    {p : Phase} (hp : noted f idx p = true) : phase idx = p :=
  ((h.noted idx hidx p).mp hp).symm

theorem not_noted {phase : Slot → Phase} (h : Booked f phase) (hidx : idx ≠ .client) {p : Phase}
    (hp : phase idx ≠ p) : noted f idx p = false := by
  by_contra hno
  exact hp (phase_of_noted h hidx (by simpa using hno))

theorem noted_of_connection {n : ℕ} (hi : f.session.httpSessions idx = some n) (b : Bool) :
    connection f idx b = (f.connecting n == b) := by
  rw [connection, hi]
  rfl

theorem booked_settled {phase : Slot → Phase} {n : ℕ} {body : Bytes} {s t : Session}
    (h : Booked f phase) (hidx : idx ≠ .client) (held : f.session.httpSessions idx = some n)
    (connected : f.connecting n = false)
    (stored : Stored lib body
      { f.session with pendingReplies := f.session.pendingReplies - 1 } idx s)
    (hf : f' = { f with session := t, calls := f'.calls, output := f'.output })
    (hslots : t.httpSessions = (settled idx s).httpSessions)
    (hn : t.nameReplied = (settled idx s).nameReplied)
    (hj : t.jokeReplied = (settled idx s).jokeReplied)
    (h1 : t.pendingResolutions = (settled idx s).pendingResolutions)
    (h2 : t.pendingConnections = (settled idx s).pendingConnections)
    (h3 : t.pendingReplies = (settled idx s).pendingReplies) :
    Booked f' (Function.update phase idx .replied) := by
  have hphase : phase idx = .awaiting := phase_of_noted h hidx (p := .awaiting) (by
    show connection f idx false = true
    rw [noted_of_connection held, connected]
    rfl)
  have hsession : f'.session = t := by rw [hf]
  have hpending : f'.pending = f.pending := by rw [hf]
  have hconnecting : f'.connecting = f.connecting := by rw [hf]
  have hkept : s.httpSessions = f.session.httpSessions ∧
      s.pendingResolutions = f.session.pendingResolutions ∧
      s.pendingConnections = f.session.pendingConnections ∧
      s.pendingReplies = f.session.pendingReplies - 1 := by
    cases stored <;> exact ⟨rfl, rfl, rfl, rfl⟩
  have hsettled : (settled idx s).httpSessions =
      Function.update f.session.httpSessions idx none ∧
      (settled idx s).pendingResolutions = s.pendingResolutions ∧
      (settled idx s).pendingConnections = s.pendingConnections ∧
      (settled idx s).pendingReplies = s.pendingReplies := by
    rw [← hkept.1, settled, setSlot, markReplied]
    split <;> exact ⟨rfl, rfl, rfl, rfl⟩
  have hflag : ∀ j, j ≠ .client →
      hasReplied j t = if j = idx then true else hasReplied j f.session := by
    intro j hjc
    obtain ⟨hf1, hf2, -⟩ := stored_flags stored
    have hsame : hasReplied j s = hasReplied j f.session := hasReplied_of_fields hf1 hf2 j
    rw [hasReplied_of_fields hn hj, ← hsame, ← hasReplied_markReplied j hjc hidx]
    rfl
  have hupdate : f'.session.httpSessions = Function.update f.session.httpSessions idx none := by
    rw [hsession, hslots, hsettled.1]
  apply booked_moves h hidx
  · intro j hjc hji
    apply noted_congr
    · rw [hupdate, Function.update_of_ne hji]
    · rw [hpending]
    · intro m _
      rw [hconnecting]
    · rw [hsession, hflag j hjc, if_neg hji]
  · intro p
    have hno : ∀ b, connection f' idx b = false := by
      intro b
      rw [connection, hupdate, Function.update_self]
      rfl
    cases p with
    | resolving =>
      have hp : f'.pending idx = false := by
        rw [hpending]
        exact not_noted h hidx (p := .resolving) (by rw [hphase]; decide)
      simp [noted, hp]
    | connecting => simp [noted, hno]
    | awaiting => simp [noted, hno]
    | replied =>
      have hr : hasReplied idx f'.session = true := by
        rw [hsession, hflag idx hidx, if_pos rfl]
      simp [noted, hr]
  · rw [hsession, h1, hsettled.2.1, hkept.2.1, hphase]
    simp [indicator]
  · rw [hsession, h2, hsettled.2.2.1, hkept.2.2.1, hphase]
    simp [indicator]
  · rw [hsession, h3, hsettled.2.2.2, hkept.2.2.2, hphase]
    simp [indicator]
  · intro i j m hi hj
    rw [hupdate] at hi hj
    exact clearSlot_distinct h.distinct i j m hi hj

theorem booked_requests (registered : Bool) (me : Option ℕ) (connecting : ℕ → Bool)
    (output : List Chunk) :
    Booked { registered := registered
             session := { started with
               me := me, pendingResolutions := 2, state := .resolvingWebserverDomains }
             pending := fun i => decide (i ≠ .client)
             calls := [.clientMsgComplete]
             connecting := connecting
             output := output } fun _ => .resolving := by
  constructor
  · intro idx hidx p
    cases idx with
    | client => exact absurd rfl hidx
    | name => cases p <;> simp [noted, connection, started, hasReplied]
    | joke => cases p <;> simp [noted, connection, started, hasReplied]
  · rfl
  · rfl
  · rfl
  · intro i j n hi hj
    cases i <;> cases j <;> simp_all [started]

theorem turn_booked {phase : Slot → Phase} {cue : Cue}
    (h : Booked f phase) (ht : Turn lib cue f f') : ∃ phase', Booked f' phase' := by
  cases ht with
  | stays => exact ⟨phase, h⟩
  | drains k flushed => exact ⟨phase, booked_same h rfl rfl fun _ _ _ _ => rfl⟩
  | settles n client =>
    refine ⟨phase, booked_same h rfl rfl ?_⟩
    intro idx m hidx hm
    have hne : m ≠ n := by
      rintro rfl
      exact hidx (h.distinct idx .client m hm client)
    exact Function.update_of_ne hne _ _
  | requests me begins quiet first => exact ⟨_, booked_requests _ me _ _⟩
  | connects idx n upstream pending free fresh =>
    have hphase : phase idx = .resolving := phase_of_noted h upstream (p := .resolving) pending
    refine ⟨_, booked_moves (q := .connecting) h upstream ?_ ?_ ?_ ?_ ?_ ?_⟩
    · intro j hjc hji
      apply noted_congr
      · exact Function.update_of_ne hji _ _
      · exact Function.update_of_ne hji _ _
      · intro m hm
        have hne : m ≠ n := by
          rintro rfl
          exact fresh j hm
        exact Function.update_of_ne hne _ _
      · rfl
    · intro p
      have hreplied : hasReplied idx f.session = false :=
        not_noted h upstream (p := .replied) (by rw [hphase]; decide)
      cases p with
      | resolving => simp [noted]
      | connecting => simp [noted, connection, setSlot]
      | awaiting => simp [noted, connection, setSlot]
      | replied =>
        show hasReplied idx f.session = true ↔ _
        simp [hreplied]
    · rw [hphase]
      simp [indicator]
    · rw [hphase]
      simp [indicator]
    · rw [hphase]
      simp [indicator, setSlot]
    · exact setSlot_distinct h.distinct fresh
  | sends idx n upstream held connecting =>
    have hphase : phase idx = .connecting := phase_of_noted h upstream (p := .connecting) (by
      show connection f idx true = true
      rw [noted_of_connection held, connecting]
      rfl)
    refine ⟨_, booked_moves (q := .awaiting) h upstream ?_ ?_ ?_ ?_ ?_ h.distinct⟩
    · intro j hjc hji
      apply noted_congr
      · rfl
      · rfl
      · intro m hm
        have hne : m ≠ n := by
          rintro rfl
          exact hji (h.distinct j idx m hm held)
        exact Function.update_of_ne hne _ _
      · rfl
    · intro p
      have hpending : f.pending idx = false :=
        not_noted h upstream (p := .resolving) (by rw [hphase]; decide)
      have hreplied : hasReplied idx f.session = false :=
        not_noted h upstream (p := .replied) (by rw [hphase]; decide)
      cases p with
      | resolving => simp [noted, hpending]
      | connecting => simp [noted, connection, held]
      | awaiting => simp [noted, connection, held]
      | replied =>
        show hasReplied idx f.session = true ↔ _
        simp [hreplied]
    · rw [hphase]
      simp [indicator]
    · rw [hphase]
      simp [indicator]
    · rw [hphase]
      simp [indicator]
  | replies idx n body s upstream held connected complete nonempty stored waits =>
    exact ⟨_, booked_settled h upstream held connected stored rfl rfl rfl rfl rfl rfl rfl⟩
  | answers idx n body s name surname joke addr d upstream held connected complete nonempty stored
      due names surnames jokes dated =>
    exact ⟨_, booked_settled h upstream held connected stored rfl rfl rfl rfl rfl rfl rfl⟩

theorem turn_untried {cue : Cue} (h : Untried f)
    (ht : Turn lib cue f f') : Untried f' ∨ ∃ phase, Booked f' phase := by
  have hslot : ∀ idx n, idx ≠ .client → f.session.httpSessions idx ≠ some n := by
    intro idx n hidx hn
    rw [h.session] at hn
    cases idx with
    | client => exact hidx rfl
    | name => cases hn
    | joke => cases hn
  cases ht with
  | stays => exact .inl h
  | drains k flushed => exact .inl ⟨h.session, h.pending, h.calls⟩
  | settles n client => exact .inl ⟨h.session, h.pending, h.calls⟩
  | requests me begins quiet first => exact .inr ⟨_, booked_requests _ me _ _⟩
  | connects idx n upstream pending free fresh =>
    rw [h.pending] at pending
    cases pending
  | sends idx n upstream held connecting => exact absurd held (hslot idx n upstream)
  | replies idx n body s upstream held connected complete nonempty stored waits =>
    exact absurd held (hslot idx n upstream)
  | answers idx n body s name surname joke addr d upstream held connected complete nonempty stored
      due names surnames jokes dated => exact absurd held (hslot idx n upstream)

/-- Where an upstream is, by its lookup, its connection and its reply. -/
def InPhase (w : World P) (idx : Slot) : Phase → Prop
  | .resolving => ∃ l ∈ w.resolving, slotHost idx = some l.host
  | .connecting => ∃ n, status w.conns (.httpSession n) = .live ∧
      (w.bev n).peer.map SockAddr.host = slotHost idx ∧ (w.bev n).connecting = true
  | .awaiting => ∃ n, status w.conns (.httpSession n) = .live ∧
      (w.bev n).peer.map SockAddr.host = slotHost idx ∧ (w.bev n).connecting = false
  | .replied => .reply idx ∈ w.calls

/-- The session agrees with the phases of its upstreams. -/
structure Accounted (w : World P) (phase : Slot → Phase) : Prop where
  phases : ∀ idx, idx ≠ .client → ∀ p, InPhase w idx p ↔ p = phase idx
  resolutions : w.session.pendingResolutions = number phase .resolving
  connections : w.session.pendingConnections = number phase .connecting
  replies : w.session.pendingReplies = number phase .awaiting
  slots : ∀ idx, idx ≠ .client →
    ((w.session.httpSessions idx).isSome = true ↔ phase idx = .connecting ∨ phase idx = .awaiting)
  name : w.session.nameReplied = true ↔ phase .name = .replied
  joke : w.session.jokeReplied = true ↔ phase .joke = .replied
  strings : w.session.state ≠ .clientResponse →
    w.session.name.isSome = w.session.nameReplied ∧
      w.session.surname.isSome = w.session.nameReplied ∧
      w.session.joke.isSome = w.session.jokeReplied

theorem slotHost_injective {i j : Slot} (h : slotHost i = slotHost j) : i = j := by
  cases i <;> cases j <;> first | rfl | cases h

theorem connected_iff (h : Inv lib False .client w) (b : Bool) :
    (∃ n, status w.conns (.httpSession n) = .live ∧
      (w.bev n).peer.map SockAddr.host = slotHost idx ∧ (w.bev n).connecting = b) ↔
      connection (front w) idx b = true := by
  have hc := h.memory.conns
  constructor
  · rintro ⟨n, hlive, hpeer, hb⟩
    obtain ⟨j, hj⟩ : ∃ j, w.session.httpSessions j = some n := by
      by_contra hno
      exact (hc.dead n fun j hj => hno ⟨j, hj⟩).http hlive
    have hj : w.session.httpSessions j = some n := hj
    have hhost : (w.bev n).peer.map SockAddr.host = slotHost j := (hc.held j n hj).peer
    obtain rfl : idx = j := slotHost_injective (hpeer.symm.trans hhost)
    rw [noted_of_connection (f := front w) hj]
    simpa [front] using hb
  · intro hconn
    cases hi : w.session.httpSessions idx with
    | none =>
      have hi : (front w).session.httpSessions idx = none := hi
      rw [connection, hi] at hconn
      cases hconn
    | some n =>
      have hb : (w.bev n).connecting = b := by
        rw [noted_of_connection (f := front w) hi] at hconn
        simpa [front] using hconn
      exact ⟨n, (hc.held idx n hi).http, (hc.held idx n hi).peer, hb⟩

theorem inPhase_iff (h : Inv lib False .client w) (hreg : w.registered = true) (ho : Once w)
    (hidx : idx ≠ .client) (p : Phase) : InPhase w idx p ↔ noted (front w) idx p = true := by
  have hp := h.plan hreg (h.steady (.inl hreg) ho)
  cases p with
  | resolving =>
    show _ ↔ pendings (rest w) idx = true
    rw [pendings, List.any_eq_true]
    constructor
    · rintro ⟨l, hl, hhost⟩
      have hslot : slotHost (slotOf (rest w) l) = some l.host := (hp.lookup l hl).1
      exact ⟨l, hl, by simpa using (slotHost_injective (hhost.trans hslot.symm)).symm⟩
    · rintro ⟨l, hl, hs⟩
      have hs : slotOf (rest w) l = idx := by simpa using hs
      exact ⟨l, hl, hs ▸ (hp.lookup l hl).1⟩
  | connecting => exact connected_iff h true
  | awaiting => exact connected_iff h false
  | replied => exact (h.progress hreg ho).replies idx hidx

theorem accounted_of_booked {phase : Slot → Phase} (h : Inv lib False .client w)
    (hreg : w.registered = true) (ho : Once w) (hb : Booked (front w) phase) :
    Accounted w phase := by
  constructor
  · intro idx hidx p
    rw [inPhase_iff h hreg ho hidx]
    exact hb.noted idx hidx p
  · exact hb.resolutions
  · exact hb.connections
  · exact hb.replies
  · intro idx hidx
    have hc : phase idx = .connecting ↔ connection (front w) idx true = true :=
      eq_comm.trans (hb.noted idx hidx .connecting).symm
    have ha : phase idx = .awaiting ↔ connection (front w) idx false = true :=
      eq_comm.trans (hb.noted idx hidx .awaiting).symm
    rw [hc, ha]
    show (w.session.httpSessions idx).isSome = true ↔
      connection (front w) idx true = true ∨ connection (front w) idx false = true
    rw [connection, connection]
    show _ ↔ (w.session.httpSessions idx).any _ = true ∨ (w.session.httpSessions idx).any _ = true
    cases w.session.httpSessions idx with
    | none => simp
    | some n => cases hn : (front w).connecting n <;> simp [hn]
  · exact (hb.noted .name (by decide) .replied).trans eq_comm
  · exact (hb.noted .joke (by decide) .replied).trans eq_comm
  · intro hs
    rcases (h.progress hreg ho).response with ha | ⟨hu, -⟩
    · exact absurd ha.state hs
    · exact ⟨hu.name, hu.surname, hu.joke⟩

/-- Lookups are answered later, and connections are reported in order. -/
def usual (lib : Libs P) (w : World P) (e : Event) : Bool := answersLater lib w e && inOrder w e

def InBooks (w : World P) : Prop :=
  w.registered = true → Untried (front w) ∨ ∃ phase, Booked (front w) phase

theorem untried_of_inv (h : Inv lib False .client w) (hreg : w.registered = true) (ho : Once w)
    (hc : w.calls = []) : Untried (front w) := by
  have hp := h.plan hreg (h.steady (.inl hreg) ho)
  have hs : (w.http 0).state ≠ .messageComplete := by
    intro hs
    have hm : Call.clientMsgComplete ∈ w.calls := hp.served hs
    rw [hc] at hm
    cases hm
  obtain ⟨hsession, hresolving, -⟩ := hp.quiet hs
  refine ⟨hsession, ?_, hc⟩
  funext i
  show pendings (rest w) i = false
  rw [pendings, hresolving]
  rfl

theorem next_inBooks (e : Event) (hw : Reached lib False w) (ho : Once w) (hk : InBooks w)
    (he : enabled w e = true) (hc : CompletesOnce lib w e) (hin : inOrder w e = true) :
    InBooks (next lib w e) := by
  intro hreg
  rcases turn_of_registered hw ho he hc hin hreg with haccepted | ⟨hold, ht⟩
  · left
    have hcalls : (next lib w e).calls = [] := congrArg World.calls haccepted
    have hinv := next_reached e hw he (orderly_of_completesOnce hc) False.elim
    refine untried_of_inv hinv hreg ?_ hcalls
    rw [Once, hcalls]
    exact Nat.zero_le 1
  · rcases hk hold with hu | ⟨phase, hb⟩
    · exact turn_untried hu ht
    · exact .inr (turn_booked hb ht)

/-- With one request, a session that is there accounts for both upstreams. -/
theorem upstreams_accounted {worker : Bool} {es : List Event}
    (h : Run (system lib) (fun w e => usual lib w e = true) (initial lib worker) es w)
    (hone : w.calls.count .clientMsgComplete = 1) (hreg : w.registered = true) :
    ∃ phase, Accounted w phase := by
  have ho : Once w := Nat.le_of_eq hone
  have husual : ∀ (w : World P) (e : Event), usual lib w e = true →
      answersLater lib w e = true ∧ inOrder w e = true := by
    intro w e hu
    simpa [usual] using hu
  obtain ⟨hr, hk⟩ := run_once_keeps (Q := InBooks) h (fun w e hu => (husual w e hu).1)
    (fun w e hw ho hk he hu hc => next_inBooks e hw ho hk he hc (husual w e hu).2)
    (.inl ⟨worker, rfl⟩) (fun hreg => by cases hreg) ho
  rcases hr with ⟨worker, rfl⟩ | hinv
  · cases hreg
  · rcases hk hreg with hu | ⟨phase, hb⟩
    · have hcalls : w.calls = [] := hu.calls
      rw [hcalls] at hone
      cases hone
    · exact ⟨phase, accounted_of_booked hinv hreg ho hb⟩

theorem upstreams_accounted_exchange :
    ∃ phase, Accounted (exchange.foldl (next libs) (initial libs true)) phase :=
  upstreams_accounted (run_of_admits (initial libs true) exchange (by decide +kernel))
    (by decide +kernel) (by decide +kernel)

end Tigera.UpstreamAccounting
