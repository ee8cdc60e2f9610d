import TigeraWebservice.UpstreamLines

/-!
# What the upstreams are sent

`http_request_write` to an upstream, watched at the socket. Over a whole run each
server is sent nothing or the beginning of one request, which is the request of
its own slot and names its own host, and no server is connected to twice. As long
as the session is there, a connection that has been made has its whole request
sent or queued.
-/

set_option autoImplicit false

namespace Tigera.UpstreamBytes
open ResourceLedger TransitionRuns HeaderBlock Tigera.JokeCreate Tigera.SessionWorld
open Tigera.SocketChannel Tigera.SessionProgram Tigera.SessionSystem Tigera.HeldConnections
open Tigera.SessionMemory Tigera.SessionInvariant Tigera.SessionRuns Tigera.OneResponse
open Tigera.SessionTurns Tigera.UpstreamAccounting Tigera.ReplyOrder Tigera.PlainMessages
open Tigera.UpstreamLines

variable {P : Type} {lib : Libs P} {u v w w' : World P} {idx : Slot} {n : ℕ}

/-- The bytes that the socket of connection `n` takes. -/
def takenBy (w : World P) (e : Event) (n : ℕ) : Bytes :=
  match e with
  | .flush m k => if m = n then (outputBytes (w.bev n).output).take k else []
  | _ => []

def note (w : World P) (e : Event) (o : ℕ → Bytes) : ℕ → Bytes := fun n => o n ++ takenBy w e n

/-- The bytes that have been sent over each connection. -/
def sentBytes (lib : Libs P) (w : World P) (es : List Event) : ℕ → Bytes :=
  monitored (system lib) note w es fun _ => []

def wire (o : ℕ → Bytes) (w : World P) (n : ℕ) : Bytes := o n ++ outputBytes (w.bev n).output

def hostOf (w : World P) (n : ℕ) : Option Host := (w.bev n).peer.map SockAddr.host

structure Spoken (o : ℕ → Bytes) (w : World P) : Prop where
  unborn : ∀ n, w.nextConn ≤ n → line w n = {} ∧ o n = []
  silent : ∀ n, n ≠ 0 → (w.bev n).connecting = true → wire o w n = []
  begins : ∀ n, n ≠ 0 → wire o w n = [] ∨
    ∃ idx, idx ≠ .client ∧ hostOf w n = slotHost idx ∧ wire o w n <+: text (requestOf idx)
  whole : w.registered = true → ∀ idx n, idx ≠ .client → w.session.httpSessions idx = some n →
    (w.bev n).connecting = false → wire o w n = text (requestOf idx)
  unique : ∀ n m, n ≠ 0 → m ≠ 0 → hostOf w n ≠ none → hostOf w n = hostOf w m → n = m
  ahead : w.registered = true → ∀ idx, (front w).pending idx = true → ∀ n, n ≠ 0 →
    hostOf w n ≠ slotHost idx
  quiet : w.registered = true → w.calls = [] → ∀ n, n ≠ 0 → hostOf w n = none

variable {o : ℕ → Bytes}

theorem wire_line (h : line w' n = line w n) : wire o w' n = wire o w n := by
  have hout : (w'.bev n).output = (w.bev n).output := congrArg Line.output h
  rw [wire, hout, wire]

theorem hostOf_peer (h : (line w' n).peer = (line w n).peer) : hostOf w' n = hostOf w n :=
  congrArg (Option.map SockAddr.host) h

theorem hostOf_line {l : Line} (h : line w' n = l) : hostOf w' n = l.peer.map SockAddr.host :=
  congrArg (fun l : Line => l.peer.map SockAddr.host) h

theorem slotHost_upstream (hidx : idx ≠ .client) : slotHost idx ≠ none := by
  cases idx <;> first | exact absurd rfl hidx | exact Option.some_ne_none _

theorem pending_upstream (h : Inv lib False .client w) (hreg : w.registered = true) (ho : Once w)
    (hp : (front w).pending idx = true) : idx ≠ .client ∧ w.calls ≠ [] := by
  have hplan := h.plan hreg (h.steady (.inl hreg) ho)
  obtain ⟨l, hl, hs⟩ := List.any_eq_true.mp (show (rest w).resolving.any _ = true from hp)
  have hs : slotOf (rest w) l = idx := of_decide_eq_true hs
  have hhost := (hplan.lookup l hl).1
  rw [hs] at hhost
  refine ⟨?_, ?_⟩
  · rintro rfl
    cases hhost
  · intro hcalls
    by_cases hc : (w.http 0).state = .messageComplete
    · have hmem := hplan.served hc
      rw [show (rest w).calls = [] from hcalls] at hmem
      cases hmem
    · obtain ⟨-, hres, -⟩ := hplan.quiet hc
      rw [hres] at hl
      cases hl

theorem spoken_blank (h : Inv lib False .client w) (hsteady : w.registered = true → Once w)
    (hline : ∀ n, n ≠ 0 → line w n = {}) (hsent : ∀ n, o n = []) : Spoken o w := by
  have hwire : ∀ n, n ≠ 0 → wire o w n = [] := by
    intro n hn
    have hout : (w.bev n).output = [] := congrArg Line.output (hline n hn)
    rw [wire, hsent, hout]
    rfl
  have hhost : ∀ n, n ≠ 0 → hostOf w n = none := by
    intro n hn
    have hpeer : (w.bev n).peer = none := congrArg Line.peer (hline n hn)
    rw [hostOf, hpeer]
    rfl
  have hbegun : 0 < w.nextConn := h.memory.begun
  constructor
  · exact fun n hn => ⟨hline n (by omega), hsent n⟩
  · exact fun n hn _ => hwire n hn
  · exact fun n hn => .inl (hwire n hn)
  · intro hreg idx n hidx hi _
    have hn := upstream_ne_zero h hreg (h.steady (.inl hreg) (hsteady hreg)) hidx hi
    have hpeer : hostOf w n = slotHost idx := (h.memory.conns.held idx n hi).peer
    rw [hhost n hn.symm] at hpeer
    exact absurd hpeer.symm (slotHost_upstream hidx)
  · exact fun n m hn _ hne => absurd (hhost n hn) hne
  · intro hreg idx hp n hn he
    rw [hhost n hn] at he
    exact slotHost_upstream (pending_upstream h hreg (hsteady hreg) hp).1 he.symm
  · exact fun _ _ n hn => hhost n hn

structure Advances (w w' : World P) : Prop where
  becomes : ∀ n, n ≠ 0 → Becomes w w' n
  later : SessionHistory.Later w w'
  pending : w'.registered = true → ∀ idx, (front w').pending idx = true →
    (front w).pending idx = true ∨ w.calls = []

theorem host_becomes (h : Becomes w w' n) : hostOf w' n = hostOf w n ∨
    ∃ idx, n = w.nextConn ∧ (front w).pending idx = true ∧ hostOf w' n = slotHost idx ∧
      (front w').pending idx = false := by
  cases h with
  | same same => exact .inl (hostOf_peer (congrArg Line.peer same))
  | ends gone output peer connecting => exact .inl (hostOf_peer peer)
  | closed closed idle => exact .inl (hostOf_line closed)
  | opened idx peer new born pending host opened answered =>
    exact .inr ⟨idx, new, pending, (hostOf_line opened).trans host, answered⟩
  | asked idx cs upstream held connecting begins asked whole =>
    exact .inl (hostOf_line asked)

theorem unborn_step (h : Advances w w') (hi : Inv lib False .client w) (hs : Spoken o w)
    (hn : w'.nextConn ≤ n) : line w' n = {} ∧ o n = [] := by
  have hbegun := hi.memory.begun
  have hnext := h.later.next
  obtain ⟨hline, hsent⟩ := hs.unborn n (by omega)
  refine ⟨?_, hsent⟩
  cases h.becomes n (by omega) with
  | same same => exact same.trans hline
  | ends gone output peer connecting =>
    rw [hline] at output peer connecting
    have hout : (line w' n).output = [] := output.elim id id
    have hconn : (line w' n).connecting = false := by
      cases hc : (line w' n).connecting with
      | false => rfl
      | true => exact absurd (connecting hc) (by decide)
    rw [show line w' n = ⟨(line w' n).output, (line w' n).connecting, (line w' n).peer⟩ from rfl,
      hout, hconn, peer]
  | closed closed idle =>
    rw [closed, hline]
    rfl
  | opened idx peer new born pending host opened answered => omega
  | asked idx cs upstream held connecting begins asked whole =>
    rw [hline] at connecting
    cases connecting

/-- What is on the wire stays there, or the rest of it is dropped; a new
connection has nothing on it, and a silent one may get its request. -/
theorem wire_becomes (h : Becomes w w' n) (hi : Inv lib False .client w) (hs : Spoken o w)
    (hn : n ≠ 0) : wire o w' n = wire o w n ∨ wire o w' n = [] ∨ wire o w' n = o n ∨
      ∃ idx, idx ≠ .client ∧ hostOf w' n = slotHost idx ∧ wire o w' n <+: text (requestOf idx) := by
  have hempty : (line w' n).output = [] → wire o w' n = o n := by
    intro hout
    have hout : (w'.bev n).output = [] := hout
    rw [wire, hout]
    exact List.append_nil _
  cases h with
  | same same => exact .inl (wire_line same)
  | ends gone output peer connecting =>
    rcases output with hout | hout
    · left
      have hout : (w'.bev n).output = (w.bev n).output := hout
      rw [wire, hout, wire]
    · exact .inr (.inr (.inl (hempty hout)))
  | closed closed idle => exact .inr (.inr (.inl (hempty (congrArg Line.output closed))))
  | opened idx peer new born pending host opened answered =>
    right
    left
    rw [hempty (congrArg Line.output opened)]
    exact (hs.unborn n (Nat.le_of_eq new.symm)).2
  | asked idx cs upstream held connecting begins asked whole =>
    have hsilent := hs.silent n hn connecting
    rw [wire, List.append_eq_nil_iff] at hsilent
    refine .inr (.inr (.inr ⟨idx, upstream, ?_, ?_⟩))
    · rw [hostOf_line asked]
      exact (hi.memory.conns.held idx n held).peer
    · have hout : (w'.bev n).output = (w.bev n).output ++ cs := congrArg Line.output asked
      rw [wire, hsilent.1, hout, outputBytes_append, hsilent.2]
      exact begins

theorem silent_step (h : Becomes w w' n) (hs : Spoken o w) (hn : n ≠ 0)
    (hc : (w'.bev n).connecting = true) : wire o w' n = [] := by
  have hdropped : (w.bev n).connecting = true → (w'.bev n).output = (w.bev n).output ∨
      (w'.bev n).output = [] → wire o w' n = [] := by
    intro hold hout
    have hsilent := hs.silent n hn hold
    rw [wire, List.append_eq_nil_iff] at hsilent
    rcases hout with hout | hout
    · rw [wire, hout, hsilent.1, hsilent.2]
      rfl
    · rw [wire, hout, hsilent.1]
      rfl
  cases h with
  | same same =>
    rw [wire_line same]
    exact hs.silent n hn ((congrArg Line.connecting same).symm.trans hc)
  | ends gone output peer connecting => exact hdropped (connecting hc) output
  | closed closed idle =>
    exact hdropped ((congrArg Line.connecting closed).symm.trans hc)
      (.inr (congrArg Line.output closed))
  | opened idx peer new born pending host opened answered =>
    have hout : (w'.bev n).output = [] := congrArg Line.output opened
    rw [wire, hout, (hs.unborn n (Nat.le_of_eq new.symm)).2]
    rfl
  | asked idx cs upstream held connecting begins asked whole =>
    have hreported : (w'.bev n).connecting = false := congrArg Line.connecting asked
    exact absurd (hreported.symm.trans hc) (by decide)

theorem whole_step (h : Advances w w') (hi : Inv lib False .client w)
    (hi' : Inv lib False .client w') (hs : Spoken o w) (hreg : w'.registered = true)
    (hidx : idx ≠ .client) (hslot : w'.session.httpSessions idx = some n) (hn : n ≠ 0)
    (hc : (w'.bev n).connecting = false) : wire o w' n = text (requestOf idx) := by
  have hold := h.later.registered hreg
  have hslots := h.later.slots idx n hslot
  cases h.becomes n hn with
  | same same =>
    rw [wire_line same]
    rcases hslots with hslot | hnew
    · exact hs.whole hold idx n hidx hslot ((congrArg Line.connecting same).symm.trans hc)
    · have hpeer : hostOf w' n = slotHost idx := (hi'.memory.conns.held idx n hslot).peer
      rw [hostOf_peer (congrArg Line.peer same)] at hpeer
      have hnone : (w.bev n).peer = none := congrArg Line.peer (hs.unborn n hnew).1
      rw [hostOf, hnone] at hpeer
      exact absurd hpeer.symm (slotHost_upstream hidx)
  | ends gone output peer connecting => exact absurd (gone.symm.trans hreg) (by decide)
  | closed closed idle => exact absurd hslot (idle idx)
  | opened idx peer new born pending host opened answered =>
    have hconnecting : (w'.bev n).connecting = true := congrArg Line.connecting opened
    exact absurd (hconnecting.symm.trans hc) (by decide)
  | asked idx' cs upstream held connecting begins asked whole =>
    have hlt := held_lt hi.memory.conns held
    have hslot : w.session.httpSessions idx = some n :=
      hslots.resolve_right (Nat.not_le_of_lt hlt)
    obtain rfl := hi.memory.conns.distinct idx idx' n hslot held
    have hsilent := hs.silent n hn connecting
    rw [wire, List.append_eq_nil_iff] at hsilent
    have hout : (w'.bev n).output = (w.bev n).output ++ cs := congrArg Line.output asked
    rw [wire, hsilent.1, hout, outputBytes_append, hsilent.2]
    exact whole hreg

theorem step_spoken (h : Advances w w') (hi : Inv lib False .client w)
    (hi' : Inv lib False .client w') (hreg : w.registered = true) (ho : Once w) (ho' : Once w')
    (hs : Spoken o w) : Spoken o w' := by
  constructor
  · exact fun n hn => unborn_step h hi hs hn
  · exact fun n hn hc => silent_step (h.becomes n hn) hs hn hc
  · intro n hn
    have hpeer : hostOf w' n = hostOf w n ∨ wire o w n = [] := by
      rcases host_becomes (h.becomes n hn) with hhost | ⟨-, hnew, -⟩
      · exact .inl hhost
      · obtain ⟨hline, hsent⟩ := hs.unborn n (Nat.le_of_eq hnew.symm)
        have hout : (w.bev n).output = [] := congrArg Line.output hline
        right
        rw [wire, hsent, hout]
        rfl
    have hprefix : o n <+: wire o w n := List.prefix_append _ _
    have hold : ∀ x, x <+: wire o w n → x = [] ∨
        ∃ idx, idx ≠ .client ∧ hostOf w' n = slotHost idx ∧ x <+: text (requestOf idx) := by
      intro x hx
      rcases hs.begins n hn with hnil | ⟨idx, hidx, hhost, hbegins⟩
      · rw [hnil] at hx
        exact .inl (List.prefix_nil.mp hx)
      · rcases hpeer with hpeer | hnil
        · exact .inr ⟨idx, hidx, hpeer.trans hhost, hx.trans hbegins⟩
        · rw [hnil] at hx
          exact .inl (List.prefix_nil.mp hx)
    rcases wire_becomes (h.becomes n hn) hi hs hn with hw | hw | hw | hw
    · rw [hw]
      exact hold _ (List.prefix_refl _)
    · exact .inl hw
    · rw [hw]
      exact hold _ hprefix
    · exact .inr hw
  · intro hreg' idx n hidx hslot hc
    have hn := upstream_ne_zero hi' hreg' (hi'.steady (.inl hreg') ho') hidx hslot
    exact whole_step h hi hi' hs hreg' hidx hslot hn.symm hc
  · intro n m hn hm hne he
    rcases host_becomes (h.becomes n hn) with h1 | ⟨i, rfl, hp, h1, -⟩ <;>
      rcases host_becomes (h.becomes m hm) with h2 | ⟨j, rfl, hq, h2, -⟩
    · exact hs.unique n m hn hm (h1 ▸ hne) (h1.symm.trans (he.trans h2))
    · exact absurd (h1.symm.trans (he.trans h2)) (hs.ahead hreg j hq n hn)
    · exact absurd (h2.symm.trans (he.symm.trans h1)) (hs.ahead hreg i hp m hm)
    · rfl
  · intro hreg' idx hp n hn he
    have hup := (pending_upstream hi' hreg' ho' hp).1
    rcases host_becomes (h.becomes n hn) with h1 | ⟨i, -, -, h1, hno⟩
    · rcases h.pending hreg' idx hp with hold | hcalls
      · exact hs.ahead hreg idx hold n hn (h1.symm.trans he)
      · have hnone := hs.quiet hreg hcalls n hn
        exact slotHost_upstream hup (he.symm.trans (h1.trans hnone))
    · obtain rfl := slotHost_injective (he.symm.trans h1)
      exact absurd (hno.symm.trans hp) (by decide)
  · intro hreg' hcalls n hn
    have hold : w.calls = [] := List.suffix_nil.mp (hcalls ▸ h.later.calls)
    rcases host_becomes (h.becomes n hn) with h1 | ⟨i, -, hp, -, -⟩
    · exact h1.trans (hs.quiet hreg hold n hn)
    · exact absurd hold (pending_upstream hi hreg ho hp).2

theorem turn_pending {cue : Cue} {f f' : Front} (h : Turn lib cue f f')
    (hp : f'.pending idx = true) : f.pending idx = true ∨ f.calls = [] := by
  cases h with
  | requests me begins quiet first => exact .inr first
  | connects i n upstream pending free fresh =>
    by_cases hi : idx = i
    · subst hi
      exact .inl pending
    · exact .inl ((Function.update_of_ne hi _ _).symm.trans hp)
  | _ => exact .inl hp

theorem advances_next (e : Event) (h : Inv lib False .client w) (hreg : w.registered = true)
    (ho : Once w) (he : enabled w e = true) (hc : CompletesOnce lib w e)
    (hin : inOrder w e = true) (hblank : line w w.nextConn = {}) (hf : ∀ n k, e ≠ .flush n k) :
    Advances w (next lib w e) where
  becomes _ hn := next_becomes e h hreg ho he hc hin hblank hf hn
  later := CompletedRequests.next_later lib e he h.memory.begun
  pending hreg' idx hp := by
    rcases next_turn e h hreg ho he hc hin with ⟨hno, -⟩ | ht
    · exact absurd (hno.symm.trans hreg') (by decide)
    · exact turn_pending ht hp

theorem spoken_gone (hline : line w' = line w) (hnext : w'.nextConn = w.nextConn)
    (hgone : w'.registered = false) (hs : Spoken o w) : Spoken o w' := by
  have hno : ∀ {p : Prop}, w'.registered = true → p := fun hreg =>
    absurd (hgone.symm.trans hreg) (by decide)
  have hhost : ∀ n, hostOf w' n = hostOf w n := fun n => hostOf_line (congrFun hline n)
  constructor
  · intro n hn
    rw [hline]
    exact hs.unborn n (hnext ▸ hn)
  · intro n hn hc
    rw [wire_line (congrFun hline n)]
    exact hs.silent n hn ((congrArg Line.connecting (congrFun hline n)).symm.trans hc)
  · intro n hn
    rw [wire_line (congrFun hline n), hhost]
    exact hs.begins n hn
  · exact fun hreg => hno hreg
  · intro n m hn hm
    rw [hhost, hhost]
    exact hs.unique n m hn hm
  · exact fun hreg => hno hreg
  · exact fun hreg => hno hreg

theorem flush_spoken (n k : ℕ) (hs : Spoken o w) :
    Spoken (note w (.flush n k) o) (next lib w (.flush n k)) := by
  have hline : line (next lib w (.flush n k)) = Function.update (line w) n
      { line w n with output := drainOutput k (line w n).output } :=
    line_update { w.bev n with output := drainOutput k (w.bev n).output } rfl
  have hother : ∀ m, m ≠ n → line (next lib w (.flush n k)) m = line w m := fun m hm => by
    rw [hline, Function.update_of_ne hm]
  have hself : line (next lib w (.flush n k)) n =
      { line w n with output := drainOutput k (line w n).output } := by
    rw [hline, Function.update_self]
  have hsent : ∀ m, m ≠ n → note w (.flush n k) o m = o m := by
    intro m hm
    simp [note, takenBy, hm.symm]
  have hwire : ∀ m, wire (note w (.flush n k) o) (next lib w (.flush n k)) m = wire o w m := by
    intro m
    by_cases hm : m = n
    · subst hm
      have hout : ((next lib w (.flush m k)).bev m).output = drainOutput k (w.bev m).output :=
        congrArg Line.output hself
      rw [wire, hout, ClientBytes.outputBytes_drain, wire]
      simp [note, takenBy, List.append_assoc]
    · have hout : ((next lib w (.flush n k)).bev m).output = (w.bev m).output :=
        congrArg Line.output (hother m hm)
      rw [wire, hsent m hm, hout, wire]
  have hhost : ∀ m, hostOf (next lib w (.flush n k)) m = hostOf w m := by
    intro m
    by_cases hm : m = n
    · subst hm
      exact hostOf_line hself
    · exact hostOf_line (hother m hm)
  have hconn : ∀ m, ((next lib w (.flush n k)).bev m).connecting = (w.bev m).connecting := by
    intro m
    by_cases hm : m = n
    · subst hm
      exact congrArg Line.connecting hself
    · exact congrArg Line.connecting (hother m hm)
  constructor
  · intro m hm
    obtain ⟨hblank, hnone⟩ := hs.unborn m hm
    by_cases hmn : m = n
    · subst hmn
      have hout : (w.bev m).output = [] := congrArg Line.output hblank
      refine ⟨?_, ?_⟩
      · rw [hself, hblank]
        rfl
      · simp [note, takenBy, hnone, hout, outputBytes]
    · exact ⟨(hother m hmn).trans hblank, (hsent m hmn).trans hnone⟩
  · intro m hm hc
    rw [hwire]
    exact hs.silent m hm ((hconn m).symm.trans hc)
  · intro m hm
    rw [hwire, hhost]
    exact hs.begins m hm
  · intro hreg idx m hidx hi hc
    rw [hwire]
    exact hs.whole hreg idx m hidx hi ((hconn m).symm.trans hc)
  · intro m l hm hl
    rw [hhost, hhost]
    exact hs.unique m l hm hl
  · intro hreg idx hp m hm
    rw [hhost]
    exact hs.ahead hreg idx hp m hm
  · intro hreg hc m hm
    rw [hhost]
    exact hs.quiet hreg hc m hm

theorem note_other (o : ℕ → Bytes) {e : Event} (hf : ∀ n k, e ≠ .flush n k) : note w e o = o := by
  funext n
  cases e with
  | flush n k => exact absurd rfl (hf n k)
  | _ => exact List.append_nil _

theorem blank_emptied (h : Emptied w u) (hw : ∀ n, line w n = {}) (n : ℕ) : line u n = {} := by
  rcases h n with hu | hu
  · exact hu.trans (hw n)
  · rw [hu, hw]
    rfl

theorem line_owning (n : ℕ) : line (owning lib) n = {} := by
  rw [line_update { cbarg := some 0 } (w := initial lib true) rfl]
  by_cases hn : n = 0
  · rw [hn, Function.update_self]
  · rw [Function.update_of_ne hn]
    rfl

theorem line_accept (c : AcceptChoices) (worker : Bool) (n : ℕ) :
    line (tcpSocketAcceptCb lib c (initial lib worker)) n = {} := by
  have harrived : ∀ worker n, line (arrived lib worker) n = {} := by
    intro worker n
    have hline := line_update {} (v := arrived lib worker) (w := initial lib worker) (n := 0) rfl
    rw [hline]
    by_cases hn : n = 0
    · rw [hn, Function.update_self]
    · rw [Function.update_of_ne hn]
      rfl
  cases hearly : c.family && c.getsockname && c.getBase && c.buffereventSocketNew with
  | false =>
    rw [tcpSocketAcceptCb_early c worker hearly]
    rfl
  | true =>
    rw [tcpSocketAcceptCb_late c worker hearly, httpServiceAcceptCb]
    cases worker with
    | false => exact harrived false n
    | true =>
      cases hnew : c.tcpSocketNew with
      | false =>
        simp only [tcpSocketAccept, hnew]
        exact harrived true n
      | true =>
        rw [tcpSocketAccept_owning c hnew]
        cases henable : c.buffereventEnable with
        | false =>
          have hfree := blank_emptied (emptied_buffereventFree 0 (owning lib)) line_owning
          exact blank_emptied (emptied_tcpSocketFree 0 (onChan 0 (fun s => { s with bev := none })
            (buffereventFree 0 (owning lib)))) hfree n
        | true =>
          simp only [if_true]
          cases h1 : c.sessionNew with
          | false =>
            simp only [sessionNew, h1]
            exact blank_emptied (emptied_tcpSocketFree 0 (owning lib)) line_owning n
          | true =>
            cases h2 : c.httpSessionNew with
            | false =>
              simp only [sessionNew, h1, h2, httpSessionNew]
              have hfree := blank_emptied (emptied_sessionFree
                { owning lib with life := [.alloc ()], session := {} }) line_owning
              exact blank_emptied (emptied_tcpSocketFree 0 _) hfree n
            | true =>
              rw [sessionNew_opened c h1 h2]
              cases c.nodeNew <;> exact line_owning n

structure Overheard (lib : Libs P) (o : ℕ → Bytes) (w : World P) : Prop where
  reached : Reached lib False w
  once : Once w
  spoken : w.nextConn ≠ 0 → Spoken o w
  fresh : w.nextConn = 0 → ∀ n, o n = []

/-- Lookups are answered later, the request is completed once, and a connection
is reported once, while being made, with nothing read from it before. -/
def Ordered (lib : Libs P) (w : World P) (e : Event) : Prop :=
  CompletesOnce lib w e ∧ inOrder w e = true

instance (w : World P) (e : Event) : Decidable (Ordered lib w e) :=
  inferInstanceAs (Decidable (_ ∧ _))

theorem next_overheard (e : Event) (h : Overheard lib o w) (he : enabled w e = true)
    (hc : Ordered lib w e) : Overheard lib (note w e o) (next lib w e) := by
  have hinv := next_reached e h.reached he (orderly_of_completesOnce hc.1) False.elim
  have honce := (next_completesOnce ⟨h.reached, h.once⟩ he hc.1).2
  have hbegun : (next lib w e).nextConn ≠ 0 := Nat.ne_of_gt hinv.memory.begun
  refine ⟨.inr hinv, honce, fun _ => ?_, fun hno => absurd hno hbegun⟩
  rcases h.reached with ⟨worker, rfl⟩ | hold
  · obtain ⟨c, rfl⟩ := enabled_initial he
    rw [note_other o fun n k => by rintro ⟨⟩]
    exact spoken_blank hinv (fun _ => honce) (fun n _ => line_accept c worker n) (h.fresh rfl)
  · have hs := h.spoken (Nat.ne_of_gt hold.memory.begun)
    by_cases hf : ∃ n k, e = .flush n k
    · obtain ⟨n, k, rfl⟩ := hf
      exact flush_spoken n k hs
    · have hf : ∀ n k, e ≠ .flush n k := fun n k he => hf ⟨n, k, he⟩
      rw [note_other o hf]
      cases hreg : w.registered with
      | true =>
        exact step_spoken (advances_next e hold hreg h.once he hc.1 hc.2
          (hs.unborn _ (Nat.le_refl _)).1 hf) hold hinv hreg h.once honce hs
      | false =>
        obtain ⟨a, l, k, -, hnext⟩ := next_gone e hold hreg he
        obtain ⟨h1, -, -, h2, -, -, h3⟩ := released_gone a l k w
        rw [hnext]
        exact spoken_gone (line_of_bev h2) h3 (h1.trans hreg) hs

theorem run_overheard {worker : Bool} {es : List Event}
    (h : Run (system lib) (Ordered lib) (initial lib worker) es w) :
    Overheard lib (sentBytes lib (initial lib worker) es) w := by
  refine run_monitored (I := Overheard lib) (fun o u e hu he hc => next_overheard e hu he hc) h ?_
  exact ⟨.inl ⟨worker, rfl⟩, Nat.zero_le 1, fun hno => absurd rfl hno, fun _ _ => rfl⟩

/-- The server on the other side of connection `n` has been sent the beginning of
the request of one slot. It is the server of that slot, the request names it, and
nobody else has connected to it. -/
structure Asked (lib : Libs P) (o : ℕ → Bytes) (w : World P) (n : ℕ) (idx : Slot) (host : Host) :
    Prop where
  slot : slotHost idx = some host
  peer : hostOf w n = some host
  begins : o n <+: text (requestOf idx)
  addressed : Addressed (text (requestOf idx)) host
  only : ∀ m, m ≠ 0 → hostOf w m = some host → m = n

/-- Over a whole run an upstream is sent nothing, or the beginning of its request. -/
theorem upstream_bytes {worker : Bool} {es : List Event}
    (h : Run (system lib) (Ordered lib) (initial lib worker) es w) {n : ℕ} (hn : n ≠ 0)
    (hsent : sentBytes lib (initial lib worker) es n ≠ []) :
    ∃ idx host, Asked lib (sentBytes lib (initial lib worker) es) w n idx host := by
  have ho := run_overheard h
  have hborn : w.nextConn ≠ 0 := fun hno => hsent (ho.fresh hno n)
  have hs := ho.spoken hborn
  have hprefix : sentBytes lib (initial lib worker) es n <+:
      wire (sentBytes lib (initial lib worker) es) w n := List.prefix_append _ _
  rcases hs.begins n hn with hnil | ⟨idx, hidx, hpeer, hbegins⟩
  · rw [hnil] at hprefix
    exact absurd (List.prefix_nil.mp hprefix) hsent
  · obtain ⟨host, hhost⟩ := Option.ne_none_iff_exists'.mp (slotHost_upstream hidx)
    rw [hhost] at hpeer
    refine ⟨idx, host, hhost, hpeer, hprefix.trans hbegins, addressed_requestOf hhost, ?_⟩
    intro m hm hsame
    exact hs.unique m n hm hn (hsame ▸ Option.some_ne_none host) (hsame.trans hpeer.symm)

/-- As long as the session is there, the connection of an upstream that has been
reported has its whole request sent or queued, and one that has not has nothing. -/
theorem request_on_wire {worker : Bool} {es : List Event}
    (h : Run (system lib) (Ordered lib) (initial lib worker) es w) (hreg : w.registered = true)
    (hidx : idx ≠ .client) (hslot : w.session.httpSessions idx = some n) :
    sentBytes lib (initial lib worker) es n ++ outputBytes (w.bev n).output =
      if (w.bev n).connecting then [] else text (requestOf idx) := by
  have ho := run_overheard h
  rcases ho.reached with ⟨worker, rfl⟩ | hinv
  · cases hreg
  have hs := ho.spoken (Nat.ne_of_gt hinv.memory.begun)
  split
  · next hc =>
    have hn := upstream_ne_zero hinv hreg (hinv.steady (.inl hreg) ho.once) hidx hslot
    exact hs.silent n hn.symm hc
  · next hc => exact hs.whole hreg idx n hidx hslot (Bool.eq_false_iff.mpr hc)

def partlyAsked : List Event := exchange.take 7 ++ [.flush 1 20]

def afterAsking : World Core := partlyAsked.foldl (next libs) (initial libs true)

theorem run_partlyAsked :
    Run (system libs) (Ordered libs) (initial libs true) partlyAsked afterAsking :=
  run_of_admits (initial libs true) partlyAsked (by decide +kernel)

theorem upstream_bytes_partlyAsked : ∃ idx host,
    Asked libs (sentBytes libs (initial libs true) partlyAsked) afterAsking 1 idx host :=
  upstream_bytes run_partlyAsked (by decide) (by decide +kernel)

theorem request_on_wire_partlyAsked :
    sentBytes libs (initial libs true) partlyAsked 1 ++ outputBytes (afterAsking.bev 1).output =
      if (afterAsking.bev 1).connecting then [] else text (requestOf .name) :=
  request_on_wire run_partlyAsked (by decide +kernel) (by decide) (by decide +kernel)

end Tigera.UpstreamBytes
