import TigeraWebservice.ClientRequest

/-!
# The callbacks of a channel

Reading, writing and the events of a held connection. What was read is stored,
and the session goes on, is removed, or the callback for a complete message
runs: the client's request or the reply of an upstream.
-/

set_option autoImplicit false

namespace Tigera.ChannelCallbacks
open ResourceLedger Tigera.HttpReading Tigera.MessageReading Tigera.HttpSegmentation
open Tigera.SessionWorld Tigera.SocketChannel Tigera.SessionProgram Tigera.HeldConnections
open Tigera.SessionMemory Tigera.SessionInvariant Tigera.UpstreamCallbacks Tigera.ClientResponse
open Tigera.ReplyCallbacks Tigera.ClientRequest

variable {P : Type} {lib : Libs P} {tidy : Prop} {busy : Slot} {w : World P} {i : Slot} {n : ℕ}

/-- One call of the reading loop on connection `n`. -/
def reads (lib : Libs P) (c : Choices) (n : ℕ) (w : World P) :
    ReadExit × HttpSession P × List UInt8 :=
  httpSessionRead (httpParserExecute lib.httpParser c.read) c.read (w.http n) (w.bev n).input

/-- What reading leaves on connection `n`. -/
def stored (n : ℕ) (s : HttpSession P) (input : List UInt8) (w : World P) : World P :=
  onChannelBev n (fun e => { e with input := input }) (onHttp n (fun _ => s) w)

def finished (lib : Libs P) (c : Choices) (n : ℕ) (w : World P) :
    ReadExit × HttpSession P × List UInt8 → World P
  | (exit, s, input) =>
    match exit with
    | .returned => stored n s input w
    | .messageComplete => callBack lib c n s.cbs.messageComplete (stored n s input w)
    | .failed => httpServiceSessionRemove (stored n s input w)
    | .diverged => crash (stored n s input w)

theorem stored_fields (s : HttpSession P) (input : List UInt8) (hb : (w.chan n).bev = some n) :
    rest (stored n s input w) = rest w ∧
      (stored n s input w).http = Function.update w.http n s ∧
      (stored n s input w).bev =
        Function.update w.bev n { w.bev n with input := input } ∧
      (stored n s input w).nextConn = w.nextConn := by
  have he : stored n s input w = onBev n (fun e => { e with input := input })
      (onChan n id (onHttp n (fun _ => s) w)) := by
    simp [stored, onChannelBev, onChan, onHttp, hb]
  rw [he]
  refine ⟨rfl, rfl, rfl, rfl⟩

theorem memory_stored {s : HttpSession P} (input : List UInt8) (h : Memory tidy w)
    (hi : w.session.httpSessions i = some n) (hs : Framed (w.http n) s) :
    Memory tidy (stored n s input w) := by
  have hb : (w.chan n).bev = some n := (h.conns.held i n hi).bev
  obtain ⟨hr, -, -, hn⟩ := stored_fields s input hb
  refine memory_of_rest h hr ?_ (by rw [hn]; exact h.begun)
  have hc := connsOk_onHttp h.conns hi (fun _ => s) hs.1 hs.2
  exact connsOk_onChannelBev hc hi (fun e => { e with input := input }) rfl rfl

theorem plan_stored {s : HttpSession P} (input : List UInt8) (hm : Memory tidy w)
    (h : Plan lib .client w.http w.bev (rest w)) (hi : w.session.httpSessions i = some n)
    (hread : Readable lib s input) (hbusy : s.state = .messageComplete → i = busy ∧ i ≠ .client)
    (hquiet : i = .client → (w.http 0).state ≠ .messageComplete) :
    Plan lib busy (stored n s input w).http (stored n s input w).bev
      (rest (stored n s input w)) := by
  have hb : (w.chan n).bev = some n := (hm.conns.held i n hi).bev
  obtain ⟨hr, hh, hbev, -⟩ := stored_fields s input hb
  have hslot : ∀ j, w.session.httpSessions j = some n → j = i := fun j hj =>
    hm.conns.distinct j i n hj hi
  have hzero : i = .client → n = 0 := by
    rintro rfl
    exact Option.some.inj (hi.symm.trans h.client)
  rw [hr, hh, hbev]
  constructor
  · exact h.client
  · intro j m hj
    by_cases hm : m = n
    · subst hm
      simpa using hread
    · simpa [hm] using h.readable j m hj
  · intro j m hj hjb hjm
    by_cases hm : m = n
    · subst hm
      rw [Function.update_self]
      intro hs
      exact hjb ((hslot j hjm).trans (hbusy hs).1)
    · rw [Function.update_of_ne hm]
      exact h.reading j m hj hj hjm
  · intro hq
    by_cases hc : i = .client
    · exact h.quiet (hquiet hc)
    · have hn : 0 ≠ n := by
        rintro rfl
        exact hc (hslot .client h.client).symm
      rw [Function.update_of_ne hn] at hq
      exact h.quiet hq
  · intro hs
    by_cases hc : i = .client
    · obtain rfl := hzero hc
      rw [Function.update_self] at hs
      exact absurd hc (hbusy hs).2
    · have hn : 0 ≠ n := by
        rintro rfl
        exact hc (hslot .client h.client).symm
      rw [Function.update_of_ne hn] at hs
      exact h.served hs
  · exact h.lookup
  · exact h.distinct

theorem inv_stored {s : HttpSession P} (input : List UInt8) (h : Inv lib tidy .client w)
    (hi : w.session.httpSessions i = some n) (hs : Framed (w.http n) s)
    (hread : Readable lib s input) (hbusy : s.state = .messageComplete → i = busy ∧ i ≠ .client)
    (hquiet : i = .client → (w.http 0).state ≠ .messageComplete) :
    Inv lib tidy busy (stored n s input w) := by
  have hb : (w.chan n).bev = some n := (h.memory.conns.held i n hi).bev
  obtain ⟨hr, -, -, -⟩ := stored_fields s input hb
  refine inv_of_rest h hr (memory_stored input h.memory hi hs) fun hp => ?_
  have hps := plan_stored input h.memory hp hi hread hbusy hquiet
  rwa [hr] at hps

theorem channelGetInput_held (h : Held tidy (wires w) i n) :
    channelGetInput n w = (w.bev n).input := by
  have hb : (w.chan n).bev = some n := h.bev
  simp only [channelGetInput, hb]

theorem touched_fields (n : ℕ) (w : World P) :
    (touched n w).http = w.http ∧ (touched n w).chan = w.chan ∧ (touched n w).bev = w.bev := by
  refine ⟨?_, ?_, rfl⟩
  · exact Function.update_eq_self n w.http
  · exact Function.update_eq_self n w.chan

/-- The closing test of connection `n`. -/
def closes (n : ℕ) (w : World P) : Bool :=
  closing (w.http n) (w.chan n).eof (channelGetOutputLength n w)

theorem closes_touched (n : ℕ) (w : World P) : closes n (touched n w) = closes n w := by
  obtain ⟨hh, hc, hb⟩ := touched_fields n w
  simp only [closes, channelGetOutputLength, channelGetOutput, hh, hc, hb]

theorem httpSessionChannelShouldClose_eq (c : Choices) (n : ℕ) (w : World P) :
    httpSessionChannelShouldClose lib c n n w =
      if closes n w then
        (true, callBack lib c n (w.http n).cbs.readyToClose (touched n w))
      else (false, touched n w) := by
  obtain ⟨hh, -, -⟩ := touched_fields n w
  rw [← closes_touched, ← hh]
  rfl

theorem httpSessionReadCb_eq (c : Choices) (h : Held tidy (wires w) i n) :
    httpSessionReadCb lib c n n w =
      if closes n w then callBack lib c n (w.http n).cbs.readyToClose (touched n w)
      else finished lib c n (touched n w) (reads lib c n w) := by
  obtain ⟨hh, hc, hb⟩ := touched_fields n w
  have hin : channelGetInput n (touched n w) = (w.bev n).input := by
    have hi := channelGetInput_held h
    simp only [channelGetInput, hc, hb] at hi ⊢
    exact hi
  rw [httpSessionReadCb, httpSessionChannelShouldClose_eq]
  cases closes n w with
  | true => rfl
  | false =>
    simp only [Bool.false_eq_true, if_false, hin, hh]
    rfl

theorem reads_framed (lib : Libs P) (c : Choices) (n : ℕ) (w : World P) :
    Framed (w.http n) (reads lib c n w).2.1 :=
  httpSessionRead_framed lib.httpParser c.read (w.http n) (w.bev n).input

/-- Reading a message that is not complete: it goes on, is completed with a
body, or fails. -/
theorem reads_incomplete (lib : Libs P) (c : Choices) (hread : Readable lib (w.http n) (w.bev n).input)
    (hs : (w.http n).state ≠ .messageComplete) :
    ((reads lib c n w).1 = .returned ∧ (reads lib c n w).2.1.state ≠ .messageComplete ∧
        Readable lib (reads lib c n w).2.1 (reads lib c n w).2.2) ∨
      ((reads lib c n w).1 = .messageComplete ∧
        (reads lib c n w).2.1.state = .messageComplete ∧
        ∃ body, (reads lib c n w).2.1.body = some body) ∨
      (reads lib c n w).1 = .failed := by
  rcases hread with hcomplete | ⟨hh, x, hx⟩
  · exact absurd hcomplete hs
  · have hl := httpSessionRead_spec lib.httpParser c.read (w.http n) (w.bev n).input x hx hh hs
    rw [reads]
    generalize httpSessionRead _ c.read (w.http n) (w.bev n).input = r at hl ⊢
    obtain ⟨exit, s, input⟩ := r
    simp only at hl ⊢
    cases hl with
    | returned tracks len headers complete =>
      exact .inl ⟨rfl, complete, .inr ⟨headers, _, ⟨tracks, Nat.le_of_eq len⟩⟩⟩
    | @complete k _ _ tracks state len =>
      refine .inr (.inl ⟨rfl, state, ?_⟩)
      generalize readStream lib.httpParser x _ = y at tracks
      cases y with
      | going core body fed =>
        have hst := tracks.2.2.2
        simp [Stage, state] at hst
      | complete body fed => exact ⟨body, tracks.2.2⟩
      | rejected fed => exact tracks.elim
    | failed cause => exact .inr (.inr rfl)

theorem reads_complete (lib : Libs P) (c : Choices) (hs : (w.http n).state = .messageComplete) :
    reads lib c n w =
      if (w.bev n).input.length = 0 then (.returned, w.http n, (w.bev n).input)
      else if c.read.drain (2 * (w.bev n).input.length + 5) then
        (.messageComplete, { w.http n with len := 0 }, (w.bev n).input.drop (w.http n).len)
      else (.failed, w.http n, (w.bev n).input) := by
  rw [reads, httpSessionRead]
  by_cases h0 : (w.bev n).input.length = 0
  · rw [if_pos h0, if_pos h0]
  · rw [if_neg h0, if_neg h0, readFuel, readLoop, readTurn]
    simp only [hs]
    split
    · next he =>
      split at he
      · next hd =>
        simp only [hd, if_true]
        cases he
        rfl
      · next hd =>
        simp only [hd]
        cases he
        rfl
    · next he =>
      split at he <;> cases he

def completes (lib : Libs P) (c : Choices) (n : ℕ) (w : World P) : Bool :=
  w.session.httpSessions .client = some n && !closes n w &&
    (reads lib c n w).1 = .messageComplete

def reenters (c : Choices) (n : ℕ) (w : World P) : Bool :=
  w.session.httpSessions .client = some n && (w.http n).state = .messageComplete &&
    !closes n w && !(w.bev n).input.isEmpty && c.read.drain (2 * (w.bev n).input.length + 5)

theorem reenters_iff (lib : Libs P) (c : Choices) (n : ℕ) (w : World P) :
    reenters c n w = true ↔ completes lib c n w = true ∧ (w.http n).state = .messageComplete := by
  by_cases hs : (w.http n).state = .messageComplete
  · have hr := reads_complete lib c hs
    by_cases h0 : (w.bev n).input = []
    · simp [reenters, completes, hr, h0]
    · cases hd : c.read.drain (2 * (w.bev n).input.length + 5) <;>
        simp [reenters, completes, hr, h0, hs, hd]
  · simp [reenters, hs]

theorem inv_touched_stored (h : Inv lib tidy .client w) (hi : w.session.httpSessions i = some n) :
    Inv lib tidy .client (stored n (w.http n) (w.bev n).input (touched n w)) := by
  have ht := inv_touched h hi
  obtain ⟨hh, -, hbev⟩ := touched_fields n w
  have hb : ((touched n w).chan n).bev = some n := (ht.memory.conns.held i n hi).bev
  obtain ⟨hr, hh', hbev', -⟩ := stored_fields (w.http n) (w.bev n).input hb
  refine inv_of_rest ht hr ?_ fun hp => ?_
  · exact memory_stored _ ht.memory hi (by rw [hh]; exact ⟨rfl, rfl⟩)
  · rw [hh', hbev', hh, hbev, Function.update_eq_self]
    rw [hh, hbev] at hp
    have hsame : { w.bev n with input := (w.bev n).input } = w.bev n := rfl
    rw [hsame, Function.update_eq_self]
    exact hp

theorem requesting_stored {s : HttpSession P} (input : List UInt8) (h : Inv lib tidy .client w)
    (hreg : w.registered = true) (hcr : w.crashed = false)
    (hi : w.session.httpSessions .client = some n) (hs : Framed (w.http n) s)
    (hc : s.state = .messageComplete) (hfree : outstanding w = false)
    (hfirst : .clientMsgComplete ∉ w.calls → w.session = started ∧ w.calls = []) :
    n = 0 ∧ Requesting tidy (stored n s input w) := by
  have hb : (w.chan n).bev = some n := (h.memory.conns.held .client n hi).bev
  obtain ⟨hr, hh, -, -⟩ := stored_fields s input hb
  have h0 : w.session.httpSessions .client = some 0 := (h.plan hreg hcr).client
  obtain rfl : n = 0 := Option.some.inj (hi.symm.trans h0)
  have hses : (stored 0 s input w).session = w.session := congrArg Rest.session hr
  have hres : (stored 0 s input w).resolving = w.resolving := congrArg Rest.resolving hr
  have hcalls : (stored 0 s input w).calls = w.calls := congrArg Rest.calls hr
  refine ⟨rfl, ?_⟩
  constructor
  · exact memory_stored input h.memory hi hs
  · exact (congrArg Rest.registered hr).trans hreg
  · exact (congrArg Rest.crashed hr).trans hcr
  · rw [hses]
    exact hi
  · rw [hh, Function.update_self]
    exact hc
  · simp only [outstanding, hses, hres]
    exact hfree
  · rw [hses, hcalls]
    exact hfirst

theorem outstanding_started (hp : w.session = started) (hr : w.resolving = []) :
    outstanding w = false := by
  simp only [outstanding, hp, hr]
  rfl

theorem remove_stored {s : HttpSession P} (input : List UInt8) (h : Inv lib tidy .client w)
    (hreg : w.registered = true) (hi : w.session.httpSessions i = some n)
    (hs : Framed (w.http n) s) :
    Inv lib tidy .client (httpServiceSessionRemove (stored n s input w)) := by
  have hb : (w.chan n).bev = some n := (h.memory.conns.held i n hi).bev
  obtain ⟨hr, -, -, -⟩ := stored_fields s input hb
  have hcalls : (stored n s input w).calls = w.calls := congrArg Rest.calls hr
  refine (inv_remove (memory_stored input h.memory hi hs)
    ((congrArg Rest.registered hr).trans hreg) (fun ho => ?_) fun ho => ?_).1
  · rw [hcalls]
    exact h.tally ((once_of_rest hr).mp ho)
  · exact (congrArg Rest.crashed hr).trans (h.steady (.inl hreg) ((once_of_rest hr).mp ho))

/-- The read callback of a held connection. The request may be completed once
more when nothing is under way. -/
theorem httpSessionReadCb_inv (c : Choices) (h : Inv lib tidy .client w)
    (hreg : w.registered = true) (hcr : w.crashed = false)
    (hi : w.session.httpSessions i = some n)
    (hlater : completes lib c n w = true → answersInside c = false)
    (hre : reenters c n w = true → outstanding w = false) :
    Inv lib tidy .client (httpSessionReadCb lib c n n w) := by
  have hp := h.plan hreg hcr
  have ht := inv_touched h hi
  obtain ⟨hh, -, -⟩ := touched_fields n w
  have hcbs : (w.http n).cbs = slotCallbacks i := (h.memory.conns.held i n hi).cbs
  have hframe := reads_framed lib c n w
  rw [httpSessionReadCb_eq c (h.memory.conns.held i n hi)]
  by_cases hcl : closes n w = true
  · have hclose := (httpSessionChannelShouldClose_inv c h hreg hi).1
    rw [httpSessionChannelShouldClose_eq, if_pos hcl] at hclose
    rw [if_pos hcl]
    exact hclose
  · rw [if_neg hcl]
    by_cases hs : (w.http n).state = .messageComplete
    · have hclient : i = .client := by
        by_contra hno
        exact hp.reading i n hno hno hi hs
      subst hclient
      have hr := reads_complete lib c hs
      by_cases h0 : (w.bev n).input.length = 0
      · rw [if_pos h0] at hr
        rw [hr]
        exact inv_touched_stored h hi
      · rw [if_neg h0] at hr
        cases hd : c.read.drain (2 * (w.bev n).input.length + 5) with
        | false =>
          rw [hd, if_neg (by decide)] at hr
          rw [hr]
          exact remove_stored _ ht hreg hi (by rw [hh]; exact ⟨rfl, rfl⟩)
        | true =>
          rw [hd, if_pos rfl] at hr
          have hcomp : completes lib c n w = true := by
            simp [completes, hi, hcl, hr]
          have hfree : outstanding w = false := hre ((reenters_iff lib c n w).mpr ⟨hcomp, hs⟩)
          have hz : n = 0 := Option.some.inj (hi.symm.trans hp.client)
          have hserved : Call.clientMsgComplete ∈ w.calls := hp.served (hz ▸ hs)
          obtain ⟨rfl, hq⟩ := requesting_stored (s := { w.http n with len := 0 })
            ((w.bev n).input.drop (w.http n).len) ht hreg hcr hi (by rw [hh]; exact ⟨rfl, rfl⟩) hs
            hfree fun hno => absurd hserved hno
          have hcb : (w.http 0).cbs.messageComplete = some .clientMsgComplete := by
            rw [hcbs]
            rfl
          rw [hr]
          simp only [finished]
          rw [hcb]
          exact clientMsgComplete_inv c hq (hlater hcomp)
    · have hquiet : i = .client → (w.http 0).state ≠ .messageComplete := by
        rintro rfl
        obtain rfl : n = 0 := Option.some.inj (hi.symm.trans hp.client)
        exact hs
      have hr := reads_incomplete lib c (hp.readable i n hi) hs
      have hcomp : i = .client → (reads lib c n w).1 = .messageComplete →
          completes lib c n w = true := by
        rintro rfl hexit
        simp [completes, hi, hcl, hexit]
      generalize reads lib c n w = r at hr hframe hcomp
      obtain ⟨exit, s, input⟩ := r
      simp only at hr hframe
      have hframe' : Framed ((touched n w).http n) s := by
        rw [hh]
        exact hframe
      rcases hr with ⟨rfl, hstate, hread⟩ | ⟨rfl, hstate, body, hbody⟩ | rfl
      · refine inv_stored input ht hi hframe' hread (fun hc => absurd hc hstate) ?_
        rw [hh]
        exact hquiet
      · simp only [finished, hframe.2, hcbs]
        by_cases hc : i = .client
        · subst hc
          obtain rfl : n = 0 := Option.some.inj (hi.symm.trans hp.client)
          obtain ⟨h1, h2, h3⟩ := hp.quiet hs
          obtain ⟨-, hq⟩ := requesting_stored input ht hreg hcr hi hframe' hstate
            (outstanding_started h1 h2) fun _ => ⟨h1, h3⟩
          exact clientMsgComplete_inv c hq (hlater (hcomp rfl rfl))
        · have hst : Inv lib tidy i (stored n s input (touched n w)) :=
            inv_stored input ht hi hframe' (.inl hstate) (fun _ => ⟨rfl, hc⟩)
              (by rw [hh]; exact hquiet)
          have hb : ((touched n w).chan n).bev = some n := (ht.memory.conns.held i n hi).bev
          obtain ⟨hrest, hhttp, -, -⟩ := stored_fields s input hb
          have hreg' := (congrArg Rest.registered hrest).trans hreg
          have hcr' := (congrArg Rest.crashed hrest).trans hcr
          have hi' : (stored n s input (touched n w)).session.httpSessions i = some n := by
            rw [show (stored n s input (touched n w)).session = w.session from
              congrArg Rest.session hrest]
            exact hi
          have hbody' : ((stored n s input (touched n w)).http n).body = some body := by
            rw [hhttp, Function.update_self]
            exact hbody
          have hresponse := httpResponse_inv c hst hreg' hcr' hi' hc hbody'
          cases i with
          | client => exact absurd rfl hc
          | name => exact hresponse
          | joke => exact hresponse
      · exact remove_stored input ht hreg hi hframe'

theorem service_held (h : Held tidy (wires w) i n) (f : ℕ → World P → World P) :
    service n f w = f n (onChan n id w) := by
  have hctx : (w.chan n).ctx = some n := h.ctx
  have hctx : ((onChan n id w).chan n).ctx = some n := by simpa [onChan] using hctx
  simp only [service, hctx]

theorem tcpSocketReadCb_inv (c : Choices) (h : Inv lib tidy .client w)
    (hreg : w.registered = true) (hcr : w.crashed = false)
    (hi : w.session.httpSessions i = some n)
    (hlater : completes lib c n w = true → answersInside c = false)
    (hre : reenters c n w = true → outstanding w = false) :
    Inv lib tidy .client (tcpSocketReadCb lib c n w) := by
  have hsame : completes lib c n (onChan n id w) = completes lib c n w := by
    rw [onChan, id, Function.update_eq_self]
    rfl
  rw [tcpSocketReadCb, service_held (h.memory.conns.held i n hi)]
  apply httpSessionReadCb_inv c (inv_onChan h hi id rfl rfl rfl) hreg hcr hi
  · rw [hsame]
    exact hlater
  · rw [reenters_iff lib, hsame]
    exact fun hc => hre ((reenters_iff lib c n w).mpr hc)

theorem tcpSocketWriteCb_inv (c : Choices) (h : Inv lib tidy .client w)
    (hreg : w.registered = true) (hi : w.session.httpSessions i = some n) :
    Inv lib tidy .client (tcpSocketWriteCb lib c n w) := by
  rw [tcpSocketWriteCb, service_held (h.memory.conns.held i n hi)]
  exact (httpSessionChannelShouldClose_inv c (inv_onChan h hi id rfl rfl rfl) hreg hi).1

theorem tcpSocketEventCb_held (c : Choices) (events : BevEvents)
    (h : Held tidy (wires w) i n) :
    tcpSocketEventCb lib c n events w = httpSessionEventCb lib c n n (ioEvent events)
      (onChan n (fun s => { s with eof := s.eof || (ioEvent events).eof }) w) := by
  have hctx : (w.chan n).ctx = some n := h.ctx
  simp only [tcpSocketEventCb, onChan, Function.update_self, hctx]

theorem httpSessionEventCb_inv (c : Choices) (event : IoChannelEvent)
    (h : Inv lib tidy .client w) (hreg : w.registered = true) (hcr : w.crashed = false)
    (hi : w.session.httpSessions i = some n) :
    Inv lib tidy .client (httpSessionEventCb lib c n n event w) := by
  have h1 := inv_onHttp_id h hi
  have hcbs : ((onHttp n id w).http n).cbs = slotCallbacks i := (h1.memory.conns.held i n hi).cbs
  rw [httpSessionEventCb]
  by_cases herror : event.error = true
  · rw [if_pos herror]
    exact (inv_remove h1.memory hreg h1.tally fun _ => hcr).1
  · rw [if_neg herror]
    by_cases hconn : event.connected = true
    · rw [if_pos hconn, hcbs]
      cases i with
      | client => exact h1
      | name => exact httpRequest_inv _ c h1 hreg hcr hi (by decide)
      | joke => exact httpRequest_inv _ c h1 hreg hcr hi (by decide)
    · rw [if_neg hconn]
      by_cases heof : event.eof = true
      · rw [if_pos heof]
        exact (httpSessionChannelShouldClose_inv c h1 hreg hi).1
      · rw [if_neg heof]
        by_cases htime : (event.timeout && event.read) = true
        · rw [if_pos htime]
          exact (inv_remove h1.memory hreg h1.tally fun _ => hcr).1
        · rw [if_neg htime]
          exact h1

theorem tcpSocketEventCb_inv (c : Choices) (events : BevEvents) (h : Inv lib tidy .client w)
    (hreg : w.registered = true) (hcr : w.crashed = false)
    (hi : w.session.httpSessions i = some n) :
    Inv lib tidy .client (tcpSocketEventCb lib c n events w) := by
  rw [tcpSocketEventCb_held c events (h.memory.conns.held i n hi)]
  have h1 := inv_onChan h hi (fun s => { s with eof := s.eof || (ioEvent events).eof }) rfl rfl rfl
  exact httpSessionEventCb_inv c (ioEvent events) h1 hreg hcr hi

end Tigera.ChannelCallbacks
