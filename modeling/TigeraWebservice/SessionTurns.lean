import TigeraWebservice.OneResponse

/-!
# The turns of a session

From a state within the invariant an event either removes the session or makes
one turn: the request is completed, a lookup leads to a connection, a request
is sent, a reply is stored or the response is written, or nothing of this
changes. The turns say all that the upstream accounting depends on.
-/

set_option autoImplicit false

namespace Tigera.SessionTurns
open ResourceLedger TransitionRuns Tigera.HttpReading Tigera.MessageReading Tigera.JokeCreate
open Tigera.SessionWorld Tigera.SocketChannel Tigera.SessionProgram Tigera.SessionSystem Tigera.SessionHistory
open Tigera.HeldConnections Tigera.HeldReferences Tigera.SessionMemory Tigera.SessionInvariant
open Tigera.UpstreamCallbacks Tigera.ClientResponse Tigera.ReplyCallbacks Tigera.ClientRequest
open Tigera.ChannelCallbacks Tigera.SessionRuns Tigera.OneResponse

variable {P : Type} {lib : Libs P} {w w' : World P} {i idx : Slot} {n : ℕ} {c : Choices}

/-- The part of the world the turns are about: whether the session is there, its
fields, the upstreams with a lookup, the calls, the connections not yet made and
the client's output. -/
structure Front where
  registered : Bool
  session : Session
  pending : Slot → Bool
  calls : List Call
  connecting : ℕ → Bool
  output : List Chunk

def pendings (r : Rest) (i : Slot) : Bool := r.resolving.any fun l => slotOf r l = i

def front (w : World P) : Front :=
  ⟨w.registered, w.session, pendings (rest w), w.calls, fun n => (w.bev n).connecting,
    (w.bev 0).output⟩

def responseChunks (date : Bytes) (body : CStr) : List Chunk :=
  (responseHead date body.bytes.length).map (fun b => ⟨b, none⟩) ++ [⟨body.bytes, some body⟩]

/-- The session once the reply stored in `s` is marked and its upstream let go. -/
def settled (idx : Slot) (s : Session) : Session := setSlot idx none (markReplied idx s)

def bothReplied (s : Session) : Bool := s.nameReplied && s.jokeReplied

structure Cue where
  message : Option (ℕ × Bytes) := none
  date : Option Bytes := none
  flushed : Option ℕ := none

inductive Turn (lib : Libs P) (cue : Cue) (f : Front) : Front → Prop where
  | stays : Turn lib cue f f
  | drains (k : ℕ) (flushed : cue.flushed = some k) :
      Turn lib cue f { f with output := drainOutput k f.output }
  | settles (n : ℕ) (client : f.session.httpSessions .client = some n) :
      Turn lib cue f { f with connecting := Function.update f.connecting n false }
  | requests (me : Option ℕ) (begins : f.session = started) (quiet : f.pending = fun _ => false)
      (first : f.calls = []) : Turn lib cue f { f with
        session := { started with
          me := me, pendingResolutions := 2, state := .resolvingWebserverDomains }
        pending := fun i => decide (i ≠ .client)
        calls := [.clientMsgComplete] }
  | connects (idx : Slot) (n : ℕ) (upstream : idx ≠ .client) (pending : f.pending idx = true)
      (free : f.session.httpSessions idx = none)
      (fresh : ∀ i, f.session.httpSessions i ≠ some n) : Turn lib cue f { f with
        session := { setSlot idx (some n) f.session with
          pendingResolutions := f.session.pendingResolutions - 1
          pendingConnections := f.session.pendingConnections + 1 }
        pending := Function.update f.pending idx false
        connecting := Function.update f.connecting n true }
  | sends (idx : Slot) (n : ℕ) (upstream : idx ≠ .client)
      (held : f.session.httpSessions idx = some n) (connecting : f.connecting n = true) :
      Turn lib cue f { f with
        session := { f.session with
          pendingConnections := f.session.pendingConnections - 1
          pendingReplies := f.session.pendingReplies + 1 }
        connecting := Function.update f.connecting n false }
  | replies (idx : Slot) (n : ℕ) (body : Bytes) (s : Session) (upstream : idx ≠ .client)
      (held : f.session.httpSessions idx = some n) (connected : f.connecting n = false)
      (complete : cue.message = some (n, body)) (nonempty : body ≠ [])
      (stored : Stored lib body
        { f.session with pendingReplies := f.session.pendingReplies - 1 } idx s)
      (waits : bothReplied (settled idx s) = false) : Turn lib cue f { f with
        session := settled idx s
        calls := .reply idx :: f.calls }
  | answers (idx : Slot) (n : ℕ) (body : Bytes) (s : Session) (name surname joke : CStr)
      (addr : ℕ) (d : Bytes) (upstream : idx ≠ .client)
      (held : f.session.httpSessions idx = some n) (connected : f.connecting n = false)
      (complete : cue.message = some (n, body)) (nonempty : body ≠ [])
      (stored : Stored lib body
        { f.session with pendingReplies := f.session.pendingReplies - 1 } idx s)
      (due : bothReplied (settled idx s) = true) (names : s.name = some name)
      (surnames : s.surname = some surname) (jokes : s.joke = some joke) (dated : cue.date = some d) :
      Turn lib cue f { f with
        session := { withoutStrings (settled idx s) with state := .clientResponse }
        calls := .httpResponseWrite :: .clientResponseCreate true :: .reply idx :: f.calls
        output := f.output ++
          responseChunks d ⟨addr, responseText name.bytes surname.bytes joke.bytes⟩ }

theorem turn_registered {cue : Cue} {f f' : Front} (h : Turn lib cue f f') :
    f'.registered = f.registered := by
  cases h <;> rfl

theorem front_of_rest (hr : rest w' = rest w)
    (hc : ∀ m, (w'.bev m).connecting = (w.bev m).connecting)
    (ho : (w'.bev 0).output = (w.bev 0).output) : front w' = front w := by
  have h1 : w'.session = w.session := congrArg Rest.session hr
  have h2 : w'.calls = w.calls := congrArg Rest.calls hr
  have h3 : (fun m => (w'.bev m).connecting) = fun m => (w.bev m).connecting := funext hc
  have h4 : w'.registered = w.registered := congrArg Rest.registered hr
  rw [front, hr, h1, h2, h3, h4, ho, front]

theorem front_stored (s : HttpSession P) (input : List UInt8) (hb : (w.chan n).bev = some n) :
    front (stored n s input w) = front w := by
  obtain ⟨hr, -, hbev, -⟩ := stored_fields s input hb
  apply front_of_rest hr
  · intro m
    by_cases hm : m = n
    · subst hm
      simp [hbev]
    · simp [hbev, hm]
  · by_cases hm : 0 = n
    · subst hm
      simp [hbev]
    · simp [hbev, hm]

theorem front_kept (h : Kept w w') : front w' = { front w with session := w'.session } := by
  have h1 : w'.bev = w.bev := congrArg Wires.bev h.wires
  have h2 : w'.resolving = w.resolving := congrArg Lookups.resolving h.lookups
  have h3 : w'.request = w.request := congrArg Lookups.request h.lookups
  have h4 : pendings (rest w') = pendings (rest w) := by
    funext i
    simp only [pendings, slotOf, rest, h2, h3]
    rfl
  rw [front, h1, h4, h.calls, kept_registered h, front]

theorem front_onSession (f : Session → Session) (w : World P) :
    front (onSession f w) = { front w with session := f w.session } := rfl

theorem front_alterBev (f : Bufferevent → Bufferevent) (n : ℕ)
    (hc : (f (w.bev n)).connecting = (w.bev n).connecting)
    (ho : (f (w.bev n)).output = (w.bev n).output) : front (alterBev n f w) = front w := by
  have hr : rest (alterBev n f w) = rest w := rfl
  apply front_of_rest hr
  · intro m
    by_cases hm : m = n
    · subst hm
      simpa [alterBev] using hc
    · simp [alterBev, hm]
  · by_cases hm : 0 = n
    · subst hm
      simpa [alterBev] using ho
    · simp [alterBev, hm]

theorem upstream_ne_zero {tidy : Prop} {busy : Slot} (h : Inv lib tidy busy w)
    (hreg : w.registered = true) (hcr : w.crashed = false) (hidx : idx ≠ .client)
    (hi : w.session.httpSessions idx = some n) : (0 : ℕ) ≠ n := by
  rintro rfl
  exact hidx (h.memory.conns.distinct idx .client 0 hi (h.plan hreg hcr).client)

theorem front_freeSlot {tidy : Prop} (h : ConnsOk tidy (wires w))
    (hi : w.session.httpSessions idx = some n) (hn : (0 : ℕ) ≠ n) :
    front (freeSlot idx w) = { front w with session := setSlot idx none w.session } := by
  have hh := h.held idx n hi
  rw [freeSlot_some hi, httpSessionFree_eq (w := w) hh.channel hh.bev hh.listen, front_onSession]
  have hf : front { w with
      bev := Function.update w.bev n { w.bev n with input := [], output := [] } } = front w := by
    have hr : rest { w with
        bev := Function.update w.bev n { w.bev n with input := [], output := [] } } = rest w := rfl
    apply front_of_rest hr
    · intro m
      by_cases hm : m = n
      · subst hm
        simp
      · simp [hm]
    · simp [hn]
  rw [← hf]
  rfl

theorem remove_registered (w : World P) : (httpServiceSessionRemove w).registered = false := by
  have h := aside_sessionFree (aside_refl (call .sessionRemove { w with registered := false }))
  by_contra hno
  cases h.registered (by simpa [httpServiceSessionRemove] using hno)

theorem evbufferAddAll_output (ok : ℕ → Bool) (k : ℕ) (cs : List Chunk) (w : World P)
    (hb : (w.chan n).bev = some n) :
    (∃ j, ok j = false) ∧ (evbufferAddAll ok n k cs w).1 = false ∨
      (evbufferAddAll ok n k cs w).1 = true ∧
        rest (evbufferAddAll ok n k cs w).2 = rest w ∧
        (evbufferAddAll ok n k cs w).2.bev =
          Function.update w.bev n { w.bev n with output := (w.bev n).output ++ cs } ∧
        ((evbufferAddAll ok n k cs w).2.chan n).bev = some n := by
  induction cs generalizing k w with
  | nil =>
    right
    refine ⟨rfl, rfl, ?_, hb⟩
    rw [List.append_nil]
    exact (Function.update_eq_self n w.bev).symm
  | cons c cs ih =>
    rw [evbufferAddAll, evbufferAdd]
    cases hk : ok k with
    | false => exact .inl ⟨⟨k, hk⟩, rfl⟩
    | true =>
      have he : onChannelBev n (fun e => { e with output := e.output ++ [c] }) w =
          onBev n (fun e => { e with output := e.output ++ [c] }) (onChan n id w) := by
        simp [onChannelBev, onChan, hb]
      simp only [he, if_true]
      rcases ih (k + 1) (onBev n (fun e => { e with output := e.output ++ [c] }) (onChan n id w))
        (by simpa [onBev, onChan] using hb) with hno | ⟨h1, h2, h3, h4⟩
      · exact .inl hno
      · refine .inr ⟨h1, h2, ?_, h4⟩
        rw [h3]
        simp [onBev, onChan, List.append_assoc]

/-- None of the calls that may fail does. -/
structure Succeeds (c : Choices) : Prop where
  referenceNew : c.referenceNew = true
  requests : c.nameRequest.calloc = true ∧ c.jokeRequest.calloc = true
  pullup : c.pullup = true
  strdup : c.strdupFirst = true ∧ c.strdupSecond = true
  malloc : ∀ k, c.mallocFirst k = true ∧ c.mallocSecond k = true
  datetime : c.datetime.isSome = true
  outputAdd : ∀ k, c.outputAdd k = true

theorem not_succeeds_output {k : ℕ} (h : c.outputAdd k = false) : ¬ Succeeds c := by
  intro hs
  exact absurd ((hs.outputAdd k).symm.trans h) (by decide)

theorem not_succeeds_datetime (h : c.datetime = none) : ¬ Succeeds c := by
  intro hs
  have hsome := hs.datetime
  rw [h] at hsome
  cases hsome

theorem closing_turn (h : Inv lib False .client w) (hi : w.session.httpSessions i = some n) :
    (callBack lib c n (w.http n).cbs.readyToClose (touched n w)).registered = false ∨
      front (callBack lib c n (w.http n).cbs.readyToClose (touched n w)) = front w := by
  have hcbs : (w.http n).cbs = slotCallbacks i := (h.memory.conns.held i n hi).cbs
  rw [hcbs]
  by_cases hc : i = .client
  · subst hc
    show (clientReadyToClose (onHttp n id (touched n w))).registered = false ∨
      front (clientReadyToClose (onHttp n id (touched n w))) = _
    rw [clientReadyToClose]
    split
    · exact .inl (remove_registered _)
    · right
      rw [front_onSession]
      rfl
  · rw [slotCallbacks_readyToClose hc]
    exact .inr rfl

theorem httpRequest_turn (request : HttpRequest) (h : Inv lib False .client w)
    (hi : w.session.httpSessions i = some n) (hn : (0 : ℕ) ≠ n) :
    (httpRequest request c n w).registered = false ∧ ¬ Succeeds c ∨
      front (httpRequest request c n w) = { front w with session := { w.session with
        pendingConnections := w.session.pendingConnections - 1
        pendingReplies := w.session.pendingReplies + 1 } } := by
  have hh := h.memory.conns.held i n hi
  have hch : (w.http n).channel = n := hh.channel
  have hb : (w.chan n).bev = some n := hh.bev
  have hch' : ((onHttp n id (onSession (fun s => { s with
      pendingConnections := s.pendingConnections - 1 }) (onHttp n id w))).http n).channel = n := by
    simpa [onHttp, onSession] using hch
  have hout := evbufferAddAll_output c.outputAdd 0
    ((request.requestLine :: request.headers ++ [literal "\r\n"]).map fun b => ⟨b, none⟩)
    (onHttp n id (onSession (fun s => { s with
      pendingConnections := s.pendingConnections - 1 }) (onHttp n id w))) hb
  simp only [httpRequest, httpRequestWrite, hch']
  generalize evbufferAddAll c.outputAdd n 0 _ _ = r at hout ⊢
  obtain ⟨ok, u⟩ := r
  rcases hout with ⟨⟨k, hk⟩, rfl⟩ | ⟨rfl, hr, hbev, -⟩
  · exact .inl ⟨remove_registered _, not_succeeds_output hk⟩
  · right
    have hbev : u.bev = Function.update w.bev n { w.bev n with
        output := (w.bev n).output ++ (request.requestLine :: request.headers ++
          [literal "\r\n"]).map fun b => ⟨b, none⟩ } := hbev
    have hf : front u = front (onSession (fun s => { s with
        pendingConnections := s.pendingConnections - 1 }) w) := by
      have hr : rest u = rest (onSession (fun s => { s with
        pendingConnections := s.pendingConnections - 1 }) w) := hr
      apply front_of_rest hr
      · intro m
        by_cases hm : m = n
        · subst hm
          simp [hbev, onSession]
        · simp [hbev, onSession, hm]
      · simp [hbev, onSession, hn]
    have hs : u.session = { w.session with
        pendingConnections := w.session.pendingConnections - 1 } := congrArg Front.session hf
    simp only [front_onSession, hf, hs]

theorem httpResponseWrite_output {m : ℕ} (body : CStr) (w : World P)
    (hch : (w.http m).channel = n) (hb : (w.chan n).bev = some n) :
    (httpResponseWrite c m body w).1 = false ∧
        (c.datetime = none ∨ ∃ k, c.outputAdd k = false) ∨
      ∃ d, c.datetime = some d ∧ (httpResponseWrite c m body w).1 = true ∧
        rest (httpResponseWrite c m body w).2 =
          { rest w with calls := .httpResponseWrite :: w.calls } ∧
        (httpResponseWrite c m body w).2.bev = Function.update w.bev n
          { w.bev n with output := (w.bev n).output ++ responseChunks d body } := by
  have hch' : ((call .httpResponseWrite (onHttp m id w)).http m).channel = n := by
    simpa [call, onHttp] using hch
  simp only [httpResponseWrite, hch']
  cases hd : c.datetime with
  | none => exact .inl ⟨rfl, .inl rfl⟩
  | some d =>
    have hout := evbufferAddAll_output c.outputAdd 0
      ((responseHead d body.bytes.length).map fun b => ⟨b, none⟩)
      (call .httpResponseWrite (onHttp m id w)) hb
    simp only
    generalize evbufferAddAll c.outputAdd n 0 _ _ = r at hout ⊢
    obtain ⟨ok, u⟩ := r
    rcases hout with ⟨⟨k, hk⟩, rfl⟩ | ⟨rfl, hr, hbev, hbu⟩
    · exact .inl ⟨rfl, .inr ⟨_, hk⟩⟩
    · have hlast := evbufferAddAll_output (fun _ => c.outputAdd 6) 0 [⟨body.bytes, some body⟩] u hbu
      simp only [evbufferAddAll] at hlast ⊢
      generalize evbufferAdd (c.outputAdd 6) n _ u = q at hlast ⊢
      obtain ⟨ok, v⟩ := q
      cases ok with
      | false =>
        rcases hlast with ⟨⟨-, hk⟩, -⟩ | ⟨hno, -⟩
        · exact .inl ⟨rfl, .inr ⟨_, hk⟩⟩
        · cases hno
      | true =>
        rcases hlast with ⟨-, hno⟩ | ⟨-, hr', hbev', -⟩
        · cases hno
        · refine .inr ⟨d, rfl, rfl, hr'.trans hr, ?_⟩
          have hbev : u.bev = Function.update w.bev n { w.bev n with
              output := (w.bev n).output ++
                (responseHead d body.bytes.length).map fun b => ⟨b, none⟩ } := hbev
          rw [hbev', hbev]
          simp [responseChunks, List.append_assoc]

theorem respond_turn (h : Awaiting lib False .client w) (ho : Once w)
    (hboth : bothReplied w.session = true) :
    (httpClientResponse c w).registered = false ∧ ¬ Succeeds c ∨
      ∃ name surname joke addr d, w.session.name = some name ∧ w.session.surname = some surname ∧
        w.session.joke = some joke ∧ c.datetime = some d ∧
        front (httpClientResponse c w) = { front w with
          session := { withoutStrings w.session with state := .clientResponse }
          calls := .httpResponseWrite :: .clientResponseCreate true :: w.calls
          output := (w.bev 0).output ++
            responseChunks d ⟨addr, responseText name.bytes surname.bytes joke.bytes⟩ } := by
  have hu := h.unanswered ho
  have hflags : w.session.nameReplied = true ∧ w.session.jokeReplied = true := by
    simpa [bothReplied] using hboth
  obtain ⟨name, hname⟩ := Option.isSome_iff_exists.mp (hu.name.trans hflags.1)
  obtain ⟨surname, hsurname⟩ := Option.isSome_iff_exists.mp (hu.surname.trans hflags.1)
  obtain ⟨joke, hjoke⟩ := Option.isSome_iff_exists.mp (hu.joke.trans hflags.2)
  have hclient : w.session.httpSessions .client = some 0 := h.plan.client
  have hheld := h.memory.conns.held .client 0 hclient
  obtain ⟨hk, hout⟩ := clientResponseCreate_ready (w := onSession id w) c hname hsurname hjoke
  rw [httpClientResponse_both c hboth, hclient]
  generalize clientResponseCreate c (onSession id w) = r at hk hout ⊢
  obtain ⟨response, u⟩ := r
  simp only at hk hout
  have hcu : u.crashed = false := hk.crashed.trans h.running
  rcases hout with ⟨rfl, hfail⟩ | ⟨⟨addr, rfl⟩, hsu⟩
  · simp only [respond, hcu, Bool.false_eq_true, if_false]
    refine .inl ⟨remove_registered _, ?_⟩
    intro hs
    rcases hfail with hm | hm
    · exact absurd ((hs.malloc _).1.symm.trans hm) (by decide)
    · exact absurd ((hs.malloc _).2.symm.trans hm) (by decide)
  · simp only [respond, hcu, Bool.false_eq_true, if_false]
    have hwires : wires u = wires w := hk.wires
    have hhttp : u.http = w.http := congrArg Wires.http hwires
    have hchan : u.chan = w.chan := congrArg Wires.chan hwires
    have hbev : u.bev = w.bev := congrArg Wires.bev hwires
    have hcalls : u.calls = .clientResponseCreate true :: w.calls := hk.calls
    have hsession : u.session = withoutStrings w.session := hsu
    have hwrite := httpResponseWrite_output (c := c) (n := 0) (m := 0)
      ⟨addr, responseText name.bytes surname.bytes joke.bytes⟩ u (by rw [hhttp]; exact hheld.channel)
      (by rw [hchan]; exact hheld.bev)
    generalize httpResponseWrite c 0 _ u = q at hwrite ⊢
    obtain ⟨ok, v⟩ := q
    simp only at hwrite
    rcases hwrite with ⟨rfl, hfail⟩ | ⟨d, hd, rfl, hr, hv⟩
    · refine .inl ⟨remove_registered _, ?_⟩
      rcases hfail with hd | ⟨k, hk⟩
      · exact not_succeeds_datetime hd
      · exact not_succeeds_output hk
    · refine .inr ⟨name, surname, joke, addr, d, hname, hsurname, hjoke, hd, ?_⟩
      have hfront : front u = { front w with
          session := withoutStrings w.session
          calls := .clientResponseCreate true :: w.calls } := by
        rw [front_kept hk, hsession]
        rfl
      have h1 : v.session = u.session := congrArg Rest.session hr
      have h2 : v.calls = .httpResponseWrite :: u.calls := congrArg Rest.calls hr
      have h3 : pendings (rest v) = pendings (rest u) := by
        rw [hr]
        rfl
      have h4 : (fun m => (v.bev m).connecting) = fun m => (u.bev m).connecting := by
        funext m
        by_cases hm : m = 0
        · subst hm
          simp [hv]
        · simp [hv, hm]
      have h5 : (v.bev 0).output = (w.bev 0).output ++
          responseChunks d ⟨addr, responseText name.bytes surname.bytes joke.bytes⟩ := by
        rw [hv, hbev, Function.update_self]
      have h6 : (fun m => (u.bev m).connecting) = fun m => (w.bev m).connecting := by
        rw [hbev]
      have h7 : pendings (rest u) = pendings (rest w) := congrArg Front.pending hfront
      have h8 : v.registered = u.registered := congrArg Rest.registered hr
      have h9 : u.registered = w.registered := congrArg Front.registered hfront
      simp only [sessionStateSet, front_onSession]
      rw [front, h1, h2, h3, h4, h5, h6, h7, h8, h9, hsession, hcalls, front]

def decodes (lib : Libs P) (idx : Slot) (body : Bytes) : Bool :=
  !body.isEmpty &&
    if idx = .name then (lib.jsonName body).isSome else (lib.jsonJoke body).isSome

theorem decodes_stored {s t : Session} {body : Bytes} (hne : body ≠ [])
    (h : Stored lib body s idx t) : decodes lib idx body = true := by
  cases h with
  | name decoded a b => simp [decodes, hne, decoded]
  | joke decoded a => simp [decodes, hne, decoded]

theorem unpack_fails (lib : Libs P) (c : Choices) (body : Bytes) (w : World P) (hidx : idx ≠ .client)
    (hf : (unpack lib c idx body w).1 = false) (hs : Succeeds c) : decodes lib idx body = false := by
  cases idx with
  | client => exact absurd rfl hidx
  | name =>
    rcases (unpack_name c body w).2.2 hf with hd | hd | hd
    · simp [decodes, hd]
    · exact absurd (hs.strdup.1.symm.trans hd) (by decide)
    · exact absurd (hs.strdup.2.symm.trans hd) (by decide)
  | joke =>
    rcases (unpack_joke c body w).2.2 hf with hd | hd
    · simp [decodes, hd]
    · exact absurd (hs.strdup.1.symm.trans hd) (by decide)

structure Undecoded (lib : Libs P) (idx : Slot) (body : Bytes) (calls calls' : List Call) : Prop where
  upstream : idx ≠ .client
  undecoded : decodes lib idx body = false
  removed : calls' = .sessionRemove :: .reply idx :: calls

theorem httpResponse_turn (h : Inv lib False idx w) (hreg : w.registered = true)
    (hcr : w.crashed = false) (ho : Once w) (hi : w.session.httpSessions idx = some n)
    (hidx : idx ≠ .client) {body : Bytes} (hbody : (w.http n).body = some body)
    (hconn : (w.bev n).connecting = false) :
    (httpResponse lib idx c n w).registered = false ∧
        (Succeeds c → Undecoded lib idx body w.calls (httpResponse lib idx c n w).calls) ∨
      Turn lib { message := some (n, body), date := c.datetime } (front w) (front (httpResponse lib idx c n w)) := by
  have hm := memory_replying h.memory hreg hi
  have hn := upstream_ne_zero h hreg hcr hidx hi
  rw [httpResponse_replying c hbody]
  by_cases hempty : (body.isEmpty || !c.pullup) = true
  · rw [if_pos hempty]
    refine .inl ⟨remove_registered _, ?_⟩
    intro hs
    have hempty : body.isEmpty = true := by simpa [hs.pullup] using hempty
    have hm' := memory_onSession hm hreg (fun s => { s with state := .errorClientResponse }) rfl rfl
    exact ⟨hidx, by simp [decodes, hempty], (memory_remove hm' hreg).2.2.2⟩
  · rw [if_neg hempty]
    have hne : body ≠ [] := by
      rintro rfl
      simp at hempty
    obtain ⟨hk, hst⟩ := unpack_spec lib c body (replying idx n w) hidx
    have hfail := unpack_fails lib c body (replying idx n w) hidx
    generalize unpack lib c idx body (replying idx n w) = r at hk hst hfail ⊢
    obtain ⟨ok, u⟩ := r
    simp only at hk hst
    have hmu := memory_kept hm hreg hk
    have hregu : u.registered = true := (kept_registered hk).trans hreg
    cases ok with
    | false =>
      refine .inl ⟨remove_registered _, ?_⟩
      intro hs
      have hm' := memory_onSession hmu hregu (fun s => { s with state := .errorClientResponse }) rfl
        rfl
      have hcalls : u.calls = .reply idx :: w.calls := hk.calls
      refine ⟨hidx, hfail rfl hs, ?_⟩
      rw [← hcalls]
      exact (memory_remove hm' hregu).2.2.2
    | true =>
      have hsu : u.session.httpSessions = w.session.httpSessions := congrArg Wires.slots hk.wires
      have hhttp : u.http = w.http := by
        rw [show u.http = (replying idx n w).http from congrArg Wires.http hk.wires]
        simp [replying, onSession, call, onHttp]
      have hiu : (onSession (markReplied idx) u).session.httpSessions idx = some n := by
        show (markReplied idx u.session).httpSessions idx = some n
        rw [(markReplied_fields u.session).1, hsu, hi]
      have hstored := hst rfl
      have ha := awaiting_reply h hreg hcr hi hidx hmu hsu hhttp (congrArg Wires.bev hk.wires)
        hk.lookups (hk.crashed.trans hcr) hk.calls (s := (replying idx n w).session)
        ⟨rfl, rfl, rfl, rfl, rfl, rfl⟩ hstored
      have hov : Once (freeSlot idx (onSession (markReplied idx) u)) := by
        have hcalls : (freeSlot idx (onSession (markReplied idx) u)).calls = .reply idx :: w.calls :=
          (congrArg Rest.calls (rest_freeSlot idx (onSession (markReplied idx) u))).trans hk.calls
        exact (once_cons (by simp) hcalls).mpr ho
      have hfront : front (freeSlot idx (onSession (markReplied idx) u)) = { front w with
          session := settled idx u.session
          calls := .reply idx :: w.calls } := by
        have hfu : front u = { front (replying idx n w) with session := u.session } := front_kept hk
        have hconns : ConnsOk False (wires (onSession (markReplied idx) u)) :=
          (memory_onSession hmu hregu (markReplied idx) (markReplied_fields _).1
            (markReplied_fields _).2).conns
        rw [front_freeSlot hconns hiu hn, front_onSession, hfu]
        rfl
      have hsession : (freeSlot idx (onSession (markReplied idx) u)).session =
          settled idx u.session := congrArg Front.session hfront
      simp only
      rw [← freeSlot_some hiu]
      generalize freeSlot idx (onSession (markReplied idx) u) = v at ha hov hfront hsession ⊢
      cases hboth : bothReplied v.session with
      | false =>
        right
        have he : httpClientResponse c v = onSession id v := by
          have hb : (v.session.nameReplied && v.session.jokeReplied) = false := hboth
          simp only [httpClientResponse, onSession, id, hb, Bool.false_eq_true, if_false]
        rw [he, show front (onSession id v) = front v from rfl, hfront]
        exact .replies idx n body u.session hidx hi hconn rfl hne hstored (hsession ▸ hboth)
      | true =>
        rcases respond_turn (c := c) ha hov hboth with ⟨hno, hf⟩ |
          ⟨name, surname, joke, addr, d, hname, hsurname, hjoke, hd, hr⟩
        · exact .inl ⟨hno, fun hs => absurd hs hf⟩
        · right
          have hfields : v.session.name = u.session.name ∧ v.session.surname = u.session.surname ∧
              v.session.joke = u.session.joke := by
            rw [hsession, settled, setSlot, markReplied]
            split <;> exact ⟨rfl, rfl, rfl⟩
          have hout : (v.bev 0).output = (w.bev 0).output := congrArg Front.output hfront
          have hcalls : v.calls = .reply idx :: w.calls := congrArg Front.calls hfront
          rw [hr, hfront, hsession, hout, hcalls]
          exact .answers idx n body u.session name surname joke addr d hidx hi hconn rfl hne hstored
            (hsession ▸ hboth) (hfields.1 ▸ hname) (hfields.2.1 ▸ hsurname) (hfields.2.2 ▸ hjoke) hd

theorem front_connected (ss : SockAddr) (idx : Slot) (h : 0 < w.nextConn) :
    front (connected lib ss idx w) = { front w with
      session := { setSlot idx (some w.nextConn) w.session with
        pendingConnections := w.session.pendingConnections + 1 }
      connecting := Function.update (front w).connecting w.nextConn true } := by
  have h1 : (fun m => ((connected lib ss idx w).bev m).connecting) =
      Function.update (fun m => (w.bev m).connecting) w.nextConn true := by
    funext m
    by_cases hm : m = w.nextConn
    · subst hm
      simp [connected]
    · simp [connected, hm]
  have h2 : ((connected lib ss idx w).bev 0).output = (w.bev 0).output := by
    have hn : (0 : ℕ) ≠ w.nextConn := by omega
    simp [connected, hn]
  rw [front, h1, h2]
  rfl

theorem pendings_released (a : Answer) {l : Lookup} {k : ℕ} (h : Memory False w)
    (hl : l ∈ w.resolving) (hp : Plan lib .client w.http w.bev (rest w)) :
    pendings (rest (released a l k w)) =
      Function.update (pendings (rest w)) (slotOf (rest w) l) false := by
  have hne := (plan_released (k := k) a h hl hp).2
  obtain ⟨x, hx⟩ := released_eq a l k w
  have hres : (released a l k w).resolving = w.resolving.erase l := by
    rw [hx]
    rfl
  have hslot : ∀ l' ∈ w.resolving.erase l,
      slotOf (rest (released a l k w)) l' = slotOf (rest w) l' := fun l' hl' =>
    slotOf_released a (mem_erase_request h.dns.distinct hl hl').2
  funext i
  by_cases hi : i = slotOf (rest w) l
  · subst hi
    rw [Function.update_self, pendings, List.any_eq_false]
    intro l' hl'
    rw [show (rest (released a l k w)).resolving = w.resolving.erase l from hres] at hl'
    simpa using hne l' hl'
  · rw [Function.update_of_ne hi, Bool.eq_iff_iff, pendings, pendings, List.any_eq_true,
      List.any_eq_true]
    rw [show (rest (released a l k w)).resolving = w.resolving.erase l from hres]
    constructor
    · rintro ⟨l', hl', hs⟩
      rw [hslot l' hl'] at hs
      exact ⟨l', List.mem_of_mem_erase hl', hs⟩
    · rintro ⟨l', hl', hs⟩
      have hne : l' ≠ l := by
        rintro rfl
        exact hi (by simpa using hs : slotOf (rest w) l' = i).symm
      have hmem : l' ∈ w.resolving.erase l := (List.mem_erase_of_ne hne).mpr hl'
      refine ⟨l', hmem, ?_⟩
      rw [hslot l' hmem]
      exact hs

def leads (a : Answer) (c : ConnectChoices) (worker : Bool) : Bool :=
  match a with
  | .error => false
  | .addresses families => (families.find? usable).isSome && connects c worker

theorem dnsnameResolvedCb_turn (cue : Cue) (a : Answer)
    (c : ConnectChoices) {l : Lookup} (h : Inv lib False .client w) (hreg : w.registered = true)
    (hcr : w.crashed = false) (hl : l ∈ w.resolving) :
    (dnsnameResolvedCb lib a c l.request l.host (handOver a l.request
        (unlisted l w))).registered = false ∧ leads a c w.worker = false ∨
      Turn lib cue (front w) (front (dnsnameResolvedCb lib a c l.request l.host
        (handOver a l.request (unlisted l w)))) := by
  obtain ⟨k, hk, -⟩ := anchored_of_pending h.memory.dns hl
  obtain ⟨x, hx⟩ := handOver_addrs a l.request (unlisted l w)
  obtain ⟨y, hy⟩ := released_eq a l k w
  have hp := h.plan hreg hcr
  obtain ⟨hhost, hslot⟩ := hp.lookup l hl
  have hreq : ((handOver a l.request (unlisted l w)).request l.request).session = some k := by
    rw [hx]
    exact hk.requests l hl
  have hb : w.reference k = anchor w.registered w.resolving.length := hk.block
  have hptr : ((handOver a l.request (unlisted l w)).reference k).ptr.isSome = true := by
    rw [hx]
    show (w.reference k).ptr.isSome = true
    rw [hb, hreg]
    rfl
  have hidx : ((handOver a l.request (unlisted l w)).request l.request).idx =
      slotOf (rest w) l := by
    rw [hx]
    rfl
  have hpend := pendings_released (k := k) a h.memory hl hp
  rw [dnsnameResolvedCb_anchored lib a c l.request k l.host _ hreq, hptr, if_pos rfl, hidx]
  rw [show answered l.request k (handOver a l.request (unlisted l w)) = released a l k w from rfl]
  cases a with
  | error => exact .inl ⟨remove_registered _, rfl⟩
  | addresses families =>
    have hworker : (released (.addresses families) l k w).worker = w.worker := by
      rw [hy]
      rfl
    have hnext : (released (.addresses families) l k w).nextConn = w.nextConn := by
      rw [hy]
      rfl
    have hfront : front (released (.addresses families) l k w) = { front w with
        pending := Function.update (pendings (rest w)) (slotOf (rest w) l) false } := by
      rw [front, hpend, hy]
      rfl
    have hu : front (onSession (fun s => { s with pendingResolutions := s.pendingResolutions - 1 })
        { released (.addresses families) l k w with
          addrs := .free l.request :: .use l.request ::
            (released (.addresses families) l k w).addrs }) = { front w with
        session := { w.session with pendingResolutions := w.session.pendingResolutions - 1 }
        pending := Function.update (pendings (rest w)) (slotOf (rest w) l) false } :=
      congrArg (fun f : Front => { f with session := { f.session with
        pendingResolutions := f.session.pendingResolutions - 1 } }) hfront
    simp only [resolved, leads]
    generalize hw : onSession (fun s => { s with pendingResolutions := s.pendingResolutions - 1 })
      { released (.addresses families) l k w with
        addrs := .free l.request :: .use l.request ::
          (released (.addresses families) l k w).addrs } = u at hu ⊢
    have hun : u.nextConn = w.nextConn := by
      rw [← hw]
      exact hnext
    have huw : u.worker = w.worker := by
      rw [← hw]
      exact hworker
    have hus : u.session = { w.session with
        pendingResolutions := w.session.pendingResolutions - 1 } := congrArg Front.session hu
    cases hf : families.find? usable with
    | none => exact .inl ⟨remove_registered _, rfl⟩
    | some family =>
      cases hc : connects c w.worker with
      | false =>
        left
        simp only
        rw [httpServerConnect_attempt lib c ⟨family, l.host⟩ (slotOf (rest w) l) (huw.symm ▸ hc)]
        exact ⟨remove_registered _, rfl⟩
      | true =>
        right
        have hbegun : 0 < u.nextConn := by
          rw [hun]
          exact h.memory.begun
        simp only
        rw [httpServerConnect_connects lib c ⟨family, l.host⟩ (slotOf (rest w) l) u
          (huw.symm ▸ hc), front_connected _ _ hbegun, hu, hun, hus]
        have hup : slotOf (rest w) l ≠ .client := by
          intro he
          rw [he] at hhost
          cases hhost
        have hpending : pendings (rest w) (slotOf (rest w) l) = true := by
          rw [pendings, List.any_eq_true]
          exact ⟨l, hl, by simp⟩
        refine .connects (slotOf (rest w) l) w.nextConn hup hpending hslot ?_
        intro i hi
        have hlt := held_lt h.memory.conns hi
        exact Nat.lt_irrefl _ hlt

theorem clientMsgComplete_turn (cue : Cue)
    (h : Requesting False w) (hs : w.session = started) (hc : w.calls = [])
    (hlater : answersInside c = false) :
    (clientMsgComplete lib c 0 w).registered = false ∧ ¬ Succeeds c ∨
      Turn lib cue (front w) (front (clientMsgComplete lib c 0 w)) := by
  obtain ⟨hres, -⟩ := outstanding_false h.free
  rw [clientMsgComplete_later lib c h hlater]
  split
  · right
    have hlist : (requestedBoth (referenced true w)).resolving =
        [⟨w.nextRequest + 1, .icndb⟩, ⟨w.nextRequest, .uinames⟩] := by
      show _ :: _ :: w.resolving = _
      rw [hres]
      rfl
    have hpend : pendings (rest (requestedBoth (referenced true w))) =
        fun i => decide (i ≠ .client) := by
      funext i
      rw [pendings, show (rest (requestedBoth (referenced true w))).resolving = _ from hlist]
      cases i <;> simp [slotOf, rest, requestedBoth, requested, sessionStateSet, onSession,
        referenced, sessionReferenceNew, call, onHttp]
    have hnone : pendings (rest w) = fun _ => false := by
      funext i
      rw [pendings, show (rest w).resolving = [] from hres]
      rfl
    have hfront : front (requestedBoth (referenced true w)) = { front w with
        session := { started with me := some w.nextReference, pendingResolutions := 2,
                                  state := .resolvingWebserverDomains }
        pending := fun i => decide (i ≠ .client)
        calls := [.clientMsgComplete] } := by
      rw [front, hpend]
      have h1 : (requestedBoth (referenced true w)).session = { w.session with
          me := some w.nextReference
          pendingResolutions := w.session.pendingResolutions + 1 + 1
          state := .resolvingWebserverDomains } := rfl
      have h2 : (requestedBoth (referenced true w)).calls = .clientMsgComplete :: w.calls := rfl
      rw [h1, h2, hs, hc]
      rfl
    rw [hfront]
    exact .requests (some w.nextReference) hs hnone hc
  · next hno =>
    left
    have hfail : ¬ Succeeds c := by
      intro hok
      simp [hok.referenceNew, hok.requests] at hno
    split
    · exact ⟨remove_registered _, hfail⟩
    · exact ⟨remove_registered _, hfail⟩

/-- A connection is reported once, while it is being made, and nothing is read
before that. -/
def inOrder (w : World P) : Event → Bool
  | .readCb n _ => !(w.bev n).connecting
  | .eventCb n events _ => !events.connected || (w.bev n).connecting
  | _ => true

def messageOf (lib : Libs P) (w : World P) : Event → Option (ℕ × Bytes)
  | .readCb n c =>
    if (reads lib c n w).1 = .messageComplete then (reads lib c n w).2.1.body.map fun b => (n, b)
    else none
  | _ => none

def cueOf (lib : Libs P) (w : World P) : Event → Cue
  | .readCb n c => { message := messageOf lib w (.readCb n c), date := c.datetime }
  | .flush n k => if n = 0 then { flushed := some k } else {}
  | _ => {}

/-- Nothing fails and nothing ends a connection in this event. -/
def Undisturbed (lib : Libs P) (w : World P) : Event → Prop
  | .readCb n c => closes n w = false ∧ (reads lib c n w).1 ≠ .failed ∧ Succeeds c
  | .writeCb n _ => closes n w = false
  | .eventCb _ events c =>
    events.error = false ∧ events.eof = false ∧ events.timeout = false ∧ Succeeds c
  | .dnsCb _ a c => leads a c w.worker = true
  | .fini => False
  | _ => True

def Removed (lib : Libs P) (w : World P) (e : Event) (w' : World P) : Prop :=
  w'.registered = false ∧ (Undisturbed lib w e → ∃ idx n body,
    w.session.httpSessions idx = some n ∧ messageOf lib w e = some (n, body) ∧
      Undecoded lib idx body w.calls w'.calls)

theorem removed_disturbed {e : Event} (hno : w'.registered = false)
    (hd : ¬ Undisturbed lib w e) : Removed lib w e w' :=
  ⟨hno, fun hu => absurd hu hd⟩

section Reading

variable {s : HttpSession P} {input : List UInt8}

theorem complete_turn (h : Inv lib False .client w) (hreg : w.registered = true)
    (hcr : w.crashed = false) (ho : Once w) (hi : w.session.httpSessions i = some n)
    (hs : (w.http n).state ≠ .messageComplete)
    (hr : reads lib c n w = (.messageComplete, s, input)) (hstate : s.state = .messageComplete)
    {body : Bytes} (hbody : s.body = some body) (hconn : (w.bev n).connecting = false)
    (hlater : i = .client → answersInside c = false) :
    Removed lib w (.readCb n c) (callBack lib c n s.cbs.messageComplete (stored n s input w)) ∨
      Turn lib (cueOf lib w (.readCb n c)) (front w)
        (front (callBack lib c n s.cbs.messageComplete (stored n s input w))) := by
  have hp := h.plan hreg hcr
  have hheld := h.memory.conns.held i n hi
  have hframe : Framed (w.http n) s := by
    have hf := reads_framed lib c n w
    rwa [hr] at hf
  have hcbs : s.cbs = slotCallbacks i := hframe.2.trans hheld.cbs
  obtain ⟨hrest, hhttp, hbev, -⟩ := stored_fields s input hheld.bev
  have hfront := front_stored s input hheld.bev
  have hmessage : messageOf lib w (.readCb n c) = some (n, body) := by
    rw [messageOf, hr, if_pos rfl, hbody]
    rfl
  have hcalls : (stored n s input w).calls = w.calls := congrArg Rest.calls hrest
  have hsession : (stored n s input w).session = w.session := congrArg Rest.session hrest
  rw [hcbs]
  by_cases hc : i = .client
  · subst hc
    obtain rfl : n = 0 := Option.some.inj (hi.symm.trans hp.client)
    obtain ⟨h1, h2, h3⟩ := hp.quiet hs
    have hquiet : w.session = started ∧ w.calls = [] := ⟨h1, h3⟩
    obtain ⟨-, hq⟩ := requesting_stored input h hreg hcr hi hframe hstate
      (outstanding_started h1 h2) fun _ => hquiet
    rcases clientMsgComplete_turn (cueOf lib w (.readCb 0 c)) hq
      (hsession.trans h1) (hcalls.trans h3) (hlater rfl) with ⟨hno, hf⟩ | ht
    · exact .inl (removed_disturbed hno fun hu => hf hu.2.2)
    · right
      rw [hfront] at ht
      exact ht
  · have hst : Inv lib False i (stored n s input w) :=
      inv_stored input h hi hframe (.inl hstate) (fun _ => ⟨rfl, hc⟩) fun hcl => absurd hcl hc
    have hi' : (stored n s input w).session.httpSessions i = some n := by
      rw [hsession]
      exact hi
    have hbody' : ((stored n s input w).http n).body = some body := by
      rw [hhttp, Function.update_self]
      exact hbody
    have hconn' : ((stored n s input w).bev n).connecting = false := by
      rw [hbev, Function.update_self]
      exact hconn
    have ho' : Once (stored n s input w) := (once_of_rest hrest).mpr ho
    have ht := httpResponse_turn (c := c) hst ((congrArg Rest.registered hrest).trans hreg)
      ((congrArg Rest.crashed hrest).trans hcr) ho' hi' hc hbody' hconn'
    have hcb : callBack lib c n (slotCallbacks i).messageComplete (stored n s input w) =
        httpResponse lib i c n (stored n s input w) := by
      cases i with
      | client => exact absurd rfl hc
      | name => rfl
      | joke => rfl
    rw [hcb, cueOf, hmessage]
    rw [hfront] at ht
    rcases ht with ⟨hno, hu⟩ | ht
    · left
      refine ⟨hno, ?_⟩
      intro hun
      have hund := hu hun.2.2
      rw [hcalls] at hund
      exact ⟨i, n, body, hi, hmessage, hund⟩
    · exact .inr ht

end Reading

theorem readCb_turn (h : Inv lib False .client w) (hreg : w.registered = true)
    (hcr : w.crashed = false) (ho : Once w) (hi : w.session.httpSessions i = some n)
    (hconn : (w.bev n).connecting = false)
    (hlater : completes lib c n w = true → answersInside c = false)
    (hagain : reenters c n w = false) :
    Removed lib w (.readCb n c) (httpSessionReadCb lib c n n w) ∨
      Turn lib (cueOf lib w (.readCb n c)) (front w)
        (front (httpSessionReadCb lib c n n w)) := by
  have hp := h.plan hreg hcr
  have ht := inv_touched h hi
  obtain ⟨hh, -, hbt⟩ := touched_fields n w
  have hheld := h.memory.conns.held i n hi
  have hb : ((touched n w).chan n).bev = some n := (ht.memory.conns.held i n hi).bev
  rw [httpSessionReadCb_eq c hheld]
  by_cases hcl : closes n w = true
  · rw [if_pos hcl]
    rcases closing_turn (c := c) h hi with hno | hf
    · refine .inl (removed_disturbed hno ?_)
      intro hu
      exact absurd (hu.1.symm.trans hcl) (by decide)
    · rw [hf]
      exact .inr .stays
  · rw [if_neg hcl]
    have hfailed : ∀ s input, reads lib c n w = (.failed, s, input) →
        Removed lib w (.readCb n c) (finished lib c n (touched n w) (reads lib c n w)) := by
      intro s input hr
      rw [hr]
      refine removed_disturbed (remove_registered _) ?_
      intro hu
      rw [Undisturbed, hr] at hu
      exact hu.2.1 rfl
    have hreturned : ∀ s input, reads lib c n w = (.returned, s, input) →
        Turn lib (cueOf lib w (.readCb n c)) (front w)
          (front (finished lib c n (touched n w) (reads lib c n w))) := by
      intro s input hr
      have hf : front (stored n s input (touched n w)) = front w := front_stored s input hb
      rw [hr]
      show Turn lib _ _ (front (stored n s input (touched n w)))
      rw [hf]
      exact .stays
    by_cases hs : (w.http n).state = .messageComplete
    · have hclient : i = .client := by
        by_contra hno
        exact hp.reading i n hno hno hi hs
      subst hclient
      have hr := reads_complete lib c hs
      split at hr
      · exact .inr (hreturned _ _ hr)
      · next h0 =>
        split at hr
        · next hd =>
          have hre : reenters c n w = true := by
            have h0 : (w.bev n).input ≠ [] := fun hnil => h0 (by rw [hnil]; rfl)
            simp [reenters, hi, hs, hcl, h0, hd]
          exact absurd (hagain.symm.trans hre) (by decide)
        · exact .inl (hfailed _ _ hr)
    · have hcomp : i = .client → (reads lib c n w).1 = .messageComplete →
          completes lib c n w = true := by
        rintro rfl hexit
        simp [completes, hi, hcl, hexit]
      have hinc := reads_incomplete lib c (hp.readable i n hi) hs
      rcases hinc with ⟨hexit, -, -⟩ | ⟨hexit, hstate, body, hbody⟩ | hexit
      · exact .inr (hreturned (reads lib c n w).2.1 (reads lib c n w).2.2 (Prod.ext hexit rfl))
      · have hr : reads lib c n w = (.messageComplete, (reads lib c n w).2.1,
            (reads lib c n w).2.2) := Prod.ext hexit rfl
        have hrt : reads lib c n (touched n w) = reads lib c n w := by
          rw [reads, reads, hh, hbt]
        have hdone := complete_turn (c := c) ht hreg hcr ho hi (by rw [hh]; exact hs)
          (hrt.trans hr) hstate hbody hconn fun hc => hlater (hcomp hc hexit)
        have hmessage : messageOf lib (touched n w) (.readCb n c) =
            messageOf lib w (.readCb n c) := by
          rw [messageOf, messageOf, hrt]
        have hcue : cueOf lib (touched n w) (.readCb n c) = cueOf lib w (.readCb n c) := by
          rw [cueOf, cueOf, hmessage]
        have hclt : closes n (touched n w) = closes n w := closes_touched n w
        have hfin : finished lib c n (touched n w) (reads lib c n w) =
            callBack lib c n (reads lib c n w).2.1.cbs.messageComplete
              (stored n (reads lib c n w).2.1 (reads lib c n w).2.2 (touched n w)) := by
          rw [hr]
          rfl
        rw [hfin]
        rcases hdone with ⟨hno, hu⟩ | hdone
        · left
          refine ⟨hno, ?_⟩
          intro hun
          obtain ⟨idx, k, bytes, hidx, hm, hund⟩ := hu ⟨hclt.trans hun.1, hrt ▸ hun.2.1, hun.2.2⟩
          exact ⟨idx, k, bytes, hidx, hmessage ▸ hm, hund⟩
        · rw [hcue] at hdone
          exact .inr hdone
      · exact .inl (hfailed (reads lib c n w).2.1 (reads lib c n w).2.2 (Prod.ext hexit rfl))

theorem eventCb_turn (events : BevEvents) (h : Inv lib False .client w)
    (hreg : w.registered = true) (hcr : w.crashed = false)
    (hi : w.session.httpSessions i = some n)
    (hin : events.connected = true → (w.bev n).connecting = true) :
    Removed lib w (.eventCb n events c) (next lib w (.eventCb n events c)) ∨
      Turn lib {} (front w) (front (next lib w (.eventCb n events c))) := by
  have h1 := inv_alterBev h hi
    (fun e => { e with connecting := e.connecting && !events.connected }) rfl rfl []
    (List.append_nil _).symm
  have hheld := h1.memory.conns.held i n hi
  rw [next, deliver_held hheld, tcpSocketEventCb_held c events hheld]
  have hconn : front (alterBev n (fun e => { e with
      connecting := e.connecting && !events.connected }) w) =
      if events.connected then
        { front w with connecting := Function.update (front w).connecting n false }
      else front w := by
    by_cases hc : events.connected = true
    · rw [if_pos hc]
      have hmap : (fun m => ((alterBev n (fun e => { e with
          connecting := e.connecting && !events.connected }) w).bev m).connecting) =
          Function.update (fun m => (w.bev m).connecting) n false := by
        funext m
        by_cases hm : m = n
        · subst hm
          simp [alterBev, hc]
        · simp [alterBev, hm]
      have hout : ((alterBev n (fun e => { e with
          connecting := e.connecting && !events.connected }) w).bev 0).output =
          (w.bev 0).output := by
        by_cases hm : 0 = n
        · subst hm
          simp [alterBev]
        · simp [alterBev, hm]
      rw [front, hmap, hout]
      rfl
    · rw [if_neg hc]
      exact front_alterBev _ n (by simp [hc]) rfl
  generalize alterBev n (fun e => { e with
    connecting := e.connecting && !events.connected }) w = v at h1 hheld hconn ⊢
  have hsession : v.session = w.session := by
    have hs := congrArg Front.session hconn
    split at hs <;> exact hs
  have h2 := inv_onHttp_id (inv_onChan h1 (hsession ▸ hi)
    (fun s => { s with eof := s.eof || (ioEvent events).eof }) rfl rfl rfl) (hsession ▸ hi)
  have hfront : front (onHttp n id (onChan n (fun s => { s with
      eof := s.eof || (ioEvent events).eof }) v)) = front v := rfl
  have hreg2 : (onHttp n id (onChan n (fun s => { s with
      eof := s.eof || (ioEvent events).eof }) v)).session.httpSessions i = some n := hsession ▸ hi
  rw [httpSessionEventCb]
  generalize onHttp n id (onChan n (fun s => { s with
      eof := s.eof || (ioEvent events).eof }) v) = u at h2 hfront hreg2 ⊢
  by_cases herror : events.error = true
  · rw [if_pos (show (ioEvent events).error = true from herror)]
    refine .inl (removed_disturbed (remove_registered _) ?_)
    intro hu
    exact absurd (hu.1.symm.trans herror) (by decide)
  · rw [if_neg (show ¬ (ioEvent events).error = true from herror)]
    have herror : events.error = false := by simpa using herror
    by_cases hc : events.connected = true
    · have hcon : (ioEvent events).connected = true := by simp [ioEvent, herror, hc]
      have hcbs : (u.http n).cbs = slotCallbacks i := (h2.memory.conns.held i n hreg2).cbs
      rw [if_pos hc] at hconn
      rw [if_pos hcon, hcbs]
      by_cases hcl : i = .client
      · subst hcl
        right
        show Turn lib {} (front w) (front u)
        rw [hfront, hconn]
        exact .settles n hi
      · have hn := upstream_ne_zero h hreg hcr hcl hi
        have hsend : ∀ request, (httpRequest request c n u).registered = false ∧ ¬ Succeeds c ∨
            Turn lib {} (front w) (front (httpRequest request c n u)) := by
          intro request
          have hus : u.session = w.session := congrArg Front.session (hfront.trans hconn)
          rcases httpRequest_turn (c := c) request h2 hreg2 hn with hno | hf
          · exact .inl hno
          · right
            rw [hf, hfront, hconn, hus]
            exact .sends i n hcl hi (hin hc)
        have hcb : ∃ request, callBack lib c n (slotCallbacks i).connected u =
            httpRequest request c n u := by
          cases i with
          | client => exact absurd rfl hcl
          | name => exact ⟨_, rfl⟩
          | joke => exact ⟨_, rfl⟩
        obtain ⟨request, hcb⟩ := hcb
        rw [hcb]
        rcases hsend request with ⟨hno, hf⟩ | ht
        · exact .inl (removed_disturbed hno fun hu => hf hu.2.2.2)
        · exact .inr ht
    · have hcon : ¬ (ioEvent events).connected = true := by simp [ioEvent, herror, hc]
      rw [if_neg hc] at hconn
      have hstays : front u = front w := hfront.trans hconn
      rw [if_neg hcon]
      by_cases heof : (ioEvent events).eof = true
      · rw [if_pos heof, httpSessionChannelShouldClose_eq]
        split
        · rcases closing_turn (c := c) h2 hreg2 with hno | hf
          · refine .inl (removed_disturbed hno ?_)
            intro hu
            simp [ioEvent, hu.2.1] at heof
          · right
            rw [hf, hstays]
            exact .stays
        · right
          show Turn lib {} (front w) (front u)
          rw [hstays]
          exact .stays
      · rw [if_neg heof]
        split
        · next htime =>
          refine .inl (removed_disturbed (remove_registered _) ?_)
          intro hu
          simp [ioEvent, hu.2.2.1] at htime
        · right
          rw [hstays]
          exact .stays

theorem next_turn (e : Event) (h : Inv lib False .client w) (hreg : w.registered = true)
    (ho : Once w) (he : enabled w e = true) (hc : CompletesOnce lib w e)
    (hin : inOrder w e = true) :
    Removed lib w e (next lib w e) ∨
      Turn lib (cueOf lib w e) (front w) (front (next lib w e)) := by
  have hcr : w.crashed = false := h.steady (.inl hreg) ho
  have hdeliver : ∀ n, enabled w e = deliverable w n →
      ∃ i, w.session.httpSessions i = some n := fun n hn =>
    (held_of_deliverable h hcr (hn ▸ he)).2
  cases e with
  | accept c =>
    have hn : w.nextConn = 0 := by simpa [enabled, hcr] using he
    have := h.memory.begun
    omega
  | arrive n data =>
    right
    rw [next, front_alterBev _ n rfl rfl]
    exact .stays
  | flush n k =>
    right
    by_cases hn : 0 = n
    · subst hn
      have hf : front (next lib w (.flush 0 k)) =
          { front w with output := drainOutput k (front w).output } := by
        have hmap : (fun m => ((next lib w (.flush 0 k)).bev m).connecting) =
            fun m => (w.bev m).connecting := by
          funext m
          by_cases hm : m = 0
          · subst hm
            simp [next, flushOutput, alterBev]
          · simp [next, flushOutput, alterBev, hm]
        rw [front, hmap]
        simp [next, flushOutput, alterBev, front, rest]
      rw [hf]
      exact .drains k rfl
    · have hf : front (next lib w (.flush n k)) = front w := by
        have hr : rest (next lib w (.flush n k)) = rest w := rfl
        apply front_of_rest hr
        · intro m
          by_cases hm : m = n
          · subst hm
            simp [next, flushOutput, alterBev]
          · simp [next, flushOutput, alterBev, hm]
        · simp [next, flushOutput, alterBev, hn]
      rw [hf]
      exact .stays
  | readCb n c =>
    obtain ⟨i, hi⟩ := hdeliver n (by simp [enabled, hcr])
    have hheld := h.memory.conns.held i n hi
    have hsame : onChan n id w = { w with conns := .use (.channel n) :: w.conns } := by
      rw [onChan, id, Function.update_eq_self]
    have hread := readCb_turn (c := c) (inv_onChan h hi id rfl rfl rfl) hreg hcr ho hi
      (by simpa [inOrder, onChan] using hin)
      (by
        intro hcomp
        rw [hsame] at hcomp
        have hcomp : completes lib c n w = true := hcomp
        simpa [answersLater, hcomp] using hc.1)
      (by
        rw [hsame]
        exact hc.2)
    rw [next, deliver_held hheld, tcpSocketReadCb, service_held hheld]
    rw [hsame] at hread ⊢
    exact hread
  | writeCb n c =>
    obtain ⟨i, hi⟩ := hdeliver n (by simp [enabled, hcr])
    have hheld := h.memory.conns.held i n hi
    have hsame : onChan n id w = { w with conns := .use (.channel n) :: w.conns } := by
      rw [onChan, id, Function.update_eq_self]
    have h1 := inv_onChan h hi id rfl rfl rfl
    rw [next, deliver_held hheld, tcpSocketWriteCb, service_held hheld, httpSessionWriteCb,
      httpSessionChannelShouldClose_eq]
    have hcl : closes n (onChan n id w) = closes n w := by
      rw [hsame]
      rfl
    rw [hcl]
    by_cases hclose : closes n w = true
    · rw [if_pos hclose]
      rcases closing_turn (c := c) h1 hi with hno | hf
      · refine .inl (removed_disturbed hno ?_)
        intro hu
        exact absurd (hu.symm.trans hclose) (by decide)
      · simp only [hf]
        exact .inr .stays
    · rw [if_neg hclose]
      exact .inr .stays
  | eventCb n events c =>
    obtain ⟨i, hi⟩ := hdeliver n (by simp [enabled, hcr])
    apply eventCb_turn events h hreg hcr hi
    intro hconn
    simpa [inOrder, hconn] using hin
  | dnsCb r a c =>
    have hl : (lookupOf w r).isSome = true := by simpa [enabled, hcr] using he
    obtain ⟨l, hl⟩ := Option.isSome_iff_exists.mp hl
    obtain ⟨hmem, rfl⟩ := lookupOf_some hl
    simp only [next, hl]
    rcases dnsnameResolvedCb_turn {} a c h hreg hcr hmem with ⟨hno, hf⟩ | ht
    · refine .inl (removed_disturbed hno ?_)
      intro hu
      exact absurd (hf.symm.trans hu) (by decide)
    · exact .inr ht
  | fini =>
    have hno : (httpServiceFini w).registered = false := by
      have hl := aside_sessionFree (aside_refl { w with registered := false })
      by_contra hyes
      cases hl.registered (by simpa [httpServiceFini] using hyes)
    exact .inl (removed_disturbed hno id)

theorem next_gone (e : Event) (h : Inv lib False .client w) (hreg : w.registered = false)
    (he : enabled w e = true) : ∃ a l k, l ∈ w.resolving ∧ next lib w e = released a l k w := by
  have hcr : w.crashed = false := by
    cases e <;> simp_all [enabled]
  have hdeliver : ∀ n, enabled w e = deliverable w n → False := by
    intro n hn
    have hyes := (held_of_deliverable h hcr (hn ▸ he)).1
    exact absurd (hreg.symm.trans hyes) (by decide)
  cases e with
  | accept c =>
    have hn : w.nextConn = 0 := by simpa [enabled, hcr] using he
    have := h.memory.begun
    omega
  | arrive n data => exact (hdeliver n (by simp [enabled, hcr])).elim
  | flush n k => exact (hdeliver n (by simp [enabled, hcr])).elim
  | readCb n c => exact (hdeliver n (by simp [enabled, hcr])).elim
  | writeCb n c => exact (hdeliver n (by simp [enabled, hcr])).elim
  | eventCb n events c => exact (hdeliver n (by simp [enabled, hcr])).elim
  | dnsCb r a c =>
    have hl : (lookupOf w r).isSome = true := by simpa [enabled, hcr] using he
    obtain ⟨l, hl⟩ := Option.isSome_iff_exists.mp hl
    obtain ⟨hmem, rfl⟩ := lookupOf_some hl
    obtain ⟨k, hk, -⟩ := anchored_of_pending h.memory.dns hmem
    obtain ⟨x, hx⟩ := handOver_addrs a l.request (unlisted l w)
    refine ⟨a, l, k, hmem, ?_⟩
    have hreq : ((handOver a l.request (unlisted l w)).request l.request).session = some k := by
      rw [hx]
      exact hk.requests l hmem
    have hb : w.reference k = anchor w.registered w.resolving.length := hk.block
    have hptr : ((handOver a l.request (unlisted l w)).reference k).ptr.isSome = false := by
      rw [hx]
      show (w.reference k).ptr.isSome = false
      rw [hb, hreg]
      rfl
    simp only [next, hl]
    rw [show ({ w with resolving := w.resolving.erase l } : World P) = unlisted l w from rfl,
      dnsnameResolvedCb_anchored lib a c l.request k l.host _ hreq, hptr]
    rfl
  | fini =>
    have hyes : w.registered = true := by simpa [enabled, hcr] using he
    exact absurd (hreg.symm.trans hyes) (by decide)

theorem released_gone (a : Answer) (l : Lookup) (k : ℕ) (w : World P) :
    (released a l k w).registered = w.registered ∧ (released a l k w).calls = w.calls ∧
      (released a l k w).session = w.session ∧ (released a l k w).bev = w.bev ∧
      (released a l k w).strs = w.strs ∧ (released a l k w).nextStr = w.nextStr ∧
      (released a l k w).nextConn = w.nextConn := by
  obtain ⟨x, hx⟩ := released_eq a l k w
  rw [hx]
  exact ⟨rfl, rfl, rfl, rfl, rfl, rfl, rfl⟩

/-- With the request completed once at most, what every step keeps under the
invariant holds at the end of a run. -/
theorem run_once_keeps {C : World P → Event → Prop} {Q : World P → Prop} {es : List Event}
    (h : Run (system lib) C w es w') (hl : ∀ w e, C w e → answersLater lib w e = true)
    (hstep : ∀ w e, Reached lib False w → Once w → Q w → enabled w e = true → C w e →
      CompletesOnce lib w e → Q (next lib w e))
    (hw : Reached lib False w) (hq : Q w) (ho : Once w') : Reached lib False w' ∧ Q w' := by
  have hrun : CompletedRequests.Begun lib w' ∧ (Once w' → Reached lib False w' ∧ Q w') := by
    refine run_invariant (I := fun w => CompletedRequests.Begun lib w ∧
      (Once w → Reached lib False w ∧ Q w)) ?_ h
      ⟨CompletedRequests.begun_of_reached hw, fun _ => ⟨hw, hq⟩⟩
    rintro w e ⟨hb, hr⟩ he hc
    refine ⟨.inr (CompletedRequests.next_begun e hb he), ?_⟩
    intro ho
    have hle := (CompletedRequests.next_calls e hb he).sublist.count_le (a := .clientMsgComplete)
    have ho : (next lib w e).calls.count .clientMsgComplete ≤ 1 := ho
    have hold : Once w := by
      rw [Once]
      omega
    obtain ⟨hreached, hq⟩ := hr hold
    have hagain : completesAgain w e = false := by
      by_contra hno
      have hno : completesAgain w e = true := by simpa using hno
      rcases hreached with ⟨worker, rfl⟩ | hinv
      · obtain ⟨c, rfl⟩ := enabled_initial he
        cases hno
      · obtain ⟨hpos, hcount⟩ := CompletedRequests.completesAgain_served hinv he hno
        omega
    have hcompletes : CompletesOnce lib w e := ⟨hl w e hc, hagain⟩
    exact ⟨.inr (next_reached e hreached he (orderly_of_completesOnce hcompletes) False.elim),
      hstep w e hreached hold hq he hc hcompletes⟩
  exact hrun.2 ho

theorem accept_registered (c : AcceptChoices) (worker : Bool)
    (hreg : (tcpSocketAcceptCb lib c (initial lib worker)).registered = true) :
    tcpSocketAcceptCb lib c (initial lib worker) = accepted lib true := by
  have hno : ∀ u : World P, Aside (owning lib) u → u.registered = true → False := by
    intro u hu hyes
    cases hu.registered hyes
  have ha := aside_refl (owning lib)
  cases hearly : c.family && c.getsockname && c.getBase && c.buffereventSocketNew with
  | false =>
    rw [tcpSocketAcceptCb_early c worker hearly] at hreg
    cases hreg
  | true =>
    rw [tcpSocketAcceptCb_late c worker hearly, httpServiceAcceptCb] at hreg ⊢
    cases worker with
    | false => cases hreg
    | true =>
      cases hnew : c.tcpSocketNew with
      | false =>
        simp only [tcpSocketAccept, hnew] at hreg
        cases hreg
      | true =>
        rw [tcpSocketAccept_owning c hnew] at hreg ⊢
        cases henable : c.buffereventEnable with
        | false =>
          rw [henable] at hreg
          cases hreg
        | true =>
          simp only [henable, if_true] at hreg ⊢
          cases h1 : c.sessionNew with
          | false =>
            simp only [sessionNew, h1] at hreg
            exact (hno _ (aside_tcpSocketFree 0 ha) hreg).elim
          | true =>
            cases h2 : c.httpSessionNew with
            | false =>
              simp only [sessionNew, h1, h2, httpSessionNew] at hreg
              refine (hno _ ?_ hreg).elim
              apply aside_tcpSocketFree
              apply aside_sessionFree
              exact aside_of_marks ha rfl
            | true =>
              simp only [sessionNew_opened c h1 h2] at hreg ⊢
              cases hn : c.nodeNew with
              | false =>
                rw [hn] at hreg
                cases hreg
              | true => rfl

theorem turn_of_registered {e : Event} (hw : Reached lib False w) (ho : Once w)
    (he : enabled w e = true) (hc : CompletesOnce lib w e) (hin : inOrder w e = true)
    (hreg : (next lib w e).registered = true) :
    next lib w e = accepted lib true ∨ w.registered = true ∧
      Turn lib (cueOf lib w e) (front w) (front (next lib w e)) := by
  rcases hw with ⟨worker, rfl⟩ | h
  · obtain ⟨c, rfl⟩ := enabled_initial he
    exact .inl (accept_registered c worker hreg)
  · right
    have hold := (CompletedRequests.next_later lib e he h.memory.begun).registered hreg
    rcases next_turn e h hold ho he hc hin with ⟨hno, -⟩ | ht
    · exact absurd (hno.symm.trans hreg) (by decide)
    · exact ⟨hold, ht⟩

end Tigera.SessionTurns
