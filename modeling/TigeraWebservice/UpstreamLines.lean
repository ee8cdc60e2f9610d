import TigeraWebservice.ClientBytes

/-!
# The lines to the upstreams

What every step makes of the output of an upstream's connection. A connection
gets a line when the lookup of its slot is answered and its request when it is
reported; nothing else is written to it, and what ends it can only empty it.
-/

set_option autoImplicit false

namespace Tigera.UpstreamLines
open ResourceLedger TransitionRuns HeaderBlock Tigera.CountedReference Tigera.HttpReading
open Tigera.MessageReading Tigera.JokeCreate Tigera.SessionWorld Tigera.SocketChannel
open Tigera.SessionProgram Tigera.SessionSystem Tigera.HeldConnections Tigera.HeldReferences
open Tigera.SessionMemory Tigera.SessionInvariant Tigera.UpstreamCallbacks Tigera.ClientResponse
open Tigera.ReplyCallbacks Tigera.ClientRequest Tigera.ChannelCallbacks Tigera.SessionRuns
open Tigera.OneResponse Tigera.SessionTurns Tigera.UpstreamAccounting Tigera.ReplyOrder
open Tigera.PlainMessages

variable {P : Type} {lib : Libs P} {u v w w' : World P} {idx : Slot} {n : ℕ} {c : Choices}

/-- What `http_request_write` adds to the output, piece by piece. -/
def pieces (request : HttpRequest) : List Bytes :=
  request.requestLine :: request.headers ++ [literal "\r\n"]

def text (request : HttpRequest) : Bytes := (pieces request).flatten

def requestOf (idx : Slot) : HttpRequest :=
  if idx = .name then
    ⟨literal "GET /api/ HTTP/1.1\r\n",
      [literal "Host: uinames.com\r\n", literal "User-Agent: Tigera/WebService/1.0.0\r\n",
        literal "Accept: */*\r\n"]⟩
  else
    ⟨literal "GET /jokes/random?firstName=Eduardo&lastName=Panisset&limitTo=[nerdy] HTTP/1.1\r\n",
      [literal "Host: api.icndb.com\r\n", literal "User-Agent: Tigera/WebService/1.0.0\r\n",
        literal "Accept: */*\r\n"]⟩

/-- The domain names that `client_msg_complete` resolves. -/
def domain : Host → Bytes
  | .uinames => literal "uinames.com"
  | .icndb => literal "api.icndb.com"

def Plain (line : Bytes) : Prop := line ≠ [] ∧ 10 ∉ line

instance (line : Bytes) : Decidable (Plain line) := inferInstanceAs (Decidable (_ ∧ _))

def ofLines (start : Bytes) (headers : List Bytes) : HttpRequest where
  requestLine := start ++ literal "\r\n"
  headers := headers.map (· ++ literal "\r\n")

theorem lines_headers {headers : List Bytes} {rest : Bytes} (h : ∀ line ∈ headers, Plain line) :
    lines [] ((headers.map (· ++ literal "\r\n") ++ [literal "\r\n"]).flatten ++ rest) =
      some (headers, rest) := by
  induction headers with
  | nil => rfl
  | cons line headers ih =>
    obtain ⟨hne, hlf⟩ := h line List.mem_cons_self
    have hrest := ih fun l hl => h l (List.mem_cons_of_mem _ hl)
    have hsplit : ((line :: headers).map (· ++ literal "\r\n") ++ [literal "\r\n"]).flatten ++ rest =
        line ++ 13 :: 10 ::
          ((headers.map (· ++ literal "\r\n") ++ [literal "\r\n"]).flatten ++ rest) := by
      simp [literal]
    rw [hsplit, lines_line hlf hne, hrest]
    rfl

theorem lines_text {start : Bytes} {headers : List Bytes} {rest : Bytes} (hs : Plain start)
    (h : ∀ line ∈ headers, Plain line) :
    lines [] (text (ofLines start headers) ++ rest) = some (start :: headers, rest) := by
  have hall : ∀ line ∈ start :: headers, Plain line := by
    intro line hl
    rcases List.mem_cons.mp hl with rfl | hl
    · exact hs
    · exact h line hl
  exact lines_headers hall

def startLine (idx : Slot) : Bytes :=
  if idx = .name then literal "GET /api/ HTTP/1.1"
  else literal "GET /jokes/random?firstName=Eduardo&lastName=Panisset&limitTo=[nerdy] HTTP/1.1"

def headerLines (host : Host) : List Bytes :=
  [literal "Host: " ++ domain host, literal "User-Agent: Tigera/WebService/1.0.0",
    literal "Accept: */*"]

theorem requestOf_lines {host : Host} (h : slotHost idx = some host) :
    requestOf idx = ofLines (startLine idx) (headerLines host) ∧ Plain (startLine idx) ∧
      ∀ line ∈ headerLines host, Plain line := by
  cases idx with
  | client => cases h
  | name =>
    obtain rfl := Option.some.inj h
    exact ⟨congrArg₂ HttpRequest.mk (by decide) (by decide), by decide, by decide⟩
  | joke =>
    obtain rfl := Option.some.inj h
    exact ⟨congrArg₂ HttpRequest.mk (by decide) (by decide), by decide, by decide⟩

structure Addressed (request : Bytes) (host : Host) : Prop where
  lines : ∃ start headers, lines [] request = some (start :: headers, []) ∧
    start.takeWhile (· ≠ 32) = literal "GET" ∧
    (headers.map field).filter (fun f => f.1 = literal "Host") = [(literal "Host", domain host)]

theorem addressed_requestOf {host : Host} (h : slotHost idx = some host) :
    Addressed (text (requestOf idx)) host := by
  obtain ⟨hrequest, hstart, hheaders⟩ := requestOf_lines h
  have hread : lines [] (text (ofLines (startLine idx) (headerLines host)) ++ []) =
      some (startLine idx :: headerLines host, []) := lines_text hstart hheaders
  rw [List.append_nil, ← hrequest] at hread
  refine ⟨_, _, hread, ?_, ?_⟩
  · cases idx <;> decide
  · cases host <;> decide

structure Line where
  output : List Chunk := []
  connecting : Bool := false
  peer : Option SockAddr := none

def line (w : World P) (n : ℕ) : Line := ⟨(w.bev n).output, (w.bev n).connecting, (w.bev n).peer⟩

def Line.emptied (l : Line) : Line := { l with output := [] }

theorem line_of_bev (h : v.bev = w.bev) : line v = line w := by
  funext n
  rw [line, h, line]

theorem line_update (e : Bufferevent) (h : v.bev = Function.update w.bev n e) :
    line v = Function.update (line w) n ⟨e.output, e.connecting, e.peer⟩ := by
  funext m
  by_cases hm : m = n
  · subst hm
    simp [line, h]
  · simp [line, h, hm]

def Emptied (w u : World P) : Prop := ∀ m, line u m = line w m ∨ line u m = (line w m).emptied

theorem emptied_of_line (h : line u = line w) : Emptied w u := fun m => .inl (congrFun h m)

theorem emptied_trans (h : Emptied u v) (h' : Emptied v w) : Emptied u w := by
  intro m
  rcases h m with hv | hv <;> rcases h' m with hw | hw
  · exact .inl (hw.trans hv)
  · exact .inr (hw.trans (congrArg Line.emptied hv))
  · exact .inr (hw.trans hv)
  · rw [hv] at hw
    exact .inr hw

theorem emptied_buffereventFree (b : ℕ) (w : World P) : Emptied w (buffereventFree b w) := by
  intro m
  have hline := line_update (v := buffereventFree b w) (w := w) _ rfl
  by_cases hm : m = b
  · subst hm
    right
    rw [hline, Function.update_self]
    rfl
  · left
    rw [hline, Function.update_of_ne hm]

theorem emptied_tcpSocketFree (n : ℕ) (w : World P) : Emptied w (tcpSocketFree n w) := by
  simp only [tcpSocketFree]
  split
  · exact emptied_of_line rfl
  · next b _ =>
    split
    · exact emptied_of_line rfl
    · exact emptied_buffereventFree b (onChan n id w)

theorem emptied_freeSlot (i : Slot) (w : World P) : Emptied w (freeSlot i w) := by
  rw [freeSlot]
  split
  · exact emptied_tcpSocketFree _ (onHttp _ (fun s => { s with body := none }) w)
  · exact emptied_of_line rfl

theorem line_referenceDec (me : Option ℕ) (w : World P) :
    line (onReference referenceDec me w) = line w := by
  cases me with
  | none => rfl
  | some k =>
    simp only [onReference, referenceDec]
    split
    · split <;> split <;> rfl
    · rfl

theorem line_freeStr (s : Option CStr) (w : World P) : line (freeStr s w) = line w := by
  cases s <;> rfl

theorem emptied_sessionFree (w : World P) : Emptied w (sessionFree w) := by
  have h1 : Emptied w (freeSlots w) :=
    emptied_trans (emptied_freeSlot .client w)
      (emptied_trans (emptied_freeSlot .name _) (emptied_freeSlot .joke _))
  rw [sessionFree, show freeSlot .joke (freeSlot .name (freeSlot .client w)) = freeSlots w from rfl]
  refine emptied_trans h1 (emptied_of_line ?_)
  have h2 : line (onSession (fun s => { s with me := none })
      (onReference referenceDec (freeSlots w).session.me (freeSlots w))) = line (freeSlots w) :=
    line_referenceDec _ _
  generalize onSession (fun s => { s with me := none }) _ = x at h2 ⊢
  have h3 : line (onSession (fun s => { s with name := none }) (freeStr x.session.name x)) =
      line x := line_freeStr _ x
  generalize onSession (fun s => { s with name := none }) _ = y at h3 ⊢
  have h4 : line (onSession (fun s => { s with surname := none })
      (freeStr y.session.surname y)) = line y := line_freeStr _ y
  generalize onSession (fun s => { s with surname := none }) _ = z at h4 ⊢
  exact (line_freeStr _ z).trans (h4.trans (h3.trans h2))

theorem emptied_remove (w : World P) : Emptied w (httpServiceSessionRemove w) :=
  emptied_sessionFree _

/-- What a step makes of the line of connection `n`. -/
inductive Becomes (w w' : World P) (n : ℕ) : Prop where
  | same (same : line w' n = line w n)
  | ends (gone : w'.registered = false) (output : (line w' n).output = (line w n).output ∨
      (line w' n).output = []) (peer : (line w' n).peer = (line w n).peer)
      (connecting : (line w' n).connecting = true → (line w n).connecting = true)
  | closed (closed : line w' n = (line w n).emptied)
      (idle : ∀ i, w'.session.httpSessions i ≠ some n)
  | opened (idx : Slot) (peer : SockAddr) (new : n = w.nextConn) (born : n < w'.nextConn)
      (pending : (front w).pending idx = true) (host : some peer.host = slotHost idx)
      (opened : line w' n = { connecting := true, peer := some peer })
      (answered : (front w').pending idx = false)
  | asked (idx : Slot) (cs : List Chunk) (upstream : idx ≠ .client)
      (held : w.session.httpSessions idx = some n) (connecting : (line w n).connecting = true)
      (begins : outputBytes cs <+: text (requestOf idx))
      (asked : line w' n = { line w n with output := (line w n).output ++ cs, connecting := false })
      (whole : w'.registered = true → outputBytes cs = text (requestOf idx))

theorem becomes_emptied (hgone : w'.registered = false) (h : line w' n = (line w n).emptied) :
    Becomes w w' n := by
  refine .ends hgone (.inr ?_) ?_ ?_
  · rw [h]
    rfl
  · rw [h]
    rfl
  · rw [h]
    exact id

theorem becomes_remove (h : line u n = line w n) :
    Becomes w (httpServiceSessionRemove u) n := by
  rcases emptied_remove u n with he | he
  · exact .same (he.trans h)
  · rw [h] at he
    exact becomes_emptied (remove_registered u) he

theorem ends_remove (h : line u n = { line w n with connecting := false }) :
    Becomes w (httpServiceSessionRemove u) n := by
  rcases emptied_remove u n with he | he
  · rw [h] at he
    refine .ends (remove_registered u) (.inl ?_) ?_ ?_
    · rw [he]
    · rw [he]
    · rw [he]
      exact False.elim ∘ Bool.false_ne_true
  · rw [h] at he
    refine .ends (remove_registered u) (.inr ?_) ?_ ?_
    · rw [he]
      rfl
    · rw [he]
      rfl
    · rw [he]
      exact False.elim ∘ Bool.false_ne_true

theorem evbufferAddAll_line (ok : ℕ → Bool) (k : ℕ) (cs : List Chunk) (w : World P)
    (hb : (w.chan n).bev = some n) : ∃ done, done <+: cs ∧
      ((evbufferAddAll ok n k cs w).1 = true → done = cs) ∧
      line (evbufferAddAll ok n k cs w).2 =
        Function.update (line w) n { line w n with output := (line w n).output ++ done } ∧
      ((evbufferAddAll ok n k cs w).2.chan n).bev = some n ∧
      (evbufferAddAll ok n k cs w).2.session = w.session := by
  induction cs generalizing k w with
  | nil =>
    refine ⟨[], List.prefix_refl _, fun _ => rfl, ?_, hb, rfl⟩
    rw [List.append_nil]
    exact (Function.update_eq_self n (line w)).symm
  | cons c cs ih =>
    rw [evbufferAddAll, evbufferAdd]
    cases hk : ok k with
    | false =>
      simp only [Bool.false_eq_true, if_false]
      refine ⟨[], List.nil_prefix, False.elim, ?_, hb, trivial⟩
      rw [List.append_nil]
      exact (Function.update_eq_self n (line w)).symm
    | true =>
      have he : onChannelBev n (fun e => { e with output := e.output ++ [c] }) w =
          onBev n (fun e => { e with output := e.output ++ [c] }) (onChan n id w) := by
        simp [onChannelBev, onChan, hb]
      simp only [he, if_true]
      have hline : line (onBev n (fun e => { e with output := e.output ++ [c] }) (onChan n id w)) =
          Function.update (line w) n { line w n with output := (line w n).output ++ [c] } :=
        line_update { w.bev n with output := (w.bev n).output ++ [c] } rfl
      obtain ⟨done, hp, hall, hl, hbev, hs⟩ := ih (k + 1)
        (onBev n (fun e => { e with output := e.output ++ [c] }) (onChan n id w))
        (by simpa [onBev, onChan] using hb)
      refine ⟨c :: done, ?_, fun ht => congrArg (c :: ·) (hall ht), ?_, hbev, hs⟩
      · exact List.cons_prefix_cons.mpr ⟨rfl, hp⟩
      · rw [hl, hline]
        simp [List.append_assoc]

theorem closing_becomes {i : Slot} {m : ℕ} (h : Inv lib False .client u)
    (hi : u.session.httpSessions i = some n) (hline : line u m = line w m) :
    Becomes w (callBack lib c n (u.http n).cbs.readyToClose (touched n u)) m := by
  have hcbs : (u.http n).cbs = slotCallbacks i := (h.memory.conns.held i n hi).cbs
  rw [hcbs]
  by_cases hc : i = .client
  · subst hc
    show Becomes w (clientReadyToClose (onHttp n id (touched n u))) m
    rw [clientReadyToClose]
    split
    · exact becomes_remove (u := onSession id (onHttp n id (touched n u))) hline
    · exact .same hline
  · rw [slotCallbacks_readyToClose hc]
    exact .same hline

theorem httpResponseWrite_line (body : CStr) (hch : (w.http 0).channel = 0)
    (hb : (w.chan 0).bev = some 0) (hn : n ≠ 0) :
    line (httpResponseWrite c 0 body w).2 n = line w n ∧
      (httpResponseWrite c 0 body w).2.session = w.session := by
  have hch' : ((call .httpResponseWrite (onHttp 0 id w)).http 0).channel = 0 := by
    simpa [call, onHttp] using hch
  simp only [httpResponseWrite, hch']
  cases c.datetime with
  | none => exact ⟨rfl, rfl⟩
  | some d =>
    obtain ⟨done, -, -, hl, hbev, hs⟩ := evbufferAddAll_line c.outputAdd 0
      ((responseHead d body.bytes.length).map fun b => ⟨b, none⟩)
      (call .httpResponseWrite (onHttp 0 id w)) hb
    simp only
    generalize evbufferAddAll c.outputAdd 0 0 _ _ = r at hl hbev hs ⊢
    obtain ⟨ok, u⟩ := r
    have hu : line u n = line w n := by
      rw [show line u = _ from hl, Function.update_of_ne hn]
      rfl
    cases ok with
    | false => exact ⟨hu, hs⟩
    | true =>
      obtain ⟨done', -, -, hl', -, hs'⟩ := evbufferAddAll_line (fun _ => c.outputAdd 6) 0
        [⟨body.bytes, some body⟩] u hbev
      simp only [evbufferAddAll] at hl' hs' ⊢
      generalize evbufferAdd (c.outputAdd 6) 0 _ u = q at hl' hs' ⊢
      obtain ⟨ok, v⟩ := q
      have hv : line v n = line w n := by
        cases ok <;> rw [show line v = _ from hl', Function.update_of_ne hn, hu]
      have hvs : v.session = w.session := by
        cases ok <;> exact hs'.trans hs
      cases ok with
      | false => exact ⟨(congrFun (line_freeStr (some body) v) n).trans hv, hvs⟩
      | true => exact ⟨hv, hvs⟩

def Left (v r : World P) (n : ℕ) : Prop :=
  line r n = line v n ∧ r.session.httpSessions = v.session.httpSessions ∨
    r.registered = false ∧ (line r n = line v n ∨ line r n = (line v n).emptied)

theorem left_remove (h : line u n = line v n) : Left v (httpServiceSessionRemove u) n := by
  rw [Left, ← h]
  exact .inr ⟨remove_registered u, emptied_remove u n⟩

theorem httpClientResponse_left (h : Awaiting lib False .client w) (ho : Once w) (hn : n ≠ 0) :
    Left w (httpClientResponse c w) n := by
  cases hboth : bothReplied w.session with
  | false =>
    have hb : (w.session.nameReplied && w.session.jokeReplied) = false := hboth
    have he : httpClientResponse c w = onSession id w := by
      simp only [httpClientResponse, onSession, id, hb, Bool.false_eq_true, if_false]
    rw [he]
    exact .inl ⟨rfl, rfl⟩
  | true =>
    have hu := h.unanswered ho
    have hflags : w.session.nameReplied = true ∧ w.session.jokeReplied = true := by
      simpa [bothReplied] using hboth
    obtain ⟨name, hname⟩ := Option.isSome_iff_exists.mp (hu.name.trans hflags.1)
    obtain ⟨surname, hsurname⟩ := Option.isSome_iff_exists.mp (hu.surname.trans hflags.1)
    obtain ⟨joke, hjoke⟩ := Option.isSome_iff_exists.mp (hu.joke.trans hflags.2)
    have hclient : w.session.httpSessions .client = some 0 := h.plan.client
    have hheld := h.memory.conns.held .client 0 hclient
    obtain ⟨hk, hout⟩ := clientResponseCreate_ready (w := onSession id w) c hname hsurname hjoke
    rw [httpClientResponse_both c hboth, hclient]
    generalize clientResponseCreate c (onSession id w) = r at hk hout ⊢
    obtain ⟨response, x⟩ := r
    have hcx : x.crashed = false := hk.crashed.trans h.running
    have hline : line x = line w := line_of_bev (congrArg Wires.bev hk.wires)
    cases response with
    | none =>
      simp only [respond, hcx, Bool.false_eq_true, if_false]
      exact left_remove (u := sessionStateSet .errorClientResponse x) (congrFun hline n)
    | some body =>
      have hhttp : x.http = w.http := congrArg Wires.http hk.wires
      have hchan : x.chan = w.chan := congrArg Wires.chan hk.wires
      obtain ⟨hl, hs⟩ := httpResponseWrite_line (c := c) (n := n) (w := x) body
        (by rw [hhttp]; exact hheld.channel) (by rw [hchan]; exact hheld.bev) hn
      simp only [respond, hcx, Bool.false_eq_true, if_false]
      generalize httpResponseWrite c 0 body x = q at hl hs ⊢
      obtain ⟨ok, y⟩ := q
      have hy : line y n = line w n := hl.trans (congrFun hline n)
      cases ok with
      | false => exact left_remove (u := sessionStateSet .errorClientResponse y) hy
      | true =>
        refine .inl ⟨hy, ?_⟩
        have hslots : x.session.httpSessions = w.session.httpSessions := congrArg Wires.slots hk.wires
        exact (congrArg Session.httpSessions hs).trans hslots

theorem becomes_left {r : World P} {k : ℕ} (h : Left v r n)
    (hline : line v = Function.update (line w) k (line w k).emptied)
    (hslots : v.session.httpSessions = Function.update w.session.httpSessions idx none)
    (honly : ∀ i, w.session.httpSessions i = some k → i = idx) : Becomes w r n := by
  by_cases hnk : n = k
  · subst hnk
    have hv : line v n = (line w n).emptied := by rw [hline, Function.update_self]
    rcases h with ⟨hr, hs⟩ | ⟨hgone, hr⟩
    · refine .closed (hr.trans hv) fun i hi => ?_
      rw [hs, hslots] at hi
      by_cases hidx : i = idx
      · rw [hidx, Function.update_self] at hi
        cases hi
      · rw [Function.update_of_ne hidx] at hi
        exact hidx (honly i hi)
    · have hr : line r n = (line w n).emptied := by
        rcases hr with hr | hr <;> rw [hr, hv]
        rfl
      exact becomes_emptied hgone hr
  · have hv : line v n = line w n := by rw [hline, Function.update_of_ne hnk]
    rcases h with ⟨hr, -⟩ | ⟨hgone, hr | hr⟩
    · exact .same (hr.trans hv)
    · exact .same (hr.trans hv)
    · rw [hv] at hr
      exact becomes_emptied hgone hr

theorem httpResponse_becomes (h : Inv lib False idx w) (hreg : w.registered = true)
    (hcr : w.crashed = false) (ho : Once w) (hi : w.session.httpSessions idx = some n)
    (hidx : idx ≠ .client) {body : Bytes} (hbody : (w.http n).body = some body) {m : ℕ}
    (hm0 : m ≠ 0) : Becomes w (httpResponse lib idx c n w) m := by
  have hm := memory_replying h.memory hreg hi
  rw [httpResponse_replying c hbody]
  by_cases hempty : (body.isEmpty || !c.pullup) = true
  · rw [if_pos hempty]
    exact becomes_remove (u := sessionStateSet .errorClientResponse (replying idx n w)) rfl
  · rw [if_neg hempty]
    obtain ⟨hk, hst⟩ := unpack_spec lib c body (replying idx n w) hidx
    generalize unpack lib c idx body (replying idx n w) = r at hk hst ⊢
    obtain ⟨ok, u⟩ := r
    simp only at hk hst
    have hline : line u = line w := line_of_bev (congrArg Wires.bev hk.wires)
    cases ok with
    | false =>
      exact becomes_remove (u := sessionStateSet .errorClientResponse u) (congrFun hline m)
    | true =>
      have hmu := memory_kept hm hreg hk
      have hregu : u.registered = true := (kept_registered hk).trans hreg
      have hsu : u.session.httpSessions = w.session.httpSessions := congrArg Wires.slots hk.wires
      have hhttp : u.http = w.http := by
        rw [show u.http = (replying idx n w).http from congrArg Wires.http hk.wires]
        simp [replying, onSession, call, onHttp]
      have hiu : (onSession (markReplied idx) u).session.httpSessions idx = some n := by
        show (markReplied idx u.session).httpSessions idx = some n
        rw [(markReplied_fields u.session).1, hsu, hi]
      have ha := awaiting_reply h hreg hcr hi hidx hmu hsu hhttp (congrArg Wires.bev hk.wires)
        hk.lookups (hk.crashed.trans hcr) hk.calls (s := (replying idx n w).session)
        ⟨rfl, rfl, rfl, rfl, rfl, rfl⟩ (hst rfl)
      have hov : Once (freeSlot idx (onSession (markReplied idx) u)) := by
        have hcalls : (freeSlot idx (onSession (markReplied idx) u)).calls = .reply idx :: w.calls :=
          (congrArg Rest.calls (rest_freeSlot idx (onSession (markReplied idx) u))).trans hk.calls
        exact (once_cons (by simp) hcalls).mpr ho
      have hconns : ConnsOk False (wires (onSession (markReplied idx) u)) :=
        (memory_onSession hmu hregu (markReplied idx) (markReplied_fields _).1
          (markReplied_fields _).2).conns
      have hheld := hconns.held idx n hiu
      have hlinev : line (freeSlot idx (onSession (markReplied idx) u)) =
          Function.update (line w) n (line w n).emptied := by
        rw [freeSlot_some hiu, httpSessionFree_eq (w := onSession (markReplied idx) u) hheld.channel
          hheld.bev hheld.listen, ← hline]
        exact line_update { u.bev n with input := [], output := [] } rfl
      have hslots : (freeSlot idx (onSession (markReplied idx) u)).session.httpSessions =
          Function.update w.session.httpSessions idx none := by
        rw [freeSlot_some hiu, httpSessionFree_eq (w := onSession (markReplied idx) u) hheld.channel
          hheld.bev hheld.listen, ← hsu, ← (show (markReplied idx u.session).httpSessions = _ from
            (markReplied_fields u.session).1)]
        rfl
      simp only
      rw [← freeSlot_some hiu]
      generalize freeSlot idx (onSession (markReplied idx) u) = v at ha hov hlinev hslots ⊢
      exact becomes_left (httpClientResponse_left ha hov hm0) hlinev hslots
        fun j hj => h.memory.conns.distinct j idx n hj hi

theorem clientMsgComplete_becomes (h : Requesting False w) (hlater : answersInside c = false)
    (n : ℕ) : Becomes w (clientMsgComplete lib c 0 w) n := by
  rw [clientMsgComplete_later lib c h hlater]
  split
  · exact .same rfl
  · split
    · exact becomes_remove rfl
    · apply becomes_remove
      cases c.referenceNew <;> rfl

theorem line_attempt (c : ConnectChoices) (ss : SockAddr) (hc : connects c w.worker = false)
    (hblank : line w w.nextConn = {}) : line (attempt lib c ss w) = line w := by
  have hother : ∀ (e : Bufferevent) (x : World P), x.bev = Function.update w.bev w.nextConn e →
      (⟨e.output, e.connecting, e.peer⟩ : Line) = {} → line x = line w := by
    intro e x hx he
    rw [line_update e hx, he, ← hblank, Function.update_eq_self]
  by_cases h1 : c.tcpSocketNew = true
  · by_cases h2 : c.httpSessionNew = true
    · rcases connects_cases h1 h2 hc with h3 | ⟨h3, h4⟩ | ⟨h3, h4, h5⟩ | ⟨h3, h4, h5, h6⟩ |
        ⟨h3, h4, h5, h6, h7⟩
      all_goals
        simp only [attempt, tcpSocketNew, httpSessionNew, tcpSocketConnect, tcpSocketConnectError,
          tcpSocketConfig, buffereventSocketNew, buffereventFree, evutilClosesocket, httpSessionFree,
          channelFree, tcpSocketFree, onHttp, onChan, onBev, httpSessionInit, h1, h2, h3,
          Function.update_self, Option.isSome_none, if_true, if_false, Bool.false_eq_true, id]
      · rfl
      · simp only [h4, if_false, Bool.false_eq_true, Function.update_self]
        rfl
      · simp only [h4, h5, if_true, if_false, Bool.false_eq_true, Function.update_self]
        rfl
      · simp only [h4, h5, h6, if_true, if_false, Bool.false_eq_true, Function.update_self]
        exact hother { cbarg := some w.nextConn } _ (by simp) rfl
      · simp only [h4, h5, h6, h7, if_true, if_false, Bool.false_eq_true, Function.update_self]
        exact hother { cbarg := some w.nextConn } _ (by simp) rfl
    · simp only [attempt, h1, h2, tcpSocketNew, channelFree, tcpSocketFree, onChan, if_true, if_false,
        Bool.false_eq_true, Function.update_self]
      rfl
  · simp only [attempt, h1]
    rfl

theorem line_connected (ss : SockAddr) (idx : Slot) (w : World P) :
    line (connected lib ss idx w) =
      Function.update (line w) w.nextConn { connecting := true, peer := some ss } :=
  line_update { cbarg := some w.nextConn, connecting := true, peer := some ss } rfl

theorem dnsnameResolvedCb_becomes (a : Answer) (c : ConnectChoices) {l : Lookup}
    (h : Inv lib False .client w) (hreg : w.registered = true) (hcr : w.crashed = false)
    (hl : l ∈ w.resolving) (hblank : line w w.nextConn = {}) (n : ℕ) :
    Becomes w (dnsnameResolvedCb lib a c l.request l.host
      (handOver a l.request (unlisted l w))) n := by
  obtain ⟨k, hk, -⟩ := anchored_of_pending h.memory.dns hl
  obtain ⟨x, hx⟩ := handOver_addrs a l.request (unlisted l w)
  have hp := h.plan hreg hcr
  obtain ⟨hhost, hslot⟩ := hp.lookup l hl
  have hreq : ((handOver a l.request (unlisted l w)).request l.request).session = some k := by
    rw [hx]
    exact hk.requests l hl
  have hb : w.reference k = anchor w.registered w.resolving.length := hk.block
  have hptr : ((handOver a l.request (unlisted l w)).reference k).ptr.isSome = true := by
    rw [hx]
    show (w.reference k).ptr.isSome = true
    rw [hb, hreg]
    rfl
  have hidx : ((handOver a l.request (unlisted l w)).request l.request).idx =
      slotOf (rest w) l := by
    rw [hx]
    rfl
  have hpend := pendings_released (k := k) a h.memory hl hp
  obtain ⟨-, -, -, hbev, -, -, hnext⟩ := released_gone a l k w
  have hworker : (released a l k w).worker = w.worker := by
    obtain ⟨y, hy⟩ := released_eq a l k w
    rw [hy]
    rfl
  rw [dnsnameResolvedCb_anchored lib a c l.request k l.host _ hreq, hptr, if_pos rfl, hidx]
  rw [show answered l.request k (handOver a l.request (unlisted l w)) = released a l k w from rfl]
  generalize released a l k w = r at hpend hbev hnext hworker ⊢
  have hr : line r = line w := line_of_bev hbev
  cases a with
  | error => exact becomes_remove (u := sessionStateSet .errorResolvingDomain r) (congrFun hr n)
  | addresses families =>
    simp only [resolved]
    cases families.find? usable with
    | none =>
      exact becomes_remove (u := sessionStateSet .errorResolvingDomain
        { r with addrs := .free l.request :: .use l.request :: r.addrs }) (congrFun hr n)
    | some family =>
      simp only
      have hu : line (onSession (fun s => { s with pendingResolutions := s.pendingResolutions - 1 })
          { r with addrs := .free l.request :: .use l.request :: r.addrs }) = line w := hr
      have hun : (onSession (fun s => { s with pendingResolutions := s.pendingResolutions - 1 })
          { r with addrs := .free l.request :: .use l.request :: r.addrs }).nextConn =
          w.nextConn := hnext
      have huw : (onSession (fun s => { s with pendingResolutions := s.pendingResolutions - 1 })
          { r with addrs := .free l.request :: .use l.request :: r.addrs }).worker =
          w.worker := hworker
      have hup : pendings (rest (onSession (fun s => { s with
          pendingResolutions := s.pendingResolutions - 1 })
          { r with addrs := .free l.request :: .use l.request :: r.addrs })) =
          Function.update (pendings (rest w)) (slotOf (rest w) l) false := hpend
      generalize onSession (fun s => { s with pendingResolutions := s.pendingResolutions - 1 })
        { r with addrs := .free l.request :: .use l.request :: r.addrs } = u at hu hun huw hup ⊢
      cases hc : connects c w.worker with
      | false =>
        rw [httpServerConnect_attempt lib c ⟨family, l.host⟩ (slotOf (rest w) l) (huw.symm ▸ hc)]
        have hline : line (attempt lib c ⟨family, l.host⟩ u) = line u :=
          line_attempt c ⟨family, l.host⟩ (huw.symm ▸ hc) (by rw [hu, hun]; exact hblank)
        exact becomes_remove (u := sessionStateSet .errorConnectingToWs
          (attempt lib c ⟨family, l.host⟩ u)) (congrFun (hline.trans hu) n)
      | true =>
        rw [httpServerConnect_connects lib c ⟨family, l.host⟩ (slotOf (rest w) l) u
          (huw.symm ▸ hc)]
        have hline : line (connected lib ⟨family, l.host⟩ (slotOf (rest w) l) u) = _ :=
          line_connected ⟨family, l.host⟩ (slotOf (rest w) l) u
        rw [hu, hun] at hline
        by_cases hn : n = w.nextConn
        · subst hn
          refine .opened (slotOf (rest w) l) ⟨family, l.host⟩ rfl ?_ ?_ hhost.symm ?_ ?_
          · show w.nextConn < u.nextConn + 1
            rw [hun]
            exact Nat.lt_succ_self _
          · show (rest w).resolving.any _ = true
            rw [List.any_eq_true]
            exact ⟨l, hl, by simp⟩
          · rw [hline, Function.update_self]
          · show pendings (rest u) (slotOf (rest w) l) = false
            rw [hup, Function.update_self]
        · exact .same (by rw [hline, Function.update_of_ne hn])

theorem becomes_congr (hline : line u = line w) (hnext : u.nextConn = w.nextConn)
    (hfront : front u = front w) (h : Becomes u w' n) : Becomes w w' n := by
  have hsession : u.session = w.session := congrArg Front.session hfront
  cases h with
  | same same => exact .same (same.trans (congrFun hline n))
  | ends gone output peer connecting =>
    rw [hline] at output peer connecting
    exact .ends gone output peer connecting
  | closed closed idle =>
    rw [hline] at closed
    exact .closed closed idle
  | opened idx peer new born pending host opened answered =>
    rw [hfront] at pending
    exact .opened idx peer (new.trans hnext) born pending host opened answered
  | asked idx cs upstream held connecting begins asked whole =>
    rw [hline] at connecting asked
    rw [hsession] at held
    exact .asked idx cs upstream held connecting begins asked whole

theorem line_stored (s : HttpSession P) (input : List UInt8)
    (hb : (w.chan n).bev = some n) : line (stored n s input w) = line w := by
  obtain ⟨-, -, hbev, -⟩ := stored_fields s input hb
  rw [line_update _ hbev]
  exact Function.update_eq_self n (line w)

theorem complete_becomes {s : HttpSession P} {input : List UInt8} {i : Slot}
    (h : Inv lib False .client w) (hreg : w.registered = true) (hcr : w.crashed = false)
    (ho : Once w) (hi : w.session.httpSessions i = some n)
    (hs : (w.http n).state ≠ .messageComplete)
    (hr : reads lib c n w = (.messageComplete, s, input)) (hstate : s.state = .messageComplete)
    {body : Bytes} (hbody : s.body = some body)
    (hlater : i = .client → answersInside c = false) {m : ℕ} (hm : m ≠ 0) :
    Becomes w (callBack lib c n s.cbs.messageComplete (stored n s input w)) m := by
  have hp := h.plan hreg hcr
  have hheld := h.memory.conns.held i n hi
  have hframe : Framed (w.http n) s := by
    have hf := reads_framed lib c n w
    rwa [hr] at hf
  have hcbs : s.cbs = slotCallbacks i := hframe.2.trans hheld.cbs
  obtain ⟨hrest, hhttp, hbev, hnext⟩ := stored_fields s input hheld.bev
  have hfront := front_stored s input hheld.bev
  have hline := line_stored s input hheld.bev
  have hsession : (stored n s input w).session = w.session := congrArg Rest.session hrest
  rw [hcbs]
  apply becomes_congr hline hnext hfront
  by_cases hc : i = .client
  · subst hc
    obtain rfl : n = 0 := Option.some.inj (hi.symm.trans hp.client)
    obtain ⟨h1, h2, h3⟩ := hp.quiet hs
    obtain ⟨-, hq⟩ := requesting_stored input h hreg hcr hi hframe hstate
      (outstanding_started h1 h2) fun _ => ⟨h1, h3⟩
    exact clientMsgComplete_becomes hq (hlater rfl) m
  · have hst : Inv lib False i (stored n s input w) :=
      inv_stored input h hi hframe (.inl hstate) (fun _ => ⟨rfl, hc⟩) fun hcl => absurd hcl hc
    have hi' : (stored n s input w).session.httpSessions i = some n := by
      rw [hsession]
      exact hi
    have hbody' : ((stored n s input w).http n).body = some body := by
      rw [hhttp, Function.update_self]
      exact hbody
    have ho' : Once (stored n s input w) := (once_of_rest hrest).mpr ho
    have hcb : callBack lib c n (slotCallbacks i).messageComplete (stored n s input w) =
        httpResponse lib i c n (stored n s input w) := by
      cases i with
      | client => exact absurd rfl hc
      | name => rfl
      | joke => rfl
    rw [hcb]
    exact httpResponse_becomes hst ((congrArg Rest.registered hrest).trans hreg)
      ((congrArg Rest.crashed hrest).trans hcr) ho' hi' hc hbody' hm

theorem readCb_becomes {i : Slot} (h : Inv lib False .client w) (hreg : w.registered = true)
    (hcr : w.crashed = false) (ho : Once w) (hi : w.session.httpSessions i = some n)
    (hlater : completes lib c n w = true → answersInside c = false)
    (hagain : reenters c n w = false) {m : ℕ} (hm : m ≠ 0) :
    Becomes w (httpSessionReadCb lib c n n w) m := by
  have hp := h.plan hreg hcr
  have ht := inv_touched h hi
  obtain ⟨hh, -, hbt⟩ := touched_fields n w
  have hheld := h.memory.conns.held i n hi
  have hb : ((touched n w).chan n).bev = some n := (ht.memory.conns.held i n hi).bev
  rw [httpSessionReadCb_eq c hheld]
  by_cases hcl : closes n w = true
  · rw [if_pos hcl]
    exact closing_becomes h hi rfl
  · rw [if_neg hcl]
    have hfailed : ∀ s input, reads lib c n w = (.failed, s, input) →
        Becomes w (finished lib c n (touched n w) (reads lib c n w)) m := by
      intro s input hr
      rw [hr]
      exact becomes_remove (u := stored n s input (touched n w)) (congrFun (line_stored s input hb) m)
    have hreturned : ∀ s input, reads lib c n w = (.returned, s, input) →
        Becomes w (finished lib c n (touched n w) (reads lib c n w)) m := by
      intro s input hr
      rw [hr]
      exact .same (congrFun (line_stored s input hb) m)
    by_cases hs : (w.http n).state = .messageComplete
    · have hclient : i = .client := by
        by_contra hno
        exact hp.reading i n hno hno hi hs
      subst hclient
      have hr := reads_complete lib c hs
      split at hr
      · exact hreturned _ _ hr
      · next h0 =>
        split at hr
        · next hd =>
          have hre : reenters c n w = true := by
            have h0 : (w.bev n).input ≠ [] := fun hnil => h0 (by rw [hnil]; rfl)
            simp [reenters, hi, hs, hcl, h0, hd]
          exact absurd (hagain.symm.trans hre) (by decide)
        · exact hfailed _ _ hr
    · have hcomp : i = .client → (reads lib c n w).1 = .messageComplete →
          completes lib c n w = true := by
        rintro rfl hexit
        simp [completes, hi, hcl, hexit]
      rcases reads_incomplete lib c (hp.readable i n hi) hs with ⟨hexit, -, -⟩ |
        ⟨hexit, hstate, body, hbody⟩ | hexit
      · exact hreturned (reads lib c n w).2.1 (reads lib c n w).2.2 (Prod.ext hexit rfl)
      · have hr : reads lib c n w = (.messageComplete, (reads lib c n w).2.1,
            (reads lib c n w).2.2) := Prod.ext hexit rfl
        have hrt : reads lib c n (touched n w) = reads lib c n w := by
          rw [reads, reads, hh, hbt]
        have hdone := complete_becomes (c := c) ht hreg hcr ho hi (by rw [hh]; exact hs)
          (hrt.trans hr) hstate hbody (fun hc => hlater (hcomp hc hexit)) hm
        rw [hr]
        exact becomes_congr (u := touched n w) rfl rfl rfl hdone
      · exact hfailed (reads lib c n w).2.1 (reads lib c n w).2.2 (Prod.ext hexit rfl)

theorem outputBytes_prefix {cs ds : List Chunk} (h : cs <+: ds) :
    outputBytes cs <+: outputBytes ds := by
  obtain ⟨es, rfl⟩ := h
  rw [outputBytes_append]
  exact List.prefix_append _ _

theorem httpRequest_becomes (hidx : idx ≠ .client) (hi : w.session.httpSessions idx = some n)
    (hconn : (line w n).connecting = true)
    (hline : line u = Function.update (line w) n { line w n with connecting := false })
    (hch : (u.http n).channel = n) (hb : (u.chan n).bev = some n) (m : ℕ) :
    Becomes w (httpRequest (requestOf idx) c n u) m := by
  have hch' : ((onHttp n id (onSession (fun s => { s with
      pendingConnections := s.pendingConnections - 1 }) (onHttp n id u))).http n).channel = n := by
    simpa [onHttp, onSession] using hch
  obtain ⟨done, hp, hall, hl, -, -⟩ := evbufferAddAll_line c.outputAdd 0
    ((pieces (requestOf idx)).map fun b => (⟨b, none⟩ : Chunk))
    (onHttp n id (onSession (fun s => { s with
      pendingConnections := s.pendingConnections - 1 }) (onHttp n id u))) hb
  have hbytes : outputBytes ((pieces (requestOf idx)).map fun b => (⟨b, none⟩ : Chunk)) =
      text (requestOf idx) := outputBytes_plain _
  have hbegins := outputBytes_prefix hp
  rw [hbytes] at hbegins
  simp only [httpRequest, httpRequestWrite, hch']
  rw [show (requestOf idx).requestLine :: (requestOf idx).headers ++ [literal "\r\n"] =
    pieces (requestOf idx) from rfl]
  generalize evbufferAddAll c.outputAdd n 0 _ _ = r at hall hl ⊢
  obtain ⟨ok, y⟩ := r
  have hy : line y = Function.update (line w) n
      { line w n with output := (line w n).output ++ done, connecting := false } := by
    rw [show line y = Function.update (line u) n { line u n with
      output := (line u n).output ++ done } from hl, hline, Function.update_self,
      Function.update_idem]
  by_cases hm : m = n
  · subst hm
    have hym : line y m = { line w m with
        output := (line w m).output ++ done, connecting := false } := by
      rw [hy, Function.update_self]
    cases ok with
    | false =>
      rcases emptied_remove (sessionStateSet .errorRequestingFromWs y) m with he | he
      · refine .asked idx done hidx hi hconn hbegins (he.trans hym) fun hreg => ?_
        exact absurd ((remove_registered _).symm.trans hreg) (by decide)
      · rw [show line (sessionStateSet .errorRequestingFromWs y) m = line y m from rfl, hym] at he
        refine .ends (remove_registered _) (.inr ?_) ?_ fun _ => hconn
        · rw [he]
          rfl
        · rw [he]
          rfl
    | true =>
      refine .asked idx done hidx hi hconn hbegins hym fun _ => ?_
      rw [hall rfl, hbytes]
  · have hym : line y m = line w m := by rw [hy, Function.update_of_ne hm]
    cases ok with
    | false => exact becomes_remove (u := sessionStateSet .errorRequestingFromWs y) hym
    | true => exact .same hym

theorem eventCb_becomes {i : Slot} (events : BevEvents) (h : Inv lib False .client w)
    (hreg : w.registered = true) (hcr : w.crashed = false)
    (hi : w.session.httpSessions i = some n)
    (hin : events.connected = true → (w.bev n).connecting = true) {m : ℕ} (hm : m ≠ 0) :
    Becomes w (next lib w (.eventCb n events c)) m := by
  have h1 := inv_alterBev h hi
    (fun e => { e with connecting := e.connecting && !events.connected }) rfl rfl []
    (List.append_nil _).symm
  have hheld := h1.memory.conns.held i n hi
  have h2 := inv_onHttp_id (inv_onChan h1 hi
    (fun s => { s with eof := s.eof || (ioEvent events).eof }) rfl rfl rfl) hi
  rw [next, deliver_held hheld, tcpSocketEventCb_held c events hheld, httpSessionEventCb]
  have hline : line (onHttp n id (onChan n (fun s => { s with
      eof := s.eof || (ioEvent events).eof }) (alterBev n (fun e => { e with
        connecting := e.connecting && !events.connected }) w))) = Function.update (line w) n
          { line w n with connecting := (line w n).connecting && !events.connected } :=
    line_update { w.bev n with connecting := (w.bev n).connecting && !events.connected } rfl
  have hui : (onHttp n id (onChan n (fun s => { s with
      eof := s.eof || (ioEvent events).eof }) (alterBev n (fun e => { e with
        connecting := e.connecting && !events.connected }) w))).session.httpSessions i = some n := hi
  have hnext : (onHttp n id (onChan n (fun s => { s with
      eof := s.eof || (ioEvent events).eof }) (alterBev n (fun e => { e with
        connecting := e.connecting && !events.connected }) w))).nextConn = w.nextConn := rfl
  generalize onHttp n id (onChan n (fun s => { s with
      eof := s.eof || (ioEvent events).eof }) (alterBev n (fun e => { e with
        connecting := e.connecting && !events.connected }) w)) = u at h2 hline hui hnext ⊢
  have hother : events.connected = false → line u = line w := by
    intro hc
    rw [hline, hc, Bool.not_false, Bool.and_true]
    exact Function.update_eq_self n (line w)
  have hreported : events.connected = true →
      line u = Function.update (line w) n { line w n with connecting := false } := by
    intro hc
    rw [hline, hc, Bool.not_true, Bool.and_false]
  have hremoved : Becomes w (httpServiceSessionRemove u) m := by
    cases hc : events.connected with
    | false => exact becomes_remove (congrFun (hother hc) m)
    | true =>
      by_cases hmn : m = n
      · subst hmn
        exact ends_remove (by rw [hreported hc, Function.update_self])
      · exact becomes_remove (by rw [hreported hc, Function.update_of_ne hmn])
  split
  · exact hremoved
  · next herror =>
    have herror : events.error = false := by simpa [ioEvent] using herror
    split
    · next hcon =>
      have hc : events.connected = true := by
        have hcon : (!events.error && events.connected) = true := hcon
        exact (Bool.and_eq_true_iff.mp hcon).2
      have hcbs : (u.http n).cbs = slotCallbacks i := (h2.memory.conns.held i n hui).cbs
      rw [hcbs]
      by_cases hcl : i = .client
      · subst hcl
        obtain rfl : n = 0 := Option.some.inj (hi.symm.trans (h.plan hreg hcr).client)
        have hline : line u m = line w m := by rw [hreported hc, Function.update_of_ne hm]
        exact .same hline
      · have hh := h2.memory.conns.held i n hui
        have hcb : callBack lib c n (slotCallbacks i).connected u =
            httpRequest (requestOf i) c n u := by
          cases i with
          | client => exact absurd rfl hcl
          | name => rfl
          | joke => rfl
        rw [hcb]
        exact httpRequest_becomes hcl hi (hin hc) (hreported hc) hh.channel hh.bev m
    · next hcon =>
      have hc : events.connected = false := by
        cases hc : events.connected with
        | false => rfl
        | true => exact absurd (by simp [ioEvent, herror, hc]) hcon
      have hsame : line u m = line w m := congrFun (hother hc) m
      split
      · rw [httpSessionChannelShouldClose_eq]
        split
        · exact closing_becomes h2 hui hsame
        · exact .same hsame
      · split
        · exact hremoved
        · exact .same hsame

theorem next_becomes (e : Event) (h : Inv lib False .client w) (hreg : w.registered = true)
    (ho : Once w) (he : enabled w e = true) (hc : CompletesOnce lib w e)
    (hin : inOrder w e = true) (hblank : line w w.nextConn = {}) (hf : ∀ n k, e ≠ .flush n k)
    {m : ℕ} (hm : m ≠ 0) : Becomes w (next lib w e) m := by
  have hcr : w.crashed = false := h.steady (.inl hreg) ho
  have hdeliver : ∀ n, enabled w e = deliverable w n →
      ∃ i, w.session.httpSessions i = some n := fun n hn =>
    (held_of_deliverable h hcr (hn ▸ he)).2
  have hsame : ∀ n, onChan n id w = { w with conns := .use (.channel n) :: w.conns } := by
    intro n
    rw [onChan, id, Function.update_eq_self]
  cases e with
  | accept c =>
    have hn : w.nextConn = 0 := by simpa [enabled, hcr] using he
    have := h.memory.begun
    omega
  | arrive n data =>
    have hline : line (next lib w (.arrive n data)) = line w := by
      rw [line_update { w.bev n with input := (w.bev n).input ++ data } rfl]
      exact Function.update_eq_self n (line w)
    exact .same (congrFun hline m)
  | flush n k => exact absurd rfl (hf n k)
  | readCb n c =>
    obtain ⟨i, hi⟩ := hdeliver n (by simp [enabled, hcr])
    have hheld := h.memory.conns.held i n hi
    have hread := readCb_becomes (c := c) (inv_onChan h hi id rfl rfl rfl) hreg hcr ho hi
      (by
        intro hcomp
        rw [hsame] at hcomp
        have hcomp : completes lib c n w = true := hcomp
        simpa [answersLater, hcomp] using hc.1)
      (by
        rw [hsame]
        exact hc.2) hm
    rw [next, deliver_held hheld, tcpSocketReadCb, service_held hheld]
    exact becomes_congr (u := onChan n id w) rfl rfl rfl hread
  | writeCb n c =>
    obtain ⟨i, hi⟩ := hdeliver n (by simp [enabled, hcr])
    have hheld := h.memory.conns.held i n hi
    rw [next, deliver_held hheld, tcpSocketWriteCb, service_held hheld, httpSessionWriteCb,
      httpSessionChannelShouldClose_eq]
    split
    · exact closing_becomes (u := onChan n id w) (inv_onChan h hi id rfl rfl rfl) hi rfl
    · exact .same rfl
  | eventCb n events c =>
    obtain ⟨i, hi⟩ := hdeliver n (by simp [enabled, hcr])
    apply eventCb_becomes events h hreg hcr hi _ hm
    intro hconn
    simpa [inOrder, hconn] using hin
  | dnsCb r a c =>
    have hl : (lookupOf w r).isSome = true := by simpa [enabled, hcr] using he
    obtain ⟨l, hl⟩ := Option.isSome_iff_exists.mp hl
    obtain ⟨hmem, rfl⟩ := lookupOf_some hl
    simp only [next, hl]
    exact dnsnameResolvedCb_becomes a c h hreg hcr hmem hblank m
  | fini =>
    have hno : (httpServiceFini w).registered = false := by
      have hl := SessionHistory.aside_sessionFree
        (SessionHistory.aside_refl { w with registered := false })
      by_contra hyes
      cases hl.registered (by simpa [httpServiceFini] using hyes)
    rcases emptied_sessionFree { w with registered := false } m with hs | hs
    · exact .same hs
    · exact becomes_emptied hno hs

end Tigera.UpstreamLines
