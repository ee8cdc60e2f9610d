import Mathlib.Data.Nat.Digits.Defs
import TigeraWebservice.SocketChannel

/-!
# The session program

`session.c`, the writing half of `http_session.c` and the session functions of
`http_service.c`, in the order in which they call one another. A function that
may fail takes the outcome of each fallible step from a record of choices. A
lookup is answered inside `evdns_getaddrinfo` or afterwards. Control that
returns to a caller after the session is gone goes on as the source does.
-/

set_option autoImplicit false

namespace Tigera.SessionProgram
open ResourceLedger Tigera.CountedReference Tigera.ParserMachine Tigera.HttpReading
open Tigera.JokeCreate Tigera.SessionWorld Tigera.SocketChannel

variable {P : Type}

/-- How one `dns_request_new` goes; `inside` is an answer delivered before
`evdns_getaddrinfo` returns. -/
structure ResolveChoices where
  calloc : Bool := true
  inside : Option Answer := none
  connect : ConnectChoices := {}
  deriving DecidableEq, Repr

structure Choices where
  read : ReadChoices := unfailing fun _ => []
  referenceNew : Bool := true
  nameRequest : ResolveChoices := {}
  jokeRequest : ResolveChoices := {}
  pullup : Bool := true
  strdupFirst : Bool := true
  strdupSecond : Bool := true
  mallocFirst : ℕ → Bool := fun _ => true
  mallocSecond : ℕ → Bool := fun _ => true
  datetime : Option Bytes := some (literal "Date: Thu, 01 Jan 1970 00:00:00 GMT\r\n")
  outputAdd : ℕ → Bool := fun _ => true

def httpSessionNew (lib : Libs P) (ok : Bool) (channel : ℕ) (type : ParserType) (w : World P) :
    Option ℕ × World P :=
  if ok then
    (some channel, onChan channel (fun s => { s with ctx := some channel })
      { w with conns := .alloc (.httpSession channel) :: w.conns
               http := Function.update w.http channel (httpSessionInit lib type channel) })
  else (none, w)

def httpSessionFree (h : ℕ) (w : World P) : World P :=
  let w := onHttp h (fun s => { s with body := none }) w
  let w := channelFree (w.http h).channel w
  { w with conns := .free (.httpSession h) :: w.conns }

def httpSessionCallbacksSet (h : ℕ) (cbs : HttpCallbacks) (w : World P) : World P :=
  onHttp h (fun s => { s with cbs := cbs }) w

def evbufferAdd (ok : Bool) (n : ℕ) (c : Chunk) (w : World P) : Bool × World P :=
  if ok then (true, onChannelBev n (fun e => { e with output := e.output ++ [c] }) w)
  else (false, w)

def evbufferAddAll (ok : ℕ → Bool) (n : ℕ) : ℕ → List Chunk → World P → Bool × World P
  | _, [], w => (true, w)
  | k, c :: cs, w =>
    match evbufferAdd (ok k) n c w with
    | (true, w) => evbufferAddAll ok n (k + 1) cs w
    | (false, w) => (false, w)

structure HttpRequest where
  requestLine : Bytes
  headers : List Bytes

def httpRequestWrite (c : Choices) (h : ℕ) (request : HttpRequest) (w : World P) :
    Bool × World P :=
  let w := onHttp h id w
  evbufferAddAll c.outputAdd (w.http h).channel 0
    ((request.requestLine :: request.headers ++ [literal "\r\n"]).map fun b => ⟨b, none⟩) w

def decimal (n : ℕ) : Bytes :=
  if n = 0 then literal "0" else (Nat.digits 10 n).reverse.map fun d => (48 + d).toUInt8

def responseHead (datetime : Bytes) (length : ℕ) : List Bytes :=
  [literal "HTTP/1.0 200 OK\r\n", literal "Content-Type: text/plain\r\n",
    literal "Content-Length: " ++ decimal length ++ literal "\r\n",
    literal "Server: Tigera/WebServer/1.0.0\r\n", datetime, literal "\r\n"]

def httpResponseWrite (c : Choices) (h : ℕ) (body : CStr) (w : World P) : Bool × World P :=
  let w := call .httpResponseWrite (onHttp h id w)
  let n := (w.http h).channel
  match c.datetime with
  | none => (false, w)
  | some datetime =>
    match evbufferAddAll c.outputAdd n 0
        ((responseHead datetime body.bytes.length).map fun b => ⟨b, none⟩) w with
    | (false, w) => (false, w)
    | (true, w) =>
      match evbufferAdd (c.outputAdd 6) n ⟨body.bytes, some body⟩ w with
      | (true, w) => (true, w)
      | (false, w) => (false, freeStr (some body) w)

def setSlot (i : Slot) (h : Option ℕ) (s : Session) : Session :=
  { s with httpSessions := Function.update s.httpSessions i h }

/-- One turn of the loop of `session_free`. -/
def freeSlot (i : Slot) (w : World P) : World P :=
  let w := match w.session.httpSessions i with
    | some h => httpSessionFree h w
    | none => w
  onSession (setSlot i none) w

def sessionFree (w : World P) : World P :=
  let w := freeSlot .joke (freeSlot .name (freeSlot .client w))
  let w := onSession (fun s => { s with me := none }) (onReference referenceDec w.session.me w)
  let w := onSession (fun s => { s with name := none }) (freeStr w.session.name w)
  let w := onSession (fun s => { s with surname := none }) (freeStr w.session.surname w)
  let w := onSession (fun s => { s with joke := none }) (freeStr w.session.joke w)
  { w with life := .free () :: w.life }

/-- The session is released whether or not it is found in the list. -/
def httpServiceSessionRemove (w : World P) : World P :=
  sessionFree (call .sessionRemove { w with registered := false })

def sessionStateSet (state : SessionState) (w : World P) : World P :=
  onSession (fun s => { s with state := state }) w

def clientReadyToClose (w : World P) : World P :=
  let w := onSession id w
  if w.session.state = .clientResponse then httpServiceSessionRemove w else w

/-- `http_request_name` and `http_request_joke` differ in the request sent. -/
def httpRequest (request : HttpRequest) (c : Choices) (h : ℕ) (w : World P) : World P :=
  let w := onSession (fun s => { s with pendingConnections := s.pendingConnections - 1 })
    (onHttp h id w)
  match httpRequestWrite c h request w with
  | (false, w) => httpServiceSessionRemove (sessionStateSet .errorRequestingFromWs w)
  | (true, w) => onSession (fun s => { s with pendingReplies := s.pendingReplies + 1 }) w

def httpRequestName (c : Choices) (h : ℕ) (w : World P) : World P :=
  httpRequest ⟨literal "GET /api/ HTTP/1.1\r\n",
    [literal "Host: uinames.com\r\n", literal "User-Agent: Tigera/WebService/1.0.0\r\n",
      literal "Accept: */*\r\n"]⟩ c h w

def httpRequestJoke (c : Choices) (h : ℕ) (w : World P) : World P :=
  httpRequest ⟨literal
      "GET /jokes/random?firstName=Eduardo&lastName=Panisset&limitTo=[nerdy] HTTP/1.1\r\n",
    [literal "Host: api.icndb.com\r\n", literal "User-Agent: Tigera/WebService/1.0.0\r\n",
      literal "Accept: */*\r\n"]⟩ c h w

def upstreamCallbacks (idx : Slot) : HttpCallbacks :=
  if idx = .name then
    { connected := some .httpRequestName, messageComplete := some .httpResponseName }
  else { connected := some .httpRequestJoke, messageComplete := some .httpResponseJoke }

def httpServerConnectError (w : World P) : World P :=
  httpServiceSessionRemove (sessionStateSet .errorConnectingToWs w)

def httpServerConnect (lib : Libs P) (c : ConnectChoices) (ss : SockAddr) (idx : Slot)
    (w : World P) : World P :=
  let n := w.nextConn
  let w := { w with nextConn := n + 1 }
  match tcpSocketNew c.tcpSocketNew n w with
  | (none, w) => httpServerConnectError w
  | (some channel, w) =>
    match httpSessionNew lib c.httpSessionNew channel .response w with
    | (none, w) => httpServerConnectError (channelFree channel w)
    | (some h, w) =>
      match tcpSocketConnect c channel ss w with
      | (.error, w) => httpServerConnectError (httpSessionFree h w)
      | (_, w) =>
        let w := onSession (fun s => { setSlot idx (some h) s with
          pendingConnections := s.pendingConnections + 1 }) w
        httpSessionCallbacksSet h (upstreamCallbacks idx) w

/-- Cancelling leaves the lookup to be answered with an error later. -/
def evdnsGetaddrinfoCancel (w : World P) : World P := w

def dnsRequestFree (r : ℕ) (w : World P) : World P :=
  let w := onReference referenceWeakDec (w.request r).session w
  let w := onRequest r (fun q => { q with session := none }) w
  let w := if (w.request r).evdnsReq then
      onRequest r (fun q => { q with evdnsReq := false }) (evdnsGetaddrinfoCancel w)
    else w
  { w with dns := .free (.dnsRequest r) :: w.dns }

/-- The answer passes the ownership of its address list to the callback. -/
def handOver (a : Answer) (r : ℕ) (w : World P) : World P :=
  match a with
  | .error => w
  | .addresses _ => { w with addrs := .alloc r :: w.addrs }

def usable (f : Family) : Bool := f = .inet || f = .inet6

def dnsnameResolvedCb (lib : Libs P) (a : Answer) (c : ConnectChoices) (r : ℕ) (host : Host)
    (w : World P) : World P :=
  let w := onRequest r id w
  let (session, w) := referenceGet (w.request r).session w
  let idx := (w.request r).idx
  let w := onRequest r (fun q => { q with evdnsReq := false }) w
  let w := dnsRequestFree r w
  if session then
    match a with
    | .error => httpServiceSessionRemove (sessionStateSet .errorResolvingDomain w)
    | .addresses families =>
      let w := { w with addrs := .free r :: .use r :: w.addrs }
      match families.find? usable with
      | some family =>
        httpServerConnect lib c ⟨family, host⟩ idx
          (onSession (fun s => { s with pendingResolutions := s.pendingResolutions - 1 }) w)
      | none => httpServiceSessionRemove (sessionStateSet .errorResolvingDomain w)
  else w

def dnsnameResolve (lib : Libs P) (c : ResolveChoices) (r : ℕ) (host : Host) (idx : Slot)
    (w : World P) : World P :=
  if w.worker then
    let (req, w) := match c.inside with
      | none => (true, { w with resolving := ⟨r, host⟩ :: w.resolving })
      | some a => (false, dnsnameResolvedCb lib a c.connect r host (handOver a r w))
    onRequest r (fun q => { q with evdnsReq := req, idx := idx }) w
  else
    let (session, w) := referenceGet (w.request r).session w
    let w := dnsRequestFree r w
    if session then httpServiceSessionRemove (sessionStateSet .errorResolvingDomain w) else w

/-- Whether a request was allocated; the source returns the pointer to it. -/
def dnsRequestNew (lib : Libs P) (c : ResolveChoices) (host : Host) (idx : Slot) (w : World P) :
    Bool × World P :=
  if c.calloc then
    let r := w.nextRequest
    let w := { w with nextRequest := r + 1, dns := .alloc (.dnsRequest r) :: w.dns
                      request := Function.update w.request r {} }
    let w := onSession id w
    let w := onRequest r (fun q => { q with session := w.session.me }) w
    let w := onReference referenceWeakInc w.session.me w
    let w := dnsnameResolve lib c r host idx w
    (true, onSession (fun s => { s with pendingResolutions := s.pendingResolutions + 1 }) w)
  else (false, w)

def sessionReferenceNew (ok : Bool) (w : World P) : Option ℕ × World P :=
  if ok then
    (some w.nextReference,
      { w with nextReference := w.nextReference + 1
               dns := .alloc (.reference w.nextReference) :: w.dns
               reference := Function.update w.reference w.nextReference (referenceNew () false) })
  else (none, w)

def clientMsgComplete (lib : Libs P) (c : Choices) (h : ℕ) (w : World P) : World P :=
  let w := call .clientMsgComplete (onHttp h id w)
  let (me, w) := sessionReferenceNew c.referenceNew w
  let w := onSession (fun s => { s with me := me }) w
  if me.isNone then httpServiceSessionRemove w
  else match dnsRequestNew lib c.nameRequest .uinames .name w with
    | (false, w) => httpServiceSessionRemove w
    | (true, w) =>
      match dnsRequestNew lib c.jokeRequest .icndb .joke w with
      | (false, w) => httpServiceSessionRemove w
      | (true, w) => sessionStateSet .resolvingWebserverDomains w

/-- A new heap string from `joke_create`. -/
def jokeString (malloc : ℕ → Bool) (joke token new : Bytes) (w : World P) :
    Option CStr × World P :=
  match jokeCreate malloc joke (int32 joke.length) token token.length new (int32 new.length) with
  | .diverged => (none, crash w)
  | .outOfMemory => (none, w)
  | .created _ stored => strdup true stored w

def clientResponseCreate (c : Choices) (w : World P) : Option CStr × World P :=
  let w := onSession id w
  let s := w.session
  let w := call (.clientResponseCreate (s.name.isSome && s.surname.isSome && s.joke.isSome)) w
  match s.name, s.surname, s.joke with
  | some name, some surname, some joke =>
    let (newJoke, w) := jokeString c.mallocFirst joke.bytes (literal "Eduardo") name.bytes w
    let w := onSession (fun s => { s with name := none }) (freeStr (some name) w)
    match newJoke with
    | none => (none, w)
    | some between =>
      let w := onSession (fun s => { s with joke := none }) (freeStr (some joke) w)
      let (newJoke, w) :=
        jokeString c.mallocSecond between.bytes (literal "Panisset") surname.bytes w
      let w := onSession (fun s => { s with surname := none }) (freeStr (some surname) w)
      (newJoke, freeStr (some between) w)
  | _, _, _ => (none, crash w)

def httpClientResponse (c : Choices) (w : World P) : World P :=
  let w := onSession id w
  if w.session.nameReplied && w.session.jokeReplied then
    let client := w.session.httpSessions .client
    let (response, w) := clientResponseCreate c w
    if w.crashed then w
    else match response, client with
      | none, _ => httpServiceSessionRemove (sessionStateSet .errorClientResponse w)
      | some _, none => crash w
      | some response, some h =>
        match httpResponseWrite c h response w with
        | (false, w) => httpServiceSessionRemove (sessionStateSet .errorClientResponse w)
        | (true, w) => sessionStateSet .clientResponse w
  else w

/-- Decoding and storing the strings of a reply; false on any failure. -/
def unpackName (lib : Libs P) (c : Choices) (p : Bytes) (w : World P) : Bool × World P :=
  match lib.jsonName p with
  | none => (false, w)
  | some (name, surname) =>
    let (name, w) := strdup c.strdupFirst name w
    let w := onSession (fun s => { s with name := name }) w
    if name.isNone then (false, w)
    else
      let (surname, w) := strdup c.strdupSecond surname w
      (surname.isSome, onSession (fun s => { s with surname := surname }) w)

def unpackJoke (lib : Libs P) (c : Choices) (p : Bytes) (w : World P) : Bool × World P :=
  match lib.jsonJoke p with
  | none => (false, w)
  | some joke =>
    let (joke, w) := strdup c.strdupFirst joke w
    (joke.isSome, onSession (fun s => { s with joke := joke }) w)

def unpack (lib : Libs P) (c : Choices) (idx : Slot) (p : Bytes) (w : World P) : Bool × World P :=
  if idx = .name then unpackName lib c p w else unpackJoke lib c p w

def markReplied (idx : Slot) (s : Session) : Session :=
  if idx = .name then { s with nameReplied := true } else { s with jokeReplied := true }

theorem markReplied_fields {idx : Slot} (s : Session) :
    (markReplied idx s).httpSessions = s.httpSessions ∧ (markReplied idx s).me = s.me := by
  rw [markReplied]
  split <;> exact ⟨rfl, rfl⟩

/-- `http_response_name` and `http_response_joke`; they differ in the strings
stored, the flag set and the slot cleared. `evbuffer_pullup` of nothing is null. -/
def httpResponse (lib : Libs P) (idx : Slot) (c : Choices) (h : ℕ) (w : World P) : World P :=
  let w := call (.reply idx) (onHttp h id w)
  let w := onSession (fun s => { s with pendingReplies := s.pendingReplies - 1 }) w
  let failed w := httpServiceSessionRemove (sessionStateSet .errorClientResponse w)
  match (w.http h).body with
  | none => crash w
  | some body =>
    if body.isEmpty || !c.pullup then failed w
    else match unpack lib c idx body w with
      | (false, w) => failed w
      | (true, w) =>
        let w := httpSessionFree h (onSession (markReplied idx) w)
        httpClientResponse c (onSession (setSlot idx none) w)

def httpResponseName (lib : Libs P) (c : Choices) (h : ℕ) (w : World P) : World P :=
  httpResponse lib .name c h w

def httpResponseJoke (lib : Libs P) (c : Choices) (h : ℕ) (w : World P) : World P :=
  httpResponse lib .joke c h w

/-- A call through a pointer of `http_callbacks_t`. -/
def httpSessionCb (lib : Libs P) (c : Choices) (h : ℕ) (w : World P) : HttpSessionCb → World P
  | .clientMsgComplete => clientMsgComplete lib c h w
  | .clientReadyToClose => clientReadyToClose (onHttp h id w)
  | .httpRequestName => httpRequestName c h w
  | .httpResponseName => httpResponseName lib c h w
  | .httpRequestJoke => httpRequestJoke c h w
  | .httpResponseJoke => httpResponseJoke lib c h w

def callBack (lib : Libs P) (c : Choices) (h : ℕ) (cb : Option HttpSessionCb) (w : World P) :
    World P :=
  match cb with
  | some cb => httpSessionCb lib c h w cb
  | none => w

def closing (s : HttpSession P) (eof : Bool) (outputLength : ℕ) : Bool :=
  (eof && s.state = .messageBegin) || (s.state = .messageComplete && outputLength = 0)

def httpSessionChannelShouldClose (lib : Libs P) (c : Choices) (n h : ℕ) (w : World P) :
    Bool × World P :=
  let w := onHttp h id (onChan n id w)
  if closing (w.http h) (w.chan n).eof (channelGetOutputLength n w) then
    (true, callBack lib c h (w.http h).cbs.readyToClose w)
  else (false, w)

structure IoChannelEvent where
  read : Bool := false
  write : Bool := false
  connected : Bool := false
  eof : Bool := false
  error : Bool := false
  timeout : Bool := false
  deriving DecidableEq, Repr

def httpSessionEventCb (lib : Libs P) (c : Choices) (n h : ℕ) (event : IoChannelEvent)
    (w : World P) : World P :=
  let w := onHttp h id w
  if event.error then httpServiceSessionRemove w
  else if event.connected then callBack lib c h (w.http h).cbs.connected w
  else if event.eof then (httpSessionChannelShouldClose lib c n h w).2
  else if event.timeout && event.read then httpServiceSessionRemove w
  else w

def httpSessionReadCb (lib : Libs P) (c : Choices) (n h : ℕ) (w : World P) : World P :=
  match httpSessionChannelShouldClose lib c n h w with
  | (true, w) => w
  | (false, w) =>
    let (exit, s, input) := httpSessionRead (httpParserExecute lib.httpParser c.read) c.read
      (w.http h) (channelGetInput n w)
    let w := onChannelBev n (fun e => { e with input := input }) (onHttp h (fun _ => s) w)
    match exit with
    | .returned => w
    | .messageComplete => callBack lib c h s.cbs.messageComplete w
    | .failed => httpServiceSessionRemove w
    | .diverged => crash w

def httpSessionWriteCb (lib : Libs P) (c : Choices) (n h : ℕ) (w : World P) : World P :=
  (httpSessionChannelShouldClose lib c n h w).2

structure BevEvents where
  reading : Bool := false
  writing : Bool := false
  eof : Bool := false
  error : Bool := false
  timeout : Bool := false
  connected : Bool := false
  deriving DecidableEq, Repr

def ioEvent (events : BevEvents) : IoChannelEvent where
  read := events.reading
  write := events.writing
  error := events.error
  eof := !events.error && events.reading && events.eof
  connected := !events.error && events.connected
  timeout := !events.error && events.timeout

def service (n : ℕ) (f : ℕ → World P → World P) (w : World P) : World P :=
  let w := onChan n id w
  match (w.chan n).ctx with
  | some h => f h w
  | none => w

def tcpSocketReadCb (lib : Libs P) (c : Choices) (n : ℕ) (w : World P) : World P :=
  service n (httpSessionReadCb lib c n) w

def tcpSocketWriteCb (lib : Libs P) (c : Choices) (n : ℕ) (w : World P) : World P :=
  service n (httpSessionWriteCb lib c n) w

/-- The test of the service is for a null one with a null callback. -/
def tcpSocketEventCb (lib : Libs P) (c : Choices) (n : ℕ) (events : BevEvents) (w : World P) :
    World P :=
  let w := onChan n (fun s => { s with eof := s.eof || (ioEvent events).eof }) w
  match (w.chan n).ctx with
  | some h => httpSessionEventCb lib c n h (ioEvent events) w
  | none => crash w

/-- On failure of the HTTP session the new session is released. -/
def sessionNew (lib : Libs P) (c : AcceptChoices) (channel : ℕ) (w : World P) : Bool × World P :=
  if c.sessionNew then
    let w := { w with life := .alloc () :: w.life, session := {} }
    match httpSessionNew lib c.httpSessionNew channel .request w with
    | (none, w) => (false, sessionFree w)
    | (some h, w) =>
      let w := onSession (setSlot .client (some h)) w
      let w := sessionStateSet .parsingClientRequest w
      (true, httpSessionCallbacksSet h { messageComplete := some .clientMsgComplete
                                         readyToClose := some .clientReadyToClose } w)
  else (false, w)

/-- `list_push_back` writes to the node it allocates. -/
def httpServiceSessionAdd (ok : Bool) (w : World P) : World P :=
  if ok then { w with registered := true } else crash w

def httpServiceAcceptCb (lib : Libs P) (c : AcceptChoices) (n ioCtx : ℕ) (w : World P) : World P :=
  match tcpSocketAccept c n ioCtx w with
  | (none, w) => w
  | (some channel, w) =>
    match sessionNew lib c channel w with
    | (false, w) => channelFree channel w
    | (true, w) => httpServiceSessionAdd c.nodeNew w

/-- The descriptor arrives open. -/
def tcpSocketAcceptCb (lib : Libs P) (c : AcceptChoices) (w : World P) : World P :=
  let n := w.nextConn
  let w := { w with nextConn := n + 1, socks := .alloc (.fd n) :: w.socks }
  if c.family && c.getsockname && c.getBase then
    match buffereventSocketNew c.buffereventSocketNew n w with
    | (none, w) => evutilClosesocket n w
    | (some bev, w) => httpServiceAcceptCb lib c n bev w
  else evutilClosesocket n w

/-- What the loop of `http_service_fini` does to this session. -/
def httpServiceFini (w : World P) : World P := sessionFree { w with registered := false }

end Tigera.SessionProgram
