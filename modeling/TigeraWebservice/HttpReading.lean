import TigeraWebservice.ParserMachine

/-!
# Reading a message

The reading half of `http_session.c`: the parser hooks, `http_request_parse`
over the segments the input buffer lays out, and the loop of
`http_session_read_cb`. Pending bytes are a list; a layout cuts what lies after
`len` into non-empty segments, anew at each call. Every allocation and every
drain may fail.
-/

set_option autoImplicit false

namespace Tigera.HttpReading
open Tigera.ParserMachine

inductive HttpState where
  | messageBegin
  | messageParseBegin
  | headersComplete
  | bodyParse
  | messageComplete
  deriving DecidableEq, Repr

/-- The functions `session.c` installs in a `http_callbacks_t`. -/
inductive HttpSessionCb where
  | clientMsgComplete
  | clientReadyToClose
  | httpRequestName
  | httpResponseName
  | httpRequestJoke
  | httpResponseJoke
  deriving DecidableEq, Repr

structure HttpCallbacks where
  messageComplete : Option HttpSessionCb := none
  connected : Option HttpSessionCb := none
  readyToClose : Option HttpSessionCb := none
  deriving DecidableEq, Repr

/-- `struct http_session`; its master is the session of the connection. -/
structure HttpSession (P : Type) where
  state : HttpState
  len : ℕ
  parser : Parser P
  body : Option (List UInt8)
  channel : ℕ
  cbs : HttpCallbacks

structure ReadChoices where
  layout : ℕ → List ℕ
  vecsMalloc : ℕ → Bool
  drain : ℕ → Bool
  evbufferNew : Bool
  evbufferAdd : ℕ → Bool

def unfailing (layout : ℕ → List ℕ) : ReadChoices :=
  ⟨layout, fun _ => true, fun _ => true, true, fun _ => true⟩

variable {P : Type}

def messageBegin (c : ReadChoices) (s : HttpSession P) : Bool × HttpSession P :=
  if c.evbufferNew then
    (true, { s with body := some [], state := .messageParseBegin
                    parser := httpParserPause s.parser true })
  else (false, { s with body := none })

def headersParseComplete (s : HttpSession P) : Bool × HttpSession P :=
  (true, { s with state := .headersComplete, parser := httpParserPause s.parser true })

def messageParseComplete (s : HttpSession P) : Bool × HttpSession P :=
  (true, { s with state := .messageComplete, parser := httpParserPause s.parser true })

/-- There is a body once a message has begun. -/
def messageBody (c : ReadChoices) (b : UInt8) (s : HttpSession P) : Bool × HttpSession P :=
  match s.body with
  | some body => if c.evbufferAdd body.length then (true, { s with body := some (body ++ [b]) })
      else (false, s)
  | none => (false, s)

/-- `http_parser_hooks`. -/
def hook (c : ReadChoices) (b : UInt8) : Notice → HttpSession P → Bool × HttpSession P
  | .messageBegin, s => messageBegin c s
  | .headersComplete, s => headersParseComplete s
  | .body, s => messageBody c b s
  | .messageComplete, s => messageParseComplete s

/-- The notices of one byte, until a hook pauses the parser or fails. -/
def notify (c : ReadChoices) (b : UInt8) : List Notice → HttpSession P → HttpSession P
  | [], s => s
  | n :: ns, s =>
    let (ok, s) := hook c b n s
    if ok then
      if s.parser.errno = .ok then notify c b ns s else s
    else { s with parser := { s.parser with errno := .error } }

def consume (b : UInt8) (s : HttpSession P) : HttpSession P :=
  { s with parser := { s.parser with fed := s.parser.fed ++ [b] } }

/-- `http_parser_execute` on a non-empty piece of input: the number of bytes
consumed and the session as the hooks leave it. -/
def httpParserExecute (hp : HttpParser P) (c : ReadChoices) :
    List UInt8 → HttpSession P → ℕ × HttpSession P
  | [], s => (0, s)
  | b :: bs, s =>
    if s.parser.errno = .ok then
      match hp.scan s.parser.core b with
      | none => (0, { s with parser := { s.parser with errno := .error } })
      | some r =>
        let s := notify c b r.notices { s with parser := { s.parser with core := r.next } }
        if .headersComplete ∈ r.notices then (0, s)
        else
          let (n, s) := httpParserExecute hp c bs (consume b s)
          (n + 1, s)
    else (0, s)

/-- What `http_request_parse` needs of the parser: pieces in, bytes consumed
and the new session out. -/
abbrev Execute (P : Type) := List UInt8 → HttpSession P → ℕ × HttpSession P

inductive HttpParserError where
  | success
  | paused
  | error
  deriving DecidableEq, Repr

def segments : List ℕ → List UInt8 → List (List UInt8)
  | _, [] => []
  | [], bytes => [bytes]
  | k :: ks, b :: bytes => (b :: bytes.take k) :: segments ks (bytes.drop k)

/-- One segment: an error code ends the parse, `none` goes on to the next. -/
def parseVec (exec : Execute P) (v : List UInt8) (s : HttpSession P) :
    Option HttpParserError × HttpSession P :=
  let (parsed, s) := exec v s
  let s := { s with len := s.len + parsed }
  if s.parser.errno = .paused then
    let s := { s with parser := httpParserPause s.parser false }
    if s.state = .headersComplete ∧ parsed < v.length then
      let (again, s) := exec ((v.drop parsed).take 1) s
      if again = 1 then (some .paused, { s with len := s.len + again }) else (some .error, s)
    else (some .paused, s)
  else if s.parser.errno ≠ .ok then (some .error, s)
  else if parsed < v.length then (some .error, s)
  else (none, s)

def parseVecs (exec : Execute P) :
    List (List UInt8) → HttpSession P → HttpParserError × HttpSession P
  | [], s => (.success, s)
  | v :: vs, s =>
    match parseVec exec v s with
    | (some result, s) => (result, s)
    | (none, s) => parseVecs exec vs s

/-- `evbuffer_ptr_set` fails past the end of the buffer; more than five
segments take a heap array. -/
def httpRequestParse (exec : Execute P) (c : ReadChoices) (k : ℕ) (input : List UInt8)
    (s : HttpSession P) : HttpParserError × HttpSession P :=
  if input.length < s.len then (.error, s)
  else
    let vecs := segments (c.layout k) (input.drop s.len)
    if 5 < vecs.length ∧ c.vecsMalloc k = false then (.error, s)
    else parseVecs exec vecs s

inductive ReadExit where
  | returned
  | messageComplete
  | failed
  | diverged
  deriving DecidableEq, Repr

/-- One turn of the loop: either an exit or the next session and input. -/
def readTurn (exec : Execute P) (c : ReadChoices) (k : ℕ) (s : HttpSession P)
    (input : List UInt8) : Option ReadExit × HttpSession P × List UInt8 :=
  match s.state with
  | .messageBegin | .messageParseBegin | .bodyParse =>
    let (result, t) := httpRequestParse exec c k input s
    if result = .error then (some .failed, t, input)
    else if s.state = t.state then (some .returned, t, input)
    else (none, t, input)
  | .headersComplete =>
    if c.drain k then (none, { s with len := 0, state := .bodyParse }, input.drop s.len)
    else (some .failed, s, input)
  | .messageComplete =>
    if c.drain k then (some .messageComplete, { s with len := 0 }, input.drop s.len)
    else (some .failed, s, input)

/-- The `while` of `http_session_read_cb`, with a bound on its turns. -/
def readLoop (exec : Execute P) (c : ReadChoices) :
    ℕ → HttpSession P → List UInt8 → ReadExit × HttpSession P × List UInt8
  | 0, s, input => (.diverged, s, input)
  | k + 1, s, input =>
    match readTurn exec c k s input with
    | (some exit, s, input) => (exit, s, input)
    | (none, s, input) => readLoop exec c k s input

def readHeads (exec : Execute P) (c : ReadChoices) :
    ℕ → HttpSession P → List UInt8 → List (HttpSession P × List UInt8)
  | 0, _, _ => []
  | k + 1, s, input =>
    (s, input) :: match readTurn exec c k s input with
    | (some _, _, _) => []
    | (none, s, input) => readHeads exec c k s input

def readFuel (input : List UInt8) : ℕ := 2 * input.length + 6

/-- `http_session_read_cb` after its closing test. -/
def httpSessionRead (exec : Execute P) (c : ReadChoices) (s : HttpSession P)
    (input : List UInt8) : ReadExit × HttpSession P × List UInt8 :=
  if input.length = 0 then (.returned, s, input)
  else readLoop exec c (readFuel input) s input

end Tigera.HttpReading
