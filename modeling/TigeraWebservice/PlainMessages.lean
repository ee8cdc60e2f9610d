import TigeraWebservice.SessionSystem

/-!
# A parser of plain messages

A concrete parser for messages framed by `Content-Length`, by having no body
or, for responses, by the end of the connection. It knows neither chunks nor
upgrades. With two fixed JSON bodies it makes an instance of the libraries on
which runs of the model can be evaluated, such as one whole exchange.
-/

set_option autoImplicit false

namespace Tigera.PlainMessages
open Tigera.ParserMachine Tigera.JokeCreate Tigera.SessionWorld Tigera.SessionSystem

/-- `head` keeps the header bytes, newest first; a body of unknown length
ends with the connection. -/
inductive Core where
  | start (type : ParserType)
  | head (type : ParserType) (seen : Bytes)
  | headed (length : Option ℕ)
  | content (length : Option ℕ)
  | finished
  deriving DecidableEq, Repr

def digits : Bytes → ℕ → ℕ
  | [], n => n
  | b :: bs, n => if 48 ≤ b ∧ b ≤ 57 then digits bs (10 * n + (b.toNat - 48)) else n

def contentLength (type : ParserType) (header : Bytes) : Option ℕ :=
  match strstr header (literal "Content-Length: ") with
  | some rest => some (digits (rest.drop 16) 0)
  | none => if type = .request then some 0 else none

def scan : Core → UInt8 → Option (Scan Core)
  | .start type, b =>
    if b = 13 ∨ b = 10 then some ⟨[], .start type⟩ else some ⟨[.messageBegin], .head type [b]⟩
  | .head type seen, b =>
    if (b :: seen).take 4 = literal "\n\r\n\r" then
      some ⟨[.headersComplete], .headed (contentLength type (b :: seen).reverse)⟩
    else some ⟨[], .head type (b :: seen)⟩
  | .headed (some 0), _ => some ⟨[.messageComplete], .finished⟩
  | .headed length, _ => some ⟨[], .content length⟩
  | .content (some 0), _ => some ⟨[.messageComplete], .finished⟩
  | .content (some 1), _ => some ⟨[.body, .messageComplete], .finished⟩
  | .content (some (n + 2)), _ => some ⟨[.body], .content (some (n + 1))⟩
  | .content none, _ => some ⟨[.body], .content none⟩
  | .finished, _ => none

def phase : Core → Phase
  | .start _ => .idle
  | .head _ _ => .head
  | .headed _ => .headed
  | .content _ => .content
  | .finished => .done

theorem scan_phase (p : Core) (b : UInt8) (r : Scan Core) (hd : phase p ≠ .done)
    (h : scan p b = some r) : Follows (phase p) r.notices (phase r.next) := by
  cases p with
  | start type =>
    simp only [scan] at h
    split at h <;> cases h
    · exact .skip
    · exact .start
  | head type seen =>
    simp only [scan] at h
    split at h <;> cases h
    · exact .headers
    · exact .header
  | headed length =>
    match length, h with
    | some 0, h => cases h; exact .bodiless
    | some (n + 1), h => cases h; exact .resume
    | none, h => cases h; exact .resume
  | content length =>
    match length, h with
    | some 0, h => cases h; exact .finish
    | some 1, h => cases h; exact .last
    | some (n + 2), h => cases h; exact .body
    | none, h => cases h; exact .body
  | finished => exact absurd rfl hd

def parser : HttpParser Core where
  init := .start
  scan := scan
  phase := phase
  init_idle := fun _ => rfl
  scan_follows := scan_phase

def nameBody : Bytes := literal "\x7b\"name\":\"Ana\",\"surname\":\"Diaz\"\x7d"

def jokeBody : Bytes := literal "\x7b\"value\":\x7b\"joke\":\"Eduardo Panisset codes\"\x7d\x7d"

/-- The decoding of the two bodies; nothing else is accepted. -/
def libs : Libs Core where
  httpParser := parser
  jsonName p := if p = nameBody then some (literal "Ana", literal "Diaz") else none
  jsonJoke p := if p = jokeBody then some (literal "Eduardo Panisset codes") else none

def clientRequest : Bytes := literal "GET / HTTP/1.1\r\n\r\n"

def nameReply : Bytes := literal "HTTP/1.1 200 OK\r\nContent-Length: 31\r\n\r\n" ++ nameBody

def jokeReply : Bytes := literal "HTTP/1.1 200 OK\r\nContent-Length: 43\r\n\r\n" ++ jokeBody

def exchange : List Event :=
  [.accept {}, .arrive 0 clientRequest, .readCb 0 {},
    .dnsCb 0 (.addresses [.inet]) {}, .dnsCb 1 (.addresses [.inet]) {},
    .eventCb 1 { connected := true } {}, .eventCb 2 { connected := true } {},
    .arrive 1 nameReply, .readCb 1 {}, .arrive 2 jokeReply, .readCb 2 {}]

end Tigera.PlainMessages
