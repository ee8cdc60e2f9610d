import Mathlib.Data.Nat.Notation

/-!
# The parser behind the hooks

The parser is a machine over bytes: what it does next depends on the bytes it
has consumed and on nothing else. Scanning one byte may notify the hooks. The
byte that ends the header block is scanned twice, first to notify
`on_headers_complete`, which leaves it unconsumed, then to be consumed. The
phase of a machine records which notices it has given, each once a message and
in order; this is all that is assumed of it.
-/

set_option autoImplicit false

namespace Tigera.ParserMachine

inductive ParserType where
  | request
  | response
  deriving DecidableEq, Repr

inductive Notice where
  | messageBegin
  | headersComplete
  | body
  | messageComplete
  deriving DecidableEq, Repr

inductive Phase where
  | idle
  | head
  | headed
  | content
  | done
  deriving DecidableEq, Repr

/-- The notices one byte may give in a phase, and the phase it leads to. -/
inductive Follows : Phase → List Notice → Phase → Prop where
  | skip : Follows .idle [] .idle
  | start : Follows .idle [.messageBegin] .head
  | header : Follows .head [] .head
  | headers : Follows .head [.headersComplete] .headed
  | resume : Follows .headed [] .content
  | bodiless : Follows .headed [.messageComplete] .done
  | framing : Follows .content [] .content
  | body : Follows .content [.body] .content
  | last : Follows .content [.body, .messageComplete] .done
  | finish : Follows .content [.messageComplete] .done

structure Scan (P : Type) where
  notices : List Notice
  next : P

structure HttpParser (P : Type) where
  init : ParserType → P
  scan : P → UInt8 → Option (Scan P)
  phase : P → Phase
  init_idle : ∀ t, phase (init t) = .idle
  scan_follows : ∀ p b r, phase p ≠ .done → scan p b = some r →
    Follows (phase p) r.notices (phase r.next)

inductive Errno where
  | ok
  | paused
  | error
  deriving DecidableEq, Repr

/-- The parser object of a session, with the bytes it has consumed so far. -/
structure Parser (P : Type) where
  core : P
  errno : Errno
  fed : List UInt8

def httpParserInit {P : Type} (hp : HttpParser P) (t : ParserType) : Parser P :=
  ⟨hp.init t, .ok, []⟩

def httpParserPause {P : Type} (p : Parser P) (paused : Bool) : Parser P :=
  { p with errno := if paused then .paused else .ok }

end Tigera.ParserMachine
