import Mathlib.Tactic.Common
import TigeraWebservice.HttpReading

/-!
# What a stream of bytes means

The reference reads a stream one byte at a time and knows no segments, no
pauses and no positions. The execution of the parser is compared with it on
every piece of input, then the parse of all segments, then the reading loop.
-/

set_option autoImplicit false

namespace Tigera.MessageReading
open Tigera.ParserMachine Tigera.HttpReading

variable {P : Type}

inductive Reading (P : Type) where
  | going (core : P) (body fed : List UInt8)
  | complete (body fed : List UInt8)
  | rejected (fed : List UInt8)

def Reading.fed : Reading P → List UInt8
  | .going _ _ fed => fed
  | .complete _ fed => fed
  | .rejected fed => fed

def settle (b : UInt8) (body fed : List UInt8) (r : Scan P) : Reading P :=
  let body := if .body ∈ r.notices then body ++ [b] else body
  if .messageComplete ∈ r.notices then .complete body (fed ++ [b])
  else .going r.next body (fed ++ [b])

def settleScan (b : UInt8) (body fed : List UInt8) : Option (Scan P) → Reading P
  | none => .rejected fed
  | some r => settle b body fed r

/-- The byte that ends the header block is scanned a second time. -/
def readByte (hp : HttpParser P) : Reading P → UInt8 → Reading P
  | .going core body fed, b =>
    match hp.scan core b with
    | none => .rejected fed
    | some r =>
      if .headersComplete ∈ r.notices then settleScan b body fed (hp.scan r.next b)
      else settle b body fed r
  | x, _ => x

def readStream (hp : HttpParser P) (x : Reading P) (bytes : List UInt8) : Reading P :=
  bytes.foldl (readByte hp) x

@[simp] theorem readStream_nil (hp : HttpParser P) (x : Reading P) : readStream hp x [] = x := rfl

@[simp] theorem readStream_cons (hp : HttpParser P) (x : Reading P) (b : UInt8)
    (bytes : List UInt8) :
    readStream hp x (b :: bytes) = readStream hp (readByte hp x b) bytes := rfl

theorem readStream_append (hp : HttpParser P) (x : Reading P) (bytes more : List UInt8) :
    readStream hp x (bytes ++ more) = readStream hp (readStream hp x bytes) more :=
  List.foldl_append

@[simp] theorem readStream_complete (hp : HttpParser P) (body fed bytes : List UInt8) :
    readStream hp (.complete body fed) bytes = .complete body fed := by
  induction bytes with
  | nil => rfl
  | cons b bytes ih => exact ih

@[simp] theorem readStream_rejected (hp : HttpParser P) (fed bytes : List UInt8) :
    readStream hp (.rejected fed) bytes = .rejected fed := by
  induction bytes with
  | nil => rfl
  | cons b bytes ih => exact ih

theorem readStream_take (hp : HttpParser P) (x : Reading P) (bytes : List UInt8) (n : ℕ) :
    readStream hp (readStream hp x (bytes.take n)) (bytes.drop n) = readStream hp x bytes := by
  rw [← readStream_append, List.take_append_drop]

def Unfailing (c : ReadChoices) : Prop :=
  c.evbufferNew = true ∧ (∀ n, c.evbufferAdd n = true) ∧ (∀ n, c.vecsMalloc n = true) ∧
    ∀ n, c.drain n = true

theorem unfailing_unfailing (layout : ℕ → List ℕ) : Unfailing (unfailing layout) :=
  ⟨rfl, fun _ => rfl, fun _ => rfl, fun _ => rfl⟩

def Stage (hp : HttpParser P) (s : HttpSession P) (body : List UInt8) : Prop :=
  match s.state with
  | .messageBegin => hp.phase s.parser.core = .idle ∧ s.body = none ∧ body = []
  | .messageParseBegin => hp.phase s.parser.core = .head ∧ s.body = some [] ∧ body = []
  | .headersComplete | .bodyParse => hp.phase s.parser.core = .content ∧ s.body = some body
  | .messageComplete => False

def Tracks (hp : HttpParser P) (s : HttpSession P) : Reading P → Prop
  | .going core body fed =>
    s.parser.core = core ∧ s.parser.fed = fed ∧ s.parser.errno = .ok ∧ Stage hp s body
  | .complete body fed => s.parser.fed = fed ∧ s.state = .messageComplete ∧ s.body = some body
  | .rejected _ => False

def Framed (s t : HttpSession P) : Prop := t.channel = s.channel ∧ t.cbs = s.cbs

def unpaused (s : HttpSession P) : HttpSession P :=
  { s with parser := httpParserPause s.parser false }

/-- The possible results of executing the parser on a piece `v` of input by a
session that has read `x`: all of `v` is consumed, a hook pauses the parser
after or before the current byte, or there is an error. -/
inductive Executed (hp : HttpParser P) (c : ReadChoices) (s : HttpSession P) (x : Reading P)
    (v : List UInt8) : ℕ → HttpSession P → Prop where
  | all {t : HttpSession P} (errno : t.parser.errno = .ok) (state : t.state = s.state)
      (tracks : Tracks hp t (readStream hp x v)) : Executed hp c s x v v.length t
  | paused {n : ℕ} {t : HttpSession P} (errno : t.parser.errno = .paused) (pos : 0 < n)
      (le : n ≤ v.length) (state : t.state ≠ s.state) (headers : t.state ≠ .headersComplete)
      (tracks : Tracks hp (unpaused t) (readStream hp x (v.take n))) : Executed hp c s x v n t
  | headers {n : ℕ} {t : HttpSession P} {b : UInt8} (errno : t.parser.errno = .paused)
      (state : t.state = .headersComplete) (before : s.state = .messageParseBegin)
      (phase : hp.phase t.parser.core = .headed) (body : t.body = some [])
      (byte : v[n]? = some b)
      (next : readStream hp x (v.take (n + 1)) =
        settleScan b [] t.parser.fed (hp.scan t.parser.core b)) : Executed hp c s x v n t
  | error {n : ℕ} {t : HttpSession P} (errno : t.parser.errno = .error)
      (cause : Unfailing c → readStream hp x v = .rejected t.parser.fed) :
      Executed hp c s x v n t

theorem notify_framed (c : ReadChoices) (b : UInt8) (ns : List Notice) (s : HttpSession P) :
    Framed s (notify c b ns s) ∧ (notify c b ns s).len = s.len := by
  induction ns generalizing s with
  | nil => exact ⟨⟨rfl, rfl⟩, rfl⟩
  | cons n ns ih =>
    have hk : ∀ t, hook c b n s = t → Framed s t.2 ∧ t.2.len = s.len := by
      rintro t rfl
      cases n with
      | messageBegin => simp only [hook, messageBegin]; split <;> exact ⟨⟨rfl, rfl⟩, rfl⟩
      | headersComplete => exact ⟨⟨rfl, rfl⟩, rfl⟩
      | body =>
        simp only [hook, messageBody]
        split
        · split <;> exact ⟨⟨rfl, rfl⟩, rfl⟩
        · exact ⟨⟨rfl, rfl⟩, rfl⟩
      | messageComplete => exact ⟨⟨rfl, rfl⟩, rfl⟩
    obtain ⟨⟨hc, hb⟩, hl⟩ := hk _ rfl
    simp only [notify]
    split
    · split
      · obtain ⟨⟨hc', hb'⟩, hl'⟩ := ih (hook c b n s).2
        exact ⟨⟨hc'.trans hc, hb'.trans hb⟩, hl'.trans hl⟩
      · exact ⟨⟨hc, hb⟩, hl⟩
    · exact ⟨⟨hc, hb⟩, hl⟩

theorem execute_framed (hp : HttpParser P) (c : ReadChoices) (v : List UInt8)
    (s : HttpSession P) :
    Framed s (httpParserExecute hp c v s).2 ∧ (httpParserExecute hp c v s).2.len = s.len ∧
      (httpParserExecute hp c v s).1 ≤ v.length := by
  induction v generalizing s with
  | nil => simp [httpParserExecute, Framed]
  | cons b v ih =>
    simp only [httpParserExecute]
    split
    · split
      · simp [Framed]
      · next r _ =>
        set t := notify c b r.notices { s with parser := { s.parser with core := r.next } }
        obtain ⟨⟨hc, hb⟩, hl⟩ : Framed s t ∧ t.len = s.len :=
          notify_framed c b r.notices { s with parser := { s.parser with core := r.next } }
        split
        · exact ⟨⟨hc, hb⟩, hl, Nat.zero_le _⟩
        · obtain ⟨⟨hc', hb'⟩, hl', hn'⟩ := ih (consume b t)
          exact ⟨⟨hc'.trans hc, hb'.trans hb⟩, hl'.trans hl, Nat.succ_le_succ hn'⟩
    · simp [Framed]

theorem follows_idle {p q : Phase} {ns : List Notice} (h : Follows p ns q) (hp : p = .idle) :
    (ns = [] ∧ q = .idle) ∨ (ns = [.messageBegin] ∧ q = .head) := by
  cases h <;> simp_all

theorem follows_head {p q : Phase} {ns : List Notice} (h : Follows p ns q) (hp : p = .head) :
    (ns = [] ∧ q = .head) ∨ (ns = [.headersComplete] ∧ q = .headed) := by
  cases h <;> simp_all

theorem follows_headed {p q : Phase} {ns : List Notice} (h : Follows p ns q) (hp : p = .headed) :
    (ns = [] ∧ q = .content) ∨ ns = [.messageComplete] := by
  cases h <;> simp_all

theorem follows_content {p q : Phase} {ns : List Notice} (h : Follows p ns q)
    (hp : p = .content) :
    (ns = [] ∧ q = .content) ∨ (ns = [.body] ∧ q = .content) ∨
      ns = [.body, .messageComplete] ∨ ns = [.messageComplete] := by
  cases h <;> simp_all

theorem execute_stopped (hp : HttpParser P) (c : ReadChoices) (v : List UInt8)
    (s : HttpSession P) (h : s.parser.errno ≠ .ok) : httpParserExecute hp c v s = (0, s) := by
  cases v <;> simp [httpParserExecute, h]

theorem executed_cons {hp : HttpParser P} {c : ReadChoices} {s u t : HttpSession P}
    {x : Reading P} {b : UInt8} {v : List UInt8} {n : ℕ}
    (h : Executed hp c u (readByte hp x b) v n t) (hstate : u.state = s.state) :
    Executed hp c s x (b :: v) (n + 1) t := by
  cases h with
  | all errno state tracks => exact .all errno (state.trans hstate) tracks
  | paused errno pos le state headers tracks =>
    refine .paused errno (by omega) (by simpa using le) (hstate ▸ state) headers ?_
    simpa using tracks
  | headers errno state before phase body byte next =>
    refine .headers errno state (hstate ▸ before) phase body (by simpa using byte) ?_
    simpa using next
  | error errno cause => exact .error errno cause

theorem executed_pause {hp : HttpParser P} {c : ReadChoices} {s t : HttpSession P} {x : Reading P}
    {b : UInt8} {v : List UInt8} (errno : t.parser.errno = .paused) (state : t.state ≠ s.state)
    (headers : t.state ≠ .headersComplete) (tracks : Tracks hp (unpaused t) (readByte hp x b)) :
    Executed hp c s x (b :: v) 1 t :=
  .paused errno (by omega) (by simp) state headers (by simpa using tracks)

theorem executed_quiet {hp : HttpParser P} {c : ReadChoices} {s t : HttpSession P} {b : UInt8}
    {v body : List UInt8} {r : Scan P} {n : ℕ} (hscan : hp.scan s.parser.core b = some r)
    (hn : r.notices = [])
    (he : Executed hp c (consume b { s with parser := { s.parser with core := r.next } })
      (.going r.next body (s.parser.fed ++ [b])) v n t) :
    Executed hp c s (.going s.parser.core body s.parser.fed) (b :: v) (n + 1) t := by
  have hx : readByte hp (.going s.parser.core body s.parser.fed) b =
      .going r.next body (s.parser.fed ++ [b]) := by
    simp [readByte, hscan, hn, settle]
  rw [← hx] at he
  exact executed_cons he rfl

theorem execute_idle (hp : HttpParser P) (c : ReadChoices) (v : List UInt8) (s : HttpSession P)
    (core : P) (fed : List UInt8) (ht : Tracks hp s (.going core [] fed))
    (hs : s.state = .messageBegin) :
    Executed hp c s (.going core [] fed) v (httpParserExecute hp c v s).1
      (httpParserExecute hp c v s).2 := by
  induction v generalizing s core fed with
  | nil => exact .all ht.2.2.1 rfl ht
  | cons b v ih =>
    obtain ⟨rfl, rfl, herr, hstage⟩ := ht
    have hphase : hp.phase s.parser.core = .idle ∧ s.body = none := by
      simpa [Stage, hs] using hstage
    rw [httpParserExecute, if_pos herr]
    cases hscan : hp.scan s.parser.core b with
    | none => exact .error rfl (fun _ => by simp [readByte, hscan])
    | some r =>
      rcases follows_idle (hp.scan_follows _ b r (by simp [hphase.1]) hscan) hphase.1 with
        ⟨hn, hq⟩ | ⟨hn, hq⟩
      · simp only [hn, notify, List.not_mem_nil, if_false]
        have hu : Tracks hp (consume b { s with parser := { s.parser with core := r.next } })
            (.going r.next [] (s.parser.fed ++ [b])) :=
          ⟨rfl, rfl, herr, by simp [Stage, consume, hs, hq, hphase.2]⟩
        exact executed_quiet hscan hn (ih _ _ _ hu hs)
      · have hx : readByte hp (.going s.parser.core [] s.parser.fed) b =
            .going r.next [] (s.parser.fed ++ [b]) := by
          simp [readByte, hscan, hn, settle]
        simp only [hn, notify, hook, messageBegin]
        by_cases hc : c.evbufferNew = true
        · simp only [hc, if_true, httpParserPause, List.mem_singleton, reduceCtorEq, if_false]
          rw [execute_stopped _ _ _ _ (by simp [consume])]
          refine executed_pause rfl (by simp [consume, hs]) (by simp [consume]) ?_
          rw [hx]
          exact ⟨rfl, rfl, rfl, by simp [Stage, unpaused, consume, httpParserPause, hq]⟩
        · simp only [hc, if_false, List.mem_singleton, reduceCtorEq]
          rw [execute_stopped _ _ _ _ (by simp [consume])]
          exact .error rfl (fun h => absurd h.1 hc)

theorem execute_head (hp : HttpParser P) (c : ReadChoices) (v : List UInt8) (s : HttpSession P)
    (core : P) (fed : List UInt8) (ht : Tracks hp s (.going core [] fed))
    (hs : s.state = .messageParseBegin) :
    Executed hp c s (.going core [] fed) v (httpParserExecute hp c v s).1
      (httpParserExecute hp c v s).2 := by
  induction v generalizing s core fed with
  | nil => exact .all ht.2.2.1 rfl ht
  | cons b v ih =>
    obtain ⟨rfl, rfl, herr, hstage⟩ := ht
    have hphase : hp.phase s.parser.core = .head ∧ s.body = some [] := by
      simpa [Stage, hs] using hstage
    rw [httpParserExecute, if_pos herr]
    cases hscan : hp.scan s.parser.core b with
    | none => exact .error rfl (fun _ => by simp [readByte, hscan])
    | some r =>
      rcases follows_head (hp.scan_follows _ b r (by simp [hphase.1]) hscan) hphase.1 with
        ⟨hn, hq⟩ | ⟨hn, hq⟩
      · simp only [hn, notify, List.not_mem_nil, if_false]
        have hu : Tracks hp (consume b { s with parser := { s.parser with core := r.next } })
            (.going r.next [] (s.parser.fed ++ [b])) :=
          ⟨rfl, rfl, herr, by simp [Stage, consume, hs, hq, hphase.2]⟩
        exact executed_quiet hscan hn (ih _ _ _ hu hs)
      · simp only [hn, notify, hook, headersParseComplete, httpParserPause, if_true,
          List.mem_singleton, reduceCtorEq, if_false]
        exact .headers rfl rfl hs hq hphase.2 rfl (by simp [readByte, hscan, hn])

theorem execute_content (hp : HttpParser P) (c : ReadChoices) (v : List UInt8) (s : HttpSession P)
    (core : P) (body fed : List UInt8) (ht : Tracks hp s (.going core body fed))
    (hs : s.state = .bodyParse) :
    Executed hp c s (.going core body fed) v (httpParserExecute hp c v s).1
      (httpParserExecute hp c v s).2 := by
  induction v generalizing s core body fed with
  | nil => exact .all ht.2.2.1 rfl ht
  | cons b v ih =>
    obtain ⟨rfl, rfl, herr, hstage⟩ := ht
    have hphase : hp.phase s.parser.core = .content ∧ s.body = some body := by
      simpa [Stage, hs] using hstage
    rw [httpParserExecute, if_pos herr]
    cases hscan : hp.scan s.parser.core b with
    | none => exact .error rfl (fun _ => by simp [readByte, hscan])
    | some r =>
      rcases follows_content (hp.scan_follows _ b r (by simp [hphase.1]) hscan) hphase.1 with
        ⟨hn, hq⟩ | ⟨hn, hq⟩ | hn | hn
      · simp only [hn, notify, List.not_mem_nil, if_false]
        have hu : Tracks hp (consume b { s with parser := { s.parser with core := r.next } })
            (.going r.next body (s.parser.fed ++ [b])) :=
          ⟨rfl, rfl, herr, by simp [Stage, consume, hs, hq, hphase.2]⟩
        exact executed_quiet hscan hn (ih _ _ _ _ hu hs)
      · have hx : readByte hp (.going s.parser.core body s.parser.fed) b =
            .going r.next (body ++ [b]) (s.parser.fed ++ [b]) := by
          simp [readByte, hscan, hn, settle]
        simp only [hn, notify, hook, messageBody, hphase.2]
        by_cases hc : c.evbufferAdd body.length = true
        · simp only [hc, if_true, ite_self, List.mem_singleton, reduceCtorEq, if_false]
          have hu : Tracks hp (consume b { s with
              parser := { s.parser with core := r.next }, body := some (body ++ [b]) })
              (.going r.next (body ++ [b]) (s.parser.fed ++ [b])) :=
            ⟨rfl, rfl, herr, by simp [Stage, consume, hs, hq]⟩
          have he := ih _ _ _ _ hu hs
          rw [← hx] at he
          exact executed_cons he rfl
        · simp only [hc, if_false, List.mem_singleton, reduceCtorEq]
          rw [execute_stopped _ _ _ _ (by simp [consume])]
          exact .error rfl (fun h => absurd (h.2.1 _) hc)
      · have hx : readByte hp (.going s.parser.core body s.parser.fed) b =
            .complete (body ++ [b]) (s.parser.fed ++ [b]) := by
          simp [readByte, hscan, hn, settle]
        simp only [hn, notify, hook, messageBody, hphase.2]
        by_cases hc : c.evbufferAdd body.length = true
        · simp only [hc, if_true, herr, messageParseComplete, httpParserPause, List.mem_cons,
            List.not_mem_nil, or_false, reduceCtorEq, if_false]
          rw [execute_stopped _ _ _ _ (by simp [consume])]
          refine executed_pause rfl (by simp [consume, hs]) (by simp [consume]) ?_
          rw [hx]
          exact ⟨rfl, rfl, rfl⟩
        · simp only [hc, if_false, List.mem_cons, List.not_mem_nil, or_false, reduceCtorEq]
          rw [execute_stopped _ _ _ _ (by simp [consume])]
          exact .error rfl (fun h => absurd (h.2.1 _) hc)
      · have hx : readByte hp (.going s.parser.core body s.parser.fed) b =
            .complete body (s.parser.fed ++ [b]) := by
          simp [readByte, hscan, hn, settle]
        simp only [hn, notify, hook, messageParseComplete, httpParserPause, if_true,
          List.mem_singleton, reduceCtorEq, if_false]
        rw [execute_stopped _ _ _ _ (by simp [consume])]
        refine executed_pause rfl (by simp [consume, hs]) (by simp [consume]) ?_
        rw [hx]
        exact ⟨rfl, rfl, hphase.2⟩

theorem tracks_going {hp : HttpParser P} {s : HttpSession P} {x : Reading P} (ht : Tracks hp s x)
    (hs : s.state ≠ .messageComplete) : ∃ core body fed, x = .going core body fed := by
  cases x with
  | going core body fed => exact ⟨core, body, fed, rfl⟩
  | complete body fed => exact absurd ht.2.1 hs
  | rejected fed => exact ht.elim

theorem tracks_len {hp : HttpParser P} {s : HttpSession P} {x : Reading P} (len : ℕ)
    (ht : Tracks hp s x) : Tracks hp { s with len := len } x := by
  cases x <;> exact ht

theorem execute_spec (hp : HttpParser P) (c : ReadChoices) (v : List UInt8) (s : HttpSession P)
    (x : Reading P) (ht : Tracks hp s x) (hh : s.state ≠ .headersComplete)
    (hm : s.state ≠ .messageComplete) :
    Executed hp c s x v (httpParserExecute hp c v s).1 (httpParserExecute hp c v s).2 := by
  obtain ⟨core, body, fed, rfl⟩ := tracks_going ht hm
  cases hs : s.state with
  | messageBegin =>
    obtain rfl : body = [] := by
      have := ht.2.2.2
      simp only [Stage, hs] at this
      exact this.2.2
    exact execute_idle hp c v s core fed ht hs
  | messageParseBegin =>
    obtain rfl : body = [] := by
      have := ht.2.2.2
      simp only [Stage, hs] at this
      exact this.2.2
    exact execute_head hp c v s core fed ht hs
  | headersComplete => exact absurd hs hh
  | bodyParse => exact execute_content hp c v s core body fed ht hs
  | messageComplete => exact absurd hs hm

theorem execute_headed (hp : HttpParser P) (c : ReadChoices) (b : UInt8) (s : HttpSession P)
    (herr : s.parser.errno = .ok) (hs : s.state = .headersComplete)
    (hphase : hp.phase s.parser.core = .headed) (hbody : s.body = some []) (x : Reading P)
    (hx : x = settleScan b [] s.parser.fed (hp.scan s.parser.core b)) :
    (x = .rejected (httpParserExecute hp c [b] s).2.parser.fed ∧
        (httpParserExecute hp c [b] s).1 = 0) ∨
      ((httpParserExecute hp c [b] s).1 = 1 ∧ Tracks hp (httpParserExecute hp c [b] s).2 x ∧
        (httpParserExecute hp c [b] s).2.state ≠ .messageParseBegin) := by
  subst hx
  rw [httpParserExecute, if_pos herr]
  cases hscan : hp.scan s.parser.core b with
  | none => exact .inl ⟨rfl, rfl⟩
  | some r =>
    right
    rcases follows_headed (hp.scan_follows _ b r (by simp [hphase]) hscan) hphase with
      ⟨hn, hq⟩ | hn
    · simp only [hn, notify, List.not_mem_nil, if_false, httpParserExecute, settleScan, settle]
      exact ⟨trivial, ⟨rfl, rfl, herr, by simp [Stage, consume, hs, hq, hbody]⟩,
        by simp [consume, hs]⟩
    · simp only [hn, notify, hook, messageParseComplete, httpParserPause, if_true,
        List.mem_singleton, reduceCtorEq, if_false, settleScan, settle]
      rw [execute_stopped _ _ _ _ (by simp [consume])]
      exact ⟨rfl, ⟨rfl, rfl, hbody⟩, by simp [consume]⟩

theorem framed_trans {s t u : HttpSession P} (h : Framed s t) (h' : Framed t u) : Framed s u :=
  ⟨h'.1.trans h.1, h'.2.trans h.2⟩

theorem parseVec_framed (hp : HttpParser P) (c : ReadChoices) (v : List UInt8)
    (s : HttpSession P) : Framed s (parseVec (httpParserExecute hp c) v s).2 := by
  have hf := (execute_framed hp c v s).1
  unfold parseVec
  generalize httpParserExecute hp c v s = e at hf ⊢
  obtain ⟨n, t⟩ := e
  simp only at hf ⊢
  split
  · split
    · have hg := (execute_framed hp c ((v.drop n).take 1)
        { t with len := t.len + n, parser := httpParserPause t.parser false }).1
      have hfg := framed_trans (t := { t with
        len := t.len + n, parser := httpParserPause t.parser false }) hf hg
      split <;> exact hfg
    · exact hf
  · split
    · exact hf
    · split <;> exact hf

theorem parseVecs_framed (hp : HttpParser P) (c : ReadChoices) (vs : List (List UInt8))
    (s : HttpSession P) : Framed s (parseVecs (httpParserExecute hp c) vs s).2 := by
  induction vs generalizing s with
  | nil => exact ⟨rfl, rfl⟩
  | cons v vs ih =>
    have hf := parseVec_framed hp c v s
    rw [parseVecs]
    generalize parseVec (httpParserExecute hp c) v s = e at hf ⊢
    obtain ⟨r, t⟩ := e
    cases r with
    | some r => exact hf
    | none => exact framed_trans hf (ih t)

inductive Parsed (hp : HttpParser P) (c : ReadChoices) (s : HttpSession P) (x : Reading P)
    (v : List UInt8) : HttpParserError → HttpSession P → Prop where
  | success {t : HttpSession P} (len : t.len = s.len + v.length) (state : t.state = s.state)
      (tracks : Tracks hp t (readStream hp x v)) : Parsed hp c s x v .success t
  | paused {n : ℕ} {t : HttpSession P} (pos : 0 < n) (le : n ≤ v.length) (len : t.len = s.len + n)
      (state : t.state ≠ s.state) (tracks : Tracks hp t (readStream hp x (v.take n))) :
      Parsed hp c s x v .paused t
  | error {t : HttpSession P} (cause : Unfailing c → readStream hp x v = .rejected t.parser.fed) :
      Parsed hp c s x v .error t

theorem rejected_prefix {hp : HttpParser P} {x : Reading P} {v fed : List UInt8} {n : ℕ}
    (h : readStream hp x (v.take n) = .rejected fed) : readStream hp x v = .rejected fed := by
  rw [← readStream_take hp x v n, h, readStream_rejected]

theorem parseVec_spec (hp : HttpParser P) (c : ReadChoices) (v : List UInt8) (s : HttpSession P)
    (x : Reading P) (ht : Tracks hp s x) (hh : s.state ≠ .headersComplete)
    (hm : s.state ≠ .messageComplete) :
    Parsed hp c s x v ((parseVec (httpParserExecute hp c) v s).1.getD .success)
        (parseVec (httpParserExecute hp c) v s).2 ∧
      (parseVec (httpParserExecute hp c) v s).1 ≠ some .success := by
  obtain ⟨-, hlen, hn⟩ := execute_framed hp c v s
  have he := execute_spec hp c v s x ht hh hm
  unfold parseVec
  generalize httpParserExecute hp c v s = e at hlen hn he ⊢
  obtain ⟨n, t⟩ := e
  simp only at hlen hn he ⊢
  cases he with
  | all errno state tracks =>
    simp only [errno, reduceCtorEq, if_false, ne_eq, not_true, Nat.lt_irrefl, Option.getD_none,
      not_false_eq_true, and_true]
    exact .success (by simp [hlen]) state (tracks_len _ tracks)
  | paused errno pos le state headers tracks =>
    simp only [errno, if_true, headers, false_and, if_false, Option.getD_some]
    exact ⟨.paused pos le (by simp [hlen]) state (tracks_len _ tracks), by simp⟩
  | @headers _ _ b errno state before phase body byte next =>
    obtain ⟨hlt, hbyte⟩ := List.getElem?_eq_some_iff.mp byte
    have hb : (v.drop n).take 1 = [b] := by
      rw [List.drop_eq_getElem_cons hlt, hbyte]
      rfl
    simp only [errno, if_true, state, hlt, and_self, hb]
    have hagain := execute_headed hp c b
      { t with len := t.len + n, parser := httpParserPause t.parser false } rfl state phase body
      _ next
    obtain ⟨-, hlen', -⟩ := execute_framed hp c [b]
      { t with len := t.len + n, parser := httpParserPause t.parser false }
    simp only [state] at hagain hlen'
    generalize httpParserExecute hp c [b] _ = q at hagain hlen' ⊢
    obtain ⟨k, u⟩ := q
    simp only at hagain hlen' ⊢
    rcases hagain with ⟨hr, rfl⟩ | ⟨rfl, htr, hu⟩
    · simp only [Nat.zero_ne_one, if_false, Option.getD_some]
      exact ⟨.error fun _ => rejected_prefix hr, by simp⟩
    · simp only [if_true, Option.getD_some]
      exact ⟨.paused (n := n + 1) (by omega) hlt (by simp only; omega) (before ▸ hu)
        (tracks_len _ htr), by simp⟩
  | error errno cause =>
    simp only [errno, reduceCtorEq, if_false, ne_eq, not_false_eq_true, if_true, Option.getD_some]
    exact ⟨.error cause, by simp⟩

theorem parsed_append {hp : HttpParser P} {c : ReadChoices} {s t u : HttpSession P}
    {x : Reading P} {v w : List UInt8} {r : HttpParserError} (h : Parsed hp c s x v .success t)
    (h' : Parsed hp c t (readStream hp x v) w r u) : Parsed hp c s x (v ++ w) r u := by
  cases h with
  | success len state tracks =>
    cases h' with
    | success len' state' tracks' =>
      exact .success (by simp [len', len, Nat.add_assoc]) (state'.trans state)
        (by rwa [readStream_append])
    | @paused k _ pos le len' state' tracks' =>
      have hk : (v ++ w).take (v.length + k) = v ++ w.take k := List.take_length_add_append k
      refine .paused (n := v.length + k) (by omega) (by simpa using le) (by omega)
        (state ▸ state') ?_
      rwa [hk, readStream_append]
    | error cause => exact .error fun h => by rw [readStream_append, cause h]

theorem parsed_early {hp : HttpParser P} {c : ReadChoices} {s t : HttpSession P}
    {x : Reading P} {v : List UInt8} (w : List UInt8) {r : HttpParserError}
    (h : Parsed hp c s x v r t) (hr : r ≠ .success) : Parsed hp c s x (v ++ w) r t := by
  cases h with
  | success len state tracks => exact absurd rfl hr
  | @paused n _ pos le len state tracks =>
    have htake : (v ++ w).take n = v.take n := List.take_append_of_le_length le
    rw [← htake] at tracks
    exact .paused pos (by simp; omega) len state tracks
  | error cause => exact .error fun h => by rw [readStream_append, cause h, readStream_rejected]

theorem parseVecs_spec (hp : HttpParser P) (c : ReadChoices) (vs : List (List UInt8))
    (s : HttpSession P) (x : Reading P) (ht : Tracks hp s x) (hh : s.state ≠ .headersComplete)
    (hm : s.state ≠ .messageComplete) :
    Parsed hp c s x vs.flatten (parseVecs (httpParserExecute hp c) vs s).1
      (parseVecs (httpParserExecute hp c) vs s).2 := by
  induction vs generalizing s x with
  | nil => exact .success rfl rfl ht
  | cons v vs ih =>
    obtain ⟨hv, hne⟩ := parseVec_spec hp c v s x ht hh hm
    rw [parseVecs, List.flatten_cons]
    generalize parseVec (httpParserExecute hp c) v s = e at hv hne ⊢
    obtain ⟨r, t⟩ := e
    cases r with
    | some r => exact parsed_early _ hv (by simpa using hne)
    | none =>
      refine parsed_append hv ?_
      cases hv with
      | success len state tracks => exact ih t _ tracks (state ▸ hh) (state ▸ hm)

end Tigera.MessageReading
