import TigeraWebservice.HttpSegmentation
import TigeraWebservice.PlainMessages

/-!
# The read limit of a channel

What the parser has consumed stays in the input until the next drain, and a
message is drained only behind its header section and at its end. A channel
stops reading while its input holds as much as its high watermark, so whether
the rest of a message can still arrive depends on what has not been drained.
-/

set_option autoImplicit false

namespace Tigera.ReadLimit
open Tigera.ParserMachine Tigera.HttpReading Tigera.MessageReading Tigera.HttpSegmentation
open Tigera.SessionWorld

variable {P : Type}

/-- `TCP_SOCKET_READ_HIGH_WM`. -/
def highWatermark : ℕ := 16 * 1024 * 1024

def inHeader (hp : HttpParser P) : Reading P → Bool
  | .going core _ _ => hp.phase core = .idle || hp.phase core = .head
  | _ => false

/-- The bytes since the last drain when `bytes` follow `kept`: a drain comes
with the byte that ends the header section. -/
def sinceDrain (hp : HttpParser P) (x : Reading P) (kept : List UInt8) : List UInt8 → List UInt8
  | [] => kept
  | b :: bytes =>
    sinceDrain hp (readByte hp x b)
      (if inHeader hp x && !inHeader hp (readByte hp x b) then [] else kept ++ [b]) bytes

def past (hp : HttpParser P) : Reading P → Prop
  | .going core _ _ => hp.phase core = .content
  | _ => True

def Placed (hp : HttpParser P) (x : Reading P) : Prop := inHeader hp x = true ∨ past hp x

variable {hp : HttpParser P} {x : Reading P} {kept bytes : List UInt8}

theorem past_not_header (h : past hp x) : inHeader hp x = false := by
  cases x with
  | going core body fed =>
    have h : hp.phase core = .content := h
    simp [inHeader, h]
  | complete body fed => rfl
  | rejected fed => rfl

theorem past_settle (b : UInt8) (body fed : List UInt8) (r : Scan P)
    (h : Notice.messageComplete ∉ r.notices → hp.phase r.next = .content) :
    past hp (settle b body fed r) := by
  rw [settle]
  split
  · trivial
  · exact h ‹_›

theorem past_readByte (b : UInt8) (h : past hp x) : past hp (readByte hp x b) := by
  cases x with
  | complete body fed => trivial
  | rejected fed => trivial
  | going core body fed =>
    have h : hp.phase core = .content := h
    rw [readByte]
    cases hs : hp.scan core b with
    | none => trivial
    | some r =>
      rcases follows_content (hp.scan_follows _ b r (by simp [h]) hs) h with
        ⟨hn, hq⟩ | ⟨hn, hq⟩ | hn | hn <;> simp only [hn, List.mem_cons, List.not_mem_nil,
          reduceCtorEq, or_self, if_false] <;> apply past_settle <;> simp_all

theorem past_readStream (h : past hp x) : past hp (readStream hp x bytes) := by
  induction bytes generalizing x with
  | nil => exact h
  | cons b bytes ih => exact ih (past_readByte b h)

theorem placed_readByte (b : UInt8) (h : Placed hp x) : Placed hp (readByte hp x b) := by
  rcases h with h | h
  · cases x with
    | complete body fed => cases h
    | rejected fed => cases h
    | going core body fed =>
      rw [readByte]
      cases hs : hp.scan core b with
      | none => exact .inr trivial
      | some r =>
        simp only [inHeader, Bool.or_eq_true, decide_eq_true_eq] at h
        rcases h with h | h
        · left
          rcases follows_idle (hp.scan_follows _ b r (by simp [h]) hs) h with
            ⟨hn, hq⟩ | ⟨hn, hq⟩ <;> simp [hn, settle, inHeader, hq]
        · rcases follows_head (hp.scan_follows _ b r (by simp [h]) hs) h with
            ⟨hn, hq⟩ | ⟨hn, hq⟩
          · left
            simp [hn, settle, inHeader, hq]
          · right
            simp only [hn, List.mem_singleton, if_true]
            cases hs' : hp.scan r.next b with
            | none => trivial
            | some r' =>
              apply past_settle
              intro hno
              rcases follows_headed (hp.scan_follows _ b r' (by simp [hq]) hs') hq with
                ⟨-, hq'⟩ | hn'
              · exact hq'
              · simp [hn'] at hno
  · exact .inr (past_readByte b h)

theorem header_from_start (h : Placed hp x) (he : inHeader hp (readStream hp x bytes) = true) :
    inHeader hp x = true := by
  rcases h with h | h
  · exact h
  · rw [past_not_header (past_readStream h)] at he
    cases he

theorem sinceDrain_append (hp : HttpParser P) (x : Reading P) (kept u v : List UInt8) :
    sinceDrain hp x kept (u ++ v) =
      sinceDrain hp (readStream hp x u) (sinceDrain hp x kept u) v := by
  induction u generalizing x kept with
  | nil => rfl
  | cons b u ih => exact ih _ _

theorem sinceDrain_past (h : past hp x) : sinceDrain hp x kept bytes = kept ++ bytes := by
  induction bytes generalizing x kept with
  | nil => rw [sinceDrain, List.append_nil]
  | cons b bytes ih =>
    rw [sinceDrain, past_not_header h, Bool.false_and, if_neg (by decide), ih (past_readByte b h),
      List.append_assoc]
    rfl

theorem sinceDrain_header (h : Placed hp x) (he : inHeader hp (readStream hp x bytes) = true) :
    sinceDrain hp x kept bytes = kept ++ bytes := by
  induction bytes generalizing x kept with
  | nil => rw [sinceDrain, List.append_nil]
  | cons b bytes ih =>
    have hb := placed_readByte b h
    have hy : inHeader hp (readByte hp x b) = true := header_from_start hb he
    rw [sinceDrain, hy, Bool.not_true, Bool.and_false, if_neg (by decide), ih hb he,
      List.append_assoc]
    rfl

theorem sinceDrain_headers (u : List UInt8) (b : UInt8)
    (hu : inHeader hp (readStream hp x u) = true) (hb : past hp (readStream hp x (u ++ [b]))) :
    sinceDrain hp x kept (u ++ [b]) = [] := by
  rw [readStream_append] at hb
  have hb : inHeader hp (readByte hp (readStream hp x u) b) = false := past_not_header hb
  rw [sinceDrain_append, sinceDrain, hu, hb]
  rfl

theorem tracks_header {s : HttpSession P} (h : Tracks hp s x)
    (hs : s.state = .messageBegin ∨ s.state = .messageParseBegin) : inHeader hp x = true := by
  obtain ⟨core, body, fed, rfl⟩ := tracks_going h (by rcases hs with hs | hs <;> simp [hs])
  obtain ⟨rfl, -, -, hst⟩ := h
  rcases hs with hs | hs
  · simp only [Stage, hs] at hst
    simp [inHeader, hst.1]
  · simp only [Stage, hs] at hst
    simp [inHeader, hst.1]

theorem tracks_past {s : HttpSession P} (h : Tracks hp s x)
    (hs : s.state ≠ .messageBegin ∧ s.state ≠ .messageParseBegin) : past hp x := by
  cases x with
  | complete body fed => trivial
  | rejected fed => trivial
  | going core body fed =>
    obtain ⟨rfl, -, -, hst⟩ := h
    cases hstate : s.state with
    | messageBegin => exact absurd hstate hs.1
    | messageParseBegin => exact absurd hstate hs.2
    | headersComplete =>
      simp only [Stage, hstate] at hst
      exact hst.1
    | bodyParse =>
      simp only [Stage, hstate] at hst
      exact hst.1
    | messageComplete => simp [Stage, hstate] at hst

theorem tracks_placed {s : HttpSession P} (h : Tracks hp s x) : Placed hp x := by
  by_cases hs : s.state = .messageBegin ∨ s.state = .messageParseBegin
  · exact .inl (tracks_header h hs)
  · exact .inr (tracks_past h (not_or.mp hs))

theorem execute_inHeader (hp : HttpParser P) (c : ReadChoices) (v : List UInt8)
    (s : HttpSession P) (core : P) (fed : List UInt8) (ht : Tracks hp s (.going core [] fed))
    (hs : s.state = .messageParseBegin) :
    inHeader hp (readStream hp (.going core [] fed)
      (v.take (httpParserExecute hp c v s).1)) = true := by
  induction v generalizing s core fed with
  | nil => exact tracks_header ht (.inr hs)
  | cons b v ih =>
    have hstart := tracks_header ht (.inr hs)
    obtain ⟨rfl, rfl, herr, hstage⟩ := ht
    have hphase : hp.phase s.parser.core = .head ∧ s.body = some [] := by
      simpa [Stage, hs] using hstage
    rw [httpParserExecute, if_pos herr]
    cases hscan : hp.scan s.parser.core b with
    | none => exact hstart
    | some r =>
      rcases follows_head (hp.scan_follows _ b r (by simp [hphase.1]) hscan) hphase.1 with
        ⟨hn, hq⟩ | ⟨hn, hq⟩
      · have hx : readByte hp (.going s.parser.core [] s.parser.fed) b =
            .going r.next [] (s.parser.fed ++ [b]) := by
          simp [readByte, hscan, hn, settle]
        simp only [hn, notify, List.not_mem_nil, if_false, List.take_succ_cons, readStream_cons,
          hx]
        exact ih (consume b { s with parser := { s.parser with core := r.next } }) r.next _
          ⟨rfl, rfl, herr, by simp [Stage, consume, hs, hq, hphase.2]⟩ hs
      · simp only [hn, List.mem_singleton, if_true]
        exact hstart

def EndsHeader (hp : HttpParser P) (s : HttpSession P) (x : Reading P) (v : List UInt8)
    (t : HttpSession P) : Prop :=
  t.state = .headersComplete → ∃ u b, u ++ [b] <+: v ∧ t.len = s.len + (u ++ [b]).length ∧
    inHeader hp (readStream hp x u) = true

theorem parseVec_ends (c : ReadChoices) (v : List UInt8) (s : HttpSession P)
    (ht : Tracks hp s x) (hh : s.state ≠ .headersComplete) (hm : s.state ≠ .messageComplete)
    (hr : (parseVec (httpParserExecute hp c) v s).1 = some .paused) :
    EndsHeader hp s x v (parseVec (httpParserExecute hp c) v s).2 := by
  intro hstate
  obtain ⟨-, hlen, -⟩ := execute_framed hp c v s
  have he := execute_spec hp c v s x ht hh hm
  have hin : s.state = .messageParseBegin →
      inHeader hp (readStream hp x (v.take (httpParserExecute hp c v s).1)) = true := by
    intro hs
    obtain ⟨core, body, fed, rfl⟩ := tracks_going ht hm
    obtain rfl : body = [] := by
      have hst := ht.2.2.2
      simp only [Stage, hs] at hst
      exact hst.2.2
    exact execute_inHeader hp c v s core fed ht hs
  unfold parseVec at hr hstate ⊢
  generalize httpParserExecute hp c v s = e at hlen he hin hr hstate ⊢
  obtain ⟨n, t⟩ := e
  simp only at hlen he hin hr hstate ⊢
  cases he with
  | all errno state tracks => simp [errno] at hr
  | paused errno pos le state headers tracks =>
    simp [errno, headers] at hstate
  | @headers _ _ b errno state before phase body byte next =>
    obtain ⟨hlt, hbyte⟩ := List.getElem?_eq_some_iff.mp byte
    have hb : (v.drop n).take 1 = [b] := by
      rw [List.drop_eq_getElem_cons hlt, hbyte]
      rfl
    have htake : v.take n ++ [b] = v.take (n + 1) := by
      rw [List.take_add, hb]
    refine ⟨v.take n, b, htake ▸ List.take_prefix _ _, ?_, hin before⟩
    obtain ⟨-, hlen', hle⟩ := execute_framed hp c [b]
      { t with len := t.len + n, parser := httpParserPause t.parser false }
    simp only [errno, if_true, state, hlt, and_self, hb] at hr ⊢
    rw [htake, List.length_take_of_le hlt]
    simp only [state] at hlen' hle
    generalize httpParserExecute hp c [b] _ = q at hr hlen' hle ⊢
    obtain ⟨k, u⟩ := q
    simp only at hr hlen' ⊢
    split at hr
    · next hk =>
      simp only [hk, if_true]
      omega
    · cases hr
  | error errno cause => simp [errno] at hr

theorem parseVecs_ends (c : ReadChoices) (vs : List (List UInt8)) (s : HttpSession P)
    (ht : Tracks hp s x) (hh : s.state ≠ .headersComplete) (hm : s.state ≠ .messageComplete)
    (hr : (parseVecs (httpParserExecute hp c) vs s).1 = .paused) :
    EndsHeader hp s x vs.flatten (parseVecs (httpParserExecute hp c) vs s).2 := by
  induction vs generalizing s x with
  | nil => cases hr
  | cons v vs ih =>
    have hends := parseVec_ends c v s ht hh hm
    have hv := (parseVec_spec hp c v s x ht hh hm).1
    rw [parseVecs] at hr ⊢
    rw [List.flatten_cons]
    generalize parseVec (httpParserExecute hp c) v s = e at hv hends hr ⊢
    obtain ⟨r, t⟩ := e
    cases r with
    | some r =>
      simp only at hr hends ⊢
      intro hstate
      obtain ⟨u, b, hu, hrest⟩ := hends (by rw [hr]) hstate
      exact ⟨u, b, hu.trans (List.prefix_append _ _), hrest⟩
    | none =>
      simp only at hr ⊢
      cases hv with
      | success len state tracks =>
        intro hstate
        obtain ⟨u, b, hu, hlen, hin⟩ := ih t tracks (state ▸ hh) (state ▸ hm) hr hstate
        refine ⟨v ++ u, b, ?_, ?_, ?_⟩
        · rw [List.append_assoc]
          exact (List.prefix_append_right_inj v).mpr hu
        · have len : t.len = s.len + v.length := len
          simp only [List.length_append] at hlen ⊢
          omega
        · rw [readStream_append]
          exact hin

def Hooked (s t : HttpSession P) : Prop :=
  t.state = s.state ∨ t.state = .messageParseBegin ∨ t.state = .headersComplete ∨
    t.state = .messageComplete

theorem hooked_trans {s t u : HttpSession P} (h : Hooked s t) (h' : Hooked t u) : Hooked s u := by
  rcases h' with h' | h'
  · rw [Hooked, h']
    exact h
  · exact .inr h'

theorem notify_hooked (c : ReadChoices) (b : UInt8) (ns : List Notice) (s : HttpSession P) :
    Hooked s (notify c b ns s) := by
  induction ns generalizing s with
  | nil => exact .inl rfl
  | cons n ns ih =>
    have hk : Hooked s (hook c b n s).2 := by
      cases n with
      | messageBegin =>
        simp only [hook, messageBegin]
        split
        · exact .inr (.inl rfl)
        · exact .inl rfl
      | headersComplete => exact .inr (.inr (.inl rfl))
      | body =>
        simp only [hook, messageBody]
        split
        · split <;> exact .inl rfl
        · exact .inl rfl
      | messageComplete => exact .inr (.inr (.inr rfl))
    simp only [notify]
    split
    · split
      · exact hooked_trans hk (ih _)
      · exact hk
    · exact hk

theorem execute_hooked (hp : HttpParser P) (c : ReadChoices) (v : List UInt8)
    (s : HttpSession P) : Hooked s (httpParserExecute hp c v s).2 := by
  induction v generalizing s with
  | nil => exact .inl rfl
  | cons b v ih =>
    simp only [httpParserExecute]
    split
    · split
      · exact .inl rfl
      · next r _ =>
        have hn : Hooked s (notify c b r.notices
            { s with parser := { s.parser with core := r.next } }) := notify_hooked c b r.notices _
        split
        · exact hn
        · exact hooked_trans hn (ih _)
    · exact .inl rfl

theorem parseVec_hooked (hp : HttpParser P) (c : ReadChoices) (v : List UInt8)
    (s : HttpSession P) : Hooked s (parseVec (httpParserExecute hp c) v s).2 := by
  have he := execute_hooked hp c v s
  unfold parseVec
  generalize httpParserExecute hp c v s = e at he ⊢
  obtain ⟨n, t⟩ := e
  simp only at he ⊢
  split
  · split
    · have hag := hooked_trans he (execute_hooked hp c ((v.drop n).take 1)
        { t with len := t.len + n, parser := httpParserPause t.parser false })
      split <;> exact hag
    · exact he
  · split
    · exact he
    · split <;> exact he

theorem parseVecs_hooked (hp : HttpParser P) (c : ReadChoices) (vs : List (List UInt8))
    (s : HttpSession P) : Hooked s (parseVecs (httpParserExecute hp c) vs s).2 := by
  induction vs generalizing s with
  | nil => exact .inl rfl
  | cons v vs ih =>
    have hv := parseVec_hooked hp c v s
    rw [parseVecs]
    generalize parseVec (httpParserExecute hp c) v s = e at hv ⊢
    obtain ⟨r, t⟩ := e
    cases r with
    | some r => exact hv
    | none => exact hooked_trans hv (ih t)

/-- The input in front of the position is what has been kept. -/
def Keeps (s : HttpSession P) (input kept : List UInt8) : Prop :=
  if s.state = .headersComplete then kept = [] else input.take s.len = kept

def consumed (s t : HttpSession P) (input rest : List UInt8) : List UInt8 :=
  (pending s input).take ((pending s input).length - (pending t rest).length)

theorem sinceDrain_same {s t : HttpSession P} (hs : Tracks hp s x)
    (ht : Tracks hp t (readStream hp x bytes))
    (hooked : Hooked s t) (hth : t.state ≠ .headersComplete) (htm : t.state ≠ .messageComplete) :
    sinceDrain hp x kept bytes = kept ++ bytes := by
  by_cases hin : t.state = .messageBegin ∨ t.state = .messageParseBegin
  · exact sinceDrain_header (tracks_placed hs) (tracks_header ht hin)
  · rw [not_or] at hin
    apply sinceDrain_past
    apply tracks_past hs
    rcases hooked with hst | hst | hst | hst
    · rwa [← hst]
    · exact absurd hst hin.2
    · exact absurd hst hth
    · exact absurd hst htm

theorem readTurn_keeps (hp : HttpParser P) (c : ReadChoices) (k : ℕ) (s : HttpSession P)
    (input : List UInt8) (h : AtHead hp s input x) (hk : Keeps s input kept) :
    match readTurn (httpParserExecute hp c) c k s input with
    | (some .returned, _, rest) => rest = sinceDrain hp x kept (pending s input)
    | (none, t, rest) => t.state ≠ .messageComplete →
        Keeps t rest (sinceDrain hp x kept (consumed s t input rest))
    | _ => True := by
  have hw := h.within
  by_cases hh : s.state = .headersComplete
  · simp only [readTurn, hh]
    by_cases hd : c.drain k = true
    · rw [if_pos hd]
      rw [Keeps, if_pos hh] at hk
      intro _
      rw [hk, Keeps, if_neg (by simp), consumed]
      simp [pending, sinceDrain]
    · rw [if_neg hd]
      trivial
  · by_cases hm : s.state = .messageComplete
    · simp only [readTurn, hm]
      by_cases hd : c.drain k = true
      · rw [if_pos hd]
        trivial
      · rw [if_neg hd]
        trivial
    · rw [Keeps, if_neg hh] at hk
      rw [readTurn_parses _ c k s input hh hm]
      have hr := httpRequestParse_spec hp c k input s x h hh hm
      have hooked : Hooked s (httpRequestParse (httpParserExecute hp c) c k input s).2 := by
        rw [httpRequestParse, if_neg (by omega)]
        simp only
        split
        · exact .inl rfl
        · exact parseVecs_hooked hp c _ s
      have hends : (httpRequestParse (httpParserExecute hp c) c k input s).1 = .paused →
          EndsHeader hp s x (pending s input)
            (httpRequestParse (httpParserExecute hp c) c k input s).2 := by
        rw [httpRequestParse, if_neg (by omega)]
        simp only
        split
        · intro hno
          cases hno
        · intro hpaused
          have he := parseVecs_ends c _ s h.tracks hh hm hpaused
          rwa [segments_flatten] at he
      generalize httpRequestParse (httpParserExecute hp c) c k input s = r at hr hooked hends ⊢
      obtain ⟨result, t⟩ := r
      simp only at hr hooked hends ⊢
      cases hr with
      | success len state tracks =>
        rw [if_neg (by decide), if_pos state.symm]
        simp only
        rw [sinceDrain_same h.tracks tracks hooked (state ▸ hh) (state ▸ hm), ← hk, pending,
          List.take_append_drop]
      | @paused n _ pos le len state tracks =>
        rw [if_neg (by decide), if_neg (Ne.symm state)]
        simp only
        intro htm
        have hcons : consumed s t input input = (pending s input).take n := by
          have hs := pending_length s input
          have ht := pending_length t input
          rw [consumed]
          congr 1
          omega
        rw [hcons, Keeps]
        split
        · next hth =>
          obtain ⟨u, b, hu, hlen, hin⟩ := hends rfl hth
          have hn : (pending s input).take n = u ++ [b] := by
            rw [List.prefix_iff_eq_take.mp hu]
            congr 1
            omega
          rw [hn] at tracks ⊢
          exact sinceDrain_headers u b hin (tracks_past tracks (by simp [hth]))
        · next hth =>
          rw [sinceDrain_same h.tracks tracks hooked hth htm, ← hk, len, pending, List.take_add]
      | error cause =>
        rw [if_pos rfl]
        trivial

theorem readLoop_complete (hp : HttpParser P) (c : ReadChoices) (k : ℕ) (s : HttpSession P)
    (input : List UInt8) (hm : s.state = .messageComplete) :
    (readLoop (httpParserExecute hp c) c k s input).1 ≠ .returned := by
  cases k with
  | zero => simp [readLoop]
  | succ k =>
    rw [readLoop, readTurn, hm]
    by_cases hd : c.drain k = true
    · simp [hd]
    · simp [hd]

theorem readLoop_keeps (hp : HttpParser P) (c : ReadChoices) (k : ℕ) (s : HttpSession P)
    (input : List UInt8) (h : AtHead hp s input x) (hk : Keeps s input kept)
    (hr : (readLoop (httpParserExecute hp c) c k s input).1 = .returned) :
    (readLoop (httpParserExecute hp c) c k s input).2.2 =
      sinceDrain hp x kept (pending s input) := by
  induction k generalizing s input x kept with
  | zero => cases hr
  | succ k ih =>
    have hturn := readTurn_spec hp c k s input x h
    have hkeep := readTurn_keeps hp c k s input h hk
    rw [readLoop] at hr ⊢
    generalize readTurn (httpParserExecute hp c) c k s input = r at hturn hkeep hr ⊢
    obtain ⟨exit, t, rest⟩ := r
    cases exit with
    | some exit =>
      simp only at hr ⊢
      subst hr
      exact hkeep
    | none =>
      simp only at hr hkeep ⊢
      have htm : t.state ≠ .messageComplete := by
        intro htm
        exact readLoop_complete hp c k t rest htm hr
      cases hturn with
      | @next n _ _ head remaining lighter =>
        have hcons : consumed s t input rest = (pending s input).take n := by
          rw [consumed, remaining, List.length_drop]
          rcases Nat.le_total n (pending s input).length with hn | hn
          · congr 1
            omega
          · rw [List.take_of_length_le hn, List.take_of_length_le (by omega)]
        rw [ih t rest head (hcons ▸ hkeep htm) hr, remaining, ← sinceDrain_append,
          List.take_append_drop]

theorem readArrival_keeps (hp : HttpParser P) (a : Arrival) (s : HttpSession P)
    (input : List UInt8) (h : Waiting hp s input x)
    (hr : (readArrival hp a s input).1 = .returned) :
    (readArrival hp a s input).2.2 = sinceDrain hp x input a.data := by
  have hpend := waiting_pending h a.data
  have hkeep : Keeps s (input ++ a.data) input := by
    rw [Keeps, if_neg h.headers, h.len, List.take_left]
  rw [readArrival, httpSessionRead] at hr ⊢
  split at hr
  · next hempty =>
    rw [if_pos hempty]
    rw [List.length_append] at hempty
    have hdata : a.data = [] := List.eq_nil_of_length_eq_zero (by omega)
    rw [hdata, List.append_nil]
    rfl
  · next hempty =>
    rw [if_neg hempty]
    have hrest := readLoop_keeps hp _ _ s _ (waiting_head h a.data) hkeep hr
    rwa [hpend] at hrest

/-- The input after the calls, if all of them have returned with the message
neither complete nor rejected; everything in it has then been consumed. -/
def leftInInput (hp : HttpParser P) :
    List Arrival → HttpSession P → List UInt8 → Option (List UInt8)
  | [], _, input => some input
  | a :: calls, s, input =>
    match readArrival hp a s input with
    | (.returned, s, input) => leftInInput hp calls s input
    | _ => none

theorem leftInInput_spec (hp : HttpParser P) (calls : List Arrival) (s : HttpSession P)
    (input : List UInt8) (x : Reading P) (h : Waiting hp s input x) :
    leftInInput hp calls s input =
      if isGoing (readStream hp x (stream calls)) = true
        then some (sinceDrain hp x input (stream calls)) else none := by
  induction calls generalizing s input x with
  | nil =>
    obtain ⟨core, body, fed, rfl⟩ := tracks_going h.tracks h.complete
    rfl
  | cons a calls ih =>
    have hs : readStream hp x (stream (a :: calls)) =
        readStream hp (readStream hp x a.data) (stream calls) := by
      rw [stream, List.flatMap_cons, readStream_append, stream]
    have hd : sinceDrain hp x input (stream (a :: calls)) =
        sinceDrain hp (readStream hp x a.data) (sinceDrain hp x input a.data) (stream calls) := by
      rw [stream, List.flatMap_cons, sinceDrain_append, stream]
    have ha := readArrival_spec hp a s input x h
    have hkeep := readArrival_keeps hp a s input h
    have hpend := waiting_pending h a.data
    rw [leftInInput, hs, hd]
    generalize readArrival hp a s input = r at ha hkeep ⊢
    obtain ⟨exit, t, rest⟩ := r
    simp only at ha hkeep ⊢
    cases ha with
    | returned tracks len headers complete =>
      rw [hpend] at tracks
      rw [← hkeep rfl]
      exact ih t rest _ ⟨tracks, len, headers, complete⟩
    | @complete n _ _ tracks state len =>
      rw [hpend] at tracks
      have hx : readStream hp x a.data =
          readStream hp (readStream hp x (a.data.take n)) (a.data.drop n) :=
        (readStream_take hp x a.data n).symm
      generalize readStream hp x (a.data.take n) = y at tracks hx
      cases y with
      | going core body fed =>
        have hst := tracks.2.2.2
        simp [Stage, state] at hst
      | complete body fed => simp [hx, isGoing]
      | rejected fed => exact tracks.elim
    | failed cause =>
      have hr := cause (unfailing_unfailing a.layout)
      rw [hpend] at hr
      simp [hr, isGoing]

/-- After no call that returns does the input hold as much as the limit. -/
def NeverWedges (lib : Libs P) (type : ParserType) (channel : ℕ) (calls : List Arrival) : Prop :=
  ∀ earlier, earlier <+: calls → ∀ input,
    leftInInput lib.httpParser earlier (httpSessionInit lib type channel) [] = some input →
      input.length < highWatermark

/-- Reading stops at the limit: no more arrives than fits below it, and nothing
once the input is full. -/
def Limited (lib : Libs P) (type : ParserType) (channel : ℕ) (calls : List Arrival) : Prop :=
  ∀ earlier a, earlier ++ [a] <+: calls → ∀ input,
    leftInInput lib.httpParser earlier (httpSessionInit lib type channel) [] = some input →
      input.length < highWatermark ∧ input.length + a.data.length ≤ highWatermark

/-- The limit is never reached exactly if, as long as the message is neither
complete nor rejected, the bytes of its header section so far, or else those of
its body so far, are fewer. -/
theorem never_wedges_iff (lib : Libs P) (type : ParserType) (channel : ℕ) (calls : List Arrival) :
    NeverWedges lib type channel calls ↔
      ∀ earlier, earlier <+: calls →
        isGoing (readStream lib.httpParser (.going (lib.httpParser.init type) [] [])
          (stream earlier)) = true →
        (sinceDrain lib.httpParser (.going (lib.httpParser.init type) [] []) []
          (stream earlier)).length < highWatermark := by
  have hspec : ∀ calls, leftInInput lib.httpParser calls (httpSessionInit lib type channel) [] = _ :=
    fun calls => leftInInput_spec lib.httpParser calls _ [] _
      (httpSessionInit_waiting lib type channel)
  constructor
  · intro h earlier he hgoing
    exact h earlier he _ ((hspec earlier).trans (if_pos hgoing))
  · intro h earlier he input hinput
    rw [hspec earlier] at hinput
    split at hinput
    · next hgoing =>
      rw [← Option.some.inj hinput]
      exact h earlier he hgoing
    · cases hinput

open Tigera.JokeCreate Tigera.PlainMessages

def largeReply : Bytes := literal "HTTP/1.1 200 OK\r\nContent-Length: 33554432\r\n\r\n"

/-- Its header section arrives, and then `n` bytes of its body. -/
def partReply (n : ℕ) : List Arrival :=
  [⟨largeReply, fun _ => []⟩, ⟨List.replicate n 97, fun _ => []⟩]

theorem content_going (n k : ℕ) (body fed : List UInt8) (b : UInt8) (h : k < n) :
    ∃ body' fed', readStream parser (.going (.content (some n)) body fed) (List.replicate k b) =
      .going (.content (some (n - k))) body' fed' := by
  induction k generalizing n body fed with
  | zero => exact ⟨body, fed, rfl⟩
  | succ k ih =>
    obtain ⟨m, rfl⟩ : ∃ m, n = m + 2 := ⟨n - 2, by omega⟩
    rw [List.replicate_succ, readStream_cons]
    have hb : readByte parser (.going (.content (some (m + 2))) body fed) b =
        .going (.content (some (m + 1))) (body ++ [b]) (fed ++ [b]) := rfl
    rw [hb]
    obtain ⟨body', fed', hrest⟩ := ih (m + 1) (body ++ [b]) (fed ++ [b]) (by omega)
    refine ⟨body', fed', hrest.trans ?_⟩
    congr 3
    omega

def behindHeader : Reading Core := .going (.content (some 33554432)) [] largeReply

theorem largeReply_read :
    readStream parser (.going (parser.init .response) [] []) largeReply = behindHeader := by
  rfl

theorem largeReply_drained :
    sinceDrain parser (.going (parser.init .response) [] []) [] largeReply = [] := by
  decide +kernel

theorem left_behind (calls : List Arrival) (body : List UInt8) (n : ℕ) (hn : n < 33554432)
    (hb : body = List.replicate n 97) (hs : stream calls = largeReply ++ body) :
    leftInInput parser calls (httpSessionInit libs .response 0) [] = some body := by
  have hspec : leftInInput parser calls (httpSessionInit libs .response 0) [] =
      if isGoing (readStream parser (.going (parser.init .response) [] []) (stream calls)) = true
        then some (sinceDrain parser (.going (parser.init .response) [] []) [] (stream calls))
        else none :=
    leftInInput_spec parser calls _ [] _ (httpSessionInit_waiting libs .response 0)
  obtain ⟨body', fed', hread⟩ := content_going 33554432 n [] largeReply 97 hn
  have hpast : past parser behindHeader := rfl
  rw [hspec, hs, readStream_append, sinceDrain_append, largeReply_read, largeReply_drained,
    sinceDrain_past hpast, hb, behindHeader, hread]
  rfl

theorem header_left : leftInInput parser [⟨largeReply, fun _ => []⟩]
    (httpSessionInit libs .response 0) [] = some [] :=
  left_behind _ [] 0 (by decide) rfl (by rw [stream, List.flatMap_singleton, List.append_nil])

theorem part_left (n : ℕ) (hn : n < 33554432) :
    leftInInput parser (partReply n) (httpSessionInit libs .response 0) [] =
      some (List.replicate n 97) :=
  left_behind _ _ n hn rfl (by
    rw [stream, partReply, List.flatMap_cons, List.flatMap_singleton])

theorem part_limited (n : ℕ) (hn : n ≤ highWatermark) :
    Limited libs .response 0 (partReply n) := by
  intro earlier a hpre input hinput
  match earlier, hpre with
  | [], hpre =>
    obtain ⟨rfl, -⟩ := List.cons_prefix_cons.mp hpre
    obtain rfl : [] = input := Option.some.inj hinput
    decide
  | [p], hpre =>
    obtain ⟨rfl, hrest⟩ := List.cons_prefix_cons.mp hpre
    obtain ⟨rfl, -⟩ := List.cons_prefix_cons.mp hrest
    obtain rfl : [] = input := Option.some.inj (header_left.symm.trans hinput)
    simp only [List.length_nil, List.length_replicate, Nat.zero_add]
    exact ⟨by decide, hn⟩
  | p :: q :: earlier, hpre =>
    have hlen := hpre.length_le
    simp only [partReply, List.length_append, List.length_cons, List.length_nil] at hlen
    omega

/-- Half of the body fills the input, and the other half can never arrive. -/
theorem half_reply_wedges :
    Limited libs .response 0 (partReply highWatermark) ∧
      ¬ NeverWedges libs .response 0 (partReply highWatermark) := by
  refine ⟨part_limited highWatermark le_rfl, ?_⟩
  intro h
  have hlt := h _ (List.prefix_refl _) _ (part_left highWatermark (by decide))
  rw [List.length_replicate] at hlt
  exact Nat.lt_irrefl _ hlt

end Tigera.ReadLimit
