import TigeraWebservice.MessageReading
import TigeraWebservice.SessionWorld

/-!
# Reading does not depend on how the bytes arrive

The turns of the reading loop are put together over one call and the calls over
a connection. However the bytes are cut into calls and segments, the session
ends where the reference reading of the whole stream does.
-/

set_option autoImplicit false

namespace Tigera.HttpSegmentation
open Tigera.ParserMachine Tigera.HttpReading Tigera.MessageReading Tigera.SessionWorld

variable {P : Type}

theorem segments_flatten (ks : List ℕ) (bytes : List UInt8) :
    (segments ks bytes).flatten = bytes := by
  induction ks generalizing bytes with
  | nil => cases bytes <;> simp [segments]
  | cons k ks ih => cases bytes <;> simp [segments, ih]

def pending (s : HttpSession P) (input : List UInt8) : List UInt8 := input.drop s.len

/-- What holds at the head of the loop. -/
structure AtHead (hp : HttpParser P) (s : HttpSession P) (input : List UInt8) (x : Reading P) :
    Prop where
  tracks : Tracks hp s x
  within : s.len ≤ input.length

theorem pending_length (s : HttpSession P) (input : List UInt8) :
    (pending s input).length = input.length - s.len := by
  simp [pending]

theorem httpRequestParse_spec (hp : HttpParser P) (c : ReadChoices) (k : ℕ)
    (input : List UInt8) (s : HttpSession P) (x : Reading P) (h : AtHead hp s input x)
    (hh : s.state ≠ .headersComplete) (hm : s.state ≠ .messageComplete) :
    Parsed hp c s x (pending s input) (httpRequestParse (httpParserExecute hp c) c k input s).1
      (httpRequestParse (httpParserExecute hp c) c k input s).2 := by
  have hw := h.within
  rw [httpRequestParse, if_neg (by omega)]
  by_cases hv : 5 < (segments (c.layout k) (input.drop s.len)).length ∧ c.vecsMalloc k = false
  · rw [if_pos hv]
    refine .error fun hc => ?_
    have hvm := hc.2.2.1 k
    simp [hv.2] at hvm
  · rw [if_neg hv]
    have hp := parseVecs_spec hp c (segments (c.layout k) (input.drop s.len)) s x h.tracks hh hm
    rwa [segments_flatten] at hp

def weight (s : HttpSession P) (input : List UInt8) : ℕ :=
  2 * (pending s input).length + if s.state = .headersComplete then 1 else 0

inductive Turned (hp : HttpParser P) (c : ReadChoices) (s : HttpSession P) (input : List UInt8)
    (x : Reading P) : Option ReadExit → HttpSession P → List UInt8 → Prop where
  | returned {t : HttpSession P} (tracks : Tracks hp t (readStream hp x (pending s input)))
      (len : t.len = input.length) (headers : t.state ≠ .headersComplete)
      (complete : t.state ≠ .messageComplete) : Turned hp c s input x (some .returned) t input
  | complete {t : HttpSession P} (tracks : Tracks hp t x) (state : t.state = .messageComplete)
      (len : t.len = 0) : Turned hp c s input x (some .messageComplete) t (pending s input)
  | failed {t : HttpSession P} {rest : List UInt8}
      (cause : Unfailing c → readStream hp x (pending s input) = .rejected t.parser.fed) :
      Turned hp c s input x (some .failed) t rest
  | next {n : ℕ} {t : HttpSession P} {rest : List UInt8}
      (head : AtHead hp t rest (readStream hp x ((pending s input).take n)))
      (remaining : pending t rest = (pending s input).drop n)
      (lighter : weight t rest < weight s input) : Turned hp c s input x none t rest

theorem tracks_bodyParse {hp : HttpParser P} {s : HttpSession P} {x : Reading P}
    (ht : Tracks hp s x) (hs : s.state = .headersComplete) :
    Tracks hp { s with len := 0, state := .bodyParse } x := by
  cases x with
  | going core body fed =>
    obtain ⟨hc, hf, he, hst⟩ := ht
    simp only [Stage, hs] at hst
    exact ⟨hc, hf, he, hst⟩
  | complete body fed => simp [Tracks, hs] at ht
  | rejected fed => exact ht.elim

theorem readTurn_parses (exec : Execute P) (c : ReadChoices) (k : ℕ) (s : HttpSession P)
    (input : List UInt8) (hh : s.state ≠ .headersComplete) (hm : s.state ≠ .messageComplete) :
    readTurn exec c k s input =
      match httpRequestParse exec c k input s with
      | (result, t) =>
        if result = .error then (some .failed, t, input)
        else if s.state = t.state then (some .returned, t, input)
        else (none, t, input) := by
  cases hs : s.state <;> simp_all [readTurn]

theorem readTurn_spec (hp : HttpParser P) (c : ReadChoices) (k : ℕ) (s : HttpSession P)
    (input : List UInt8) (x : Reading P) (h : AtHead hp s input x) :
    Turned hp c s input x (readTurn (httpParserExecute hp c) c k s input).1
      (readTurn (httpParserExecute hp c) c k s input).2.1
      (readTurn (httpParserExecute hp c) c k s input).2.2 := by
  have hw := h.within
  by_cases hh : s.state = .headersComplete
  · simp only [readTurn, hh]
    by_cases hd : c.drain k = true
    · rw [if_pos hd]
      refine .next (n := 0) ⟨tracks_bodyParse h.tracks hh, Nat.zero_le _⟩ rfl ?_
      simp [weight, hh, pending]
    · rw [if_neg hd]
      exact .failed fun hc => absurd (hc.2.2.2 k) hd
  · by_cases hm : s.state = .messageComplete
    · simp only [readTurn, hm]
      by_cases hd : c.drain k = true
      · rw [if_pos hd]
        have ht : Tracks hp { s with len := 0 } x := tracks_len 0 h.tracks
        simp only [hm] at ht
        exact .complete ht rfl rfl
      · rw [if_neg hd]
        exact .failed fun hc => absurd (hc.2.2.2 k) hd
    · rw [readTurn_parses _ c k s input hh hm]
      have hr := httpRequestParse_spec hp c k input s x h hh hm
      generalize httpRequestParse (httpParserExecute hp c) c k input s = r at hr ⊢
      obtain ⟨result, t⟩ := r
      simp only at hr ⊢
      have hlen := pending_length s input
      cases hr with
      | success len state tracks =>
        rw [if_neg (by decide), if_pos state.symm]
        exact .returned tracks (by simp only; omega) (state ▸ hh) (state ▸ hm)
      | @paused n _ pos le len state tracks =>
        rw [if_neg (by decide), if_neg (Ne.symm state)]
        have hlen' := pending_length t input
        refine .next (n := n) ⟨tracks, by simp only; omega⟩ ?_ ?_
        · rw [pending, pending, List.drop_drop, len]
        · simp only [weight, if_neg hh]
          split <;> omega
      | error cause =>
        rw [if_pos rfl]
        exact .failed cause

inductive Looped (hp : HttpParser P) (c : ReadChoices) (s : HttpSession P) (input : List UInt8)
    (x : Reading P) : ReadExit → HttpSession P → List UInt8 → Prop where
  | returned {t : HttpSession P} {rest : List UInt8}
      (tracks : Tracks hp t (readStream hp x (pending s input))) (len : t.len = rest.length)
      (headers : t.state ≠ .headersComplete) (complete : t.state ≠ .messageComplete) :
      Looped hp c s input x .returned t rest
  | complete {n : ℕ} {t : HttpSession P} {rest : List UInt8}
      (tracks : Tracks hp t (readStream hp x ((pending s input).take n)))
      (state : t.state = .messageComplete) (len : t.len = 0) :
      Looped hp c s input x .messageComplete t rest
  | failed {t : HttpSession P} {rest : List UInt8}
      (cause : Unfailing c → readStream hp x (pending s input) = .rejected t.parser.fed) :
      Looped hp c s input x .failed t rest

theorem looped_next {hp : HttpParser P} {c : ReadChoices} {s t u : HttpSession P}
    {input rest left : List UInt8} {x : Reading P} {n : ℕ} {exit : ReadExit}
    (remaining : pending t rest = (pending s input).drop n)
    (h : Looped hp c t rest (readStream hp x ((pending s input).take n)) exit u left) :
    Looped hp c s input x exit u left := by
  have hx : readStream hp (readStream hp x ((pending s input).take n)) (pending t rest) =
      readStream hp x (pending s input) := by
    rw [remaining, readStream_take]
  cases h with
  | returned tracks len headers complete => exact .returned (hx ▸ tracks) len headers complete
  | @complete m _ _ tracks state len =>
    refine .complete (n := n + m) ?_ state len
    rw [List.take_add, readStream_append, ← remaining]
    exact tracks
  | failed cause => exact .failed fun hc => hx ▸ cause hc

theorem readLoop_spec (hp : HttpParser P) (c : ReadChoices) (k : ℕ) (s : HttpSession P)
    (input : List UInt8) (x : Reading P) (h : AtHead hp s input x) (hk : weight s input < k) :
    Looped hp c s input x (readLoop (httpParserExecute hp c) c k s input).1
      (readLoop (httpParserExecute hp c) c k s input).2.1
      (readLoop (httpParserExecute hp c) c k s input).2.2 := by
  induction k generalizing s input x with
  | zero => omega
  | succ k ih =>
    have ht := readTurn_spec hp c k s input x h
    rw [readLoop]
    generalize readTurn (httpParserExecute hp c) c k s input = r at ht ⊢
    obtain ⟨exit, t, rest⟩ := r
    simp only at ht ⊢
    cases ht with
    | returned tracks len headers complete => exact .returned tracks len headers complete
    | complete tracks state len => exact .complete (n := 0) tracks state len
    | failed cause => exact .failed cause
    | next head remaining lighter => exact looped_next remaining (ih t rest _ head (by omega))

/-- The position is within the input whenever a turn begins, so neither
setting the pointer nor draining is ever asked for more than there is. -/
theorem readHeads_within (hp : HttpParser P) (c : ReadChoices) (k : ℕ) (s : HttpSession P)
    (input : List UInt8) (x : Reading P) (h : AtHead hp s input x) :
    ∀ q ∈ readHeads (httpParserExecute hp c) c k s input, q.1.len ≤ q.2.length := by
  induction k generalizing s input x with
  | zero => simp [readHeads]
  | succ k ih =>
    have ht := readTurn_spec hp c k s input x h
    rw [readHeads]
    generalize readTurn (httpParserExecute hp c) c k s input = r at ht ⊢
    obtain ⟨exit, t, rest⟩ := r
    simp only at ht ⊢
    intro q hq
    rcases List.mem_cons.mp hq with rfl | hq
    · exact h.within
    · cases ht with
      | returned tracks len headers complete => simp at hq
      | complete tracks state len => simp at hq
      | failed cause => simp at hq
      | next head remaining lighter => exact ih t rest _ head q hq

theorem weight_lt (s : HttpSession P) (input : List UInt8) : weight s input < readFuel input := by
  have := pending_length s input
  rw [weight, readFuel]
  split <;> omega

theorem httpSessionRead_spec (hp : HttpParser P) (c : ReadChoices) (s : HttpSession P)
    (input : List UInt8) (x : Reading P) (h : AtHead hp s input x)
    (hh : s.state ≠ .headersComplete) (hm : s.state ≠ .messageComplete) :
    Looped hp c s input x (httpSessionRead (httpParserExecute hp c) c s input).1
      (httpSessionRead (httpParserExecute hp c) c s input).2.1
      (httpSessionRead (httpParserExecute hp c) c s input).2.2 := by
  rw [httpSessionRead]
  by_cases hi : input.length = 0
  · rw [if_pos hi]
    have hp0 : pending s input = [] := List.eq_nil_of_length_eq_zero (by
      have := pending_length s input
      omega)
    have hw := h.within
    exact .returned (by rw [hp0]; exact h.tracks) (by simp only; omega) hh hm
  · rw [if_neg hi]
    exact readLoop_spec hp c (readFuel input) s input x h (weight_lt s input)

theorem readTurn_framed (hp : HttpParser P) (c : ReadChoices) (k : ℕ) (s : HttpSession P)
    (input : List UInt8) : Framed s (readTurn (httpParserExecute hp c) c k s input).2.1 := by
  by_cases hh : s.state = .headersComplete
  · simp only [readTurn, hh]
    split <;> exact ⟨rfl, rfl⟩
  · by_cases hm : s.state = .messageComplete
    · simp only [readTurn, hm]
      split <;> exact ⟨rfl, rfl⟩
    · have hf : Framed s (httpRequestParse (httpParserExecute hp c) c k input s).2 := by
        rw [httpRequestParse]
        split
        · exact ⟨rfl, rfl⟩
        · simp only
          split
          · exact ⟨rfl, rfl⟩
          · exact parseVecs_framed hp c (segments (c.layout k) (input.drop s.len)) s
      rw [readTurn_parses _ c k s input hh hm]
      generalize httpRequestParse (httpParserExecute hp c) c k input s = r at hf ⊢
      obtain ⟨result, t⟩ := r
      simp only
      split
      · exact hf
      · split <;> exact hf

theorem httpSessionRead_framed (hp : HttpParser P) (c : ReadChoices) (s : HttpSession P)
    (input : List UInt8) : Framed s (httpSessionRead (httpParserExecute hp c) c s input).2.1 := by
  have hloop : ∀ k s input, Framed s (readLoop (httpParserExecute hp c) c k s input).2.1 := by
    intro k
    induction k with
    | zero =>
      intro s input
      exact ⟨rfl, rfl⟩
    | succ k ih =>
      intro s input
      have hf := readTurn_framed hp c k s input
      rw [readLoop]
      generalize readTurn (httpParserExecute hp c) c k s input = r at hf ⊢
      obtain ⟨exit, t, rest⟩ := r
      cases exit with
      | some exit => exact hf
      | none => exact framed_trans hf (ih t rest)
  rw [httpSessionRead]
  split
  · exact ⟨rfl, rfl⟩
  · exact hloop (readFuel input) s input

/-- Bytes that arrive before a call, and the segments the buffer has then. -/
structure Arrival where
  data : List UInt8
  layout : ℕ → List ℕ

def stream (calls : List Arrival) : List UInt8 := calls.flatMap Arrival.data

def readArrival (hp : HttpParser P) (a : Arrival) (s : HttpSession P) (input : List UInt8) :
    ReadExit × HttpSession P × List UInt8 :=
  httpSessionRead (httpParserExecute hp (unfailing a.layout)) (unfailing a.layout) s
    (input ++ a.data)

def readArrivals (hp : HttpParser P) :
    List Arrival → HttpSession P → List UInt8 → ReadExit × HttpSession P
  | [], s, _ => (.returned, s)
  | a :: calls, s, input =>
    match readArrival hp a s input with
    | (.returned, s, input) => readArrivals hp calls s input
    | (exit, s, _) => (exit, s)

def arrivalHeads (hp : HttpParser P) :
    List Arrival → HttpSession P → List UInt8 → List (HttpSession P × List UInt8)
  | [], _, _ => []
  | a :: calls, s, input =>
    readHeads (httpParserExecute hp (unfailing a.layout)) (unfailing a.layout)
        (readFuel (input ++ a.data)) s (input ++ a.data) ++
      match readArrival hp a s input with
      | (.returned, s, input) => arrivalHeads hp calls s input
      | _ => []

def verdict : ReadExit → HttpSession P → Option (Reading P)
  | .returned, s => some (.going s.parser.core (s.body.getD []) s.parser.fed)
  | .messageComplete, s => some (.complete (s.body.getD []) s.parser.fed)
  | .failed, s => some (.rejected s.parser.fed)
  | .diverged, _ => none

/-- Between calls everything that has arrived is consumed. -/
structure Waiting (hp : HttpParser P) (s : HttpSession P) (input : List UInt8) (x : Reading P) :
    Prop where
  tracks : Tracks hp s x
  len : s.len = input.length
  headers : s.state ≠ .headersComplete
  complete : s.state ≠ .messageComplete

theorem waiting_head {hp : HttpParser P} {s : HttpSession P} {input : List UInt8} {x : Reading P}
    (h : Waiting hp s input x) (data : List UInt8) : AtHead hp s (input ++ data) x :=
  ⟨h.tracks, by rw [h.len, List.length_append]; omega⟩

theorem waiting_pending {hp : HttpParser P} {s : HttpSession P} {input : List UInt8}
    {x : Reading P} (h : Waiting hp s input x) (data : List UInt8) :
    pending s (input ++ data) = data := by
  rw [pending, h.len, List.drop_left]

theorem waiting_verdict {hp : HttpParser P} {s : HttpSession P} {input : List UInt8}
    {x : Reading P} (h : Waiting hp s input x) : verdict .returned s = some x := by
  obtain ⟨core, body, fed, rfl⟩ := tracks_going h.tracks h.complete
  obtain ⟨rfl, rfl, -, hst⟩ := h.tracks
  cases hs : s.state with
  | messageComplete => exact absurd hs h.complete
  | _ =>
    simp only [Stage, hs] at hst
    simp [verdict, hst]

theorem readArrival_spec (hp : HttpParser P) (a : Arrival) (s : HttpSession P)
    (input : List UInt8) (x : Reading P) (h : Waiting hp s input x) :
    Looped hp (unfailing a.layout) s (input ++ a.data) x (readArrival hp a s input).1
      (readArrival hp a s input).2.1 (readArrival hp a s input).2.2 :=
  httpSessionRead_spec hp (unfailing a.layout) s (input ++ a.data) x (waiting_head h a.data)
    h.headers h.complete

theorem readArrivals_verdict (hp : HttpParser P) (calls : List Arrival) (s : HttpSession P)
    (input : List UInt8) (x : Reading P) (h : Waiting hp s input x) :
    verdict (readArrivals hp calls s input).1 (readArrivals hp calls s input).2 =
      some (readStream hp x (stream calls)) := by
  induction calls generalizing s input x with
  | nil => exact waiting_verdict h
  | cons a calls ih =>
    have hs : readStream hp x (stream (a :: calls)) =
        readStream hp (readStream hp x a.data) (stream calls) := by
      rw [stream, List.flatMap_cons, readStream_append, stream]
    have ha := readArrival_spec hp a s input x h
    have hpend := waiting_pending h a.data
    rw [readArrivals, hs]
    generalize readArrival hp a s input = r at ha ⊢
    obtain ⟨exit, t, rest⟩ := r
    simp only at ha ⊢
    cases ha with
    | returned tracks len headers complete =>
      rw [hpend] at tracks
      exact ih t rest _ ⟨tracks, len, headers, complete⟩
    | @complete n _ _ tracks state len =>
      rw [hpend] at tracks
      have hx : readStream hp x a.data =
          readStream hp (readStream hp x (a.data.take n)) (a.data.drop n) :=
        (readStream_take hp x a.data n).symm
      generalize readStream hp x (a.data.take n) = y at tracks hx
      cases y with
      | going core body fed =>
        have hst := tracks.2.2.2
        simp [Stage, state] at hst
      | complete body fed =>
        obtain ⟨rfl, -, hb⟩ := tracks
        simp [hx, verdict, hb]
      | rejected fed => exact tracks.elim
    | failed cause =>
      have hr := cause (unfailing_unfailing a.layout)
      rw [hpend] at hr
      rw [hr, readStream_rejected]
      rfl

theorem arrivalHeads_within (hp : HttpParser P) (calls : List Arrival) (s : HttpSession P)
    (input : List UInt8) (x : Reading P) (h : Waiting hp s input x) :
    ∀ q ∈ arrivalHeads hp calls s input, q.1.len ≤ q.2.length := by
  induction calls generalizing s input x with
  | nil => simp [arrivalHeads]
  | cons a calls ih =>
    have ha := readArrival_spec hp a s input x h
    rw [arrivalHeads]
    intro q hq
    rcases List.mem_append.mp hq with hq | hq
    · exact readHeads_within hp _ _ s (input ++ a.data) x (waiting_head h a.data) q hq
    · generalize readArrival hp a s input = r at ha hq
      obtain ⟨exit, t, rest⟩ := r
      simp only at ha hq
      cases ha with
      | returned tracks len headers complete =>
        exact ih t rest _ ⟨tracks, len, headers, complete⟩ q hq
      | complete tracks state len => simp at hq
      | failed cause => simp at hq

def isGoing : Reading P → Bool
  | .going _ _ _ => true
  | _ => false

theorem settle_cases (b : UInt8) (body fed : List UInt8) (r : Scan P) :
    (∃ core body', settle b body fed r = .going core body' (fed ++ [b])) ∨
      ∃ body', settle b body fed r = .complete body' (fed ++ [b]) := by
  by_cases hm : Notice.messageComplete ∈ r.notices
  · exact .inr ⟨_, by rw [settle, if_pos hm]⟩
  · exact .inl ⟨_, _, by rw [settle, if_neg hm]⟩

theorem readByte_cases (hp : HttpParser P) (core : P) (body fed : List UInt8) (b : UInt8) :
    (∃ core' body', readByte hp (.going core body fed) b = .going core' body' (fed ++ [b])) ∨
      (∃ body', readByte hp (.going core body fed) b = .complete body' (fed ++ [b])) ∨
      readByte hp (.going core body fed) b = .rejected fed := by
  rw [readByte]
  cases hp.scan core b with
  | none => exact .inr (.inr rfl)
  | some r =>
    by_cases hn : Notice.headersComplete ∈ r.notices
    · simp only [if_pos hn]
      cases hp.scan r.next b with
      | none => exact .inr (.inr rfl)
      | some r => exact (settle_cases b body fed r).imp id .inl
    · simp only [if_neg hn]
      exact (settle_cases b body fed r).imp id .inl

/-- Reading consumes a prefix of the stream. It goes on up to the last byte of
that prefix, which is the whole stream as long as reading goes on. -/
theorem readStream_consumes (hp : HttpParser P) (core : P) (body fed bytes : List UInt8) :
    ∃ n, n ≤ bytes.length ∧
      (readStream hp (.going core body fed) bytes).fed = fed ++ bytes.take n ∧
      (∀ m, m < n → isGoing (readStream hp (.going core body fed) (bytes.take m)) = true) ∧
      (isGoing (readStream hp (.going core body fed) bytes) = true → n = bytes.length) := by
  induction bytes generalizing core body fed with
  | nil => exact ⟨0, Nat.le_refl _, by simp [Reading.fed], by simp, by simp⟩
  | cons b bytes ih =>
    rcases readByte_cases hp core body fed b with ⟨core', body', hb⟩ | ⟨body', hb⟩ | hb
    · obtain ⟨n, hn, hfed, hgoing, hall⟩ := ih core' body' (fed ++ [b])
      refine ⟨n + 1, Nat.succ_le_succ hn, ?_, ?_, ?_⟩
      · rw [readStream_cons, hb, hfed, List.take_succ_cons, List.append_assoc]
        rfl
      · intro m hm
        cases m with
        | zero => rfl
        | succ m =>
          rw [List.take_succ_cons, readStream_cons, hb]
          exact hgoing m (by omega)
      · intro h
        rw [readStream_cons, hb] at h
        rw [hall h, List.length_cons]
    · refine ⟨1, by simp, ?_, ?_, ?_⟩
      · rw [readStream_cons, hb, readStream_complete]
        simp [Reading.fed]
      · intro m hm
        obtain rfl : m = 0 := by omega
        rfl
      · intro h
        simp [hb, isGoing] at h
    · refine ⟨0, Nat.zero_le _, ?_, by simp, ?_⟩
      · rw [readStream_cons, hb, readStream_rejected]
        simp [Reading.fed]
      · intro h
        simp [hb, isGoing] at h

theorem verdict_fed {exit : ReadExit} {s : HttpSession P} {x : Reading P}
    (h : verdict exit s = some x) :
    s.parser.fed = x.fed ∧ (exit = .returned → isGoing x = true) := by
  cases exit with
  | returned => simp only [verdict, Option.some.injEq] at h; subst h; exact ⟨rfl, fun _ => rfl⟩
  | messageComplete => simp only [verdict, Option.some.injEq] at h; subst h; simp [Reading.fed]
  | failed => simp only [verdict, Option.some.injEq] at h; subst h; simp [Reading.fed]
  | diverged => simp [verdict] at h

theorem httpSessionInit_waiting (lib : Libs P) (type : ParserType) (channel : ℕ) :
    Waiting lib.httpParser (httpSessionInit lib type channel) []
      (.going (lib.httpParser.init type) [] []) :=
  ⟨⟨rfl, rfl, rfl, lib.httpParser.init_idle type, rfl, rfl⟩, rfl,
    HttpState.noConfusion, HttpState.noConfusion⟩

/-- However a stream is cut into calls and each call's input into segments, the
outcome, the body and the bytes handed to the parser are those of the reference
reading of the whole stream. The bytes handed over are a prefix of the stream,
each once and in order, ending with the first message; and no position ever
lies beyond the input. -/
theorem segmentation_independence (lib : Libs P) (type : ParserType) (channel : ℕ)
    (calls : List Arrival) :
    let start := httpSessionInit lib type channel
    let origin : Reading P := .going (lib.httpParser.init type) [] []
    let result := readArrivals lib.httpParser calls start []
    verdict result.1 result.2 = some (readStream lib.httpParser origin (stream calls)) ∧
      (∃ n, n ≤ (stream calls).length ∧ result.2.parser.fed = (stream calls).take n ∧
        (∀ m, m < n →
          isGoing (readStream lib.httpParser origin ((stream calls).take m)) = true) ∧
        (result.1 = .returned → n = (stream calls).length)) ∧
      ∀ q ∈ arrivalHeads lib.httpParser calls start [], q.1.len ≤ q.2.length := by
  intro start origin result
  have hw : Waiting lib.httpParser start [] origin := httpSessionInit_waiting lib type channel
  have hv : verdict result.1 result.2 = some (readStream lib.httpParser origin (stream calls)) :=
    readArrivals_verdict lib.httpParser calls start [] origin hw
  refine ⟨hv, ?_, arrivalHeads_within lib.httpParser calls start [] origin hw⟩
  obtain ⟨n, hn, hfed, hgoing, hall⟩ :=
    readStream_consumes lib.httpParser (lib.httpParser.init type) [] [] (stream calls)
  obtain ⟨hf, hg⟩ := verdict_fed hv
  exact ⟨n, hn, hf.trans hfed, hgoing, fun h => hall (hg h)⟩

end Tigera.HttpSegmentation
