import TigeraWebservice.HttpSegmentation
import TigeraWebservice.PlainMessages
import TigeraWebservice.SessionMemory

/-!
# The end of the read loop

The loop of `http_session_read_cb` over any parser whose every call moves on:
one that pauses consumes a byte, and one that does not pause consumes what is
pending or fails. The parser, its callbacks and the session it starts from are
otherwise arbitrary.
-/

set_option autoImplicit false

namespace Tigera.ReadTermination
open Tigera.HttpReading Tigera.MessageReading Tigera.HttpSegmentation Tigera.SessionWorld
open Tigera.SocketChannel Tigera.SessionProgram Tigera.SessionSystem Tigera.HeldConnections
open Tigera.CountedReference Tigera.SessionMemory Tigera.PlainMessages

variable {P : Type}

/-- One call of `http_request_parse` moves on. -/
def advances (exec : Execute P) (c : ReadChoices) (k : ℕ) (s : HttpSession P)
    (input : List UInt8) : Bool :=
  match httpRequestParse exec c k input s with
  | (.paused, t) => s.len < t.len
  | (.success, t) => t.len = input.length
  | (.error, _) => true

/-- The states in which a turn calls `http_request_parse`. -/
def parses (state : HttpState) : Bool := state ≠ .headersComplete && state ≠ .messageComplete

/-- Every call of `http_request_parse` that the loop makes moves on. -/
def advancing (exec : Execute P) (c : ReadChoices) : ℕ → HttpSession P → List UInt8 → Bool
  | 0, _, _ => true
  | k + 1, s, input =>
    (!parses s.state || advances exec c k s input) &&
      match readTurn exec c k s input with
      | (some _, _, _) => true
      | (none, s, input) => advancing exec c k s input

variable {exec : Execute P} {c : ReadChoices} {k : ℕ} {s t : HttpSession P}
  {input rest : List UInt8}

theorem httpRequestParse_idle (exec : Execute P) (c : ReadChoices) (k : ℕ) (s : HttpSession P)
    (input : List UInt8) (h : input.length ≤ s.len) :
    (httpRequestParse exec c k input s).1 = .error ∨ (httpRequestParse exec c k input s).2 = s := by
  rw [httpRequestParse, List.drop_eq_nil_of_le h]
  have hnil : segments (c.layout k) [] = [] := by cases c.layout k <;> rfl
  rw [hnil]
  split
  · exact .inl rfl
  · exact .inr rfl

theorem lighter_next (h : readTurn exec c k s input = (none, t, rest))
    (ha : parses s.state = true → advances exec c k s input = true) :
    weight t rest < weight s input := by
  have hs := pending_length s input
  have ht := pending_length t rest
  by_cases hh : s.state = .headersComplete
  · simp only [readTurn, hh] at h
    split at h
    · cases h
      simp [weight, hh, pending]
    · cases h
  · by_cases hm : s.state = .messageComplete
    · simp only [readTurn, hm] at h
      split at h <;> cases h
    · have ha := ha (by simp [parses, hh, hm])
      have hidle := httpRequestParse_idle exec c k s input
      rw [readTurn_parses exec c k s input hh hm] at h
      rw [advances] at ha
      generalize httpRequestParse exec c k input s = r at h ha hidle
      obtain ⟨result, u⟩ := r
      simp only at h ha hidle
      split at h
      · cases h
      · next hne =>
        split at h
        · cases h
        · next hstate =>
          cases h
          -- the state has changed, so there were pending bytes
          have hpos : s.len < input.length := by
            by_contra hle
            rcases hidle (Nat.not_lt.mp hle) with he | rfl
            · exact hne he
            · exact hstate rfl
          have hlen : (pending t input).length < (pending s input).length := by
            rw [hs, ht]
            cases result with
            | error => exact absurd rfl hne
            | paused =>
              have ha : s.len < t.len := by simpa using ha
              omega
            | success =>
              have ha : t.len = input.length := by simpa using ha
              omega
          rw [weight, weight, if_neg hh]
          split <;> omega

theorem readTurn_exits (exec : Execute P) (c : ReadChoices) (k : ℕ) (s : HttpSession P)
    (input : List UInt8) : (readTurn exec c k s input).1 ≠ some .diverged := by
  by_cases hh : s.state = .headersComplete
  · simp only [readTurn, hh]
    split <;> simp
  · by_cases hm : s.state = .messageComplete
    · simp only [readTurn, hm]
      split <;> simp
    · rw [readTurn_parses exec c k s input hh hm]
      simp only
      split
      · simp
      · split <;> simp

theorem readLoop_ends (fuel : ℕ) (h : advancing exec c fuel s input = true)
    (hw : weight s input < fuel) : (readLoop exec c fuel s input).1 ≠ .diverged := by
  induction fuel generalizing s input with
  | zero => omega
  | succ fuel ih =>
    rw [advancing, Bool.and_eq_true] at h
    obtain ⟨hparse, hrest⟩ := h
    have hnext : ∀ t rest, readTurn exec c fuel s input = (none, t, rest) →
        weight t rest < weight s input := by
      intro t rest ht
      refine lighter_next ht fun hp => ?_
      simpa [hp] using hparse
    have hexit := readTurn_exits exec c fuel s input
    rw [readLoop]
    generalize readTurn exec c fuel s input = r at hrest hnext hexit ⊢
    obtain ⟨exit, t, rest⟩ := r
    cases exit with
    | some exit => exact fun hd => hexit (congrArg some hd)
    | none =>
      have hlt := hnext t rest rfl
      exact ih hrest (by omega)

variable {lib : Libs P} {n h : ℕ} {v w : World P}

/-- `http_session_read_cb` over any parser. -/
def readCbOver (exec : Execute P) (lib : Libs P) (c : Choices) (n h : ℕ) (w : World P) : World P :=
  match httpSessionChannelShouldClose lib c n h w with
  | (true, w) => w
  | (false, w) =>
    let (exit, s, input) := httpSessionRead exec c.read (w.http h) (channelGetInput n w)
    let w := onChannelBev n (fun e => { e with input := input }) (onHttp h (fun _ => s) w)
    match exit with
    | .returned => w
    | .messageComplete => callBack lib c h s.cbs.messageComplete w
    | .failed => httpServiceSessionRemove w
    | .diverged => crash w

theorem httpSessionReadCb_over (lib : Libs P) (c : Choices) (n h : ℕ) (w : World P) :
    httpSessionReadCb lib c n h w =
      readCbOver (httpParserExecute lib.httpParser c.read) lib c n h w := rfl

theorem calls_sessionFree (w : World P) : (sessionFree w).calls = w.calls := by
  have hme : ∀ (me : Option ℕ) (u : World P), (onReference referenceDec me u).calls = u.calls := by
    intro me u
    cases me with
    | none => rfl
    | some k =>
      simp only [onReference, referenceDec]
      split
      · split <;> split <;> rfl
      · rfl
  have hslots : (freeSlots w).calls = w.calls := congrArg Rest.calls (rest_freeSlots w)
  rw [sessionFree, show freeSlot .joke (freeSlot .name (freeSlot .client w)) = freeSlots w from rfl]
  simp only [freeStr_eq, onSession]
  exact (hme _ _).trans hslots

/-- How the callback is left from the world `u`: it returns, or a message is
complete and its callback is called, or the session is removed, once. -/
inductive Left (lib : Libs P) (c : Choices) (h : ℕ) (u : World P) : ReadExit → World P → Prop where
  | returned : Left lib c h u .returned u
  | complete (cb : Option HttpSessionCb) : Left lib c h u .messageComplete (callBack lib c h cb u)
  | failed (once : (httpServiceSessionRemove u).calls = .sessionRemove :: u.calls) :
      Left lib c h u .failed (httpServiceSessionRemove u)

/-- The loop entered in the world `v` comes to its end. -/
def Ends (exec : Execute P) (lib : Libs P) (c : Choices) (n h : ℕ) (w v : World P) : Prop :=
  ∃ u, u.calls = w.calls ∧
    Left lib c h u (httpSessionRead exec c.read (v.http h) (channelGetInput n v)).1
      (readCbOver exec lib c n h w)

/-- The read loop ends over every parser whose calls move on. -/
theorem read_loop_ends (exec : Execute P) (lib : Libs P) (c : Choices) (n h : ℕ) (w v : World P)
    (hv : httpSessionChannelShouldClose lib c n h w = (false, v))
    (ha : advancing exec c.read (readFuel (channelGetInput n v)) (v.http h)
      (channelGetInput n v) = true) : Ends exec lib c n h w v := by
  have hended : (httpSessionRead exec c.read (v.http h) (channelGetInput n v)).1 ≠ .diverged := by
    rw [httpSessionRead]
    split
    · exact fun hd => ReadExit.noConfusion hd
    · exact readLoop_ends _ ha (weight_lt _ _)
  have hcalls : v.calls = w.calls := by
    simp only [httpSessionChannelShouldClose] at hv
    split at hv
    · cases hv
    · cases hv
      rfl
  rw [Ends, readCbOver, hv]
  simp only
  generalize httpSessionRead exec c.read (v.http h) (channelGetInput n v) = r at hended ⊢
  obtain ⟨exit, s, input⟩ := r
  simp only at hended ⊢
  have hu : (onChannelBev n (fun e => { e with input := input })
      (onHttp h (fun _ => s) v)).calls = w.calls := by
    rw [onChannelBev]
    split <;> exact hcalls
  generalize onChannelBev n (fun e => { e with input := input }) (onHttp h (fun _ => s) v) = u at hu ⊢
  refine ⟨u, hu, ?_⟩
  cases exit with
  | returned => exact .returned
  | messageComplete => exact .complete _
  | failed => exact .failed (calls_sessionFree _)
  | diverged => exact absurd rfl hended

def requested : World Core :=
  [Event.accept {}, .arrive 0 clientRequest].foldl (next libs) (initial libs true)

theorem read_loop_ends_request :
    Ends (httpParserExecute parser ({} : Choices).read) libs {} 0 0 requested
      (httpSessionChannelShouldClose libs {} 0 0 requested).2 :=
  read_loop_ends _ libs {} 0 0 requested _ (Prod.ext (by decide +kernel) rfl) (by decide +kernel)

end Tigera.ReadTermination
