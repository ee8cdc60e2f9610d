import TigeraWebservice.HttpSegmentation
import TigeraWebservice.SessionMemory

/-!
# The invariant of a session

Beside the memory, what the session is doing: which upstream each lookup and
each slot is for, that reading can go on in every slot, and, as long as the
client's request has been completed once only, how far the replies have come.
-/

set_option autoImplicit false

namespace Tigera.SessionInvariant
open ResourceLedger Tigera.ParserMachine Tigera.HttpReading Tigera.MessageReading
open Tigera.HttpSegmentation
open Tigera.SessionWorld Tigera.SocketChannel Tigera.SessionProgram Tigera.HeldConnections
open Tigera.HeldReferences Tigera.SessionMemory

variable {P : Type}

def Readable (lib : Libs P) (s : HttpSession P) (input : List UInt8) : Prop :=
  s.state = .messageComplete ∨
    s.state ≠ .headersComplete ∧ ∃ x, AtHead lib.httpParser s input x

theorem readable_init (lib : Libs P) (type : ParserType) (channel : ℕ) (cbs : HttpCallbacks) :
    Readable lib { httpSessionInit lib type channel with cbs := cbs } [] := by
  have hw := httpSessionInit_waiting lib type channel
  have ht : Tracks lib.httpParser { httpSessionInit lib type channel with cbs := cbs }
      (.going (lib.httpParser.init type) [] []) := hw.tracks
  exact .inr ⟨HttpState.noConfusion, _, ⟨ht, Nat.zero_le _⟩⟩

def started : Session :=
  { state := .parsingClientRequest
    httpSessions := Function.update (fun _ => none) .client (some 0) }

def slotOf (r : Rest) (l : Lookup) : Slot := (r.request l.request).idx

/-- What the registered session has under way; the reply of the slot `busy` may
just have been completed. -/
structure Plan (lib : Libs P) (busy : Slot) (http : ℕ → HttpSession P) (bev : ℕ → Bufferevent) (r : Rest) :
    Prop where
  client : r.session.httpSessions .client = some 0
  readable : ∀ i n, r.session.httpSessions i = some n → Readable lib (http n) (bev n).input
  reading : ∀ i n, i ≠ .client → i ≠ busy → r.session.httpSessions i = some n →
    (http n).state ≠ .messageComplete
  quiet : (http 0).state ≠ .messageComplete →
    r.session = started ∧ r.resolving = [] ∧ r.calls = []
  served : (http 0).state = .messageComplete → .clientMsgComplete ∈ r.calls
  lookup : ∀ l ∈ r.resolving, slotHost (slotOf r l) = some l.host ∧
    r.session.httpSessions (slotOf r l) = none
  distinct : ∀ l ∈ r.resolving, ∀ l' ∈ r.resolving, slotOf r l = slotOf r l' → l = l'

def hasReplied (idx : Slot) (s : Session) : Bool :=
  if idx = .name then s.nameReplied else s.jokeReplied

structure Unanswered (r : Rest) : Prop where
  state : r.session.state ≠ .clientResponse
  name : r.session.name.isSome = r.session.nameReplied
  surname : r.session.surname.isSome = r.session.nameReplied
  joke : r.session.joke.isSome = r.session.jokeReplied
  written : r.calls.count .httpResponseWrite = 0

structure Answered (r : Rest) : Prop where
  state : r.session.state = .clientResponse
  name : r.session.nameReplied = true
  joke : r.session.jokeReplied = true
  written : r.calls.count .httpResponseWrite = 1

def Response (r : Rest) : Prop :=
  Answered r ∨ Unanswered r ∧ (r.session.nameReplied && r.session.jokeReplied) = false

/-- How far the replies have come in a session with one request. -/
structure Progress (r : Rest) : Prop where
  idle : ∀ idx, idx ≠ .client → hasReplied idx r.session = true →
    r.session.httpSessions idx = none ∧ ∀ l ∈ r.resolving, slotOf r l ≠ idx
  replies : ∀ idx, idx ≠ .client →
    (.reply idx ∈ r.calls ↔ hasReplied idx r.session = true)
  response : Response r

def Tally (calls : List Call) : Prop :=
  calls.count .httpResponseWrite ≤ 1 ∧ .clientResponseCreate false ∉ calls

def Engaged (w : World P) : Prop := w.registered = true ∨ .clientMsgComplete ∈ w.calls

structure Inv (lib : Libs P) (tidy : Prop) (busy : Slot) (w : World P) : Prop where
  memory : Memory tidy w
  plan : w.registered = true → w.crashed = false → Plan lib busy w.http w.bev (rest w)
  progress : w.registered = true → Once w → Progress (rest w)
  tally : Once w → Tally w.calls
  steady : Engaged w → Once w → w.crashed = false

section Frame

variable {lib : Libs P} {tidy : Prop} {busy : Slot} {w w' : World P}

theorem once_of_rest (h : rest w' = rest w) : Once w' ↔ Once w := by
  have hc : w'.calls = w.calls := congrArg Rest.calls h
  rw [Once, Once, hc]

theorem inv_of_rest {next : Slot} (h : Inv lib tidy busy w) (hr : rest w' = rest w)
    (hm : Memory tidy w')
    (hp : Plan lib busy w.http w.bev (rest w) → Plan lib next w'.http w'.bev (rest w)) :
    Inv lib tidy next w' := by
  have h1 : w'.registered = w.registered := congrArg Rest.registered hr
  have h2 : w'.crashed = w.crashed := congrArg Rest.crashed hr
  have h3 : w'.calls = w.calls := congrArg Rest.calls hr
  have h4 := once_of_rest hr
  constructor
  · exact hm
  · intro hreg hcr
    rw [hr]
    exact hp (h.plan (h1 ▸ hreg) (h2 ▸ hcr))
  · intro hreg ho
    rw [hr]
    exact h.progress (h1 ▸ hreg) (h4.mp ho)
  · intro ho
    rw [h3]
    exact h.tally (h4.mp ho)
  · intro hs ho
    rw [Engaged, h1, h3] at hs
    rw [h2]
    exact h.steady hs (h4.mp ho)

theorem memory_remove (h : Memory tidy w) (hreg : w.registered = true) :
    Memory tidy (httpServiceSessionRemove w) ∧ (httpServiceSessionRemove w).registered = false ∧
      (httpServiceSessionRemove w).crashed = w.crashed ∧
      (httpServiceSessionRemove w).calls = .sessionRemove :: w.calls := by
  have hcount : w.calls.count .sessionRemove ≤ 0 := by
    have hc := h.removes
    rwa [if_pos hreg] at hc
  have hcalls : (Call.sessionRemove :: w.calls).count .sessionRemove ≤ 1 := by
    rw [List.count_cons_self]
    omega
  exact memory_sessionFree h hreg rfl rfl rfl hcalls (List.count_cons_of_ne (by decide))

theorem inv_remove (h : Memory tidy w) (hreg : w.registered = true)
    (ht : Once w → Tally w.calls) (hs : Once w → w.crashed = false) :
    Inv lib tidy busy (httpServiceSessionRemove w) ∧
      (httpServiceSessionRemove w).registered = false := by
  obtain ⟨hm, hno, hcr, hca⟩ := memory_remove h hreg
  have honce : (Call.sessionRemove :: w.calls).count .clientMsgComplete =
      w.calls.count .clientMsgComplete := List.count_cons_of_ne (by decide)
  refine ⟨⟨hm, ?_, ?_, ?_, ?_⟩, hno⟩
  · intro hr
    exact absurd (hno.symm.trans hr) (by decide)
  · intro hr
    exact absurd (hno.symm.trans hr) (by decide)
  · intro ho
    rw [Once, hca, honce] at ho
    obtain ⟨h1, h2⟩ := ht ho
    rw [hca]
    refine ⟨?_, ?_⟩
    · rw [List.count_cons_of_ne (by decide)]
      exact h1
    · simpa using h2
  · intro _ ho
    rw [Once, hca, honce] at ho
    rw [hcr]
    exact hs ho

end Frame

section Access

variable {lib : Libs P} {tidy : Prop} {busy : Slot} {w : World P} {i : Slot} {n : ℕ}

theorem plan_congr {http : ℕ → HttpSession P} {bev : ℕ → Bufferevent} {r r' : Rest}
    (h : Plan lib busy http bev r) (hs : r'.session = r.session) (hl : r'.resolving = r.resolving)
    (hq : r'.request = r.request) (hc : r'.calls = r.calls) : Plan lib busy http bev r' := by
  constructor
  · rw [hs]; exact h.client
  · rw [hs]; exact h.readable
  · rw [hs]; exact h.reading
  · rw [hs, hl, hc]; exact h.quiet
  · rw [hc]; exact h.served
  · simp only [slotOf, hs, hl, hq]; exact h.lookup
  · simp only [slotOf, hl, hq]; exact h.distinct

def SameReplies (s t : Session) : Prop :=
  t.state = s.state ∧ t.nameReplied = s.nameReplied ∧ t.jokeReplied = s.jokeReplied ∧
    t.name = s.name ∧ t.surname = s.surname ∧ t.joke = s.joke

theorem sameReplies_of_eq {s t : Session} (h : t = s) : SameReplies s t := by
  rw [h]
  exact ⟨rfl, rfl, rfl, rfl, rfl, rfl⟩

theorem response_congr {r r' : Rest} (h : Response r) (hs : SameReplies r.session r'.session)
    (hc : r'.calls = r.calls) : Response r' := by
  obtain ⟨h2, h3, h4, h5, h6, h7⟩ := hs
  rcases h with ha | ⟨hu, hn⟩
  · left
    constructor
    · rw [h2]; exact ha.state
    · rw [h3]; exact ha.name
    · rw [h4]; exact ha.joke
    · rw [hc]; exact ha.written
  · refine .inr ⟨?_, by rw [h3, h4]; exact hn⟩
    constructor
    · rw [h2]; exact hu.state
    · rw [h3, h5]; exact hu.name
    · rw [h3, h6]; exact hu.surname
    · rw [h4, h7]; exact hu.joke
    · rw [hc]; exact hu.written

theorem progress_congr {r r' : Rest} (h : Progress r) (hs : SameReplies r.session r'.session)
    (hslots : r'.session.httpSessions = r.session.httpSessions) (hl : r'.resolving = r.resolving)
    (hq : r'.request = r.request) (hc : r'.calls = r.calls) : Progress r' := by
  obtain ⟨-, h3, h4, -⟩ := id hs
  constructor
  · simp only [slotOf, hasReplied, hslots, h3, h4, hl, hq]; exact h.idle
  · simp only [hasReplied, h3, h4, hc]; exact h.replies
  · exact response_congr h.response hs hc

theorem inv_onHttp_id (h : Inv lib tidy busy w) (hi : w.session.httpSessions i = some n) :
    Inv lib tidy busy (onHttp n id w) := by
  refine inv_of_rest h rfl ?_ fun hp => by simpa [onHttp] using hp
  exact memory_of_rest h.memory rfl (connsOk_onHttp h.memory.conns hi id rfl rfl) h.memory.begun

theorem inv_onChan (h : Inv lib tidy busy w) (hi : w.session.httpSessions i = some n)
    (f : TcpSocket → TcpSocket) (hb : (f (w.chan n)).bev = (w.chan n).bev)
    (hl : (f (w.chan n)).listen = (w.chan n).listen) (hc : (f (w.chan n)).ctx = (w.chan n).ctx) :
    Inv lib tidy busy (onChan n f w) := by
  refine inv_of_rest h rfl ?_ fun hp => hp
  exact memory_of_rest h.memory rfl (connsOk_onChan h.memory.conns hi f hb hl hc) h.memory.begun

theorem plan_input {http : ℕ → HttpSession P} {bev bev' : ℕ → Bufferevent} {r : Rest}
    (h : Plan lib busy http bev r) (hin : ∀ m, (bev' m).input = (bev m).input) :
    Plan lib busy http bev' r :=
  { h with readable := fun j m hj => by rw [hin]; exact h.readable j m hj }

theorem evbufferAddAll_spec (ok : ℕ → Bool) (k : ℕ) (cs : List Chunk) (h : Memory tidy w)
    (hi : w.session.httpSessions i = some n) :
    Memory tidy (evbufferAddAll ok n k cs w).2 ∧ rest (evbufferAddAll ok n k cs w).2 = rest w ∧
      (evbufferAddAll ok n k cs w).2.http = w.http ∧
      ∀ m, ((evbufferAddAll ok n k cs w).2.bev m).input = (w.bev m).input := by
  induction cs generalizing k w with
  | nil => exact ⟨h, rfl, rfl, fun _ => rfl⟩
  | cons c cs ih =>
    rw [evbufferAddAll, evbufferAdd]
    cases ok k with
    | false => exact ⟨h, rfl, rfl, fun _ => rfl⟩
    | true =>
      have hb : (w.chan n).bev = some n := (h.conns.held i n hi).bev
      have he : onChannelBev n (fun e => { e with output := e.output ++ [c] }) w =
          onBev n (fun e => { e with output := e.output ++ [c] }) (onChan n id w) := by
        simp [onChannelBev, onChan, hb]
      have hc : ConnsOk tidy (wires (onBev n (fun e => { e with output := e.output ++ [c] })
          (onChan n id w))) := he ▸ connsOk_onChannelBev h.conns hi _ rfl rfl
      have hm : Memory tidy (onBev n (fun e => { e with output := e.output ++ [c] })
          (onChan n id w)) := memory_of_rest h rfl hc h.begun
      simp only [he, if_true]
      obtain ⟨h1, h2, h3, h4⟩ := ih (k + 1) hm hi
      refine ⟨h1, h2, h3, fun m => (h4 m).trans ?_⟩
      by_cases hmn : m = n
      · subst hmn
        simp [onBev, onChan]
      · simp [onBev, onChan, hmn]

theorem inv_evbufferAddAll (ok : ℕ → Bool) (k : ℕ) (cs : List Chunk) (h : Inv lib tidy busy w)
    (hi : w.session.httpSessions i = some n) :
    Inv lib tidy busy (evbufferAddAll ok n k cs w).2 := by
  obtain ⟨h1, h2, h3, h4⟩ := evbufferAddAll_spec ok k cs h.memory hi
  refine inv_of_rest h h2 h1 fun hp => ?_
  rw [h3]
  exact plan_input hp h4

theorem inv_onSession_id (h : Inv lib tidy busy w) (hreg : w.registered = true) :
    Inv lib tidy busy (onSession id w) where
  memory := memory_onSession h.memory hreg id rfl rfl
  plan := fun hr hc => plan_congr (h.plan hr hc) rfl rfl rfl rfl
  progress := fun hr ho =>
    progress_congr (h.progress hr ho) (sameReplies_of_eq rfl) rfl rfl rfl rfl
  tally := h.tally
  steady := h.steady

def touched (n : ℕ) (w : World P) : World P := onHttp n id (onChan n id w)

theorem inv_touched (h : Inv lib tidy busy w) (hi : w.session.httpSessions i = some n) :
    Inv lib tidy busy (touched n w) :=
  inv_onHttp_id (inv_onChan h hi id rfl rfl rfl) hi

theorem clientReadyToClose_inv (h : Inv lib tidy busy w) (hreg : w.registered = true) :
    Inv lib tidy busy (clientReadyToClose w) := by
  have hs := inv_onSession_id h hreg
  rw [clientReadyToClose]
  split
  · exact (inv_remove hs.memory hreg hs.tally (hs.steady (.inl hreg))).1
  · exact hs

theorem slotCallbacks_readyToClose (hi : i ≠ .client) :
    (slotCallbacks i).readyToClose = none := by
  cases i with
  | client => exact absurd rfl hi
  | name => rfl
  | joke => rfl

theorem httpSessionChannelShouldClose_inv (c : Choices) (h : Inv lib tidy busy w)
    (hreg : w.registered = true) (hi : w.session.httpSessions i = some n) :
    Inv lib tidy busy (httpSessionChannelShouldClose lib c n n w).2 ∧
      ((httpSessionChannelShouldClose lib c n n w).1 = false →
        (httpSessionChannelShouldClose lib c n n w).2 = touched n w) := by
  have ht := inv_touched h hi
  have hcbs : ((touched n w).http n).cbs = slotCallbacks i := (ht.memory.conns.held i n hi).cbs
  simp only [httpSessionChannelShouldClose]
  rw [show onHttp n id (onChan n id w) = touched n w from rfl]
  split
  · refine ⟨?_, fun hf => by cases hf⟩
    by_cases hc : i = .client
    · subst hc
      rw [hcbs]
      exact clientReadyToClose_inv (inv_onHttp_id ht hi) hreg
    · rw [hcbs, slotCallbacks_readyToClose hc]
      exact ht
  · exact ⟨ht, fun _ => rfl⟩

end Access

end Tigera.SessionInvariant
