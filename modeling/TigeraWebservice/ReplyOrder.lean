import TigeraWebservice.UpstreamAccounting

/-!
# The order of the replies

Once the request is complete, the events of the two upstreams may come in any
order. The two bodies alone decide what the client is sent, up to the date: the
response is written with the second reply, or the session is removed with the
first one that cannot be decoded.
-/

set_option autoImplicit false

namespace Tigera.ReplyOrder
open ResourceLedger TransitionRuns Tigera.JokeCreate Tigera.SessionWorld Tigera.SocketChannel
open Tigera.SessionProgram Tigera.SessionSystem Tigera.HeldConnections Tigera.SessionMemory
open Tigera.SessionInvariant Tigera.ClientResponse Tigera.ReplyCallbacks Tigera.ChannelCallbacks
open Tigera.SessionRuns Tigera.OneResponse Tigera.SessionTurns Tigera.UpstreamAccounting
open Tigera.PlainMessages

variable {P : Type} {lib : Libs P} {bodies : Slot → Bytes} {u v v' w : World P} {f f' : Front}
variable {idx : Slot}

def answerText (lib : Libs P) (bodies : Slot → Bytes) : Bytes :=
  match lib.jsonName (bodies .name), lib.jsonJoke (bodies .joke) with
  | some (name, surname), some joke =>
    responseText (cString name) (cString surname) (cString joke)
  | _, _ => []

/-- What the client is sent, but for the date. -/
def response (lib : Libs P) (bodies : Slot → Bytes) (date : Bytes) : Bytes :=
  (responseHead date (answerText lib bodies).length).flatten ++ answerText lib bodies

def bothDecode (lib : Libs P) (bodies : Slot → Bytes) : Bool :=
  decodes lib .name (bodies .name) && decodes lib .joke (bodies .joke)

theorem outputBytes_append (a b : List Chunk) :
    outputBytes (a ++ b) = outputBytes a ++ outputBytes b :=
  List.flatMap_append

theorem outputBytes_plain (bs : List Bytes) :
    outputBytes (bs.map fun b => ⟨b, none⟩) = bs.flatten := by
  induction bs with
  | nil => rfl
  | cons b bs ih =>
    rw [List.map_cons, outputBytes, List.flatMap_cons, List.flatten_cons, ← ih]
    rfl

theorem outputBytes_response (date text : Bytes) (addr : ℕ) :
    outputBytes (responseChunks date ⟨addr, text⟩) =
      (responseHead date text.length).flatten ++ text := by
  rw [responseChunks, outputBytes_append, outputBytes_plain]
  show _ ++ (text ++ []) = _
  rw [List.append_nil]

structure Holding (lib : Libs P) (bodies : Slot → Bytes) (s : Session) : Prop where
  name : s.nameReplied = true → ∃ name surname a b, lib.jsonName (bodies .name) =
    some (name, surname) ∧ s.name = some ⟨a, cString name⟩ ∧ s.surname = some ⟨b, cString surname⟩
  joke : s.jokeReplied = true → ∃ joke a, lib.jsonJoke (bodies .joke) = some joke ∧
    s.joke = some ⟨a, cString joke⟩

structure Told (lib : Libs P) (bodies : Slot → Bytes) (f : Front) : Prop where
  decoded : ∀ idx, idx ≠ .client → hasReplied idx f.session = true →
    decodes lib idx (bodies idx) = true
  holding : bothReplied f.session = false → Holding lib bodies f.session
  early : bothReplied f.session = false →
    f.calls.count .httpResponseWrite = 0 ∧ f.output = []
  late : bothReplied f.session = true →
    f.calls.count .httpResponseWrite = 1 ∧ ∃ d, outputBytes f.output = response lib bodies d

theorem told_congr (h : Told lib bodies f) (hs : SameReplies f.session f'.session)
    (hc : f'.calls = f.calls) (ho : f'.output = f.output) : Told lib bodies f' := by
  obtain ⟨-, h1, h2, h3, h4, h5⟩ := hs
  have hboth : bothReplied f'.session = bothReplied f.session := by
    rw [bothReplied, bothReplied, h1, h2]
  constructor
  · intro idx hidx hr
    rw [hasReplied_of_fields h1 h2] at hr
    exact h.decoded idx hidx hr
  · intro hb
    have hh := h.holding (hboth ▸ hb)
    refine ⟨?_, ?_⟩
    · rw [h1, h3, h4]
      exact hh.name
    · rw [h2, h5]
      exact hh.joke
  · rw [hboth, hc, ho]
    exact h.early
  · rw [hboth, hc, ho]
    exact h.late

theorem not_both {s : Session} (hidx : idx ≠ .client) (hno : hasReplied idx s = false) :
    bothReplied s = false := by
  cases idx with
  | client => exact absurd rfl hidx
  | name =>
    have hno : s.nameReplied = false := hno
    rw [bothReplied, hno]
    rfl
  | joke =>
    have hno : s.jokeReplied = false := hno
    rw [bothReplied, hno, Bool.and_false]

theorem holding_settled {s t : Session} (h : bothReplied s = false → Holding lib bodies s)
    (hidx : idx ≠ .client) (hno : hasReplied idx s = false)
    (stored : Stored lib (bodies idx) s idx t) : Holding lib bodies (settled idx t) := by
  have hold : Holding lib bodies s := h (not_both hidx hno)
  cases stored with
  | name decoded a b =>
    refine ⟨fun _ => ⟨_, _, a, b, decoded, rfl, rfl⟩, ?_⟩
    intro hj
    obtain ⟨joke, c, hd, hs⟩ := hold.joke hj
    exact ⟨joke, c, hd, hs⟩
  | joke decoded a =>
    refine ⟨?_, fun _ => ⟨_, a, decoded, rfl⟩⟩
    intro hn
    obtain ⟨name, surname, b, c, hd, hs1, hs2⟩ := hold.name hn
    exact ⟨name, surname, b, c, hd, hs1, hs2⟩

theorem replied_settled {s t : Session} {body : Bytes} (hidx : idx ≠ .client)
    (stored : Stored lib body s idx t) (j : Slot) (hj : j ≠ .client) :
    hasReplied j (settled idx t) = if j = idx then true else hasReplied j s := by
  obtain ⟨h1, h2, -⟩ := stored_flags stored
  rw [← hasReplied_of_fields h1 h2 j, ← hasReplied_markReplied j hj hidx]
  rfl

theorem settled_strings (idx : Slot) (s : Session) : (settled idx s).name = s.name ∧
    (settled idx s).surname = s.surname ∧ (settled idx s).joke = s.joke := by
  rw [settled, setSlot, markReplied]
  split <;> exact ⟨rfl, rfl, rfl⟩

theorem responseText_holding {s : Session} {name surname joke : CStr}
    (h : Holding lib bodies s) (hboth : bothReplied s = true) (hn : s.name = some name)
    (hs : s.surname = some surname) (hj : s.joke = some joke) :
    responseText name.bytes surname.bytes joke.bytes = answerText lib bodies := by
  simp only [bothReplied, Bool.and_eq_true] at hboth
  obtain ⟨n, sn, a, b, hd1, h1, h2⟩ := h.name hboth.1
  obtain ⟨j, c, hd2, h3⟩ := h.joke hboth.2
  obtain rfl : name = ⟨a, cString n⟩ := Option.some.inj (hn.symm.trans h1)
  obtain rfl : surname = ⟨b, cString sn⟩ := Option.some.inj (hs.symm.trans h2)
  obtain rfl : joke = ⟨c, cString j⟩ := Option.some.inj (hj.symm.trans h3)
  rw [answerText, hd1, hd2]

theorem turn_told {cue : Cue} (h : Told lib bodies f) (ht : Turn lib cue f f')
    (hm : ∀ idx n body, f.session.httpSessions idx = some n → cue.message = some (n, body) →
      body = bodies idx)
    (hflush : cue.flushed = none)
    (hidle : ∀ idx n, idx ≠ .client → f.session.httpSessions idx = some n →
      hasReplied idx f.session = false) : Told lib bodies f' := by
  cases ht with
  | stays => exact h
  | drains k flushed =>
    rw [hflush] at flushed
    cases flushed
  | settles n client => exact told_congr h ⟨rfl, rfl, rfl, rfl, rfl, rfl⟩ rfl rfl
  | requests me begins quiet first =>
    have hearly : f.output = [] := by
      refine (h.early ?_).2
      rw [begins]
      rfl
    constructor
    · intro idx hidx hr
      cases idx <;> cases hr
    · intro _
      constructor
      · intro hn
        cases hn
      · intro hj
        cases hj
    · exact fun _ => ⟨rfl, hearly⟩
    · intro hb
      cases hb
  | connects idx n upstream pending free fresh =>
    exact told_congr h ⟨rfl, rfl, rfl, rfl, rfl, rfl⟩ rfl rfl
  | sends idx n upstream held connecting =>
    exact told_congr h ⟨rfl, rfl, rfl, rfl, rfl, rfl⟩ rfl rfl
  | replies idx n body s upstream held connected complete nonempty stored waits =>
    obtain rfl : body = bodies idx := hm idx n body held complete
    have hno := hidle idx n upstream held
    obtain ⟨hcount, hout⟩ := h.early (not_both upstream hno)
    constructor
    · intro j hj hr
      have hr : hasReplied j (settled idx s) = true := hr
      rw [replied_settled upstream stored j hj] at hr
      split at hr
      · next hji =>
        rw [hji]
        exact decodes_stored nonempty stored
      · exact h.decoded j hj hr
    · intro _
      refine holding_settled (s := { f.session with
        pendingReplies := f.session.pendingReplies - 1 }) (fun hb => ?_) upstream hno stored
      have hh := h.holding hb
      exact ⟨hh.name, hh.joke⟩
    · intro _
      refine ⟨?_, hout⟩
      rw [List.count_cons_of_ne (by simp), hcount]
    · intro hb
      exact absurd (waits.symm.trans hb) (by decide)
  | answers idx n body s name surname joke addr d upstream held connected complete nonempty stored
      due names surnames jokes dated =>
    obtain rfl : body = bodies idx := hm idx n body held complete
    have hno := hidle idx n upstream held
    obtain ⟨hcount, hout⟩ := h.early (not_both upstream hno)
    obtain ⟨h1, h2, h3⟩ := settled_strings idx s
    have hholding : Holding lib bodies (settled idx s) := by
      refine holding_settled (s := { f.session with
        pendingReplies := f.session.pendingReplies - 1 }) (fun hb => ?_) upstream hno stored
      have hh := h.holding hb
      exact ⟨hh.name, hh.joke⟩
    have htext := responseText_holding hholding due (h1.trans names) (h2.trans surnames)
      (h3.trans jokes)
    constructor
    · intro j hj hr
      have hr : hasReplied j (settled idx s) = true := hr
      rw [replied_settled upstream stored j hj] at hr
      split at hr
      · next hji =>
        rw [hji]
        exact decodes_stored nonempty stored
      · exact h.decoded j hj hr
    · intro hb
      have hb : bothReplied (settled idx s) = false := hb
      exact absurd (due.symm.trans hb) (by decide)
    · intro hb
      have hb : bothReplied (settled idx s) = false := hb
      exact absurd (due.symm.trans hb) (by decide)
    · intro _
      refine ⟨?_, d, ?_⟩
      · rw [List.count_cons_self, List.count_cons_of_ne (by simp), List.count_cons_of_ne (by simp),
          hcount]
      · simp only [hout, List.nil_append]
        rw [outputBytes_response, htext, response]

def aside (w : World P) : Event → Bool
  | .arrive n _ | .flush n _ | .readCb n _ | .writeCb n _ | .eventCb n _ _ =>
    w.session.httpSessions .client ≠ some n
  | _ => true

def Replying (lib : Libs P) (bodies : Slot → Bytes) (w : World P) (e : Event) : Prop :=
  ∀ idx n body, w.session.httpSessions idx = some n → messageOf lib w e = some (n, body) →
    body = bodies idx

/-- An event of an upstream in which nothing fails. -/
structure Smooth (lib : Libs P) (bodies : Slot → Bytes) (w : World P) (e : Event) : Prop where
  usual : usual lib w e = true
  aside : aside w e = true
  undisturbed : Undisturbed lib w e
  replying : Replying lib bodies w e

def Known (lib : Libs P) (bodies : Slot → Bytes) (w : World P) : Prop :=
  w.registered = true ∧ Told lib bodies (front w) ∨
    w.registered = false ∧ bothDecode lib bodies = false ∧ w.calls.count .httpResponseWrite = 0

theorem undecoded_both {body : Bytes} (hidx : idx ≠ .client) (hbody : body = bodies idx)
    (h : decodes lib idx body = false) : bothDecode lib bodies = false := by
  subst hbody
  cases idx with
  | client => exact absurd rfl hidx
  | name =>
    rw [bothDecode, h]
    rfl
  | joke => rw [bothDecode, h, Bool.and_false]

theorem flushed_of_aside {e : Event} (h : Inv lib False .client w) (hreg : w.registered = true)
    (ho : Once w) (ha : aside w e = true) : (cueOf lib w e).flushed = none := by
  have hclient : w.session.httpSessions .client = some 0 := (h.plan hreg (h.steady (.inl hreg) ho)).client
  cases e with
  | flush n k =>
    have hn : n ≠ 0 := by
      rintro rfl
      simp [aside, hclient] at ha
    rw [cueOf, if_neg hn]
  | _ => rfl

theorem message_of_cue {e : Event} : (cueOf lib w e).message = messageOf lib w e := by
  cases e with
  | flush n k =>
    rw [cueOf]
    split <;> rfl
  | _ => rfl

theorem next_known (e : Event) (hw : Inv lib False .client w) (ho : Once w)
    (hk : Known lib bodies w) (he : enabled w e = true) (hc : CompletesOnce lib w e)
    (hs : Smooth lib bodies w e) : Known lib bodies (next lib w e) := by
  have hin : inOrder w e = true := by
    have hu := hs.usual
    simp only [usual, Bool.and_eq_true] at hu
    exact hu.2
  rcases hk with ⟨hreg, ht⟩ | ⟨hreg, hd, hcount⟩
  · rcases next_turn e hw hreg ho he hc hin with ⟨hno, hgone⟩ | hturn
    · obtain ⟨idx, n, body, hi, hmessage, hund⟩ := hgone hs.undisturbed
      have hidle := not_replied (hw.progress hreg ho) hund.upstream hi
      refine .inr ⟨hno, undecoded_both hund.upstream (hs.replying idx n body hi hmessage)
        hund.undecoded, ?_⟩
      have hcount : w.calls.count .httpResponseWrite = 0 :=
        (ht.early (not_both hund.upstream hidle)).1
      rw [hund.removed, List.count_cons_of_ne (by decide), List.count_cons_of_ne (by simp), hcount]
    · have hstays : (next lib w e).registered = true := (turn_registered hturn).trans hreg
      refine .inl ⟨hstays, turn_told ht hturn ?_ (flushed_of_aside hw hreg ho hs.aside)
        fun idx n => not_replied (hw.progress hreg ho)⟩
      intro idx n body hi hmessage
      exact hs.replying idx n body hi (message_of_cue.symm.trans hmessage)
  · obtain ⟨a, l, k, -, hnext⟩ := next_gone e hw hreg he
    obtain ⟨h1, h2, -⟩ := released_gone a l k w
    rw [hnext]
    exact .inr ⟨h1.trans hreg, hd, by rw [h2, hcount]⟩

theorem completesOnce_smooth {e : Event} (hs : Smooth lib bodies w e) : CompletesOnce lib w e := by
  have hu := hs.usual
  simp only [usual, Bool.and_eq_true] at hu
  refine ⟨hu.1, ?_⟩
  cases e with
  | readCb n c =>
    have ha := hs.aside
    simp only [aside, decide_eq_true_eq] at ha
    show reenters c n w = false
    rw [reenters, decide_eq_false ha]
    rfl
  | _ => rfl

theorem next_smooth (e : Event) (h : Inv lib False .client w ∧ Once w ∧ Known lib bodies w)
    (he : enabled w e = true) (hs : Smooth lib bodies w e) :
    Inv lib False .client (next lib w e) ∧ Once (next lib w e) ∧
      Known lib bodies (next lib w e) := by
  obtain ⟨hinv, ho, hk⟩ := h
  have hc := completesOnce_smooth hs
  have hnext := next_completesOnce ⟨.inr hinv, ho⟩ he hc
  exact ⟨next_reached e (.inr hinv) he (orderly_of_completesOnce hc) False.elim, hnext.2,
    next_known e hinv ho hk he hc hs⟩

def Silent (w : World P) : Prop :=
  w.registered = true → w.calls.count .httpResponseWrite = 0 → (w.bev 0).output = []

theorem turn_silent {cue : Cue} (ht : Turn lib cue f f')
    (h : f.calls.count .httpResponseWrite = 0 → f.output = [])
    (hc : f'.calls.count .httpResponseWrite = 0) : f'.output = [] := by
  cases ht with
  | stays => exact h hc
  | drains k flushed =>
    show drainOutput k f.output = []
    rw [h hc]
    rfl
  | settles n client => exact h hc
  | requests me begins quiet first =>
    apply h
    rw [first]
    rfl
  | connects idx n upstream pending free fresh => exact h hc
  | sends idx n upstream held connecting => exact h hc
  | replies idx n body s upstream held connected complete nonempty stored waits =>
    rw [List.count_cons_of_ne (by simp)] at hc
    exact h hc
  | answers idx n body s name surname joke addr d upstream held connected complete nonempty stored
      due names surnames jokes dated =>
    rw [List.count_cons_self] at hc
    cases hc

theorem next_silent (e : Event) (hw : Reached lib False w) (ho : Once w) (hs : Silent w)
    (he : enabled w e = true) (hc : CompletesOnce lib w e) (hin : inOrder w e = true) :
    Silent (next lib w e) := by
  intro hreg
  rcases turn_of_registered hw ho he hc hin hreg with haccepted | ⟨hold, ht⟩
  · rw [haccepted]
    exact fun _ => rfl
  · exact turn_silent ht (hs hold)

theorem told_requested (h : Inv lib False .client u) (hreg : u.registered = true) (hs : Silent u)
    (hc : u.calls = [.clientMsgComplete]) : Told lib bodies (front u) := by
  have ho : Once u := by
    rw [Once, hc]
    exact Nat.le_refl 1
  have hnone : ∀ idx, idx ≠ .client → hasReplied idx u.session = false := by
    intro idx hidx
    by_contra hno
    have hyes : hasReplied idx (rest u).session = true := Bool.not_eq_false _ ▸ hno
    have hmem : Call.reply idx ∈ u.calls := ((h.progress hreg ho).replies idx hidx).mpr hyes
    rw [hc] at hmem
    simp at hmem
  have hn : u.session.nameReplied = false := hnone .name (by decide)
  have hj : u.session.jokeReplied = false := hnone .joke (by decide)
  have hcount : u.calls.count .httpResponseWrite = 0 := by
    rw [hc]
    rfl
  constructor
  · intro idx hidx hr
    exact absurd ((hnone idx hidx).symm.trans hr) (by decide)
  · intro _
    constructor
    · intro hr
      exact absurd (hn.symm.trans hr) (by decide)
    · intro hr
      exact absurd (hj.symm.trans hr) (by decide)
  · exact fun _ => ⟨hcount, hs hreg hcount⟩
  · intro hb
    have hb : (u.session.nameReplied && u.session.jokeReplied) = true := hb
    rw [hn] at hb
    cases hb

/-- Every upstream has replied, if the session is still there. -/
def Delivered (w : World P) : Prop :=
  w.registered = true → ∀ idx, idx ≠ .client → .reply idx ∈ w.calls

structure Races (lib : Libs P) (bodies : Slot → Bytes) (w : World P) : Prop where
  written : w.calls.count .httpResponseWrite =
    if w.registered && bothReplied w.session then 1 else 0
  early : w.registered = true → bothReplied w.session = false → (w.bev 0).output = []
  late : w.registered = true → bothReplied w.session = true →
    bothDecode lib bodies = true ∧ ∃ d, outputBytes (w.bev 0).output = response lib bodies d
  responds : Delivered w → bothDecode lib bodies = true →
    w.registered = true ∧ bothReplied w.session = true
  removed : Delivered w → bothDecode lib bodies = false → w.registered = false

/-- Two orders of the same events. -/
structure SameResponse (lib : Libs P) (bodies : Slot → Bytes) (v v' : World P) : Prop where
  one : Races lib bodies v
  other : Races lib bodies v'
  equal : v.registered = true → v'.registered = true → bothReplied v.session = true →
    bothReplied v'.session = true → ∃ text d d',
      outputBytes (v.bev 0).output = (responseHead d text.length).flatten ++ text ∧
      outputBytes (v'.bev 0).output = (responseHead d' text.length).flatten ++ text

theorem decode_of_told (h : Told lib bodies f) (hb : bothReplied f.session = true) :
    bothDecode lib bodies = true := by
  simp only [bothReplied, Bool.and_eq_true] at hb
  rw [bothDecode, h.decoded .name (by decide) hb.1, h.decoded .joke (by decide) hb.2]
  rfl

theorem races_of_known (h : Inv lib False .client w) (ho : Once w) (hk : Known lib bodies w) :
    Races lib bodies w := by
  rcases hk with ⟨hreg, ht⟩ | ⟨hreg, hd, hcount⟩
  · have hboth : Delivered w → bothReplied w.session = true := by
      intro hdel
      have hp := (h.progress hreg ho).replies
      have hn : w.session.nameReplied = true :=
        (hp .name (by decide)).mp (hdel hreg .name (by decide))
      have hj : w.session.jokeReplied = true :=
        (hp .joke (by decide)).mp (hdel hreg .joke (by decide))
      rw [bothReplied, hn, hj]
      rfl
    constructor
    · rw [hreg]
      cases hb : bothReplied w.session with
      | false => exact (ht.early hb).1
      | true => exact (ht.late hb).1
    · exact fun _ hb => (ht.early hb).2
    · exact fun _ hb => ⟨decode_of_told ht hb, (ht.late hb).2⟩
    · exact fun hdel _ => ⟨hreg, hboth hdel⟩
    · intro hdel hno
      exact absurd ((decode_of_told ht (hboth hdel)).symm.trans hno) (by decide)
  · have hgone : ¬ w.registered = true := by
      rw [hreg]
      decide
    constructor
    · rw [hreg]
      exact hcount
    · exact fun hyes => absurd hyes hgone
    · exact fun hyes => absurd hyes hgone
    · intro _ hyes
      exact absurd (hd.symm.trans hyes) (by decide)
    · exact fun _ _ => hreg

/-- Whatever the order of the upstreams' events, the bodies decide the response. -/
theorem response_order_free {worker : Bool} {es fs fs' : List Event}
    (h : Run (system lib) (fun w e => usual lib w e = true) (initial lib worker) es u)
    (hreg : u.registered = true) (hc : u.calls = [.clientMsgComplete])
    (hf : Run (system lib) (Smooth lib bodies) u fs v)
    (hf' : Run (system lib) (Smooth lib bodies) u fs' v') : SameResponse lib bodies v v' := by
  have ho : Once u := by
    rw [Once, hc]
    exact Nat.le_refl 1
  have husual : ∀ (w : World P) (e : Event), usual lib w e = true →
      answersLater lib w e = true ∧ inOrder w e = true := by
    intro w e hu
    simpa [usual] using hu
  obtain ⟨hr, hs⟩ := run_once_keeps (Q := Silent) h (fun w e hu => (husual w e hu).1)
    (fun w e hw ho hs he hu hc => next_silent e hw ho hs he hc (husual w e hu).2)
    (.inl ⟨worker, rfl⟩) (fun hreg => by cases hreg) ho
  rcases hr with ⟨worker, rfl⟩ | hinv
  · cases hreg
  have hstart : Inv lib False .client u ∧ Once u ∧ Known lib bodies u :=
    ⟨hinv, ho, .inl ⟨hreg, told_requested hinv hreg hs hc⟩⟩
  have hend : ∀ (gs : List Event) (w : World P), Run (system lib) (Smooth lib bodies) u gs w →
      Races lib bodies w := by
    intro gs w hg
    obtain ⟨hi, ho, hk⟩ := run_invariant
      (I := fun w => Inv lib False .client w ∧ Once w ∧ Known lib bodies w)
      (fun _ e hs he hc => next_smooth e hs he hc) hg hstart
    exact races_of_known hi ho hk
  have h1 := hend fs v hf
  have h2 := hend fs' v' hf'
  refine ⟨h1, h2, ?_⟩
  intro hv hv' hb hb'
  obtain ⟨-, d, hd⟩ := h1.late hv hb
  obtain ⟨-, d', hd'⟩ := h2.late hv' hb'
  exact ⟨answerText lib bodies, d, d', hd, hd'⟩

def Succeeding : Event → Prop
  | .readCb _ c | .eventCb _ _ c => Succeeds c
  | _ => True

def even (lib : Libs P) (bodies : Slot → Bytes) (w : World P) (e : Event) : Bool :=
  usual lib w e && aside w e &&
    (match e with
    | .readCb n c => !closes n w && (reads lib c n w).1 ≠ .failed
    | .writeCb n _ => !closes n w
    | .eventCb _ events _ => !events.error && !events.eof && !events.timeout
    | .dnsCb _ a c => leads a c w.worker
    | .fini => false
    | _ => true) &&
    (messageOf lib w e).all fun m =>
      [Slot.client, .name, .joke].all fun idx =>
        w.session.httpSessions idx ≠ some m.1 || m.2 = bodies idx

theorem smooth_of_even {e : Event} (h : even lib bodies w e = true) (hs : Succeeding e) :
    Smooth lib bodies w e := by
  simp only [even, Bool.and_eq_true] at h
  obtain ⟨⟨⟨hu, ha⟩, hcalm⟩, hreply⟩ := h
  refine ⟨hu, ha, ?_, ?_⟩
  · cases e with
    | readCb n c =>
      simp only [Bool.and_eq_true, Bool.not_eq_true', decide_eq_true_eq] at hcalm
      exact ⟨hcalm.1, hcalm.2, hs⟩
    | eventCb n events c =>
      simp only [Bool.and_eq_true, Bool.not_eq_true'] at hcalm
      exact ⟨hcalm.1.1, hcalm.1.2, hcalm.2, hs⟩
    | writeCb n c =>
      simp only [Bool.not_eq_true'] at hcalm
      exact hcalm
    | dnsCb r a c => exact hcalm
    | fini => cases hcalm
    | _ => trivial
  · intro idx n body hi hm
    simp only [hm, Option.all_some, List.all_eq_true, Bool.or_eq_true, decide_eq_true_eq] at hreply
    have hmem : idx ∈ [Slot.client, .name, .joke] := by cases idx <;> decide
    exact (hreply idx hmem).resolve_left fun hne => hne hi

theorem run_smooth (es : List Event) (h : admits (system lib)
    (fun w e => even lib bodies w e = true) u es = true) (hs : ∀ e ∈ es, Succeeding e) :
    Run (system lib) (Smooth lib bodies) u es (es.foldl (next lib) u) :=
  run_weaken (fun _ _ he => smooth_of_even he.1 he.2) (run_of_events (run_of_admits u es h) hs)

def bodiesOf : Slot → Bytes
  | .name => nameBody
  | .joke => jokeBody
  | .client => []

def jokeFirst : List Event :=
  [.dnsCb 1 (.addresses [.inet]) {}, .eventCb 1 { connected := true } {}, .arrive 1 jokeReply,
    .readCb 1 {}, .dnsCb 0 (.addresses [.inet]) {}, .eventCb 2 { connected := true } {},
    .arrive 2 nameReply, .readCb 2 {}]

theorem succeeds_default : Succeeds {} where
  referenceNew := rfl
  requests := ⟨rfl, rfl⟩
  pullup := rfl
  strdup := ⟨rfl, rfl⟩
  malloc := fun _ => ⟨rfl, rfl⟩
  datetime := rfl
  outputAdd := fun _ => rfl

def requestedExchange : World Core := (exchange.take 3).foldl (next libs) (initial libs true)

theorem succeeding_exchange : ∀ e ∈ exchange.drop 3, Succeeding e := by
  simp [exchange, Succeeding, succeeds_default]

theorem succeeding_jokeFirst : ∀ e ∈ jokeFirst, Succeeding e := by
  simp [jokeFirst, Succeeding, succeeds_default]

theorem response_order_free_exchange :
    SameResponse libs bodiesOf ((exchange.drop 3).foldl (next libs) requestedExchange)
      (jokeFirst.foldl (next libs) requestedExchange) :=
  response_order_free (run_of_admits (initial libs true) (exchange.take 3) (by decide +kernel))
    (by decide +kernel) (by decide +kernel)
    (run_smooth (exchange.drop 3) (by decide +kernel) succeeding_exchange)
    (run_smooth jokeFirst (by decide +kernel) succeeding_jokeFirst)

example : bothReplied ((jokeFirst.foldl (next libs) requestedExchange).session) = true := by
  decide +kernel

end Tigera.ReplyOrder
