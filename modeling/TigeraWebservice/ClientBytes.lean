import TigeraWebservice.HttpReply

/-!
# What the client is sent

The socket takes the bytes of the client's output in pieces, while the callbacks
go on. Over a whole run the client gets nothing or the beginning of one reply,
made of the two bodies that the upstreams completed, and the session is closed
for being finished when the last byte of the reply has been taken.
-/

set_option autoImplicit false

namespace Tigera.ClientBytes
open ResourceLedger TransitionRuns HeaderBlock Tigera.JokeCreate Tigera.SessionWorld
open Tigera.SocketChannel Tigera.SessionProgram Tigera.SessionSystem Tigera.HeldConnections
open Tigera.SessionMemory Tigera.SessionInvariant Tigera.ReplyCallbacks Tigera.ChannelCallbacks
open Tigera.SessionRuns Tigera.OneResponse Tigera.SessionTurns Tigera.UpstreamAccounting
open Tigera.ReplyOrder Tigera.HttpReply Tigera.PlainMessages

variable {P : Type} {lib : Libs P} {bodies : Slot → Bytes} {w : World P} {f f' : Front}
variable {idx : Slot} {e : Event}

/-- What has been seen of a session: the replies its upstreams have completed
and the bytes its client has been sent. -/
structure Seen where
  replies : List (Slot × Bytes)
  sent : Bytes

def sentBy (w : World P) : Event → Bytes
  | .flush 0 k => (outputBytes (w.bev 0).output).take k
  | _ => []

def repliesBy (lib : Libs P) (w : World P) (e : Event) : List (Slot × Bytes) :=
  match messageOf lib w e with
  | some (n, body) =>
    ([Slot.name, .joke].filter fun idx => w.session.httpSessions idx = some n).map (·, body)
  | none => []

def watch (lib : Libs P) (w : World P) (e : Event) (o : Seen) : Seen where
  replies := o.replies ++ repliesBy lib w e
  sent := o.sent ++ sentBy w e

def seen (lib : Libs P) (w : World P) (es : List Event) : Seen :=
  monitored (system lib) (watch lib) w es ⟨[], []⟩

theorem mem_repliesBy {n : ℕ} {body : Bytes} (hidx : idx ≠ .client)
    (held : w.session.httpSessions idx = some n) (complete : messageOf lib w e = some (n, body)) :
    (idx, body) ∈ repliesBy lib w e := by
  simp only [repliesBy, complete, List.mem_map, List.mem_filter, decide_eq_true_eq]
  refine ⟨idx, ⟨?_, held⟩, rfl⟩
  cases idx with
  | client => exact absurd rfl hidx
  | name => exact List.mem_cons_self ..
  | joke => exact List.mem_cons_of_mem _ (List.mem_cons_self ..)

theorem outputBytes_drain (k : ℕ) (cs : List Chunk) :
    outputBytes (drainOutput k cs) = (outputBytes cs).drop k := by
  induction k, cs using drainOutput.induct with
  | case1 k => exact List.drop_nil.symm
  | case2 k c cs hle ih =>
    rw [drainOutput, if_pos hle, ih]
    show _ = (c.data ++ outputBytes cs).drop k
    rw [List.drop_append, List.drop_eq_nil_of_le hle, List.nil_append]
  | case3 k c cs hle =>
    rw [drainOutput, if_neg hle]
    show c.data.drop k ++ outputBytes cs = (c.data ++ outputBytes cs).drop k
    rw [List.drop_append_of_le_length (Nat.le_of_lt (Nat.not_le.mp hle))]

theorem front_flush (k : ℕ) (w : World P) : front (next lib w (.flush 0 k)) =
    { front w with output := drainOutput k (front w).output } := by
  have hmap : (fun m => ((next lib w (.flush 0 k)).bev m).connecting) =
      fun m => (w.bev m).connecting := by
    funext m
    by_cases hm : m = 0
    · subst hm
      simp [next, flushOutput, alterBev]
    · simp [next, flushOutput, alterBev, hm]
  rw [front, hmap]
  simp [next, flushOutput, alterBev, front, rest]

/-- The date of the response comes from `http_get_datetime`. -/
def Dated : Event → Prop
  | .readCb _ c => ∃ tm, c.datetime = httpGetDatetime tm
  | _ => True

structure Answer (lib : Libs P) (replies : List (Slot × Bytes)) (bodies : Slot → Bytes)
    (reply : Bytes) : Prop where
  completed : ∀ idx, idx ≠ .client → (idx, bodies idx) ∈ replies
  decoded : bothDecode lib bodies = true
  dated : ∃ tm d, httpGetDatetime tm = some d ∧ reply = response lib bodies d

def Sent (lib : Libs P) (o : Seen) : Prop :=
  o.sent = [] ∨ ∃ bodies reply, Answer lib o.replies bodies reply ∧ o.sent <+: reply

structure Composed (lib : Libs P) (bodies : Slot → Bytes) (o : Seen) (f : Front) : Prop where
  completed : ∀ idx, idx ≠ .client → hasReplied idx f.session = true →
    (idx, bodies idx) ∈ o.replies ∧ decodes lib idx (bodies idx) = true
  holding : bothReplied f.session = false → Holding lib bodies f.session
  early : bothReplied f.session = false → o.sent = [] ∧ f.output = []
  late : bothReplied f.session = true → ∃ tm d, httpGetDatetime tm = some d ∧
    o.sent ++ outputBytes f.output = response lib bodies d

theorem answer_of_composed {o : Seen} (h : Composed lib bodies o f)
    (hboth : bothReplied f.session = true) :
    Answer lib o.replies bodies (o.sent ++ outputBytes f.output) := by
  have hreplied : ∀ idx, idx ≠ .client → hasReplied idx f.session = true := by
    simp only [bothReplied, Bool.and_eq_true] at hboth
    intro idx hidx
    cases idx with
    | client => exact absurd rfl hidx
    | name => exact hboth.1
    | joke => exact hboth.2
  refine ⟨fun idx hidx => (h.completed idx hidx (hreplied idx hidx)).1, ?_, h.late hboth⟩
  have hname := (h.completed .name (by decide) (hreplied .name (by decide))).2
  have hjoke := (h.completed .joke (by decide) (hreplied .joke (by decide))).2
  rw [bothDecode, hname, hjoke]
  rfl

theorem sent_of_composed {o : Seen} (h : Composed lib bodies o f) : Sent lib o := by
  cases hboth : bothReplied f.session with
  | false => exact .inl (h.early hboth).1
  | true => exact .inr ⟨bodies, _, answer_of_composed h hboth, List.prefix_append _ _⟩

theorem sent_more {o : Seen} (replies : List (Slot × Bytes)) (h : Sent lib o) :
    Sent lib ⟨o.replies ++ replies, o.sent⟩ := by
  rcases h with hnone | ⟨bodies, reply, ha, hprefix⟩
  · exact .inl hnone
  · refine .inr ⟨bodies, reply, ⟨?_, ha.decoded, ha.dated⟩, hprefix⟩
    exact fun idx hidx => List.mem_append_left _ (ha.completed idx hidx)

theorem holding_update {s : Session} (body : Bytes) (h : Holding lib bodies s)
    (hidx : idx ≠ .client) (hno : hasReplied idx s = false) :
    Holding lib (Function.update bodies idx body) s := by
  cases idx with
  | client => exact absurd rfl hidx
  | name =>
    have hno : s.nameReplied = false := hno
    exact ⟨fun hyes => absurd (hno.symm.trans hyes) (by decide), h.joke⟩
  | joke =>
    have hno : s.jokeReplied = false := hno
    exact ⟨h.name, fun hyes => absurd (hno.symm.trans hyes) (by decide)⟩

theorem composed_congr {o : Seen} (replies : List (Slot × Bytes)) (h : Composed lib bodies o f)
    (hs : SameReplies f.session f'.session) (ho : f'.output = f.output) :
    Composed lib bodies ⟨o.replies ++ replies, o.sent⟩ f' := by
  obtain ⟨-, h1, h2, h3, h4, h5⟩ := hs
  have hboth : bothReplied f'.session = bothReplied f.session := by
    rw [bothReplied, bothReplied, h1, h2]
  constructor
  · intro idx hidx hr
    rw [hasReplied_of_fields h1 h2] at hr
    obtain ⟨hmem, hd⟩ := h.completed idx hidx hr
    exact ⟨List.mem_append_left _ hmem, hd⟩
  · intro hb
    have hh := h.holding (hboth ▸ hb)
    refine ⟨?_, ?_⟩
    · rw [h1, h3, h4]
      exact hh.name
    · rw [h2, h5]
      exact hh.joke
  · rw [hboth, ho]
    exact h.early
  · rw [hboth, ho]
    exact h.late

theorem completed_settled {o : Seen} {s t : Session} {body : Bytes}
    {replies : List (Slot × Bytes)} (h : Composed lib bodies o f) (hidx : idx ≠ .client)
    (stored : Stored lib body s idx t) (hs : SameReplies f.session s)
    (hd : decodes lib idx body = true) (hmem : (idx, body) ∈ replies) (j : Slot)
    (hj : j ≠ .client) (hr : hasReplied j (settled idx t) = true) :
    (j, Function.update bodies idx body j) ∈ o.replies ++ replies ∧
      decodes lib j (Function.update bodies idx body j) = true := by
  obtain ⟨-, h1, h2, -⟩ := hs
  rw [replied_settled hidx stored j hj] at hr
  by_cases hji : j = idx
  · subst hji
    rw [Function.update_self]
    exact ⟨List.mem_append_right _ hmem, hd⟩
  · rw [if_neg hji, hasReplied_of_fields h1 h2] at hr
    rw [Function.update_of_ne hji]
    obtain ⟨hold, hdecode⟩ := h.completed j hj hr
    exact ⟨List.mem_append_left _ hold, hdecode⟩

theorem holding_replied {o : Seen} {t : Session} {body : Bytes} (h : Composed lib bodies o f)
    (hidx : idx ≠ .client) (hno : hasReplied idx f.session = false)
    (stored : Stored lib body
      { f.session with pendingReplies := f.session.pendingReplies - 1 } idx t) :
    Holding lib (Function.update bodies idx body) (settled idx t) := by
  have hold : Holding lib (Function.update bodies idx body)
      { f.session with pendingReplies := f.session.pendingReplies - 1 } := by
    have hh := holding_update body (h.holding (not_both hidx hno)) hidx hno
    exact ⟨hh.name, hh.joke⟩
  have hbody : Function.update bodies idx body idx = body := Function.update_self ..
  rw [← hbody] at stored
  exact holding_settled (fun _ => hold) hidx hno stored

theorem turn_composed {cue : Cue} {o : Seen} {replies : List (Slot × Bytes)}
    (h : Composed lib bodies o f) (ht : Turn lib cue f f') (hflush : cue.flushed = none)
    (hdate : ∀ d, cue.date = some d → ∃ tm, httpGetDatetime tm = some d)
    (hmem : ∀ idx n body, idx ≠ .client → f.session.httpSessions idx = some n →
      cue.message = some (n, body) → (idx, body) ∈ replies)
    (hidle : ∀ idx n, idx ≠ .client → f.session.httpSessions idx = some n →
      hasReplied idx f.session = false) :
    ∃ bodies', Composed lib bodies' ⟨o.replies ++ replies, o.sent⟩ f' := by
  cases ht with
  | stays => exact ⟨bodies, composed_congr replies h ⟨rfl, rfl, rfl, rfl, rfl, rfl⟩ rfl⟩
  | drains k flushed =>
    rw [hflush] at flushed
    cases flushed
  | settles n client =>
    exact ⟨bodies, composed_congr replies h ⟨rfl, rfl, rfl, rfl, rfl, rfl⟩ rfl⟩
  | requests me begins quiet first =>
    have hearly : o.sent = [] ∧ f.output = [] := by
      apply h.early
      rw [begins]
      rfl
    refine ⟨bodies, ?_, ?_, fun _ => hearly, ?_⟩
    · intro idx hidx hr
      cases idx <;> cases hr
    · intro _
      constructor
      · intro hn
        cases hn
      · intro hj
        cases hj
    · intro hb
      cases hb
  | connects idx n upstream pending free fresh =>
    exact ⟨bodies, composed_congr replies h ⟨rfl, rfl, rfl, rfl, rfl, rfl⟩ rfl⟩
  | sends idx n upstream held connecting =>
    exact ⟨bodies, composed_congr replies h ⟨rfl, rfl, rfl, rfl, rfl, rfl⟩ rfl⟩
  | replies idx n body s upstream held connected complete nonempty stored waits =>
    have hno := hidle idx n upstream held
    refine ⟨Function.update bodies idx body, ?_, ?_, ?_, ?_⟩
    · intro j hj hr
      exact completed_settled h upstream stored ⟨rfl, rfl, rfl, rfl, rfl, rfl⟩
        (decodes_stored nonempty stored) (hmem idx n body upstream held complete) j hj hr
    · exact fun _ => holding_replied h upstream hno stored
    · exact fun _ => h.early (not_both upstream hno)
    · intro hb
      exact absurd (waits.symm.trans hb) (by decide)
  | answers idx n body s name surname joke addr d upstream held connected complete nonempty stored
      due names surnames jokes dated =>
    have hno := hidle idx n upstream held
    obtain ⟨hsent, hout⟩ := h.early (not_both upstream hno)
    obtain ⟨h1, h2, h3⟩ := settled_strings idx s
    obtain ⟨tm, htm⟩ := hdate d dated
    have htext := responseText_holding (holding_replied h upstream hno stored) due
      (h1.trans names) (h2.trans surnames) (h3.trans jokes)
    refine ⟨Function.update bodies idx body, ?_, ?_, ?_, ?_⟩
    · intro j hj hr
      exact completed_settled h upstream stored ⟨rfl, rfl, rfl, rfl, rfl, rfl⟩
        (decodes_stored nonempty stored) (hmem idx n body upstream held complete) j hj hr
    · intro hb
      have hb : bothReplied (settled idx s) = false := hb
      exact absurd (due.symm.trans hb) (by decide)
    · intro hb
      have hb : bothReplied (settled idx s) = false := hb
      exact absurd (due.symm.trans hb) (by decide)
    · intro _
      refine ⟨tm, d, htm, ?_⟩
      simp only [hsent, hout, List.nil_append]
      rw [outputBytes_response, htext, response]

theorem flush_composed {o : Seen} (k : ℕ) (h : Composed lib bodies o f) :
    Composed lib bodies ⟨o.replies, o.sent ++ (outputBytes f.output).take k⟩
      { f with output := drainOutput k f.output } := by
  refine ⟨h.completed, h.holding, ?_, ?_⟩
  · intro hb
    obtain ⟨hsent, hout⟩ := h.early hb
    simp only [hsent, hout]
    exact ⟨by rw [outputBytes, List.flatMap_nil, List.take_nil, List.append_nil], rfl⟩
  · intro hb
    obtain ⟨tm, d, htm, hwhole⟩ := h.late hb
    refine ⟨tm, d, htm, ?_⟩
    rw [outputBytes_drain, List.append_assoc, List.take_append_drop, hwhole]

/-- The steps of a session with one request: lookups are answered later, a
connection is reported once and read only afterwards, and the date is that of
`http_get_datetime`. -/
structure Served (lib : Libs P) (w : World P) (e : Event) : Prop where
  once : CompletesOnce lib w e
  inOrder : inOrder w e = true
  dated : Dated e

structure Watched (lib : Libs P) (o : Seen) (w : World P) : Prop where
  reached : Reached lib False w
  once : Once w
  fresh : w.nextConn = 0 → o.sent = []
  composed : w.registered = true → ∃ bodies, Composed lib bodies o (front w)
  sent : Sent lib o

theorem composed_accepted {o : Seen} (h : o.sent = []) :
    Composed lib bodies o (front (accepted lib true)) := by
  refine ⟨?_, ?_, fun _ => ⟨h, rfl⟩, ?_⟩
  · intro idx hidx hr
    cases idx <;> cases hr
  · intro _
    constructor
    · intro hn
      cases hn
    · intro hj
      cases hj
  · intro hb
    cases hb

theorem cue_dated (hd : Dated e) (d : Bytes) (h : (cueOf lib w e).date = some d) :
    ∃ tm, httpGetDatetime tm = some d := by
  cases e with
  | readCb n c =>
    obtain ⟨tm, htm⟩ := hd
    exact ⟨tm, htm.symm.trans h⟩
  | flush n k =>
    rw [cueOf] at h
    split at h <;> cases h
  | _ => cases h

theorem sentBy_other (h : ∀ k, e ≠ .flush 0 k) : sentBy w e = [] ∧
    (cueOf lib w e).flushed = none := by
  cases e with
  | flush n k =>
    cases n with
    | zero => exact absurd rfl (h k)
    | succ n => exact ⟨rfl, rfl⟩
  | _ => exact ⟨rfl, rfl⟩

theorem not_flush_gone (h : Reached lib False w) (hreg : w.registered = false)
    (he : enabled w e = true) (k : ℕ) : e ≠ .flush 0 k := by
  rintro rfl
  rcases h with ⟨worker, rfl⟩ | hinv
  · obtain ⟨c, hc⟩ := enabled_initial he
    cases hc
  · simp only [enabled, Bool.and_eq_true, Bool.not_eq_true'] at he
    exact absurd (hreg.symm.trans (held_of_deliverable hinv he.1 he.2).1) (by decide)

theorem next_watched (e : Event) {o : Seen} (h : Watched lib o w) (he : enabled w e = true)
    (hs : Served lib w e) : Watched lib (watch lib w e o) (next lib w e) := by
  have hinv := next_reached e h.reached he (orderly_of_completesOnce hs.once) False.elim
  have honce := (next_completesOnce ⟨h.reached, h.once⟩ he hs.once).2
  have hbegun : (next lib w e).nextConn ≠ 0 := Nat.ne_of_gt hinv.memory.begun
  by_cases hf : ∃ k, e = .flush 0 k
  · obtain ⟨k, rfl⟩ := hf
    have hseen : watch lib w (.flush 0 k) o =
        ⟨o.replies, o.sent ++ (outputBytes (front w).output).take k⟩ := by
      show (⟨o.replies ++ [], _⟩ : Seen) = _
      rw [List.append_nil]
      rfl
    have hreg : w.registered = true := by
      by_contra hno
      exact not_flush_gone h.reached (by simpa using hno) he k rfl
    obtain ⟨bodies, hc⟩ := h.composed hreg
    have hflushed := flush_composed k hc
    rw [hseen]
    refine ⟨.inr hinv, honce, fun hno => absurd hno hbegun, fun _ => ⟨bodies, ?_⟩,
      sent_of_composed hflushed⟩
    rw [front_flush]
    exact hflushed
  · have hother : sentBy w e = [] ∧ (cueOf lib w e).flushed = none :=
      sentBy_other fun k hk => hf ⟨k, hk⟩
    obtain ⟨hsent, hflushed⟩ := hother
    have hseen : watch lib w e o = ⟨o.replies ++ repliesBy lib w e, o.sent⟩ := by
      rw [watch, hsent, List.append_nil]
    rw [hseen]
    refine ⟨.inr hinv, honce, fun hno => absurd hno hbegun, ?_, sent_more _ h.sent⟩
    intro hreg
    rcases h.reached with ⟨worker, rfl⟩ | hold
    · obtain ⟨c, rfl⟩ := enabled_initial he
      have haccepted : next lib (initial lib worker) (.accept c) = accepted lib true :=
        accept_registered c worker hreg
      rw [haccepted]
      exact ⟨fun _ => [], composed_accepted (h.fresh rfl)⟩
    · have hwas := (CompletedRequests.next_later lib e he hold.memory.begun).registered hreg
      obtain ⟨bodies, hc⟩ := h.composed hwas
      rcases next_turn e hold hwas h.once he hs.once hs.inOrder with ⟨hgone, -⟩ | ht
      · exact absurd (hgone.symm.trans hreg) (by decide)
      · refine turn_composed hc ht hflushed (cue_dated hs.dated) ?_
          fun idx n => not_replied (hold.progress hwas h.once)
        intro idx n body hidx held complete
        exact mem_repliesBy hidx held (message_of_cue.symm.trans complete)

theorem run_watched {worker : Bool} {es : List Event}
    (h : Run (system lib) (Served lib) (initial lib worker) es w) :
    Watched lib (seen lib (initial lib worker) es) w := by
  refine run_monitored (I := Watched lib) (fun o u e hu he hs => next_watched e hu he hs) h ?_
  refine ⟨.inl ⟨worker, rfl⟩, Nat.zero_le 1, fun _ => rfl, ?_, .inl rfl⟩
  intro hreg
  cases hreg

/-- What has been sent is the beginning of a reply that is read back as the
text made of two completed bodies. -/
structure ReadBack (lib : Libs P) (o : Seen) (bodies : Slot → Bytes) (reply : Bytes) : Prop where
  completed : ∀ idx, idx ≠ .client → (idx, bodies idx) ∈ o.replies
  decoded : bothDecode lib bodies = true
  begins : o.sent <+: reply
  reads : ∃ message, readMessage (literal "Content-Length") reply = some message ∧
    message.content = answerText lib bodies ∧ message.rest = [] ∧ status message.start = some 200

theorem readBack_of_answer {o : Seen} {reply : Bytes} (h : Answer lib o.replies bodies reply)
    (hsent : o.sent <+: reply) : ReadBack lib o bodies reply := by
  obtain ⟨tm, d, htm, rfl⟩ := h.dated
  obtain ⟨l, rfl, hl, hname⟩ := datetime_line htm
  have hne : l ≠ [] := by
    rintro rfl
    cases hname
  have hstatus : status (literal "HTTP/1.0 200 OK") = some 200 := by decide
  exact ⟨h.completed, h.decoded, hsent, _, readMessage_response l _ hl hne, rfl, rfl, hstatus⟩

/-- Over a whole run the client is sent nothing, or the beginning of one reply. -/
theorem client_bytes {worker : Bool} {es : List Event}
    (h : Run (system lib) (Served lib) (initial lib worker) es w) :
    (seen lib (initial lib worker) es).sent = [] ∨
      ∃ bodies reply, ReadBack lib (seen lib (initial lib worker) es) bodies reply := by
  rcases (run_watched h).sent with hnone | ⟨bodies, reply, ha, hprefix⟩
  · exact .inl hnone
  · exact .inr ⟨bodies, reply, readBack_of_answer ha hprefix⟩

def partlySent : List Event := exchange ++ [.flush 0 100]

theorem dated_partlySent : ∀ e ∈ partlySent, Dated e := by
  have hdefault : Dated (.readCb 0 {}) := ⟨some epoch, by decide⟩
  intro e he
  simp only [partlySent, exchange, List.cons_append, List.nil_append, List.mem_cons,
    List.not_mem_nil, or_false] at he
  rcases he with rfl | rfl | rfl | rfl | rfl | rfl | rfl | rfl | rfl | rfl | rfl | rfl
  all_goals first | exact trivial | exact hdefault

theorem run_partlySent : Run (system libs) (Served libs) (initial libs true) partlySent
    (partlySent.foldl (next libs) (initial libs true)) := by
  have hrun : Run (system libs) (fun w e => CompletesOnce libs w e ∧ inOrder w e = true)
      (initial libs true) partlySent (partlySent.foldl (next libs) (initial libs true)) :=
    run_of_admits (initial libs true) partlySent (by decide +kernel)
  exact run_weaken (fun _ _ he => ⟨he.1.1, he.1.2, he.2⟩) (run_of_events hrun dated_partlySent)

theorem client_bytes_partlySent : (seen libs (initial libs true) partlySent).sent = [] ∨
    ∃ bodies reply, ReadBack libs (seen libs (initial libs true) partlySent) bodies reply :=
  client_bytes run_partlySent

example : (seen libs (initial libs true) partlySent).sent.length = 100 := by decide +kernel

def checksClose : Event → Bool
  | .writeCb 0 _ => true
  | .eventCb 0 events _ => events.reading && events.eof && !events.error && !events.connected
  | _ => false

structure Responding (w : World P) (output : List Chunk) : Prop where
  registered : w.registered = true
  state : w.session.state = .clientResponse
  complete : (w.http 0).state = .messageComplete
  cbs : (w.http 0).cbs = slotCallbacks .client
  bev : (w.chan 0).bev = some 0
  output : (w.bev 0).output = output

theorem responding_of_inv (h : Inv lib False .client w) (hreg : w.registered = true)
    (ho : Once w) (hs : w.session.state = .clientResponse) : Responding w (w.bev 0).output := by
  have hp := h.plan hreg (h.steady (.inl hreg) ho)
  have hheld := h.memory.conns.held .client 0 hp.client
  refine ⟨hreg, hs, ?_, hheld.cbs, hheld.bev, rfl⟩
  by_contra hno
  have hstarted : w.session = started := (hp.quiet hno).1
  rw [hstarted] at hs
  cases hs

theorem closes_responding {output : List Chunk} (h : Responding w output) :
    closes 0 w = decide (outputBytes output = []) := by
  simp [closes, closing, channelGetOutputLength, channelGetOutput, h.complete, h.bev, h.output]

theorem shouldClose_responding {output : List Chunk} (c : Choices) (h : Responding w output) :
    (httpSessionChannelShouldClose lib c 0 0 w).2.registered =
      !decide (outputBytes output = []) := by
  rw [httpSessionChannelShouldClose_eq, closes_responding h]
  by_cases hc : outputBytes output = []
  · rw [if_pos (decide_eq_true hc), decide_eq_true hc, h.cbs]
    show (clientReadyToClose (onHttp 0 id (touched 0 w))).registered = _
    have hstate : (onSession id (onHttp 0 id (touched 0 w))).session.state = .clientResponse :=
      h.state
    rw [clientReadyToClose, if_pos hstate, remove_registered]
    rfl
  · rw [decide_eq_false hc]
    exact h.registered

theorem next_checksClose (h : Inv lib False .client w) (hreg : w.registered = true) (ho : Once w)
    (hs : w.session.state = .clientResponse) (hcheck : checksClose e = true) :
    (next lib w e).registered = !decide (outputBytes (w.bev 0).output = []) := by
  have hr := responding_of_inv h hreg ho hs
  have hclient := (h.plan hreg (h.steady (.inl hreg) ho)).client
  cases e with
  | writeCb n c =>
    cases n with
    | succ n => cases hcheck
    | zero =>
      have hheld := h.memory.conns.held .client 0 hclient
      rw [next, deliver_held hheld, tcpSocketWriteCb, service_held hheld, httpSessionWriteCb]
      apply shouldClose_responding
      refine ⟨hr.registered, hr.state, hr.complete, hr.cbs, ?_, hr.output⟩
      simpa [onChan] using hr.bev
  | eventCb n events c =>
    cases n with
    | succ n => cases hcheck
    | zero =>
      have hv := inv_alterBev h hclient
        (fun e => { e with connecting := e.connecting && !events.connected }) rfl rfl []
        (List.append_nil _).symm
      have hheld := hv.memory.conns.held .client 0 hclient
      simp only [checksClose, Bool.and_eq_true, Bool.not_eq_true'] at hcheck
      obtain ⟨⟨⟨hreading, heof⟩, herror⟩, hconnected⟩ := hcheck
      rw [next, deliver_held hheld, tcpSocketEventCb_held c events hheld, httpSessionEventCb]
      simp only [ioEvent, hreading, heof, herror, hconnected, Bool.false_eq_true, if_false,
        Bool.not_false, Bool.and_true, if_true, Bool.and_false]
      apply shouldClose_responding
      refine ⟨hr.registered, hr.state, ?_, ?_, ?_, ?_⟩
      · simpa [onHttp, onChan, alterBev] using hr.complete
      · simpa [onHttp, onChan, alterBev] using hr.cbs
      · simpa [onHttp, onChan, alterBev] using hr.bev
      · simp [onHttp, onChan, alterBev]
  | _ => cases hcheck

/-- What is left of the reply is queued, and the session is closed for being
finished exactly when nothing is left. -/
structure Finishing (lib : Libs P) (o : Seen) (w : World P) (reply : Bytes) : Prop where
  queued : o.sent ++ outputBytes (w.bev 0).output = reply
  closes : closes 0 w = true ↔ o.sent = reply
  removed : ∀ e, checksClose e = true → ((next lib w e).registered = false ↔ o.sent = reply)

theorem nothing_queued_iff {sent queued reply : Bytes} (h : sent ++ queued = reply) :
    queued = [] ↔ sent = reply := by
  rw [← h, List.self_eq_append_right]

/-- A session that is responding ends with its reply, neither before the last
byte has been taken nor later than its next check. -/
theorem finished_when_sent {worker : Bool} {es : List Event}
    (h : Run (system lib) (Served lib) (initial lib worker) es w) (hreg : w.registered = true)
    (hs : w.session.state = .clientResponse) :
    ∃ bodies reply, ReadBack lib (seen lib (initial lib worker) es) bodies reply ∧
      Finishing lib (seen lib (initial lib worker) es) w reply := by
  have hw := run_watched h
  rcases hw.reached with ⟨worker, rfl⟩ | hinv
  · cases hreg
  obtain ⟨bodies, hc⟩ := hw.composed hreg
  have hboth : bothReplied (front w).session = true := by
    rcases (hinv.progress hreg hw.once).response with ha | ⟨hu, -⟩
    · exact Bool.and_eq_true_iff.mpr ⟨ha.name, ha.joke⟩
    · exact absurd hs hu.state
  have ha := answer_of_composed hc hboth
  have hleft := nothing_queued_iff (Eq.refl
    ((seen lib (initial lib worker) es).sent ++ outputBytes (w.bev 0).output))
  refine ⟨bodies, _, readBack_of_answer ha (List.prefix_append _ _), rfl, ?_, ?_⟩
  · rw [closes_responding (responding_of_inv hinv hreg hw.once hs), decide_eq_true_eq]
    exact hleft
  · intro e he
    rw [next_checksClose hinv hreg hw.once hs he, Bool.not_eq_false', decide_eq_true_eq]
    exact hleft

theorem finished_when_sent_partlySent : ∃ bodies reply,
    ReadBack libs (seen libs (initial libs true) partlySent) bodies reply ∧
      Finishing libs (seen libs (initial libs true) partlySent)
        (partlySent.foldl (next libs) (initial libs true)) reply :=
  finished_when_sent run_partlySent (by decide +kernel) (by decide +kernel)

end Tigera.ClientBytes
