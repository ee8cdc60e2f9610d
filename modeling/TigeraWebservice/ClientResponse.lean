import TigeraWebservice.UpstreamCallbacks

/-!
# Writing the response

What `client_response_create` makes of the three strings, and what
`http_client_response` does to the session once both replies have come.
-/

set_option autoImplicit false

namespace Tigera.ClientResponse
open ResourceLedger Tigera.HttpReading Tigera.JokeCreate Tigera.SessionWorld Tigera.SocketChannel
open Tigera.SessionProgram Tigera.HeldConnections Tigera.HeldReferences Tigera.SessionMemory
open Tigera.SessionInvariant Tigera.UpstreamCallbacks

variable {P : Type} {lib : Libs P} {tidy : Prop} {busy : Slot} {w w' w'' : World P}

/-- Only the fields of the session, its strings and its life have changed. -/
structure Kept (w w' : World P) : Prop where
  wires : wires w' = wires w
  lookups : lookups w' = lookups w
  crashed : w'.crashed = w.crashed
  worker : w'.worker = w.worker
  calls : w'.calls = w.calls
  life : ∃ k, w'.life = List.replicate k (.use ()) ++ w.life

theorem kept_refl (w : World P) : Kept w w := ⟨rfl, rfl, rfl, rfl, rfl, 0, rfl⟩

theorem kept_trans (h : Kept w w') (h' : Kept w' w'') : Kept w w'' where
  wires := h'.wires.trans h.wires
  lookups := h'.lookups.trans h.lookups
  crashed := h'.crashed.trans h.crashed
  worker := h'.worker.trans h.worker
  calls := h'.calls.trans h.calls
  life := by
    obtain ⟨k, hk⟩ := h.life
    obtain ⟨m, hm⟩ := h'.life
    refine ⟨m + k, ?_⟩
    rw [hm, hk, ← List.append_assoc, List.replicate_append_replicate]

theorem kept_onSession (f : Session → Session)
    (hs : (f w.session).httpSessions = w.session.httpSessions)
    (hm : (f w.session).me = w.session.me) : Kept w (onSession f w) where
  wires := by simp [HeldConnections.wires, onSession, hs]
  lookups := by simp [HeldReferences.lookups, onSession, hm]
  crashed := rfl
  worker := rfl
  calls := rfl
  life := ⟨1, rfl⟩

theorem kept_strs (n : ℕ) (l : List (Entry ℕ)) : Kept w { w with nextStr := n, strs := l } :=
  ⟨rfl, rfl, rfl, rfl, rfl, 0, rfl⟩

theorem kept_freeStr (s : Option CStr) (w : World P) : Kept w (freeStr s w) := by
  rw [freeStr_eq]
  exact kept_strs w.nextStr _

theorem kept_drop (s : Option CStr) (f : Session → Session)
    (hs : ∀ x, (f x).httpSessions = x.httpSessions) (hm : ∀ x, (f x).me = x.me) (w : World P) :
    Kept w (onSession f (freeStr s w)) :=
  kept_trans (kept_freeStr s w) (kept_onSession f (hs _) (hm _))

theorem session_freeStr (s : Option CStr) (w : World P) : (freeStr s w).session = w.session := by
  cases s <;> rfl

theorem session_drop (s : Option CStr) (f : Session → Session) (w : World P) :
    (onSession f (freeStr s w)).session = f w.session :=
  congrArg f (session_freeStr s w)

theorem kept_strdup (ok : Bool) (s : Bytes) (w : World P) : Kept w (strdup ok s w).2 := by
  cases ok with
  | false => exact kept_refl w
  | true => exact kept_strs _ _

theorem kept_registered (h : Kept w w') : w'.registered = w.registered :=
  congrArg Lookups.registered h.lookups

theorem memory_kept (hm : Memory tidy w) (hreg : w.registered = true) (h : Kept w w') :
    Memory tidy w' := by
  have hr := kept_registered h
  obtain ⟨k, hk⟩ := h.life
  have hmap : List.replicate k (Entry.use ()) = (List.replicate k ()).map .use := by
    rw [List.map_replicate]
  have h1 := sound_uses hm.life fun (a : Unit) (_ : a ∈ List.replicate k ()) => hm.alive hreg
  have h2 := (status_uses w.life (List.replicate k ()) ()).trans (hm.alive hreg)
  rw [← hmap] at h1 h2
  constructor
  · rw [hk]; exact h1
  · intro _
    rw [hk]
    exact h2
  · intro hno
    exact absurd ((hr.trans hreg).symm.trans hno) (by decide)
  · rw [h.calls, hr]; exact hm.removes
  · rw [h.wires]; exact hm.conns
  · rw [h.lookups, Once, h.calls]; exact hm.dns
  · intro hno
    exact absurd ((hr.trans hreg).symm.trans hno) (by decide)
  · intro _
    rw [h.worker]
    exact hm.worker hreg
  · rw [show w'.nextConn = w.nextConn from congrArg Wires.next h.wires]
    exact hm.begun
  · rw [h.calls, show w'.nextReference = w.nextReference from
      congrArg Lookups.nextReference h.lookups]
    exact hm.blocks

theorem plan_kept (hp : Plan lib busy w.http w.bev (rest w))
    (hq : (w.http 0).state = .messageComplete) (h : Kept w w') :
    Plan lib busy w'.http w'.bev (rest w') := by
  have h1 : w'.http = w.http := congrArg Wires.http h.wires
  have h2 : w'.bev = w.bev := congrArg Wires.bev h.wires
  rw [h1, h2]
  refine plan_session hp hq (congrArg Wires.slots h.wires) (congrArg Lookups.resolving h.lookups)
    (congrArg Lookups.request h.lookups) ?_
  show w.calls ⊆ w'.calls
  rw [h.calls]
  exact List.Subset.refl _

/-- What `joke_create` makes when its allocation succeeds. -/
def jokeText (joke token new : Bytes) : Bytes :=
  match jokeCreate (fun _ => true) joke (int32 joke.length) token token.length new
      (int32 new.length) with
  | .created _ stored => stored
  | _ => []

/-- The size `joke_create` asks of `malloc`. -/
def askedSize (joke token new : Bytes) : ℕ :=
  match countPass token token.length (int32 new.length) (joke.length + 1) joke
      (int32 joke.length) with
  | some len => sizeT (int32 (len + 1))
  | none => 0

theorem jokeString_cases (malloc : ℕ → Bool) (joke token new : Bytes) (ht : 0 < token.length)
    (w : World P) :
    (jokeString malloc joke token new w = (none, w) ∧
        malloc (askedSize joke token new) = false) ∨
      jokeString malloc joke token new w = strdup true (jokeText joke token new) w := by
  have hpos : (0 : ℤ) < token.length := by omega
  obtain ⟨len, hlen⟩ := countPass_ends token token.length (int32 new.length) hpos
    (joke.length + 1) joke (int32 joke.length) (by omega)
  obtain ⟨stored, hstored⟩ := copyPass_ends token token.length new (int32 new.length) hpos
    (joke.length + 1) joke [] (by omega)
  by_cases hm : malloc (sizeT (int32 (len + 1))) = true
  · right
    simp only [jokeString, jokeText, jokeCreate, hlen, hstored, hm, if_true]
  · left
    constructor
    · simp only [jokeString, jokeCreate, hlen, hm, if_false, Bool.false_eq_true]
    · simpa only [askedSize, hlen, Bool.not_eq_true] using hm

def cString (b : Bytes) : Bytes := b.takeWhile (· ≠ 0)

def responseText (name surname joke : Bytes) : Bytes :=
  cString (jokeText (cString (jokeText joke (literal "Eduardo") name)) (literal "Panisset") surname)

def withoutStrings (s : Session) : Session := { s with name := none, surname := none, joke := none }

/-- The world in which `client_response_create` starts. -/
def responding (ready : Bool) (w : World P) : World P :=
  call (.clientResponseCreate ready) (onSession id w)

/-- With the three strings there it uses them up and returns the response, or
it runs out of memory. -/
theorem clientResponseCreate_ready (c : Choices) {name surname joke : CStr}
    (hn : w.session.name = some name) (hs : w.session.surname = some surname)
    (hj : w.session.joke = some joke) :
    Kept (responding true w) (clientResponseCreate c w).2 ∧
      ((clientResponseCreate c w).1 = none ∧
          (c.mallocFirst (askedSize joke.bytes (literal "Eduardo") name.bytes) = false ∨
            c.mallocSecond (askedSize
              (cString (jokeText joke.bytes (literal "Eduardo") name.bytes))
              (literal "Panisset") surname.bytes) = false) ∨
        (∃ addr, (clientResponseCreate c w).1 =
          some ⟨addr, responseText name.bytes surname.bytes joke.bytes⟩) ∧
        (clientResponseCreate c w).2.session = withoutStrings w.session) := by
  have hn' : (onSession id w).session.name = some name := hn
  have hs' : (onSession id w).session.surname = some surname := hs
  have hj' : (onSession id w).session.joke = some joke := hj
  have hready : call (.clientResponseCreate
      ((some name).isSome && (some surname).isSome && (some joke).isSome)) (onSession id w) =
      responding true w := rfl
  simp only [clientResponseCreate, hn', hs', hj', hready]
  rcases jokeString_cases c.mallocFirst joke.bytes (literal "Eduardo") name.bytes (by decide)
      (responding true w) with ⟨h1, hk⟩ | h1
  · simp only [h1]
    exact ⟨kept_drop (some name) (fun s => { s with name := none }) (fun _ => rfl) (fun _ => rfl) _,
      .inl ⟨trivial, .inl hk⟩⟩
  · have k1 := kept_strdup true (jokeText joke.bytes (literal "Eduardo") name.bytes)
      (responding true w)
    have s1 : (strdup true (jokeText joke.bytes (literal "Eduardo") name.bytes)
        (responding true w)).2.session = w.session := rfl
    simp only [h1]
    rw [show (strdup true (jokeText joke.bytes (literal "Eduardo") name.bytes)
        (responding true w)).1 = some ⟨w.nextStr,
          cString (jokeText joke.bytes (literal "Eduardo") name.bytes)⟩ from rfl]
    generalize (strdup true (jokeText joke.bytes (literal "Eduardo") name.bytes)
        (responding true w)).2 = u1 at k1 s1 ⊢
    have k2 := kept_drop (some name) (fun s => { s with name := none }) (fun _ => rfl)
      (fun _ => rfl) u1
    have s2 := session_drop (some name) (fun s => { s with name := none }) u1
    generalize onSession (fun s => { s with name := none }) (freeStr (some name) u1) = u2
      at k2 s2 ⊢
    have k3 := kept_drop (some joke) (fun s => { s with joke := none }) (fun _ => rfl)
      (fun _ => rfl) u2
    have s3 := session_drop (some joke) (fun s => { s with joke := none }) u2
    simp only
    generalize onSession (fun s => { s with joke := none }) (freeStr (some joke) u2) = u3
      at k3 s3 ⊢
    have k123 := kept_trans k1 (kept_trans k2 k3)
    rcases jokeString_cases c.mallocSecond
        (cString (jokeText joke.bytes (literal "Eduardo") name.bytes)) (literal "Panisset")
        surname.bytes (by decide) u3 with ⟨h4, hk⟩ | h4
    · have k5 := kept_drop (some surname) (fun s => { s with surname := none }) (fun _ => rfl)
        (fun _ => rfl) u3
      simp only [h4]
      exact ⟨kept_trans k123 (kept_trans k5 (kept_freeStr _ _)), .inl ⟨trivial, .inr hk⟩⟩
    · have k4 := kept_strdup true (jokeText (cString (jokeText joke.bytes (literal "Eduardo")
        name.bytes)) (literal "Panisset") surname.bytes) u3
      have k5 := kept_drop (some surname) (fun s => { s with surname := none }) (fun _ => rfl)
        (fun _ => rfl) (strdup true (jokeText (cString (jokeText joke.bytes (literal "Eduardo")
          name.bytes)) (literal "Panisset") surname.bytes) u3).2
      simp only [h4]
      refine ⟨kept_trans k123 (kept_trans k4 (kept_trans k5 (kept_freeStr _ _))),
        .inr ⟨⟨_, rfl⟩, ?_⟩⟩
      rw [session_freeStr, session_drop]
      show { u3.session with surname := none } = _
      rw [s3, s2, s1]
      rfl

theorem clientResponseCreate_unready (c : Choices)
    (h : (w.session.name.isSome && w.session.surname.isSome && w.session.joke.isSome) = false) :
    clientResponseCreate c w = (none, crash (responding false w)) := by
  simp only [clientResponseCreate, responding, onSession, id, h]
  cases hn : w.session.name with
  | none => rfl
  | some name =>
    cases hs : w.session.surname with
    | none => rfl
    | some surname =>
      cases hj : w.session.joke with
      | none => rfl
      | some joke =>
        rw [hn, hs, hj] at h
        cases h

theorem httpResponseWrite_spec (c : Choices) (body : CStr) {n : ℕ} {i : Slot}
    (h : Memory tidy w) (hi : w.session.httpSessions i = some n) :
    Memory tidy (httpResponseWrite c n body w).2 ∧
      rest (httpResponseWrite c n body w).2 =
        { rest w with calls := .httpResponseWrite :: w.calls } ∧
      (httpResponseWrite c n body w).2.http = w.http ∧
      ∀ m, ((httpResponseWrite c n body w).2.bev m).input = (w.bev m).input := by
  have h1 : Memory tidy (onHttp n id w) :=
    memory_of_rest h rfl (connsOk_onHttp h.conns hi id rfl rfl) h.begun
  have h2 : Memory tidy (call .httpResponseWrite (onHttp n id w)) :=
    memory_call h1 _ (by decide) (by decide)
  have hhttp : (onHttp n id w).http = w.http := by simp [onHttp]
  have hch : ((call .httpResponseWrite (onHttp n id w)).http n).channel = n :=
    (h2.conns.held i n hi).channel
  simp only [httpResponseWrite, hch]
  cases c.datetime with
  | none => exact ⟨h2, rfl, hhttp, fun _ => rfl⟩
  | some datetime =>
    have h3 := evbufferAddAll_spec c.outputAdd 0
      ((responseHead datetime body.bytes.length).map fun b => ⟨b, none⟩) h2 hi
    simp only
    generalize evbufferAddAll c.outputAdd n 0 _ _ = r at h3 ⊢
    obtain ⟨ok, u⟩ := r
    obtain ⟨hm, hr, hh, hin⟩ := h3
    cases ok with
    | false => exact ⟨hm, hr, hh.trans hhttp, hin⟩
    | true =>
      have hiu : u.session.httpSessions i = some n := by
        rw [show u.session = w.session from congrArg Rest.session hr]
        exact hi
      have h4 := evbufferAddAll_spec (fun _ => c.outputAdd 6) 0 [⟨body.bytes, some body⟩] hm hiu
      simp only [evbufferAddAll] at h4 ⊢
      generalize evbufferAdd (c.outputAdd 6) n _ u = q at h4 ⊢
      obtain ⟨ok, v⟩ := q
      cases ok with
      | false =>
        obtain ⟨hm', hr', hh', hin'⟩ := h4
        refine ⟨memory_of_rest hm' rfl hm'.conns hm'.begun, hr'.trans hr,
          hh'.trans (hh.trans hhttp), fun m => (hin' m).trans (hin m)⟩
      | true =>
        obtain ⟨hm', hr', hh', hin'⟩ := h4
        exact ⟨hm', hr'.trans hr, hh'.trans (hh.trans hhttp), fun m => (hin' m).trans (hin m)⟩

theorem memory_crash (h : Memory tidy w) (hreg : w.registered = true) : Memory tidy (crash w) where
  life := h.life
  alive := h.alive
  released := fun hno => absurd (hreg.symm.trans hno) (by decide)
  removes := h.removes
  conns := h.conns
  dns := h.dns
  gone := fun hno => absurd (hreg.symm.trans hno) (by decide)
  worker := h.worker
  begun := h.begun
  blocks := h.blocks

theorem tally_call {calls : List Call} (h : Tally calls) (c : Call)
    (hw : c ≠ .httpResponseWrite) (hr : c ≠ .clientResponseCreate false) : Tally (c :: calls) := by
  refine ⟨?_, ?_⟩
  · rw [List.count_cons_of_ne hw]
    exact h.1
  · rw [List.mem_cons, not_or]
    exact ⟨fun hc => hr hc.symm, h.2⟩

structure Awaiting (lib : Libs P) (tidy : Prop) (busy : Slot) (w : World P) : Prop where
  memory : Memory tidy w
  registered : w.registered = true
  running : w.crashed = false
  plan : Plan lib busy w.http w.bev (rest w)
  complete : (w.http 0).state = .messageComplete
  tally : Once w → Tally w.calls
  idle : Once w → ∀ idx, idx ≠ .client → hasReplied idx w.session = true →
    w.session.httpSessions idx = none ∧ ∀ l ∈ w.resolving, slotOf (rest w) l ≠ idx
  replies : Once w → ∀ idx, idx ≠ .client →
    (.reply idx ∈ w.calls ↔ hasReplied idx w.session = true)
  unanswered : Once w → Unanswered (rest w)

theorem once_cons {c : Call} (hc : c ≠ .clientMsgComplete) (hcalls : w'.calls = c :: w.calls) :
    Once w' ↔ Once w := by
  rw [Once, Once, hcalls, List.count_cons_of_ne hc]

theorem awaiting_inv (h : Awaiting lib tidy busy w)
    (hn : (w.session.nameReplied && w.session.jokeReplied) = false) :
    Inv lib tidy busy (onSession id w) where
  memory := memory_onSession h.memory h.registered id rfl rfl
  plan := fun _ _ => plan_congr h.plan rfl rfl rfl rfl
  progress := fun _ ho => ⟨h.idle ho, h.replies ho, .inr ⟨⟨(h.unanswered ho).state,
    (h.unanswered ho).name, (h.unanswered ho).surname, (h.unanswered ho).joke,
    (h.unanswered ho).written⟩, hn⟩⟩
  tally := h.tally
  steady := fun _ _ => h.running

/-- Without one of the strings the program stops; a session with one request
never comes here. -/
theorem unready_inv (h : Awaiting lib tidy busy w)
    (hboth : (w.session.nameReplied && w.session.jokeReplied) = true)
    (hr : (w.session.name.isSome && w.session.surname.isSome && w.session.joke.isSome) = false) :
    Inv lib tidy busy (crash (responding false w)) := by
  have hs := memory_onSession h.memory h.registered id rfl rfl
  have hc := memory_call hs (.clientResponseCreate false) (by decide) (by decide)
  have hno : ¬ Once (crash (responding false w)) := by
    intro ho
    have ho : Once w := (once_cons (c := .clientResponseCreate false) (by decide) rfl).mp ho
    have hu := h.unanswered ho
    simp only [rest] at hu
    rw [Bool.and_eq_true] at hboth
    rw [hu.name, hu.surname, hu.joke, hboth.1, hboth.2] at hr
    cases hr
  constructor
  · exact memory_crash hc h.registered
  · intro _ hcr
    cases hcr
  · exact fun _ ho => absurd ho hno
  · exact fun ho => absurd ho hno
  · exact fun _ ho => absurd ho hno

theorem respond_inv (c : Choices) (response : CStr) {u : World P}
    (h : Awaiting lib tidy busy w)
    (hboth : (w.session.nameReplied && w.session.jokeReplied) = true)
    (hk : Kept (responding true w) u) (hsu : u.session = withoutStrings w.session) :
    Inv lib tidy busy (match httpResponseWrite c 0 response u with
      | (false, u) => httpServiceSessionRemove (sessionStateSet .errorClientResponse u)
      | (true, u) => sessionStateSet .clientResponse u) := by
  have hm0 := memory_call (memory_onSession h.memory h.registered id rfl rfl)
    (.clientResponseCreate true) (by decide) (by decide)
  have hmu : Memory tidy u := memory_kept hm0 h.registered hk
  have hregu : u.registered = true := (kept_registered hk).trans h.registered
  have hpu : Plan lib busy u.http u.bev (rest u) :=
    plan_kept (w := responding true w) (plan_session h.plan h.complete rfl rfl rfl
      (List.subset_cons_self _ _)) h.complete hk
  have hcu : u.calls = .clientResponseCreate true :: w.calls := hk.calls
  have hhu : u.http = w.http := congrArg Wires.http hk.wires
  have hres : u.resolving = w.resolving := congrArg Lookups.resolving hk.lookups
  have hreq : u.request = w.request := congrArg Lookups.request hk.lookups
  have honce : Once u ↔ Once w := once_cons (by decide) hcu
  obtain ⟨hmv, hrv, hhv, hin⟩ := httpResponseWrite_spec c response hmu hpu.client
  generalize httpResponseWrite c 0 response u = r at hmv hrv hhv hin ⊢
  obtain ⟨ok, v⟩ := r
  simp only at hmv hrv hhv hin ⊢
  have hregv : v.registered = true := (congrArg Rest.registered hrv).trans hregu
  have hcv : v.calls = .httpResponseWrite :: u.calls := congrArg Rest.calls hrv
  have hsv : v.session = withoutStrings w.session := (congrArg Rest.session hrv).trans hsu
  have hresv : v.resolving = w.resolving := (congrArg Rest.resolving hrv).trans hres
  have hreqv : v.request = w.request := (congrArg Rest.request hrv).trans hreq
  have honcev : Once v ↔ Once w := (once_cons (by decide) hcv).trans honce
  have hcount : Once w → v.calls.count .httpResponseWrite = 1 := by
    intro ho
    rw [hcv, hcu, List.count_cons_self, List.count_cons_of_ne (by decide)]
    have hw : w.calls.count .httpResponseWrite = 0 := (h.unanswered ho).written
    omega
  have htally : Once v → Tally v.calls := by
    intro ho
    refine ⟨Nat.le_of_eq (hcount (honcev.mp ho)), ?_⟩
    rw [hcv, hcu]
    simpa using (h.tally (honcev.mp ho)).2
  cases ok with
  | false =>
    have hrunning : v.crashed = false :=
      (congrArg Rest.crashed hrv).trans (hk.crashed.trans h.running)
    exact (inv_stateSet_remove hmv hregv htally (fun _ => hrunning) .errorClientResponse).1
  | true =>
    rw [Bool.and_eq_true] at hboth
    constructor
    · exact memory_onSession hmv hregv _ rfl rfl
    · intro _ _
      show Plan lib busy v.http v.bev (rest (sessionStateSet .clientResponse v))
      have hqu : (u.http 0).state = .messageComplete := by
        rw [hhu]
        exact h.complete
      rw [hhv]
      refine plan_input (plan_session hpu hqu ?_ ?_ ?_ ?_) hin
      · exact congrArg (fun r => r.session.httpSessions) hrv
      · show v.resolving = u.resolving
        exact congrArg Rest.resolving hrv
      · show v.request = u.request
        exact congrArg Rest.request hrv
      · show u.calls ⊆ v.calls
        rw [hcv]
        exact List.subset_cons_self _ _
    · intro _ ho
      have ho := honcev.mp ho
      have hflag : ∀ idx, hasReplied idx (sessionStateSet .clientResponse v).session =
          hasReplied idx w.session := by
        intro idx
        show hasReplied idx { v.session with state := .clientResponse } = _
        rw [hsv]
        rfl
      constructor
      · intro idx hidx hr
        rw [show (rest (sessionStateSet .clientResponse v)).session =
          (sessionStateSet .clientResponse v).session from rfl, hflag] at hr
        obtain ⟨h1, h2⟩ := h.idle ho idx hidx hr
        refine ⟨?_, ?_⟩
        · show v.session.httpSessions idx = none
          rw [hsv]
          exact h1
        · show ∀ l ∈ v.resolving, (v.request l.request).idx ≠ idx
          rw [hresv, hreqv]
          exact h2
      · intro idx hidx
        rw [show (rest (sessionStateSet .clientResponse v)).session =
          (sessionStateSet .clientResponse v).session from rfl, hflag]
        show Call.reply idx ∈ v.calls ↔ _
        rw [hcv, hcu]
        simpa using h.replies ho idx hidx
      · left
        constructor
        · rfl
        · show v.session.nameReplied = true
          rw [hsv]
          exact hboth.1
        · show v.session.jokeReplied = true
          rw [hsv]
          exact hboth.2
        · exact hcount ho
    · exact htally
    · intro _ _
      show v.crashed = false
      rw [show v.crashed = u.crashed from congrArg Rest.crashed hrv, hk.crashed]
      exact h.running

theorem awaiting_onSession_id (h : Awaiting lib tidy busy w) :
    Awaiting lib tidy busy (onSession id w) where
  memory := memory_onSession h.memory h.registered id rfl rfl
  registered := h.registered
  running := h.running
  plan := plan_congr h.plan rfl rfl rfl rfl
  complete := h.complete
  tally := h.tally
  idle := h.idle
  replies := h.replies
  unanswered := fun ho => ⟨(h.unanswered ho).state, (h.unanswered ho).name,
    (h.unanswered ho).surname, (h.unanswered ho).joke, (h.unanswered ho).written⟩

def respond (c : Choices) (client : Option ℕ) : Option CStr × World P → World P
  | (response, w) =>
    if w.crashed then w
    else match response, client with
      | none, _ => httpServiceSessionRemove (sessionStateSet .errorClientResponse w)
      | some _, none => crash w
      | some response, some h =>
        match httpResponseWrite c h response w with
        | (false, w) => httpServiceSessionRemove (sessionStateSet .errorClientResponse w)
        | (true, w) => sessionStateSet .clientResponse w

theorem httpClientResponse_both (c : Choices)
    (hboth : (w.session.nameReplied && w.session.jokeReplied) = true) :
    httpClientResponse c w =
      respond c (w.session.httpSessions .client) (clientResponseCreate c (onSession id w)) := by
  rw [httpClientResponse]
  exact if_pos hboth

theorem httpClientResponse_inv (c : Choices) (h : Awaiting lib tidy busy w) :
    Inv lib tidy busy (httpClientResponse c w) := by
  have hclient : w.session.httpSessions .client = some 0 := h.plan.client
  cases hboth : w.session.nameReplied && w.session.jokeReplied with
  | false =>
    have he : httpClientResponse c w = onSession id w := by
      simp only [httpClientResponse, onSession, id, hboth, Bool.false_eq_true, if_false]
    rw [he]
    exact awaiting_inv h hboth
  | true =>
    have h1 := awaiting_onSession_id h
    rw [httpClientResponse_both c hboth, hclient]
    cases hr : w.session.name.isSome && w.session.surname.isSome && w.session.joke.isSome with
    | false =>
      rw [clientResponseCreate_unready (w := onSession id w) c hr]
      exact unready_inv h1 hboth hr
    | true =>
      simp only [Bool.and_eq_true, Option.isSome_iff_exists] at hr
      obtain ⟨⟨⟨name, hn⟩, surname, hs⟩, joke, hj⟩ := hr
      obtain ⟨hk, hout⟩ := clientResponseCreate_ready (w := onSession id w) c hn hs hj
      generalize clientResponseCreate c (onSession id w) = r at hk hout ⊢
      obtain ⟨response, u⟩ := r
      simp only at hk hout
      have hcu : u.crashed = false := hk.crashed.trans h.running
      rcases hout with ⟨rfl, -⟩ | ⟨⟨addr, rfl⟩, hsu⟩
      · have hm0 := memory_call (memory_onSession h1.memory h.registered id rfl rfl)
          (.clientResponseCreate true) (by decide) (by decide)
        simp only [respond, hcu, Bool.false_eq_true, if_false]
        refine (inv_stateSet_remove (memory_kept hm0 h.registered hk)
          ((kept_registered hk).trans h.registered) ?_ (fun _ => hcu) .errorClientResponse).1
        intro ho
        have hcalls : u.calls = .clientResponseCreate true :: w.calls := hk.calls
        rw [hcalls]
        exact tally_call (h.tally ((once_cons (by decide) hcalls).mp ho)) _ (by decide) (by decide)
      · simp only [respond, hcu, Bool.false_eq_true, if_false]
        exact respond_inv c _ h1 hboth hk hsu

end Tigera.ClientResponse
