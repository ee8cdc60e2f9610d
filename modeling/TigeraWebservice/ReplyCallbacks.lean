import TigeraWebservice.ClientResponse

/-!
# A complete reply

`http_response_name` and `http_response_joke`: the strings are taken from the
body, the upstream is let go and the response is written if it was the second.
-/

set_option autoImplicit false

namespace Tigera.ReplyCallbacks
open ResourceLedger Tigera.HttpReading Tigera.JokeCreate Tigera.SessionWorld Tigera.SocketChannel
open Tigera.SessionProgram Tigera.HeldConnections Tigera.HeldReferences Tigera.SessionMemory
open Tigera.SessionInvariant Tigera.UpstreamCallbacks Tigera.ClientResponse

variable {P : Type} {lib : Libs P} {tidy : Prop} {busy : Slot} {w : World P} {idx : Slot} {n : ℕ}

inductive Stored (lib : Libs P) (p : Bytes) (s : Session) : Slot → Session → Prop where
  | name {name surname : Bytes} (decoded : lib.jsonName p = some (name, surname)) (a b : ℕ) :
      Stored lib p s .name
        { s with name := some ⟨a, cString name⟩, surname := some ⟨b, cString surname⟩ }
  | joke {joke : Bytes} (decoded : lib.jsonJoke p = some joke) (a : ℕ) :
      Stored lib p s .joke { s with joke := some ⟨a, cString joke⟩ }

theorem unpack_name (c : Choices) (p : Bytes) (w : World P) :
    Kept w (unpack lib c .name p w).2 ∧
      ((unpack lib c .name p w).1 = true →
        Stored lib p w.session .name (unpack lib c .name p w).2.session) ∧
      ((unpack lib c .name p w).1 = false →
        lib.jsonName p = none ∨ c.strdupFirst = false ∨ c.strdupSecond = false) := by
  rw [unpack, if_pos rfl, unpackName]
  cases hd : lib.jsonName p with
  | none =>
    refine ⟨kept_refl w, ?_, fun _ => .inl rfl⟩
    intro hf
    cases hf
  | some pair =>
    obtain ⟨name, surname⟩ := pair
    cases h1 : c.strdupFirst with
    | false =>
      refine ⟨kept_trans (kept_strdup false name w)
        (kept_onSession (fun s => { s with name := none }) rfl rfl), ?_, ?_⟩
      · intro hf
        cases hf
      · exact fun _ => .inr (.inl rfl)
    | true =>
      have k1 := kept_trans (kept_strdup true name w)
        (kept_onSession (fun s => { s with name := (strdup true name w).1 }) rfl rfl)
      cases h2 : c.strdupSecond with
      | false =>
        refine ⟨kept_trans k1 (kept_trans (kept_strdup false surname _)
          (kept_onSession (fun s => { s with surname := none }) rfl rfl)), ?_, ?_⟩
        · intro hf
          cases hf
        · exact fun _ => .inr (.inr rfl)
      | true =>
        refine ⟨kept_trans k1 (kept_trans (kept_strdup true surname _)
          (kept_onSession (fun s => { s with surname := some _ }) rfl rfl)), ?_, ?_⟩
        · exact fun _ => .name hd w.nextStr (w.nextStr + 1)
        · intro hf
          cases hf

theorem unpack_joke (c : Choices) (p : Bytes) (w : World P) :
    Kept w (unpack lib c .joke p w).2 ∧
      ((unpack lib c .joke p w).1 = true →
        Stored lib p w.session .joke (unpack lib c .joke p w).2.session) ∧
      ((unpack lib c .joke p w).1 = false → lib.jsonJoke p = none ∨ c.strdupFirst = false) := by
  rw [unpack, if_neg (by decide), unpackJoke]
  cases hd : lib.jsonJoke p with
  | none =>
    refine ⟨kept_refl w, ?_, fun _ => .inl rfl⟩
    intro hf
    cases hf
  | some joke =>
    cases h1 : c.strdupFirst with
    | false =>
      refine ⟨kept_trans (kept_strdup false joke w)
        (kept_onSession (fun s => { s with joke := none }) rfl rfl), ?_, ?_⟩
      · intro hf
        cases hf
      · exact fun _ => .inr rfl
    | true =>
      refine ⟨kept_trans (kept_strdup true joke w)
        (kept_onSession (fun s => { s with joke := some _ }) rfl rfl), ?_, ?_⟩
      · exact fun _ => .joke hd w.nextStr
      · intro hf
        cases hf

theorem unpack_spec (lib : Libs P) (c : Choices) (p : Bytes) (w : World P) (hidx : idx ≠ .client) :
    Kept w (unpack lib c idx p w).2 ∧
      ((unpack lib c idx p w).1 = true →
        Stored lib p w.session idx (unpack lib c idx p w).2.session) := by
  cases idx with
  | client => exact absurd rfl hidx
  | name => exact ⟨(unpack_name c p w).1, (unpack_name c p w).2.1⟩
  | joke => exact ⟨(unpack_joke c p w).1, (unpack_joke c p w).2.1⟩

theorem memory_freeSlot (h : Memory tidy w) (hreg : w.registered = true) (i : Slot) :
    Memory tidy (freeSlot i w) := by
  have hr := rest_freeSlot i w
  have hl := lookups_freeSlot i w
  have h1 : (freeSlot i w).life = .use () :: w.life := congrArg Rest.life hr
  have h2 : (freeSlot i w).registered = w.registered := congrArg Rest.registered hr
  have h4 : (freeSlot i w).calls = w.calls := congrArg Rest.calls hr
  have h6 : (freeSlot i w).worker = w.worker := congrArg Rest.worker hr
  constructor
  · rw [h1]
    exact ⟨h.alive hreg, h.life⟩
  · rw [h1, h2]
    exact h.alive
  · intro hno
    exact absurd ((h2.trans hreg).symm.trans hno) (by decide)
  · rw [h2, h4]
    exact h.removes
  · exact connsOk_freeSlot h.conns i
  · rw [hl, Once, h4]
    exact h.dns
  · intro hno
    exact absurd ((h2.trans hreg).symm.trans hno) (by decide)
  · rw [h2, h6]
    exact h.worker
  · rw [nextConn_freeSlot]
    exact h.begun
  · rw [h4, show (freeSlot i w).nextReference = w.nextReference from congrArg Rest.nextReference hr]
    exact h.blocks

theorem freeSlot_some (hi : w.session.httpSessions idx = some n) :
    freeSlot idx w = onSession (setSlot idx none) (httpSessionFree n w) := by
  simp only [freeSlot, hi]

theorem freeSlot_elsewhere (h : ConnsOk tidy (wires w)) (hi : w.session.httpSessions idx = some n)
    {m : ℕ} (hm : m ≠ n) :
    (freeSlot idx w).http m = w.http m ∧ (freeSlot idx w).bev m = w.bev m := by
  have hh := h.held idx n hi
  rw [freeSlot_some hi, httpSessionFree_eq (w := w) hh.channel hh.bev hh.listen]
  simp [onSession, hm]

theorem plan_freeSlot (h : ConnsOk tidy (wires w)) (hp : Plan lib idx w.http w.bev (rest w))
    (hq : (w.http 0).state = .messageComplete) (hi : w.session.httpSessions idx = some n)
    (hidx : idx ≠ .client) :
    Plan lib .client (freeSlot idx w).http (freeSlot idx w).bev (rest (freeSlot idx w)) ∧
      ((freeSlot idx w).http 0).state = .messageComplete := by
  have hclient : Slot.client ≠ idx := fun he => hidx he.symm
  have h0 : (0 : ℕ) ≠ n := by
    rintro rfl
    exact hclient (h.distinct .client idx 0 hp.client hi)
  have hq' : ((freeSlot idx w).http 0).state = .messageComplete := by
    rw [(freeSlot_elsewhere h hi h0).1]
    exact hq
  have hslot : ∀ j m, (rest (freeSlot idx w)).session.httpSessions j = some m →
      j ≠ idx ∧ w.session.httpSessions j = some m ∧ m ≠ n := by
    intro j m hj
    rw [rest_freeSlot] at hj
    by_cases hji : j = idx
    · subst hji
      simp [setSlot] at hj
    · simp only [setSlot, Function.update_of_ne hji] at hj
      refine ⟨hji, hj, ?_⟩
      rintro rfl
      exact hji (h.distinct j idx m hj hi)
  refine ⟨⟨?_, ?_, ?_, ?_, ?_, ?_, ?_⟩, hq'⟩
  · have h0 : w.session.httpSessions .client = some 0 := hp.client
    rw [rest_freeSlot]
    simp [setSlot, hclient, h0]
  · intro j m hj
    obtain ⟨-, hjm, hne⟩ := hslot j m hj
    rw [(freeSlot_elsewhere h hi hne).1, (freeSlot_elsewhere h hi hne).2]
    exact hp.readable j m hjm
  · intro j m hjc _ hj
    obtain ⟨hji, hjm, hne⟩ := hslot j m hj
    rw [(freeSlot_elsewhere h hi hne).1]
    exact hp.reading j m hjc hji hjm
  · intro hno
    exact absurd hq' hno
  · rw [rest_freeSlot]
    intro _
    exact hp.served hq
  · rw [rest_freeSlot]
    intro l hl
    obtain ⟨h1, h2⟩ := hp.lookup l hl
    refine ⟨h1, ?_⟩
    have h2 : w.session.httpSessions (w.request l.request).idx = none := h2
    by_cases he : (w.request l.request).idx = idx
    · rw [he, hi] at h2
      cases h2
    · show Function.update w.session.httpSessions idx none (w.request l.request).idx = none
      rw [Function.update_of_ne he]
      exact h2
  · rw [rest_freeSlot]
    exact hp.distinct

theorem not_replied {r : Rest} (h : Progress r) (hidx : idx ≠ .client)
    (hi : r.session.httpSessions idx = some n) : hasReplied idx r.session = false := by
  by_contra hno
  have hyes : hasReplied idx r.session = true := Bool.not_eq_false _ ▸ hno
  have hidle := (h.idle idx hidx hyes).1
  rw [hidle] at hi
  cases hi

theorem response_unanswered {r : Rest} (h : Response r)
    (hno : hasReplied idx r.session = false) (hidx : idx ≠ .client) : Unanswered r := by
  rcases h with ha | ⟨hu, -⟩
  · cases idx with
    | client => exact absurd rfl hidx
    | name => exact absurd (hno.symm.trans ha.name) (by decide)
    | joke => exact absurd (hno.symm.trans ha.joke) (by decide)
  · exact hu

theorem hasReplied_markReplied (j : Slot) (hj : j ≠ .client) (hidx : idx ≠ .client)
    (s : Session) :
    hasReplied j (markReplied idx s) = if j = idx then true else hasReplied j s := by
  cases idx <;> cases j <;> simp_all [hasReplied, markReplied]

theorem stored_flags {p : Bytes} {s t : Session} (h : Stored lib p s idx t) :
    t.nameReplied = s.nameReplied ∧ t.jokeReplied = s.jokeReplied ∧ t.state = s.state := by
  cases h with
  | name decoded a b => exact ⟨rfl, rfl, rfl⟩
  | joke decoded a => exact ⟨rfl, rfl, rfl⟩

/-- With the strings of the reply stored and its flag set, strings and flags
agree again. -/
theorem unanswered_stored {r r' : Rest} {p : Bytes} {s t : Session} (h : Unanswered r)
    (hs : SameReplies r.session s) (hst : Stored lib p s idx t)
    (hr : SameReplies (markReplied idx t) r'.session)
    (hc : r'.calls.count .httpResponseWrite = r.calls.count .httpResponseWrite) :
    Unanswered r' := by
  obtain ⟨h1, h2, h3, h4, h5, h6⟩ := hs
  obtain ⟨g1, g2, g3, g4, g5, g6⟩ := hr
  have hstate := h.state
  have hname := h.name
  have hsurname := h.surname
  have hjoke := h.joke
  have hw := h.written
  cases hst with
  | name decoded a b =>
    simp only [markReplied, if_true] at g1 g2 g3 g4 g5 g6
    constructor
    · rw [g1, h1]; exact hstate
    · rw [g4, g2]; rfl
    · rw [g5, g2]; rfl
    · rw [g6, g3, h6, h3]; exact hjoke
    · rw [hc]; exact hw
  | joke decoded a =>
    simp only [markReplied, reduceCtorEq, if_false] at g1 g2 g3 g4 g5 g6
    constructor
    · rw [g1, h1]; exact hstate
    · rw [g4, g2, h4, h2]; exact hname
    · rw [g5, g2, h5, h2]; exact hsurname
    · rw [g6, g3]; rfl
    · rw [hc]; exact hw

/-- A reply that could be stored: its upstream is let go and the session waits
for the other reply or is due to respond. -/
theorem awaiting_reply {u : World P} {p : Bytes} (h : Inv lib tidy idx w)
    (hreg : w.registered = true) (hcr : w.crashed = false)
    (hi : w.session.httpSessions idx = some n) (hidx : idx ≠ .client)
    (hmu : Memory tidy u) (hslots : u.session.httpSessions = w.session.httpSessions)
    (hhttp : u.http = w.http) (hbev : u.bev = w.bev) (hlook : lookups u = lookups w)
    (hrun : u.crashed = false) (hcalls : u.calls = .reply idx :: w.calls) {s : Session}
    (hs : SameReplies w.session s) (hst : Stored lib p s idx u.session) :
    Awaiting lib tidy .client (freeSlot idx (onSession (markReplied idx) u)) := by
  have hregu : u.registered = true := (congrArg Lookups.registered hlook).trans hreg
  have hres : u.resolving = w.resolving := congrArg Lookups.resolving hlook
  have hreq : u.request = w.request := congrArg Lookups.request hlook
  obtain ⟨hms, hmm⟩ : (markReplied idx u.session).httpSessions = u.session.httpSessions ∧
      (markReplied idx u.session).me = u.session.me := markReplied_fields u.session
  have hp := h.plan hreg hcr
  have hq : (w.http 0).state = .messageComplete := complete_of_upstream hp hidx hi
  have hm := memory_onSession hmu hregu (markReplied idx) hms hmm
  have hiu : (onSession (markReplied idx) u).session.httpSessions idx = some n := by
    show (markReplied idx u.session).httpSessions idx = some n
    rw [hms, hslots, hi]
  have hpu : Plan lib idx (onSession (markReplied idx) u).http (onSession (markReplied idx) u).bev
      (rest (onSession (markReplied idx) u)) := by
    show Plan lib idx u.http u.bev _
    rw [hhttp, hbev]
    refine plan_session hp hq (hms.trans hslots) hres hreq ?_
    show w.calls ⊆ u.calls
    rw [hcalls]
    exact List.subset_cons_self _ _
  obtain ⟨hpv, hqv⟩ := plan_freeSlot hm.conns hpu (by
    show (u.http 0).state = .messageComplete
    rw [hhttp, hq]) hiu hidx
  have hrest := rest_freeSlot idx (onSession (markReplied idx) u)
  have hcv : (freeSlot idx (onSession (markReplied idx) u)).calls = .reply idx :: w.calls :=
    (congrArg Rest.calls hrest).trans hcalls
  have hsv : (freeSlot idx (onSession (markReplied idx) u)).session =
      setSlot idx none (markReplied idx u.session) := congrArg Rest.session hrest
  have hresv : (freeSlot idx (onSession (markReplied idx) u)).resolving = w.resolving :=
    (congrArg Rest.resolving hrest).trans hres
  have hreqv : (freeSlot idx (onSession (markReplied idx) u)).request = w.request :=
    (congrArg Rest.request hrest).trans hreq
  have honce : Once (freeSlot idx (onSession (markReplied idx) u)) ↔ Once w :=
    once_cons (by simp) hcv
  have hcount : (freeSlot idx (onSession (markReplied idx) u)).calls.count .httpResponseWrite =
      w.calls.count .httpResponseWrite := by
    rw [hcv, List.count_cons_of_ne (by simp)]
  obtain ⟨hf1, hf2, -⟩ := stored_flags hst
  have hflag : ∀ j, j ≠ .client →
      hasReplied j (freeSlot idx (onSession (markReplied idx) u)).session =
        if j = idx then true else hasReplied j w.session := by
    intro j hj
    have hsame : hasReplied j u.session = hasReplied j w.session := by
      simp only [hasReplied, hf1, hf2, hs.2.1, hs.2.2.1]
    rw [hsv, ← hsame, ← hasReplied_markReplied j hj hidx]
    rfl
  have hnot : Once w → hasReplied idx w.session = false := fun ho =>
    not_replied (h.progress hreg ho) hidx hi
  constructor
  · exact memory_freeSlot hm hregu idx
  · exact (congrArg Rest.registered hrest).trans hregu
  · exact (congrArg Rest.crashed hrest).trans hrun
  · exact hpv
  · exact hqv
  · intro ho
    rw [hcv]
    exact tally_call (h.tally (honce.mp ho)) _ (by simp) (by simp)
  · intro ho j hj hr
    rw [hflag j hj] at hr
    rw [hsv, hresv]
    by_cases hji : j = idx
    · subst hji
      refine ⟨by simp [setSlot], ?_⟩
      intro l hl he
      have hnone : w.session.httpSessions (slotOf (rest w) l) = none := (hp.lookup l hl).2
      have he : slotOf (rest w) l = j := by
        rw [← he]
        simp only [slotOf, rest, hreqv]
      rw [he, hi] at hnone
      cases hnone
    · rw [if_neg hji] at hr
      obtain ⟨h1, h2⟩ := (h.progress hreg (honce.mp ho)).idle j hj hr
      refine ⟨?_, ?_⟩
      · show Function.update (markReplied idx u.session).httpSessions idx none j = none
        rw [Function.update_of_ne hji, hms, hslots]
        exact h1
      · intro l hl
        have h2 := h2 l hl
        simp only [slotOf, rest, hreqv] at h2 ⊢
        exact h2
  · intro ho j hj
    rw [hflag j hj, hcv]
    by_cases hji : j = idx
    · simp [hji]
    · rw [if_neg hji, List.mem_cons]
      have hne : Call.reply j ≠ Call.reply idx := by simp [hji]
      rw [or_iff_right hne]
      exact (h.progress hreg (honce.mp ho)).replies j hj
  · intro ho
    have ho := honce.mp ho
    refine unanswered_stored (response_unanswered (h.progress hreg ho).response (hnot ho) hidx)
      hs hst ?_ hcount
    rw [show (rest (freeSlot idx (onSession (markReplied idx) u))).session =
      (freeSlot idx (onSession (markReplied idx) u)).session from rfl, hsv]
    exact ⟨rfl, rfl, rfl, rfl, rfl, rfl⟩

def replying (idx : Slot) (n : ℕ) (w : World P) : World P :=
  onSession (fun s => { s with pendingReplies := s.pendingReplies - 1 })
    (call (.reply idx) (onHttp n id w))

theorem httpResponse_replying (c : Choices) {body : Bytes} (hbody : (w.http n).body = some body) :
    httpResponse lib idx c n w =
      if body.isEmpty || !c.pullup then
        httpServiceSessionRemove (sessionStateSet .errorClientResponse (replying idx n w))
      else match unpack lib c idx body (replying idx n w) with
        | (false, u) => httpServiceSessionRemove (sessionStateSet .errorClientResponse u)
        | (true, u) => httpClientResponse c (onSession (setSlot idx none)
            (httpSessionFree n (onSession (markReplied idx) u))) := by
  have hb : ((replying idx n w).http n).body = some body := by
    simpa [replying, onSession, call, onHttp] using hbody
  rw [replying] at hb
  simp only [httpResponse, hb]
  rfl

theorem memory_replying (h : Memory tidy w) (hreg : w.registered = true)
    (hi : w.session.httpSessions idx = some n) : Memory tidy (replying idx n w) := by
  have h1 : Memory tidy (onHttp n id w) :=
    memory_of_rest h rfl (connsOk_onHttp h.conns hi id rfl rfl) h.begun
  have h2 : Memory tidy (call (.reply idx) (onHttp n id w)) :=
    memory_call h1 _ (by simp) (by simp)
  exact memory_onSession h2 hreg _ rfl rfl

theorem httpResponse_inv (c : Choices) (h : Inv lib tidy idx w) (hreg : w.registered = true)
    (hcr : w.crashed = false) (hi : w.session.httpSessions idx = some n) (hidx : idx ≠ .client)
    {body : Bytes} (hbody : (w.http n).body = some body) :
    Inv lib tidy .client (httpResponse lib idx c n w) := by
  have hm := memory_replying h.memory hreg hi
  have htally : ∀ u : World P, u.calls = .reply idx :: w.calls → Once u → Tally u.calls := by
    intro u hu ho
    rw [hu]
    exact tally_call (h.tally ((once_cons (by simp) hu).mp ho)) _ (by simp) (by simp)
  rw [httpResponse_replying c hbody]
  split
  · exact (inv_stateSet_remove hm hreg (htally (replying idx n w) rfl) (fun _ => hcr)
      .errorClientResponse).1
  · obtain ⟨hk, hst⟩ := unpack_spec lib c body (replying idx n w) hidx
    generalize unpack lib c idx body (replying idx n w) = r at hk hst ⊢
    obtain ⟨ok, u⟩ := r
    simp only at hk hst
    have hmu := memory_kept hm hreg hk
    cases ok with
    | false =>
      exact (inv_stateSet_remove hmu ((kept_registered hk).trans hreg) (htally u hk.calls)
        (fun _ => hk.crashed.trans hcr) .errorClientResponse).1
    | true =>
      have hsu : u.session.httpSessions = w.session.httpSessions := congrArg Wires.slots hk.wires
      have hhttp : u.http = w.http := by
        rw [show u.http = (replying idx n w).http from congrArg Wires.http hk.wires]
        simp [replying, onSession, call, onHttp]
      have hiu : (onSession (markReplied idx) u).session.httpSessions idx = some n := by
        show (markReplied idx u.session).httpSessions idx = some n
        rw [(markReplied_fields u.session).1, hsu, hi]
      have ha := awaiting_reply h hreg hcr hi hidx hmu hsu hhttp (congrArg Wires.bev hk.wires)
        hk.lookups (hk.crashed.trans hcr) hk.calls (s := (replying idx n w).session)
        ⟨rfl, rfl, rfl, rfl, rfl, rfl⟩ (hst rfl)
      rw [freeSlot_some hiu] at ha
      exact httpClientResponse_inv c ha

end Tigera.ReplyCallbacks
