import TigeraWebservice.CompletedRequests
import TigeraWebservice.PlainMessages

/-!
# Address lists

A lookup that succeeds hands an address list to its callback, under the number
of its request. Nothing else acquires, reads or releases one, so whether every
list is released is decided at the answers themselves.
-/

set_option autoImplicit false

namespace Tigera.AddressLists
open ResourceLedger TransitionRuns Tigera.CountedReference Tigera.HttpReading
open Tigera.JokeCreate Tigera.SessionWorld Tigera.SocketChannel Tigera.SessionProgram
open Tigera.SessionSystem Tigera.HeldConnections Tigera.SessionMemory Tigera.SessionRuns
open Tigera.PlainMessages

variable {P : Type} {lib : Libs P} {u v w : World P}

structure Asks where
  addrs : List (Entry ℕ)
  resolving : List Lookup
  nextRequest : ℕ

def asks (w : World P) : Asks := ⟨w.addrs, w.resolving, w.nextRequest⟩

theorem asks_of_rest (h : rest v = rest w) : asks v = asks w := by
  have h1 : v.addrs = w.addrs := congrArg Rest.addrs h
  have h2 : v.resolving = w.resolving := congrArg Rest.resolving h
  have h3 : v.nextRequest = w.nextRequest := congrArg Rest.nextRequest h
  rw [asks, h1, h2, h3, asks]

section Frame

variable {a : Asks}

theorem asks_referenceDec (me : Option ℕ) (h : asks u = a) :
    asks (onReference referenceDec me u) = a := by
  cases me with
  | none => exact h
  | some k =>
    simp only [onReference, referenceDec]
    split
    · split <;> split <;> exact h
    · exact h

theorem asks_referenceWeakDec (me : Option ℕ) (h : asks u = a) :
    asks (onReference referenceWeakDec me u) = a := by
  cases me with
  | none => exact h
  | some k =>
    simp only [onReference, referenceWeakDec]
    split
    · split <;> exact h
    · exact h

theorem asks_referenceWeakInc (me : Option ℕ) (h : asks u = a) :
    asks (onReference referenceWeakInc me u) = a := by
  cases me <;> exact h

theorem asks_referenceGet (me : Option ℕ) (h : asks u = a) : asks (referenceGet me u).2 = a := by
  cases me <;> exact h

theorem asks_freeStr (s : Option CStr) (h : asks u = a) : asks (freeStr s u) = a := by
  cases s <;> exact h

theorem asks_strdup (ok : Bool) (s : Bytes) (h : asks u = a) : asks (strdup ok s u).2 = a := by
  cases ok <;> exact h

theorem asks_httpSessionFree (n : ℕ) (h : asks u = a) : asks (httpSessionFree n u) = a :=
  (asks_of_rest (rest_httpSessionFree n u)).trans h

theorem asks_channelFree (n : ℕ) (h : asks u = a) : asks (channelFree n u) = a :=
  (asks_of_rest (rest_channelFree n u)).trans h

theorem asks_buffereventSocketNew (ok : Bool) (n : ℕ) (h : asks u = a) :
    asks (buffereventSocketNew ok n u).2 = a := by
  cases ok <;> exact h

theorem asks_tcpSocketNew (ok : Bool) (n : ℕ) (h : asks u = a) :
    asks (tcpSocketNew ok n u).2 = a := by
  cases ok <;> exact h

theorem asks_tcpSocketConfig (ok : Bool) (n : ℕ) (h : asks u = a) :
    asks (tcpSocketConfig ok n u).2 = a := by
  rw [tcpSocketConfig]
  split
  · exact h
  · simp only
    split <;> exact h

theorem asks_tcpSocketConnectError (fd : Option ℕ) (n : ℕ) (h : asks u = a) :
    asks (tcpSocketConnectError fd n u).2 = a := by
  simp only [tcpSocketConnectError]
  cases fd <;> split <;> exact h

theorem asks_tcpSocketConnect (c : ConnectChoices) (n : ℕ) (ss : SockAddr) (h : asks u = a) :
    asks (tcpSocketConnect c n ss u).2 = a := by
  rw [tcpSocketConnect]
  simp only
  split
  · exact h
  · split
    · split
      · have h1 : asks (buffereventSocketNew c.buffereventSocketNew n
            { onChan n id u with socks := .alloc (.fd n) :: (onChan n id u).socks }).2 = a :=
          asks_buffereventSocketNew _ n h
        generalize buffereventSocketNew c.buffereventSocketNew n _ = r at h1 ⊢
        obtain ⟨b, x⟩ := r
        cases b with
        | none => exact asks_tcpSocketConnectError _ n h1
        | some b =>
          have h2 : asks (tcpSocketConfig c.buffereventEnable n
              (onChan n (fun s => { s with bev := some b }) x)).2 = a :=
            asks_tcpSocketConfig _ n h1
          simp only
          generalize tcpSocketConfig c.buffereventEnable n _ = r at h2 ⊢
          obtain ⟨ok, y⟩ := r
          cases ok with
          | false => exact asks_tcpSocketConnectError _ n h2
          | true =>
            simp only
            split
            · exact h2
            · exact asks_tcpSocketConnectError _ n h2
      · exact asks_tcpSocketConnectError _ n h
    · exact asks_tcpSocketConnectError _ n h

theorem asks_onChannelBev (n : ℕ) (f : Bufferevent → Bufferevent) (h : asks u = a) :
    asks (onChannelBev n f u) = a := by
  rw [onChannelBev]
  split <;> exact h

theorem asks_evbufferAdd (ok : Bool) (n : ℕ) (c : Chunk) (h : asks u = a) :
    asks (evbufferAdd ok n c u).2 = a := by
  cases ok with
  | false => exact h
  | true => exact asks_onChannelBev n _ h

theorem asks_evbufferAddAll (ok : ℕ → Bool) (n k : ℕ) (cs : List Chunk) (h : asks u = a) :
    asks (evbufferAddAll ok n k cs u).2 = a := by
  induction cs generalizing k u with
  | nil => exact h
  | cons c cs ih =>
    have hc := asks_evbufferAdd (ok k) n c h
    rw [evbufferAddAll]
    generalize evbufferAdd (ok k) n c u = r at hc ⊢
    obtain ⟨done, x⟩ := r
    cases done with
    | false => exact hc
    | true => exact ih (k + 1) hc

theorem asks_sessionFree (h : asks u = a) : asks (sessionFree u) = a := by
  have h1 : asks (freeSlots u) = a := by
    have hr := rest_freeSlots u
    have ha : (freeSlots u).addrs = u.addrs := congrArg Rest.addrs hr
    have hl : (freeSlots u).resolving = u.resolving := congrArg Rest.resolving hr
    have hn : (freeSlots u).nextRequest = u.nextRequest := congrArg Rest.nextRequest hr
    rw [asks, ha, hl, hn]
    exact h
  rw [sessionFree, show freeSlot .joke (freeSlot .name (freeSlot .client u)) = freeSlots u from rfl]
  have h2 : asks (onSession (fun s => { s with me := none })
      (onReference referenceDec (freeSlots u).session.me (freeSlots u))) = a :=
    asks_referenceDec _ h1
  generalize onSession (fun s => { s with me := none }) _ = x at h2 ⊢
  have h3 : asks (onSession (fun s => { s with name := none }) (freeStr x.session.name x)) = a :=
    asks_freeStr _ h2
  generalize onSession (fun s => { s with name := none }) _ = y at h3 ⊢
  have h4 : asks (onSession (fun s => { s with surname := none })
      (freeStr y.session.surname y)) = a := asks_freeStr _ h3
  generalize onSession (fun s => { s with surname := none }) _ = z at h4 ⊢
  exact asks_freeStr _ h4

theorem asks_remove (h : asks u = a) : asks (httpServiceSessionRemove u) = a :=
  asks_sessionFree h

theorem asks_stateSet_remove (state : SessionState) (h : asks u = a) :
    asks (httpServiceSessionRemove (sessionStateSet state u)) = a :=
  asks_remove h

theorem asks_clientReadyToClose (h : asks u = a) : asks (clientReadyToClose u) = a := by
  rw [clientReadyToClose]
  split
  · exact asks_remove h
  · exact h

theorem asks_httpRequest (request : HttpRequest) (c : Choices) (n : ℕ) (h : asks u = a) :
    asks (httpRequest request c n u) = a := by
  rw [httpRequest, httpRequestWrite]
  have h1 : asks (onHttp n id (onSession (fun s => { s with
      pendingConnections := s.pendingConnections - 1 }) (onHttp n id u))) = a := h
  generalize onHttp n id (onSession _ (onHttp n id u)) = x at h1 ⊢
  have h2 := asks_evbufferAddAll c.outputAdd (x.http n).channel 0
    ((request.requestLine :: request.headers ++ [literal "\r\n"]).map fun b => ⟨b, none⟩) h1
  generalize evbufferAddAll c.outputAdd (x.http n).channel 0 _ x = r at h2 ⊢
  obtain ⟨ok, y⟩ := r
  cases ok with
  | false => exact asks_stateSet_remove _ h2
  | true => exact h2

theorem asks_httpServerConnect (c : ConnectChoices) (ss : SockAddr) (idx : Slot)
    (h : asks u = a) : asks (httpServerConnect lib c ss idx u) = a := by
  rw [httpServerConnect]
  have h1 : asks (tcpSocketNew c.tcpSocketNew u.nextConn
      { u with nextConn := u.nextConn + 1 }).2 = a := asks_tcpSocketNew _ _ h
  simp only
  generalize tcpSocketNew c.tcpSocketNew u.nextConn _ = r at h1 ⊢
  obtain ⟨channel, x⟩ := r
  cases channel with
  | none => exact asks_stateSet_remove _ h1
  | some channel =>
    cases hn : c.httpSessionNew with
    | false => exact asks_stateSet_remove _ (asks_channelFree channel h1)
    | true =>
      have h2 : asks (tcpSocketConnect c channel ss
          (httpSessionNew lib true channel .response x).2).2 = a :=
        asks_tcpSocketConnect c channel ss h1
      have hnew : httpSessionNew lib true channel .response x =
          (some channel, (httpSessionNew lib true channel .response x).2) := rfl
      simp only
      rw [hnew]
      simp only
      generalize tcpSocketConnect c channel ss _ = r at h2 ⊢
      obtain ⟨result, y⟩ := r
      cases result with
      | error => exact asks_stateSet_remove _ (asks_httpSessionFree channel h2)
      | success => exact h2
      | again => exact h2

theorem asks_dnsRequestFree (r : ℕ) (h : asks u = a) : asks (dnsRequestFree r u) = a := by
  have h1 : asks (onRequest r (fun q => { q with session := none })
      (onReference referenceWeakDec (u.request r).session u)) = a := asks_referenceWeakDec _ h
  rw [dnsRequestFree]
  generalize onRequest r (fun q => { q with session := none }) _ = x at h1 ⊢
  split <;> exact h1

theorem asks_jokeString (malloc : ℕ → Bool) (joke token new : Bytes) (h : asks u = a) :
    asks (jokeString malloc joke token new u).2 = a := by
  rw [jokeString]
  split
  · exact h
  · exact h
  · exact asks_strdup true _ h

theorem asks_clientResponseCreate (c : Choices) (h : asks u = a) :
    asks (clientResponseCreate c u).2 = a := by
  rw [clientResponseCreate]
  have h1 : asks (onSession id u) = a := h
  generalize onSession id u = x at h1 ⊢
  simp only
  split
  · next name surname joke _ _ _ =>
    have h2 : asks (jokeString c.mallocFirst joke.bytes (literal "Eduardo") name.bytes
        (call (.clientResponseCreate (x.session.name.isSome && x.session.surname.isSome &&
          x.session.joke.isSome)) x)).2 = a := asks_jokeString _ _ _ _ h1
    generalize jokeString c.mallocFirst joke.bytes (literal "Eduardo") name.bytes _ = r at h2 ⊢
    obtain ⟨newJoke, y⟩ := r
    cases newJoke with
    | none => exact h2
    | some between =>
      have h3 : asks (jokeString c.mallocSecond between.bytes (literal "Panisset") surname.bytes
          (onSession (fun s => { s with joke := none }) (freeStr (some joke)
            (onSession (fun s => { s with name := none }) (freeStr (some name) y))))).2 = a :=
        asks_jokeString _ _ _ _ h2
      simp only
      generalize jokeString c.mallocSecond between.bytes (literal "Panisset") surname.bytes _ = r
        at h3 ⊢
      exact h3
  · exact h1

theorem asks_httpResponseWrite (c : Choices) (n : ℕ) (body : CStr) (h : asks u = a) :
    asks (httpResponseWrite c n body u).2 = a := by
  rw [httpResponseWrite]
  have h1 : asks (call .httpResponseWrite (onHttp n id u)) = a := h
  generalize call .httpResponseWrite (onHttp n id u) = x at h1 ⊢
  cases c.datetime with
  | none => exact h1
  | some datetime =>
    have h2 := asks_evbufferAddAll c.outputAdd (x.http n).channel 0
      ((responseHead datetime body.bytes.length).map fun b => ⟨b, none⟩) h1
    simp only
    generalize evbufferAddAll c.outputAdd (x.http n).channel 0 _ x = r at h2 ⊢
    obtain ⟨ok, y⟩ := r
    cases ok with
    | false => exact h2
    | true =>
      have h3 := asks_evbufferAdd (c.outputAdd 6) (x.http n).channel ⟨body.bytes, some body⟩ h2
      simp only
      generalize evbufferAdd (c.outputAdd 6) (x.http n).channel _ y = r at h3 ⊢
      obtain ⟨ok, z⟩ := r
      cases ok <;> exact h3

theorem asks_httpClientResponse (c : Choices) (h : asks u = a) :
    asks (httpClientResponse c u) = a := by
  rw [httpClientResponse]
  have h1 : asks (onSession id u) = a := h
  generalize onSession id u = x at h1 ⊢
  simp only
  split
  · have h2 := asks_clientResponseCreate c h1
    generalize clientResponseCreate c x = r at h2 ⊢
    obtain ⟨response, y⟩ := r
    simp only at h2 ⊢
    split
    · exact h2
    · cases response with
      | none => exact asks_stateSet_remove _ h2
      | some body =>
        cases x.session.httpSessions .client with
        | none => exact h2
        | some n =>
          have h3 := asks_httpResponseWrite c n body h2
          simp only
          generalize httpResponseWrite c n body y = r at h3 ⊢
          obtain ⟨ok, z⟩ := r
          cases ok with
          | false => exact asks_stateSet_remove _ h3
          | true => exact h3
  · exact h1

theorem asks_unpack (lib : Libs P) (c : Choices) (idx : Slot) (p : Bytes) (h : asks u = a) :
    asks (unpack lib c idx p u).2 = a := by
  rw [unpack]
  split
  · rw [unpackName]
    cases lib.jsonName p with
    | none => exact h
    | some pair =>
      have h1 : asks (onSession (fun s => { s with name := (strdup c.strdupFirst pair.1 u).1 })
          (strdup c.strdupFirst pair.1 u).2) = a := asks_strdup _ _ h
      simp only
      split
      · exact h1
      · exact asks_strdup _ _ h1
  · rw [unpackJoke]
    cases lib.jsonJoke p with
    | none => exact h
    | some joke => exact asks_strdup c.strdupFirst joke h

theorem asks_httpResponse (lib : Libs P) (idx : Slot) (c : Choices) (n : ℕ) (h : asks u = a) :
    asks (httpResponse lib idx c n u) = a := by
  rw [httpResponse]
  have h1 : asks (onSession (fun s => { s with pendingReplies := s.pendingReplies - 1 })
      (call (.reply idx) (onHttp n id u))) = a := h
  generalize onSession (fun s => { s with pendingReplies := s.pendingReplies - 1 }) _ = x at h1 ⊢
  simp only
  split
  · exact h1
  · next body _ =>
    split
    · exact asks_stateSet_remove _ h1
    · have h2 := asks_unpack lib c idx body h1
      generalize unpack lib c idx body x = r at h2 ⊢
      obtain ⟨ok, y⟩ := r
      cases ok with
      | false => exact asks_stateSet_remove _ h2
      | true => exact asks_httpClientResponse c (asks_httpSessionFree n h2)

theorem asks_tcpSocketAccept (c : AcceptChoices) (n ioCtx : ℕ) (h : asks u = a) :
    asks (tcpSocketAccept c n ioCtx u).2 = a := by
  rw [tcpSocketAccept]
  split
  · have h1 := asks_tcpSocketNew c.tcpSocketNew n h
    generalize tcpSocketNew c.tcpSocketNew n u = r at h1 ⊢
    obtain ⟨channel, x⟩ := r
    cases channel with
    | none => exact h1
    | some channel =>
      have h2 : asks (tcpSocketConfig c.buffereventEnable channel
          (onChan channel (fun s => { s with bev := some ioCtx }) x)).2 = a :=
        asks_tcpSocketConfig _ channel h1
      simp only
      generalize tcpSocketConfig c.buffereventEnable channel _ = r at h2 ⊢
      obtain ⟨ok, y⟩ := r
      cases ok with
      | false => exact asks_channelFree channel h2
      | true => exact h2
  · exact h

theorem asks_sessionNew (lib : Libs P) (c : AcceptChoices) (channel : ℕ) (h : asks u = a) :
    asks (sessionNew lib c channel u).2 = a := by
  rw [sessionNew]
  split
  · cases c.httpSessionNew with
    | false => exact asks_sessionFree h
    | true => exact h
  · exact h

theorem asks_tcpSocketAcceptCb (c : AcceptChoices) (h : asks u = a) :
    asks (tcpSocketAcceptCb lib c u) = a := by
  rw [tcpSocketAcceptCb]
  split
  · have h1 : asks (buffereventSocketNew c.buffereventSocketNew u.nextConn { u with
        nextConn := u.nextConn + 1, socks := .alloc (.fd u.nextConn) :: u.socks }).2 = a :=
      asks_buffereventSocketNew _ _ h
    generalize buffereventSocketNew c.buffereventSocketNew u.nextConn _ = r at h1 ⊢
    obtain ⟨bev, x⟩ := r
    cases bev with
    | none => exact h1
    | some bev =>
      have h2 := asks_tcpSocketAccept c u.nextConn bev h1
      simp only [httpServiceAcceptCb]
      generalize tcpSocketAccept c u.nextConn bev x = r at h2 ⊢
      obtain ⟨channel, y⟩ := r
      cases channel with
      | none => exact h2
      | some channel =>
        have h3 := asks_sessionNew lib c channel h2
        simp only
        generalize sessionNew lib c channel y = r at h3 ⊢
        obtain ⟨ok, z⟩ := r
        cases ok with
        | false => exact asks_channelFree channel h3
        | true =>
          simp only [httpServiceSessionAdd]
          split <;> exact h3
  · exact h

end Frame

/-- Every pending lookup has a number of its own, under which no list has been
handed over. -/
structure Tickets (a : Asks) : Prop where
  distinct : (a.resolving.map Lookup.request).Nodup
  pending : ∀ l ∈ a.resolving, l.request < a.nextRequest ∧ status a.addrs l.request = .fresh
  fresh : ∀ r, a.nextRequest ≤ r → status a.addrs r = .fresh

structure Waits (a b : Asks) : Prop where
  addrs : b.addrs = a.addrs
  next : a.nextRequest ≤ b.nextRequest
  added : ∀ l ∈ b.resolving, l ∈ a.resolving ∨ a.nextRequest ≤ l.request
  tickets : Tickets a → Tickets b

theorem waits_refl (a : Asks) : Waits a a :=
  ⟨rfl, Nat.le_refl _, fun _ hl => .inl hl, id⟩

theorem waits_trans {a b c : Asks} (h : Waits a b) (h' : Waits b c) : Waits a c where
  addrs := h'.addrs.trans h.addrs
  next := h.next.trans h'.next
  added := by
    intro l hl
    have hle := h.next
    rcases h'.added l hl with hl | hl
    · exact h.added l hl
    · right
      omega
  tickets := fun ht => h'.tickets (h.tickets ht)

theorem waits_number (a : Asks) : Waits a { a with nextRequest := a.nextRequest + 1 } where
  addrs := rfl
  next := Nat.le_succ _
  added := fun _ hl => .inl hl
  tickets := by
    intro ht
    refine ⟨ht.distinct, ?_, ?_⟩
    · intro l hl
      obtain ⟨hlt, hf⟩ := ht.pending l hl
      exact ⟨Nat.lt_succ_of_lt hlt, hf⟩
    · exact fun r hr => ht.fresh r (Nat.le_of_succ_le hr)

theorem waits_ask (a : Asks) (host : Host) : Waits a { a with
    resolving := ⟨a.nextRequest, host⟩ :: a.resolving
    nextRequest := a.nextRequest + 1 } where
  addrs := rfl
  next := Nat.le_succ _
  added := by
    intro l hl
    rcases List.mem_cons.mp hl with rfl | hl
    · exact .inr (Nat.le_refl _)
    · exact .inl hl
  tickets := by
    intro ht
    have hnew : ∀ l ∈ a.resolving, l.request ≠ a.nextRequest := by
      intro l hl
      have := (ht.pending l hl).1
      omega
    refine ⟨?_, ?_, ?_⟩
    · refine List.nodup_cons.mpr ⟨?_, ht.distinct⟩
      intro hm
      obtain ⟨l, hl, hr⟩ := List.mem_map.mp hm
      exact hnew l hl hr
    · intro l hl
      rcases List.mem_cons.mp hl with rfl | hl
      · exact ⟨Nat.lt_succ_self _, ht.fresh _ (Nat.le_refl _)⟩
      · obtain ⟨hlt, hf⟩ := ht.pending l hl
        exact ⟨Nat.lt_succ_of_lt hlt, hf⟩
    · exact fun r hr => ht.fresh r (Nat.le_of_succ_le hr)

theorem asks_dnsnameResolve (c : ResolveChoices) (r : ℕ) (host : Host) (idx : Slot)
    (hc : c.inside = none) : asks (dnsnameResolve lib c r host idx u) =
      if u.worker then { asks u with resolving := ⟨r, host⟩ :: u.resolving } else asks u := by
  rw [dnsnameResolve, hc]
  split
  · rfl
  · have h1 := asks_referenceGet (u.request r).session (u := u) rfl
    generalize referenceGet (u.request r).session u = q at h1 ⊢
    obtain ⟨session, x⟩ := q
    have h2 := asks_dnsRequestFree r h1
    simp only
    split
    · exact asks_stateSet_remove _ h2
    · exact h2

theorem waits_dnsnameResolve (c : ResolveChoices) (host : Host) (idx : Slot)
    (hc : c.inside = none) (hu : asks u = { asks w with nextRequest := w.nextRequest + 1 }) :
    Waits (asks w) (asks (dnsnameResolve lib c w.nextRequest host idx u)) := by
  have hr : u.resolving = w.resolving := congrArg Asks.resolving hu
  rw [asks_dnsnameResolve c w.nextRequest host idx hc, hu, hr]
  split
  · exact waits_ask (asks w) host
  · exact waits_number (asks w)

theorem waits_dnsRequestNew (lib : Libs P) (c : ResolveChoices) (host : Host) (idx : Slot)
    (hc : c.inside = none) (h : Waits (asks w) (asks u)) :
    Waits (asks w) (asks (dnsRequestNew lib c host idx u).2) := by
  apply waits_trans h
  rw [dnsRequestNew]
  split
  · exact waits_dnsnameResolve c host idx hc (asks_referenceWeakInc _ rfl)
  · exact waits_refl _

def unanswered (c : Choices) : Bool := c.nameRequest.inside.isNone && c.jokeRequest.inside.isNone

theorem waits_clientMsgComplete (lib : Libs P) (c : Choices) (n : ℕ) (hc : unanswered c = true)
    (w : World P) : Waits (asks w) (asks (clientMsgComplete lib c n w)) := by
  simp only [unanswered, Bool.and_eq_true, Option.isNone_iff_eq_none] at hc
  obtain ⟨hname, hjoke⟩ := hc
  rw [clientMsgComplete]
  have h1 : asks (sessionReferenceNew c.referenceNew
      (call .clientMsgComplete (onHttp n id w))).2 = asks w := by
    cases c.referenceNew <;> rfl
  generalize sessionReferenceNew c.referenceNew _ = r at h1 ⊢
  obtain ⟨me, x⟩ := r
  have h2 : asks (onSession (fun s => { s with me := me }) x) = asks w := h1
  simp only
  generalize onSession (fun s => { s with me := me }) x = y at h2 ⊢
  split
  · rw [asks_remove h2]
    exact waits_refl _
  · have h3 := waits_dnsRequestNew lib c.nameRequest .uinames .name hname
      (h2 ▸ waits_refl (asks w) : Waits (asks w) (asks y))
    generalize dnsRequestNew lib c.nameRequest .uinames .name y = r at h3 ⊢
    obtain ⟨ok, z⟩ := r
    cases ok with
    | false => exact asks_remove (u := z) rfl ▸ h3
    | true =>
      have h4 := waits_dnsRequestNew lib c.jokeRequest .icndb .joke hjoke h3
      simp only
      generalize dnsRequestNew lib c.jokeRequest .icndb .joke z = r at h4 ⊢
      obtain ⟨ok, t⟩ := r
      cases ok with
      | false => exact asks_remove (u := t) rfl ▸ h4
      | true => exact h4

theorem waits_of_asks (h : Waits (asks w) (asks u)) (he : asks v = asks u) :
    Waits (asks w) (asks v) :=
  he ▸ h

theorem waits_callBack (lib : Libs P) (c : Choices) (n : ℕ) (cb : Option HttpSessionCb)
    (hc : unanswered c = true) (h : Waits (asks w) (asks u)) :
    Waits (asks w) (asks (callBack lib c n cb u)) := by
  cases cb with
  | none => exact h
  | some cb =>
    cases cb with
    | clientMsgComplete => exact waits_trans h (waits_clientMsgComplete lib c n hc u)
    | clientReadyToClose => exact waits_of_asks h (asks_clientReadyToClose rfl)
    | httpRequestName => exact waits_of_asks h (asks_httpRequest _ c n rfl)
    | httpResponseName => exact waits_of_asks h (asks_httpResponse lib .name c n rfl)
    | httpRequestJoke => exact waits_of_asks h (asks_httpRequest _ c n rfl)
    | httpResponseJoke => exact waits_of_asks h (asks_httpResponse lib .joke c n rfl)

theorem waits_shouldClose (lib : Libs P) (c : Choices) (n k : ℕ) (hc : unanswered c = true)
    (h : Waits (asks w) (asks u)) :
    Waits (asks w) (asks (httpSessionChannelShouldClose lib c n k u).2) := by
  rw [httpSessionChannelShouldClose]
  have h1 : Waits (asks w) (asks (onHttp k id (onChan n id u))) := h
  generalize onHttp k id (onChan n id u) = x at h1 ⊢
  split
  · exact waits_callBack lib c k _ hc h1
  · exact h1

theorem waits_httpSessionEventCb (lib : Libs P) (c : Choices) (n k : ℕ) (event : IoChannelEvent)
    (hc : unanswered c = true) (h : Waits (asks w) (asks u)) :
    Waits (asks w) (asks (httpSessionEventCb lib c n k event u)) := by
  rw [httpSessionEventCb]
  have h1 : Waits (asks w) (asks (onHttp k id u)) := h
  generalize onHttp k id u = x at h1 ⊢
  split
  · exact waits_of_asks h1 (asks_remove rfl)
  · split
    · exact waits_callBack lib c k _ hc h1
    · split
      · exact waits_shouldClose lib c n k hc h1
      · split
        · exact waits_of_asks h1 (asks_remove rfl)
        · exact h1

theorem waits_httpSessionReadCb (lib : Libs P) (c : Choices) (n k : ℕ) (hc : unanswered c = true)
    (h : Waits (asks w) (asks u)) :
    Waits (asks w) (asks (httpSessionReadCb lib c n k u)) := by
  have h1 := waits_shouldClose lib c n k hc h
  rw [httpSessionReadCb]
  generalize httpSessionChannelShouldClose lib c n k u = r at h1 ⊢
  obtain ⟨done, x⟩ := r
  cases done with
  | true => exact h1
  | false =>
    simp only
    generalize httpSessionRead _ c.read (x.http k) (channelGetInput n x) = r
    obtain ⟨exit, s, input⟩ := r
    have h2 : asks (onChannelBev n (fun e => { e with input := input })
        (onHttp k (fun _ => s) x)) = asks x := asks_onChannelBev n _ rfl
    cases exit with
    | returned => exact waits_of_asks h1 h2
    | messageComplete => exact waits_callBack lib c k _ hc (waits_of_asks h1 h2)
    | failed => exact waits_of_asks h1 (asks_remove h2)
    | diverged => exact waits_of_asks h1 h2

theorem waits_service (n : ℕ) (f : ℕ → World P → World P)
    (hf : ∀ k u, Waits (asks w) (asks u) → Waits (asks w) (asks (f k u)))
    (h : Waits (asks w) (asks u)) : Waits (asks w) (asks (service n f u)) := by
  rw [service]
  have h1 : Waits (asks w) (asks (onChan n id u)) := h
  generalize onChan n id u = x at h1 ⊢
  split
  · exact hf _ _ h1
  · exact h1

theorem waits_deliver (n : ℕ) (f : ℕ → World P → World P)
    (hf : ∀ k u, Waits (asks w) (asks u) → Waits (asks w) (asks (f k u)))
    (h : Waits (asks w) (asks u)) : Waits (asks w) (asks (deliver n f u)) := by
  rw [deliver]
  split
  · exact hf _ _ h
  · exact h

/-- Lookups are answered after `evdns_getaddrinfo` has returned. -/
def later (_ : World P) : Event → Bool
  | .readCb _ c | .writeCb _ c | .eventCb _ _ c => unanswered c
  | _ => true

theorem waits_next (lib : Libs P) (e : Event) (w : World P) (hl : later w e = true)
    (he : ∀ r a c, e ≠ .dnsCb r a c) : Waits (asks w) (asks (next lib w e)) := by
  cases e with
  | accept c => exact waits_of_asks (waits_refl _) (asks_tcpSocketAcceptCb c rfl)
  | arrive n data => exact waits_refl _
  | flush n k => exact waits_refl _
  | readCb n c =>
    apply waits_deliver n _ _ (waits_refl _)
    intro k u hu
    exact waits_service k _ (fun m v hv => waits_httpSessionReadCb lib c k m hl hv) hu
  | writeCb n c =>
    apply waits_deliver n _ _ (waits_refl _)
    intro k u hu
    exact waits_service k _ (fun m v hv => waits_shouldClose lib c k m hl hv) hu
  | eventCb n events c =>
    have h1 : Waits (asks w) (asks (alterBev n (fun e => { e with
        connecting := e.connecting && !events.connected }) w)) := waits_refl _
    apply waits_deliver n _ _ h1
    intro k u hu
    rw [tcpSocketEventCb]
    split
    · exact waits_httpSessionEventCb lib c k _ _ hl hu
    · exact hu
  | dnsCb r a c => exact absurd rfl (he r a c)
  | fini => exact waits_of_asks (waits_refl _) (asks_sessionFree rfl)

/-- The request of a lookup leads to a session that has not been released. -/
def found (w : World P) (r : ℕ) : Bool := (referenceGet (w.request r).session w).1

def handed : Event → Option ℕ
  | .dnsCb r (.addresses _) _ => some r
  | _ => none

theorem asks_dnsnameResolvedCb (a : Answer) (c : ConnectChoices) (r : ℕ) (host : Host)
    (u : World P) : asks (dnsnameResolvedCb lib a c r host u) =
      if found u r && a ≠ .error then { asks u with addrs := .free r :: .use r :: u.addrs }
      else asks u := by
  rw [dnsnameResolvedCb]
  have hf : (referenceGet ((onRequest r id u).request r).session (onRequest r id u)).1 =
      found u r := by
    have hr : (onRequest r id u).request r = u.request r := by simp [onRequest]
    rw [hr, found]
    cases (u.request r).session <;> rfl
  have h1 : asks (referenceGet ((onRequest r id u).request r).session (onRequest r id u)).2 =
      asks u := asks_referenceGet _ rfl
  generalize referenceGet ((onRequest r id u).request r).session (onRequest r id u) = q at hf h1 ⊢
  obtain ⟨session, x⟩ := q
  have h2 : asks (dnsRequestFree r (onRequest r (fun q => { q with evdnsReq := false }) x)) =
      asks u := asks_dnsRequestFree r h1
  simp only at hf ⊢
  generalize dnsRequestFree r _ = y at h2 ⊢
  subst hf
  cases found u r with
  | false => exact h2
  | true =>
    cases a with
    | error => exact asks_stateSet_remove _ h2
    | addresses families =>
      have h3 : asks { y with addrs := .free r :: .use r :: y.addrs } =
          { asks u with addrs := .free r :: .use r :: u.addrs } := by
        rw [← h2]
        have ha : y.addrs = u.addrs := congrArg Asks.addrs h2
        rw [← ha]
        rfl
      simp only
      cases families.find? usable with
      | none => exact asks_stateSet_remove _ h3
      | some family => exact asks_httpServerConnect c _ _ h3

theorem mem_erase_lookup {a : Asks} {l l' : Lookup} (h : Tickets a) (hl : l ∈ a.resolving)
    (hl' : l' ∈ a.resolving.erase l) : l' ∈ a.resolving ∧ l'.request ≠ l.request :=
  HeldReferences.mem_erase_request h.distinct hl hl'

theorem waits_erase (a : Asks) (l : Lookup) :
    Waits a { a with resolving := a.resolving.erase l } where
  addrs := rfl
  next := Nat.le_refl _
  added := fun _ hl => .inl (List.mem_of_mem_erase hl)
  tickets := fun h => ⟨h.distinct.sublist (List.erase_sublist.map _),
    fun l' hl' => h.pending l' (List.mem_of_mem_erase hl'), h.fresh⟩

def handing (a : Asks) (l : Lookup) (there : Bool) : Asks :=
  { a with
    addrs := if there then
        .free l.request :: .use l.request :: .alloc l.request :: a.addrs
      else .alloc l.request :: a.addrs
    resolving := a.resolving.erase l }

theorem next_asks (lib : Libs P) (e : Event) (he : enabled w e = true) (hl : later w e = true) :
    (handed e = none ∧ Waits (asks w) (asks (next lib w e))) ∨
      ∃ l ∈ w.resolving, handed e = some l.request ∧
        asks (next lib w e) = handing (asks w) l (found w l.request) := by
  by_cases hans : ∃ r a c, e = .dnsCb r a c
  · obtain ⟨r, a, c, rfl⟩ := hans
    simp only [enabled, Bool.and_eq_true, Option.isSome_iff_exists] at he
    obtain ⟨-, l, hlook⟩ := he
    obtain ⟨hmem, rfl⟩ := lookupOf_some hlook
    have hf : found (handOver a l.request { w with resolving := w.resolving.erase l }) l.request =
        found w l.request := by
      simp only [found]
      cases a <;> (simp only [handOver]; cases (w.request l.request).session <;> rfl)
    simp only [next, hlook, asks_dnsnameResolvedCb, hf]
    cases a with
    | error =>
      left
      refine ⟨rfl, ?_⟩
      simp only [ne_eq, not_true_eq_false, decide_false, Bool.and_false, Bool.false_eq_true,
        if_false]
      exact waits_erase (asks w) l
    | addresses families =>
      refine .inr ⟨l, hmem, rfl, ?_⟩
      cases found w l.request <;> rfl
  · left
    refine ⟨?_, waits_next lib e w hl fun r a c h => hans ⟨r, a, c, h⟩⟩
    cases e with
    | dnsCb r a c => exact absurd ⟨r, a, c, rfl⟩ hans
    | _ => rfl

def Spent (a : Asks) (r : ℕ) : Prop := r < a.nextRequest ∧ ∀ l ∈ a.resolving, l.request ≠ r

theorem spent_handing {a : Asks} {l : Lookup} (there : Bool) (h : Tickets a)
    (hl : l ∈ a.resolving) : Spent (handing a l there) l.request :=
  ⟨(h.pending l hl).1, fun _ hl' => (mem_erase_lookup h hl hl').2⟩

theorem status_handing {a : Asks} {l : Lookup} (there : Bool) :
    status (handing a l there).addrs l.request = if there then .freed else .live := by
  cases there <;> simp [handing]

theorem status_handing_other {a : Asks} {l : Lookup} {r : ℕ} (there : Bool)
    (hr : r ≠ l.request) : status (handing a l there).addrs r = status a.addrs r := by
  cases there <;> simp [handing, hr]

theorem tickets_handing {a : Asks} {l : Lookup} (there : Bool) (h : Tickets a)
    (hl : l ∈ a.resolving) : Tickets (handing a l there) := by
  refine ⟨h.distinct.sublist (List.erase_sublist.map _), ?_, ?_⟩
  · intro l' hl'
    obtain ⟨hmem, hne⟩ := mem_erase_lookup h hl hl'
    obtain ⟨hlt, hf⟩ := h.pending l' hmem
    exact ⟨hlt, (status_handing_other there hne).trans hf⟩
  · intro r hr
    have hne : r ≠ l.request := by
      have hlt : l.request < a.nextRequest := (h.pending l hl).1
      have hr : a.nextRequest ≤ r := hr
      omega
    exact (status_handing_other there hne).trans (h.fresh r hr)

theorem sound_handing {a : Asks} {l : Lookup} (there : Bool) (h : Tickets a)
    (hl : l ∈ a.resolving) (hs : Sound a.addrs) : Sound (handing a l there).addrs := by
  have hf := (h.pending l hl).2
  cases there <;> simp [handing, hf, hs]

structure Orderly (w : World P) : Prop where
  tickets : Tickets (asks w)
  sound : Sound w.addrs

theorem orderly_initial (lib : Libs P) (worker : Bool) : Orderly (initial lib worker) where
  tickets := ⟨List.nodup_nil, fun _ hl => (List.not_mem_nil hl).elim, fun _ _ => rfl⟩
  sound := trivial

theorem next_orderly (lib : Libs P) (e : Event) (h : Orderly w) (he : enabled w e = true)
    (hl : later w e = true) : Orderly (next lib w e) := by
  rcases next_asks lib e he hl with ⟨-, hw⟩ | ⟨l, hmem, -, ha⟩
  · refine ⟨hw.tickets h.tickets, ?_⟩
    have haddrs : (next lib w e).addrs = w.addrs := hw.addrs
    rw [haddrs]
    exact h.sound
  · have haddrs : (next lib w e).addrs = (handing (asks w) l (found w l.request)).addrs :=
      congrArg Asks.addrs ha
    refine ⟨?_, ?_⟩
    · rw [ha]
      exact tickets_handing _ h.tickets hmem
    · rw [haddrs]
      exact sound_handing _ h.tickets hmem h.sound

theorem run_orderly {es : List Event} (h : Run (system lib) (fun w e => later w e = true) u es w)
    (hu : Orderly u) : Orderly w :=
  run_invariant (I := Orderly) (fun _ e hs he hl => next_orderly lib e hs he hl) h hu

theorem next_spent (lib : Libs P) (e : Event) {r : ℕ} (h : Orderly w) (he : enabled w e = true)
    (hl : later w e = true) (hr : Spent (asks w) r) :
    Spent (asks (next lib w e)) r ∧ status (next lib w e).addrs r = status w.addrs r := by
  rcases next_asks lib e he hl with ⟨-, hw⟩ | ⟨l, hmem, -, ha⟩
  · have haddrs : (next lib w e).addrs = w.addrs := hw.addrs
    refine ⟨⟨hr.1.trans_le hw.next, ?_⟩, by rw [haddrs]⟩
    intro l hl
    rcases hw.added l hl with hl | hl
    · exact hr.2 l hl
    · have := hr.1
      omega
  · have hne : r ≠ l.request := fun he => hr.2 l hmem he.symm
    have haddrs : (next lib w e).addrs = (handing (asks w) l (found w l.request)).addrs :=
      congrArg Asks.addrs ha
    rw [ha, haddrs]
    exact ⟨⟨hr.1, fun l' hl' => hr.2 l' (mem_erase_lookup h.tickets hmem hl').1⟩,
      status_handing_other _ hne⟩

theorem run_spent {es : List Event} {r : ℕ}
    (h : Run (system lib) (fun w e => later w e = true) u es w) (hu : Orderly u)
    (hr : Spent (asks u) r) : status w.addrs r = status u.addrs r := by
  induction h with
  | nil u => rfl
  | @cons u w e es admitted condition rest ih =>
    obtain ⟨hs, hst⟩ := next_spent lib e hu admitted condition hr
    exact (ih (next_orderly lib e hu admitted condition) hs).trans hst

/-- Every list handed over has been released once, after its last use. -/
structure Released (es : List Event) (w : World P) : Prop where
  sound : Sound w.addrs
  freed : ∀ r ∈ es.filterMap handed, frees w.addrs r = 1

/-- An answer that hands over a list finds the session. -/
def inTime (w : World P) (e : Event) : Bool := (handed e).all (found w)

theorem freed_iff_inTime {es : List Event}
    (h : Run (system lib) (fun w e => later w e = true) u es w) (hu : Orderly u) :
    (∀ r ∈ es.filterMap handed, frees w.addrs r = 1) ↔
      Run (system lib) (fun w e => later w e = true ∧ inTime w e = true) u es w := by
  induction h with
  | nil u => exact ⟨fun _ => .nil u, fun _ r hr => (List.not_mem_nil hr).elim⟩
  | @cons u w e es admitted condition rest ih =>
    have hv := next_orderly lib e hu admitted condition
    have ih := ih hv
    have hsound := (run_orderly rest hv).sound
    rw [run_cons_iff]
    rcases next_asks lib e admitted condition with ⟨hnone, -⟩ | ⟨l, hmem, hsome, ha⟩
    · rw [List.filterMap_cons_none hnone, inTime, hnone, ih]
      exact ⟨fun hr => ⟨admitted, ⟨condition, rfl⟩, hr⟩, fun hr => hr.2.2⟩
    · have hspent : Spent (asks (next lib u e)) l.request := by
        rw [ha]
        exact spent_handing _ hu.tickets hmem
      have hstatus : status w.addrs l.request = if found u l.request then .freed else .live := by
        have haddrs : (next lib u e).addrs = (handing (asks u) l (found u l.request)).addrs :=
          congrArg Asks.addrs ha
        have hst := run_spent rest hv hspent
        rw [hst]
        exact (congrArg (fun x => status x l.request) haddrs).trans (status_handing _)
      have hone : frees w.addrs l.request = 1 ↔ found u l.request = true := by
        rw [frees_eq_one _ hsound, hstatus]
        cases found u l.request <;> decide
      rw [List.filterMap_cons_some hsome, List.forall_mem_cons, ih, hone, inTime, hsome]
      exact ⟨fun hr => ⟨admitted, ⟨condition, hr.1⟩, hr.2⟩, fun hr => ⟨hr.2.1.2, hr.2.2⟩⟩

/-- The lists are released exactly if none comes after its session. -/
theorem lists_released_iff {worker : Bool} {es : List Event}
    (h : Run (system lib) (fun w e => later w e = true) (initial lib worker) es w) :
    Released es w ↔ Run (system lib) (fun w e => later w e = true ∧ inTime w e = true)
      (initial lib worker) es w := by
  have hu := orderly_initial lib worker
  rw [← freed_iff_inTime h hu]
  exact ⟨fun hr => hr.freed, fun hr => ⟨(run_orderly h hu).sound, hr⟩⟩

theorem lists_released_exchange :
    Released exchange (exchange.foldl (next libs) (initial libs true)) ↔
      Run (system libs) (fun w e => later w e = true ∧ inTime w e = true)
        (initial libs true) exchange (exchange.foldl (next libs) (initial libs true)) :=
  lists_released_iff (run_of_admits (initial libs true) exchange (by decide +kernel))

def clientGone : List Event :=
  [.accept {}, .arrive 0 clientRequest, .readCb 0 {}, .eventCb 0 { error := true } {},
    .dnsCb 0 (.addresses [.inet]) {}]

theorem list_not_released : ¬ ∀ (es : List Event) (w : World Core),
    Run (system libs) (fun w e => later w e = true) (initial libs true) es w →
    Released es w := by
  intro h
  have hr := h clientGone _ (run_of_admits (initial libs true) clientGone (by decide +kernel))
  exact absurd (hr.freed 0 (by decide +kernel)) (by decide +kernel)

end Tigera.AddressLists
