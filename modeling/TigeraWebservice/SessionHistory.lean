import TigeraWebservice.HttpSegmentation
import TigeraWebservice.SessionSystem

/-!
# What is never undone

Whatever happens, in order or not: calls once made stay on record, numbers once
given out are not given out again, and a message that is complete stays
complete. This is checked of every function once.
-/

set_option autoImplicit false

namespace Tigera.SessionHistory
open ResourceLedger Tigera.CountedReference Tigera.ParserMachine Tigera.HttpReading
open Tigera.JokeCreate Tigera.SessionWorld Tigera.SocketChannel Tigera.SessionProgram
open Tigera.SessionSystem Tigera.HttpSegmentation

variable {P : Type} {lib : Libs P} {u v w : World P}

structure Marks (P : Type) where
  calls : List Call
  next : ℕ
  http : ℕ → HttpSession P
  registered : Bool
  slots : Slot → Option ℕ
  ctx : ℕ → Option ℕ
  eof : ℕ → Bool

def marks (w : World P) : Marks P :=
  ⟨w.calls, w.nextConn, w.http, w.registered, w.session.httpSessions, fun n => (w.chan n).ctx,
    fun n => (w.chan n).eof⟩

structure Later (w w' : World P) : Prop where
  calls : w.calls <:+ w'.calls
  next : w.nextConn ≤ w'.nextConn
  complete : ∀ n, n < w.nextConn → (w.http n).state = .messageComplete →
    (w'.http n).state = .messageComplete
  registered : w'.registered = true → w.registered = true
  slots : ∀ i n, w'.session.httpSessions i = some n →
    w.session.httpSessions i = some n ∨ w.nextConn ≤ n
  heedless : ∀ n, (w.http n).cbs.readyToClose = none → (w'.http n).cbs.readyToClose = none
  ctx : ∀ k n, (w'.chan k).ctx = some n → (w.chan k).ctx = some n ∨ n = k ∧ k < w'.nextConn

structure Silent (w w' : World P) : Prop extends Later w w' where
  eof : ∀ k, (w'.chan k).eof = true → (w.chan k).eof = true ∧ (w'.chan k).ctx = (w.chan k).ctx

structure Aside (w w' : World P) : Prop extends Silent w w' where
  requests : w'.calls.count .clientMsgComplete = w.calls.count .clientMsgComplete

theorem later_refl (w : World P) : Later w w :=
  ⟨List.suffix_refl _, Nat.le_refl _, fun _ _ h => h, id, fun _ _ h => .inl h, fun _ h => h,
    fun _ _ h => .inl h⟩

theorem silent_refl (w : World P) : Silent w w := ⟨later_refl w, fun _ h => ⟨h, rfl⟩⟩

theorem aside_refl (w : World P) : Aside w w := ⟨silent_refl w, rfl⟩

theorem later_trans (h : Later u v) (h' : Later v w) : Later u w where
  calls := h.calls.trans h'.calls
  next := h.next.trans h'.next
  complete := fun n hn hs => h'.complete n (hn.trans_le h.next) (h.complete n hn hs)
  registered := fun hr => h.registered (h'.registered hr)
  slots := by
    intro i n hi
    have hle := h.next
    rcases h'.slots i n hi with hi | hn
    · exact h.slots i n hi
    · exact .inr (hle.trans hn)
  heedless := fun n hn => h'.heedless n (h.heedless n hn)
  ctx := by
    intro k n hk
    have hle := h'.next
    rcases h'.ctx k n hk with hk | hk
    · rcases h.ctx k n hk with hk | ⟨he, hlt⟩
      · exact .inl hk
      · exact .inr ⟨he, hlt.trans_le hle⟩
    · exact .inr hk

theorem silent_trans (h : Silent u v) (h' : Silent v w) : Silent u w := by
  refine ⟨later_trans h.toLater h'.toLater, ?_⟩
  intro k hk
  obtain ⟨hv, hw⟩ := h'.eof k hk
  obtain ⟨hu, hv⟩ := h.eof k hv
  exact ⟨hu, hw.trans hv⟩

theorem aside_trans (h : Aside u v) (h' : Aside v w) : Aside u w :=
  ⟨silent_trans h.toSilent h'.toSilent, h'.requests.trans h.requests⟩

theorem silent_of_marks (h : marks v = marks u) : Silent u v := by
  have h1 : v.calls = u.calls := congrArg Marks.calls h
  have h2 : v.nextConn = u.nextConn := congrArg Marks.next h
  have h3 : v.http = u.http := congrArg Marks.http h
  have h4 : v.registered = u.registered := congrArg Marks.registered h
  have h5 : v.session.httpSessions = u.session.httpSessions := congrArg Marks.slots h
  have h6 : ∀ k, (v.chan k).ctx = (u.chan k).ctx := congrFun (congrArg Marks.ctx h)
  have h7 : ∀ k, (v.chan k).eof = (u.chan k).eof := congrFun (congrArg Marks.eof h)
  refine ⟨⟨?_, ?_, ?_, ?_, ?_, ?_, ?_⟩, ?_⟩
  · exact h1 ▸ List.suffix_refl _
  · rw [h2]
  · rw [h3]
    exact fun _ _ hs => hs
  · rw [h4]
    exact id
  · rw [h5]
    exact fun _ _ hi => .inl hi
  · rw [h3]
    exact fun _ hn => hn
  · intro k n hk
    exact .inl (h6 k ▸ hk)
  · intro k hk
    exact ⟨h7 k ▸ hk, h6 k⟩

theorem aside_of_marks (h : Aside w u) (he : marks v = marks u) : Aside w v := by
  have hc : v.calls = u.calls := congrArg Marks.calls he
  exact aside_trans h ⟨silent_of_marks he, by rw [hc]⟩

theorem aside_call (c : Call) (hc : c ≠ .clientMsgComplete) (h : Aside w u) :
    Aside w (call c u) := by
  refine aside_trans h ⟨{ silent_refl u with calls := List.suffix_cons _ _ }, ?_⟩
  exact List.count_cons_of_ne hc

theorem aside_onHttp (n : ℕ) (f : HttpSession P → HttpSession P) (h : Aside w u)
    (hf : (u.http n).state = .messageComplete → (f (u.http n)).state = .messageComplete)
    (hc : (u.http n).cbs.readyToClose = none → (f (u.http n)).cbs.readyToClose = none) :
    Aside w (onHttp n f u) := by
  refine aside_trans h ⟨{ silent_refl u with complete := ?_, heedless := ?_ }, rfl⟩
  · intro m _ hs
    by_cases hm : m = n
    · subst hm
      simpa [onHttp] using hf hs
    · simpa [onHttp, hm] using hs
  · intro m hs
    by_cases hm : m = n
    · subst hm
      simpa [onHttp] using hc hs
    · simpa [onHttp, hm] using hs

theorem aside_touch (n : ℕ) (h : Aside w u) : Aside w (onHttp n id u) :=
  aside_onHttp n id h id id

theorem aside_onSession (f : Session → Session) (h : Aside w u)
    (hs : (f u.session).httpSessions = u.session.httpSessions) : Aside w (onSession f u) :=
  aside_of_marks h (by simp only [marks, onSession, hs])

theorem aside_clearSlot (i : Slot) (h : Aside w u) : Aside w (onSession (setSlot i none) u) := by
  refine aside_trans h ⟨{ silent_refl u with slots := ?_ }, rfl⟩
  intro j n hj
  by_cases hij : j = i
  · simp [onSession, setSlot, hij] at hj
  · exact .inl (by simpa [onSession, setSlot, hij] using hj)

theorem aside_stateSet (state : SessionState) (h : Aside w u) :
    Aside w (sessionStateSet state u) :=
  aside_onSession _ h rfl

theorem aside_onChan (n : ℕ) (f : TcpSocket → TcpSocket) (h : Aside w u)
    (hctx : (f (u.chan n)).ctx = (u.chan n).ctx) (heof : (f (u.chan n)).eof = (u.chan n).eof) :
    Aside w (onChan n f u) := by
  have hm : ∀ k, ((onChan n f u).chan k).ctx = (u.chan k).ctx ∧
      ((onChan n f u).chan k).eof = (u.chan k).eof := by
    intro k
    by_cases hk : k = n
    · subst hk
      simpa [onChan] using ⟨hctx, heof⟩
    · simp [onChan, hk]
  have hctx : (fun k => ((onChan n f u).chan k).ctx) = fun k => (u.chan k).ctx :=
    funext fun k => (hm k).1
  have heof : (fun k => ((onChan n f u).chan k).eof) = fun k => (u.chan k).eof :=
    funext fun k => (hm k).2
  refine aside_of_marks h ?_
  simp only [marks, hctx, heof]
  rfl

theorem aside_onRequest (r : ℕ) (f : DnsRequest → DnsRequest) (h : Aside w u) :
    Aside w (onRequest r f u) :=
  aside_of_marks h rfl

theorem aside_crash (h : Aside w u) : Aside w (crash u) := aside_of_marks h rfl

theorem aside_referenceWeakInc (me : Option ℕ) (h : Aside w u) :
    Aside w (onReference referenceWeakInc me u) := by
  cases me <;> exact aside_of_marks h rfl

theorem aside_referenceWeakDec (me : Option ℕ) (h : Aside w u) :
    Aside w (onReference referenceWeakDec me u) := by
  cases me with
  | none => exact h
  | some k =>
    simp only [onReference, referenceWeakDec]
    split
    · split <;> exact aside_of_marks h rfl
    · exact aside_of_marks h rfl

theorem aside_referenceDec (me : Option ℕ) (h : Aside w u) :
    Aside w (onReference referenceDec me u) := by
  cases me with
  | none => exact h
  | some k =>
    simp only [onReference, referenceDec]
    split
    · split <;> split <;> exact aside_of_marks h rfl
    · exact aside_of_marks h rfl

theorem aside_referenceGet (me : Option ℕ) (h : Aside w u) :
    Aside w (referenceGet me u).2 := by
  cases me <;> exact aside_of_marks h rfl

theorem aside_freeStr (s : Option CStr) (h : Aside w u) : Aside w (freeStr s u) := by
  cases s <;> exact aside_of_marks h rfl

theorem aside_strdup (ok : Bool) (s : Bytes) (h : Aside w u) : Aside w (strdup ok s u).2 := by
  cases ok <;> exact aside_of_marks h rfl

theorem aside_buffereventFree (b : ℕ) (h : Aside w u) : Aside w (buffereventFree b u) :=
  aside_of_marks h rfl

theorem aside_tcpSocketFree (n : ℕ) (h : Aside w u) : Aside w (tcpSocketFree n u) := by
  have h1 := aside_onChan n id h rfl rfl
  rw [tcpSocketFree]
  generalize onChan n id u = v at h1 ⊢
  simp only
  split
  · exact aside_of_marks h1 rfl
  · next b _ =>
    split
    · have h2 : Aside w { v with socks := .free (.listener b) :: v.socks } := aside_of_marks h1 rfl
      exact aside_of_marks (aside_onChan n (fun s => { s with bev := none }) h2 rfl rfl) rfl
    · have h2 := aside_onChan n (fun s => { s with bev := none }) (aside_buffereventFree b h1) rfl rfl
      exact aside_of_marks h2 rfl

theorem aside_httpSessionFree (n : ℕ) (h : Aside w u) : Aside w (httpSessionFree n u) := by
  have h1 := aside_onHttp n (fun s => { s with body := none }) h id id
  have h2 := aside_tcpSocketFree ((onHttp n (fun s => { s with body := none }) u).http n).channel h1
  exact aside_of_marks h2 rfl

theorem aside_buffereventSocketNew (ok : Bool) (n : ℕ) (h : Aside w u) :
    Aside w (buffereventSocketNew ok n u).2 := by
  cases ok <;> exact aside_of_marks h rfl

theorem aside_tcpSocketNew (ok : Bool) (n : ℕ) (h : Aside w u) :
    Aside w (tcpSocketNew ok n u).2 := by
  cases ok with
  | false => exact h
  | true =>
    refine aside_trans h ⟨{ silent_refl u with ctx := ?_, eof := ?_ }, rfl⟩
    · intro k m hk
      by_cases hkn : k = n
      · simp [tcpSocketNew, hkn] at hk
      · exact .inl (by simpa [tcpSocketNew, hkn] using hk)
    · intro k hk
      by_cases hkn : k = n
      · simp [tcpSocketNew, hkn] at hk
      · exact ⟨by simpa [tcpSocketNew, hkn] using hk, by simp [tcpSocketNew, hkn]⟩

theorem aside_tcpSocketConfig (ok : Bool) (n : ℕ) (h : Aside w u) :
    Aside w (tcpSocketConfig ok n u).2 := by
  rw [tcpSocketConfig]
  split
  · exact aside_crash h
  · next b _ =>
    have h1 : Aside w (onBev b (fun e => { e with cbarg := some n }) u) := aside_of_marks h rfl
    simp only
    split
    · exact h1
    · exact aside_onChan n (fun s => { s with bev := none }) (aside_buffereventFree b h1) rfl rfl

theorem aside_tcpSocketConnectError (fd : Option ℕ) (n : ℕ) (h : Aside w u) :
    Aside w (tcpSocketConnectError fd n u).2 := by
  simp only [tcpSocketConnectError]
  cases fd <;> (split <;> exact aside_of_marks h rfl)

theorem aside_tcpSocketConnect (c : ConnectChoices) (n : ℕ) (ss : SockAddr) (h : Aside w u) :
    Aside w (tcpSocketConnect c n ss u).2 := by
  have h0 := aside_onChan n id h rfl rfl
  rw [tcpSocketConnect]
  generalize onChan n id u = v at h0 ⊢
  have h1 : Aside w { v with socks := .alloc (.fd n) :: v.socks } := aside_of_marks h0 rfl
  simp only
  generalize { v with socks := .alloc (.fd n) :: v.socks } = x at h1 ⊢
  split
  · exact h0
  · split
    · split
      · have h2 := aside_buffereventSocketNew c.buffereventSocketNew n h1
        generalize buffereventSocketNew c.buffereventSocketNew n x = r at h2 ⊢
        obtain ⟨b, y⟩ := r
        cases b with
        | none => exact aside_tcpSocketConnectError _ n h2
        | some b =>
          have h3 := aside_onChan n (fun s => { s with bev := some b }) h2 rfl rfl
          have h4 := aside_tcpSocketConfig c.buffereventEnable n h3
          simp only
          generalize tcpSocketConfig c.buffereventEnable n _ = r at h4 ⊢
          obtain ⟨ok, z⟩ := r
          cases ok with
          | false => exact aside_tcpSocketConnectError _ n h4
          | true =>
            simp only
            split
            · exact aside_of_marks h4 rfl
            · exact aside_tcpSocketConnectError _ n h4
      · exact aside_tcpSocketConnectError _ n h1
    · exact aside_tcpSocketConnectError _ n h0

theorem aside_onChannelBev (n : ℕ) (f : Bufferevent → Bufferevent) (h : Aside w u) :
    Aside w (onChannelBev n f u) := by
  have h1 := aside_onChan n id h rfl rfl
  rw [onChannelBev]
  split
  · exact aside_of_marks h1 rfl
  · exact aside_crash h1

theorem aside_evbufferAdd (ok : Bool) (n : ℕ) (c : Chunk) (h : Aside w u) :
    Aside w (evbufferAdd ok n c u).2 := by
  cases ok with
  | false => exact h
  | true => exact aside_onChannelBev n _ h

theorem aside_evbufferAddAll (ok : ℕ → Bool) (n k : ℕ) (cs : List Chunk) (h : Aside w u) :
    Aside w (evbufferAddAll ok n k cs u).2 := by
  induction cs generalizing k u with
  | nil => exact h
  | cons c cs ih =>
    have ha := aside_evbufferAdd (ok k) n c h
    rw [evbufferAddAll]
    generalize evbufferAdd (ok k) n c u = r at ha ⊢
    obtain ⟨done, v⟩ := r
    cases done with
    | false => exact ha
    | true => exact ih (k + 1) ha

theorem aside_freeSlot (i : Slot) (h : Aside w u) : Aside w (freeSlot i u) := by
  rw [freeSlot]
  apply aside_clearSlot
  split
  · exact aside_httpSessionFree _ h
  · exact h

theorem aside_drop (s : Option CStr) (f : Session → Session) (h : Aside w u)
    (hs : ∀ t, (f t).httpSessions = t.httpSessions) : Aside w (onSession f (freeStr s u)) :=
  aside_onSession f (aside_freeStr s h) (hs _)

theorem aside_sessionFree (h : Aside w u) : Aside w (sessionFree u) := by
  have h1 := aside_freeSlot .joke (aside_freeSlot .name (aside_freeSlot .client h))
  rw [sessionFree]
  generalize freeSlot .joke (freeSlot .name (freeSlot .client u)) = v at h1 ⊢
  have h2 := aside_onSession (fun s => { s with me := none })
    (aside_referenceDec v.session.me h1) rfl
  generalize onSession (fun s => { s with me := none }) (onReference referenceDec v.session.me v) =
    x at h2 ⊢
  have h3 := aside_drop x.session.name (fun s => { s with name := none }) h2
    fun _ => rfl
  generalize onSession (fun s => { s with name := none }) (freeStr x.session.name x) = y at h3 ⊢
  have h4 := aside_drop y.session.surname (fun s => { s with surname := none }) h3
    fun _ => rfl
  generalize onSession (fun s => { s with surname := none }) (freeStr y.session.surname y) = z
    at h4 ⊢
  have h5 := aside_drop z.session.joke (fun s => { s with joke := none }) h4
    fun _ => rfl
  exact aside_of_marks h5 rfl

theorem aside_remove (h : Aside w u) : Aside w (httpServiceSessionRemove u) := by
  have h1 : Aside u { u with registered := false } := by
    refine ⟨{ silent_refl u with registered := ?_ }, rfl⟩
    intro hr
    cases hr
  exact aside_sessionFree (aside_call .sessionRemove (by decide) (aside_trans h h1))

theorem aside_httpServiceFini (h : Aside w u) : Aside w (httpServiceFini u) := by
  have h1 : Aside u { u with registered := false } := by
    refine ⟨{ silent_refl u with registered := ?_ }, rfl⟩
    intro hr
    cases hr
  exact aside_sessionFree (aside_trans h h1)

theorem aside_stateSet_remove (state : SessionState) (h : Aside w u) :
    Aside w (httpServiceSessionRemove (sessionStateSet state u)) :=
  aside_remove (aside_stateSet state h)

theorem aside_clientReadyToClose (h : Aside w u) : Aside w (clientReadyToClose u) := by
  rw [clientReadyToClose]
  have h1 := aside_onSession id h rfl
  generalize onSession id u = v at h1 ⊢
  split
  · exact aside_remove h1
  · exact h1

theorem aside_httpRequest (request : HttpRequest) (c : Choices) (n : ℕ) (h : Aside w u) :
    Aside w (httpRequest request c n u) := by
  have h1 := aside_onSession (fun s => { s with pendingConnections := s.pendingConnections - 1 })
    (aside_touch n h) rfl
  rw [httpRequest, httpRequestWrite]
  generalize onSession (fun s => { s with
    pendingConnections := s.pendingConnections - 1 }) (onHttp n id u) = v at h1 ⊢
  have h2 := aside_touch n h1
  generalize onHttp n id v = x at h2 ⊢
  have h3 := aside_evbufferAddAll c.outputAdd (x.http n).channel 0
    ((request.requestLine :: request.headers ++ [literal "\r\n"]).map fun b => ⟨b, none⟩) h2
  generalize evbufferAddAll c.outputAdd (x.http n).channel 0 _ x = r at h3 ⊢
  obtain ⟨ok, y⟩ := r
  cases ok with
  | false => exact aside_stateSet_remove _ h3
  | true => exact aside_onSession _ h3 rfl

theorem heedless_upstream (idx : Slot) : (upstreamCallbacks idx).readyToClose = none := by
  rw [upstreamCallbacks]
  split <;> rfl

theorem aside_httpServerConnect (c : ConnectChoices) (ss : SockAddr) (idx : Slot)
    (h : Aside w u) : Aside w (httpServerConnect lib c ss idx u) := by
  have h0 : Aside u { u with nextConn := u.nextConn + 1 } :=
    ⟨{ silent_refl u with next := Nat.le_succ _, ctx := fun _ _ hk => .inl hk }, rfl⟩
  refine aside_trans h ?_
  rw [httpServerConnect]
  simp only
  cases h1 : c.tcpSocketNew with
  | false => exact aside_stateSet_remove _ h0
  | true =>
    have hv := aside_tcpSocketNew true u.nextConn h0
    have hnext : (tcpSocketNew true u.nextConn { u with nextConn := u.nextConn + 1 }).2.nextConn =
        u.nextConn + 1 := rfl
    have hchan : ((tcpSocketNew true u.nextConn { u with nextConn := u.nextConn + 1 }).2.chan
        u.nextConn).eof = false := by simp [tcpSocketNew]
    have hnew : tcpSocketNew true u.nextConn { u with nextConn := u.nextConn + 1 } =
        (some u.nextConn, (tcpSocketNew true u.nextConn { u with nextConn := u.nextConn + 1 }).2) :=
      rfl
    rw [hnew]
    generalize (tcpSocketNew true u.nextConn { u with nextConn := u.nextConn + 1 }).2 = v
      at hv hnext hchan ⊢
    simp only
    cases h2 : c.httpSessionNew with
    | false =>
      simp only [httpSessionNew, Bool.false_eq_true, if_false]
      apply aside_stateSet_remove
      exact aside_tcpSocketFree _ hv
    | true =>
      simp only [httpSessionNew, if_true]
      generalize hx : onChan u.nextConn (fun s => { s with ctx := some u.nextConn }) _ = x
      have h3 : Aside u x := by
        rw [← hx]
        refine ⟨⟨⟨hv.calls, hv.next, ?_, hv.registered, hv.slots, ?_, ?_⟩, ?_⟩, hv.requests⟩
        · intro m hm hs
          have hne : m ≠ u.nextConn := by omega
          simpa [onChan, hne] using hv.complete m hm hs
        · intro m hm
          by_cases hmn : m = u.nextConn
          · subst hmn
            simp [onChan, httpSessionInit]
          · simpa [onChan, hmn] using hv.heedless m hm
        · intro k m hk
          by_cases hkn : k = u.nextConn
          · simp only [onChan, hkn, Function.update_self, Option.some.injEq] at hk
            right
            simp only [onChan, hnext]
            omega
          · exact hv.ctx k m (by simpa [onChan, hkn] using hk)
        · intro k hk
          by_cases hkn : k = u.nextConn
          · subst hkn
            simp [onChan, hchan] at hk
          · have hk := hv.eof k (by simpa [onChan, hkn] using hk)
            simpa [onChan, hkn] using hk
      have h4 := aside_tcpSocketConnect c u.nextConn ss h3
      generalize tcpSocketConnect c u.nextConn ss x = r at h4 ⊢
      obtain ⟨result, v⟩ := r
      have h5 : Aside u (onSession (fun s => { setSlot idx (some u.nextConn) s with
          pendingConnections := s.pendingConnections + 1 }) v) := by
        refine ⟨{ h4.toSilent with slots := ?_ }, h4.requests⟩
        intro i m hi
        by_cases hidx : i = idx
        · right
          simp only [onSession, setSlot, hidx, Function.update_self, Option.some.injEq] at hi
          omega
        · exact h4.slots i m (by simpa [onSession, setSlot, hidx] using hi)
      have hgo : Aside u (httpSessionCallbacksSet u.nextConn (upstreamCallbacks idx)
          (onSession (fun s => { setSlot idx (some u.nextConn) s with
            pendingConnections := s.pendingConnections + 1 }) v)) :=
        aside_onHttp _ _ h5 id fun _ => heedless_upstream idx
      cases result with
      | error => exact aside_stateSet_remove _ (aside_httpSessionFree _ h4)
      | success => exact hgo
      | again => exact hgo

theorem aside_dnsRequestFree (r : ℕ) (h : Aside w u) : Aside w (dnsRequestFree r u) := by
  have h1 := aside_onRequest r (fun q => { q with session := none })
    (aside_referenceWeakDec (u.request r).session h)
  rw [dnsRequestFree]
  generalize onRequest r (fun q => { q with session := none }) _ = v at h1 ⊢
  split
  · exact aside_of_marks h1 rfl
  · exact aside_of_marks h1 rfl

theorem aside_handOver (a : Answer) (r : ℕ) (h : Aside w u) : Aside w (handOver a r u) := by
  cases a <;> exact aside_of_marks h rfl

theorem aside_dnsnameResolvedCb (a : Answer) (c : ConnectChoices) (r : ℕ) (host : Host)
    (h : Aside w u) : Aside w (dnsnameResolvedCb lib a c r host u) := by
  have h1 := aside_onRequest r id h
  rw [dnsnameResolvedCb]
  generalize onRequest r id u = v at h1 ⊢
  have h2 := aside_referenceGet (v.request r).session h1
  generalize referenceGet (v.request r).session v = q at h2 ⊢
  obtain ⟨session, x⟩ := q
  simp only at h2 ⊢
  have h3 := aside_dnsRequestFree r (aside_onRequest r (fun q => { q with evdnsReq := false }) h2)
  generalize dnsRequestFree r _ = y at h3 ⊢
  split
  · cases a with
    | error => exact aside_stateSet_remove _ h3
    | addresses families =>
      have h4 : Aside w { y with addrs := .free r :: .use r :: y.addrs } :=
        aside_of_marks h3 rfl
      simp only
      cases families.find? usable with
      | none => exact aside_stateSet_remove _ h4
      | some family => exact aside_httpServerConnect c _ _ (aside_onSession _ h4 rfl)
  · exact h3

theorem aside_dnsnameResolve (c : ResolveChoices) (r : ℕ) (host : Host) (idx : Slot)
    (h : Aside w u) : Aside w (dnsnameResolve lib c r host idx u) := by
  rw [dnsnameResolve]
  split
  · cases c.inside with
    | none =>
      apply aside_onRequest
      exact aside_of_marks h rfl
    | some a =>
      apply aside_onRequest
      exact aside_dnsnameResolvedCb a c.connect r host (aside_handOver a r h)
  · have h1 := aside_referenceGet (u.request r).session h
    generalize referenceGet (u.request r).session u = q at h1 ⊢
    obtain ⟨session, x⟩ := q
    have h2 := aside_dnsRequestFree r h1
    simp only
    split
    · exact aside_stateSet_remove _ h2
    · exact h2

theorem aside_dnsRequestNew (lib : Libs P) (c : ResolveChoices) (host : Host) (idx : Slot) (h : Aside w u) :
    Aside w (dnsRequestNew lib c host idx u).2 := by
  rw [dnsRequestNew]
  split
  · simp only
    refine aside_onSession _ ?_ rfl
    apply aside_dnsnameResolve
    apply aside_referenceWeakInc
    apply aside_onRequest
    exact aside_of_marks h rfl
  · exact h

theorem aside_sessionReferenceNew (ok : Bool) (h : Aside w u) :
    Aside w (sessionReferenceNew ok u).2 := by
  cases ok <;> exact aside_of_marks h rfl

theorem aside_clientMsgComplete (lib : Libs P) (c : Choices) (n : ℕ) (w : World P) :
    Aside (call .clientMsgComplete (onHttp n id w)) (clientMsgComplete lib c n w) := by
  have h0 := aside_refl (call .clientMsgComplete (onHttp n id w))
  rw [clientMsgComplete]
  have h1 := aside_sessionReferenceNew c.referenceNew h0
  generalize sessionReferenceNew c.referenceNew _ = r at h1 ⊢
  obtain ⟨me, x⟩ := r
  have h2 := aside_onSession (fun s => { s with me := me }) h1 rfl
  simp only
  generalize onSession (fun s => { s with me := me }) x = y at h2 ⊢
  split
  · exact aside_remove h2
  · have h3 := aside_dnsRequestNew lib c.nameRequest .uinames .name h2
    generalize dnsRequestNew lib c.nameRequest .uinames .name y = r at h3 ⊢
    obtain ⟨ok, z⟩ := r
    cases ok with
    | false => exact aside_remove h3
    | true =>
      have h4 := aside_dnsRequestNew lib c.jokeRequest .icndb .joke h3
      simp only
      generalize dnsRequestNew lib c.jokeRequest .icndb .joke z = r at h4 ⊢
      obtain ⟨ok, t⟩ := r
      cases ok with
      | false => exact aside_remove h4
      | true => exact aside_stateSet _ h4

theorem aside_jokeString (malloc : ℕ → Bool) (joke token new : Bytes) (h : Aside w u) :
    Aside w (jokeString malloc joke token new u).2 := by
  rw [jokeString]
  split
  · exact aside_crash h
  · exact h
  · exact aside_strdup true _ h

theorem aside_clientResponseCreate (c : Choices) (h : Aside w u) :
    Aside w (clientResponseCreate c u).2 := by
  have h1 := aside_call (.clientResponseCreate ((onSession id u).session.name.isSome &&
    (onSession id u).session.surname.isSome && (onSession id u).session.joke.isSome)) (by simp)
    (aside_onSession id h rfl)
  rw [clientResponseCreate]
  generalize call _ (onSession id u) = v at h1 ⊢
  simp only
  split
  · next name surname joke _ _ _ =>
    have h2 := aside_jokeString c.mallocFirst joke.bytes (literal "Eduardo") name.bytes h1
    generalize jokeString c.mallocFirst joke.bytes (literal "Eduardo") name.bytes v = r at h2 ⊢
    obtain ⟨newJoke, x⟩ := r
    have h3 := aside_drop (some name) (fun s => { s with name := none }) h2 fun _ => rfl
    cases newJoke with
    | none => exact h3
    | some between =>
      have h4 := aside_drop (some joke) (fun s => { s with joke := none }) h3 fun _ => rfl
      simp only
      generalize onSession (fun s => { s with joke := none }) (freeStr (some joke) _) = y at h4 ⊢
      have h5 := aside_jokeString c.mallocSecond between.bytes (literal "Panisset") surname.bytes h4
      generalize jokeString c.mallocSecond between.bytes (literal "Panisset") surname.bytes y = r
        at h5 ⊢
      obtain ⟨last, z⟩ := r
      exact aside_freeStr (some between)
        (aside_drop (some surname) (fun s => { s with surname := none }) h5 fun _ => rfl)
  · exact aside_crash h1

theorem aside_httpResponseWrite (c : Choices) (n : ℕ) (body : CStr) (h : Aside w u) :
    Aside w (httpResponseWrite c n body u).2 := by
  have h1 := aside_call .httpResponseWrite (by decide) (aside_touch n h)
  rw [httpResponseWrite]
  generalize call .httpResponseWrite (onHttp n id u) = v at h1 ⊢
  cases c.datetime with
  | none => exact h1
  | some datetime =>
    have h2 := aside_evbufferAddAll c.outputAdd (v.http n).channel 0
      ((responseHead datetime body.bytes.length).map fun b => ⟨b, none⟩) h1
    simp only
    generalize evbufferAddAll c.outputAdd (v.http n).channel 0 _ v = r at h2 ⊢
    obtain ⟨ok, x⟩ := r
    cases ok with
    | false => exact h2
    | true =>
      have h3 := aside_evbufferAdd (c.outputAdd 6) (v.http n).channel ⟨body.bytes, some body⟩ h2
      simp only
      generalize evbufferAdd (c.outputAdd 6) (v.http n).channel _ x = r at h3 ⊢
      obtain ⟨ok, y⟩ := r
      cases ok with
      | false => exact aside_freeStr (some body) h3
      | true => exact h3

theorem aside_httpClientResponse (c : Choices) (h : Aside w u) :
    Aside w (httpClientResponse c u) := by
  have h1 := aside_onSession id h rfl
  rw [httpClientResponse]
  generalize onSession id u = v at h1 ⊢
  simp only
  split
  · have h2 := aside_clientResponseCreate c h1
    generalize clientResponseCreate c v = r at h2 ⊢
    obtain ⟨response, x⟩ := r
    simp only at h2 ⊢
    split
    · exact h2
    · cases response with
      | none => exact aside_stateSet_remove _ h2
      | some body =>
        cases v.session.httpSessions .client with
        | none => exact aside_crash h2
        | some k =>
          have h3 := aside_httpResponseWrite c k body h2
          simp only
          generalize httpResponseWrite c k body x = r at h3 ⊢
          obtain ⟨ok, y⟩ := r
          cases ok with
          | false => exact aside_stateSet_remove _ h3
          | true => exact aside_stateSet _ h3
  · exact h1

theorem aside_unpack (lib : Libs P) (c : Choices) (idx : Slot) (p : Bytes) (h : Aside w u) :
    Aside w (unpack lib c idx p u).2 := by
  rw [unpack]
  split
  · rw [unpackName]
    cases lib.jsonName p with
    | none => exact h
    | some pair =>
      obtain ⟨name, surname⟩ := pair
      have h1 := aside_strdup c.strdupFirst name h
      simp only
      generalize strdup c.strdupFirst name u = r at h1 ⊢
      obtain ⟨s, x⟩ := r
      have h2 := aside_onSession (fun t => { t with name := s }) h1 rfl
      simp only
      split
      · exact h2
      · simp only
        refine aside_onSession _ ?_ rfl
        exact aside_strdup c.strdupSecond surname h2
  · rw [unpackJoke]
    cases lib.jsonJoke p with
    | none => exact h
    | some joke =>
      simp only
      refine aside_onSession _ ?_ rfl
      exact aside_strdup c.strdupFirst joke h

theorem aside_httpResponse (lib : Libs P) (idx : Slot) (c : Choices) (n : ℕ) (h : Aside w u) :
    Aside w (httpResponse lib idx c n u) := by
  have h1 := aside_onSession (fun s => { s with pendingReplies := s.pendingReplies - 1 })
    (aside_call (.reply idx) (by simp) (aside_touch n h)) rfl
  rw [httpResponse]
  generalize onSession (fun s => { s with pendingReplies := s.pendingReplies - 1 }) _ = v at h1 ⊢
  simp only
  split
  · exact aside_crash h1
  · next body _ =>
    split
    · exact aside_stateSet_remove _ h1
    · have h2 := aside_unpack lib c idx body h1
      generalize unpack lib c idx body v = r at h2 ⊢
      obtain ⟨ok, x⟩ := r
      cases ok with
      | false => exact aside_stateSet_remove _ h2
      | true =>
        apply aside_httpClientResponse
        apply aside_clearSlot
        exact aside_httpSessionFree n (aside_onSession _ h2 (markReplied_fields _).1)

theorem silent_httpSessionCb (lib : Libs P) (c : Choices) (n : ℕ) (cb : HttpSessionCb)
    (w : World P) : Silent w (httpSessionCb lib c n w cb) := by
  have h := aside_refl w
  cases cb with
  | clientMsgComplete =>
    have h1 : Silent w (call .clientMsgComplete (onHttp n id w)) :=
      silent_trans (aside_touch n h).toSilent
        { silent_refl (onHttp n id w) with calls := List.suffix_cons _ _ }
    exact silent_trans h1 (aside_clientMsgComplete lib c n w).toSilent
  | clientReadyToClose => exact (aside_clientReadyToClose (aside_touch n h)).toSilent
  | httpRequestName => exact (aside_httpRequest _ c n h).toSilent
  | httpResponseName => exact (aside_httpResponse lib .name c n h).toSilent
  | httpRequestJoke => exact (aside_httpRequest _ c n h).toSilent
  | httpResponseJoke => exact (aside_httpResponse lib .joke c n h).toSilent

theorem silent_callBack (lib : Libs P) (c : Choices) (n : ℕ) (cb : Option HttpSessionCb)
    (h : Silent w u) : Silent w (callBack lib c n cb u) := by
  cases cb with
  | none => exact h
  | some cb => exact silent_trans h (silent_httpSessionCb lib c n cb u)

theorem silent_shouldClose (lib : Libs P) (c : Choices) (n k : ℕ) (h : Silent w u) :
    Silent w (httpSessionChannelShouldClose lib c n k u).2 := by
  have h1 := silent_trans h (aside_touch k (aside_onChan n id (aside_refl u) rfl rfl)).toSilent
  rw [httpSessionChannelShouldClose]
  generalize onHttp k id (onChan n id u) = v at h1 ⊢
  split
  · exact silent_callBack lib c k _ h1
  · exact h1

theorem silent_httpSessionEventCb (lib : Libs P) (c : Choices) (n k : ℕ) (event : IoChannelEvent)
    (h : Silent w u) : Silent w (httpSessionEventCb lib c n k event u) := by
  have h1 := silent_trans h (aside_touch k (aside_refl u)).toSilent
  rw [httpSessionEventCb]
  generalize onHttp k id u = v at h1 ⊢
  split
  · exact silent_trans h1 (aside_remove (aside_refl v)).toSilent
  · split
    · exact silent_callBack lib c k _ h1
    · split
      · exact silent_shouldClose lib c n k h1
      · split
        · exact silent_trans h1 (aside_remove (aside_refl v)).toSilent
        · exact h1

theorem httpSessionRead_complete (exec : Execute P) (c : ReadChoices) (s : HttpSession P)
    (input : List UInt8) (hs : s.state = .messageComplete) :
    (httpSessionRead exec c s input).2.1.state = .messageComplete := by
  rw [httpSessionRead]
  split
  · exact hs
  · rw [readFuel, readLoop, readTurn]
    simp only [hs]
    by_cases hd : c.drain (2 * input.length + 5) = true
    · rw [if_pos hd]
    · rw [if_neg hd]
      exact hs

theorem silent_httpSessionReadCb (lib : Libs P) (c : Choices) (n k : ℕ) (h : Silent w u) :
    Silent w (httpSessionReadCb lib c n k u) := by
  have h1 := silent_shouldClose lib c n k h
  rw [httpSessionReadCb]
  generalize httpSessionChannelShouldClose lib c n k u = r at h1 ⊢
  obtain ⟨done, v⟩ := r
  cases done with
  | true => exact h1
  | false =>
    have hs := httpSessionRead_complete (httpParserExecute lib.httpParser c.read) c.read (v.http k)
      (channelGetInput n v)
    have hf := (httpSessionRead_framed lib.httpParser c.read (v.http k) (channelGetInput n v)).2
    simp only
    generalize httpSessionRead _ c.read (v.http k) (channelGetInput n v) = r at hs hf ⊢
    obtain ⟨exit, s, input⟩ := r
    have h2 := aside_onChannelBev n (fun e => { e with input := input })
      (aside_onHttp k (fun _ => s) (aside_refl v) hs fun hc => by rw [hf]; exact hc)
    cases exit with
    | returned => exact silent_trans h1 h2.toSilent
    | messageComplete => exact silent_callBack lib c k _ (silent_trans h1 h2.toSilent)
    | failed => exact silent_trans h1 (aside_remove h2).toSilent
    | diverged => exact silent_trans h1 (aside_crash h2).toSilent

theorem aside_alterBev (n : ℕ) (f : Bufferevent → Bufferevent) (h : Aside w u) :
    Aside w (alterBev n f u) :=
  aside_of_marks h rfl

theorem silent_service (n : ℕ) (f : ℕ → World P → World P)
    (hf : ∀ k u, Silent w u → Silent w (f k u)) (h : Silent w u) : Silent w (service n f u) := by
  have h1 := silent_trans h (aside_onChan n id (aside_refl u) rfl rfl).toSilent
  rw [service]
  generalize onChan n id u = v at h1 ⊢
  split
  · exact hf _ _ h1
  · exact h1

theorem silent_deliver (n : ℕ) (f : ℕ → World P → World P)
    (hf : ∀ k u, Silent w u → Silent w (f k u)) (h : Silent w u) : Silent w (deliver n f u) := by
  rw [deliver]
  split
  · exact hf _ _ h
  · exact h

def reportsEof (w : World P) (k : ℕ) : Event → Bool
  | .eventCb n events _ => (w.bev n).cbarg = some k && (ioEvent events).eof
  | _ => false

structure Follows (w : World P) (e : Event) (w' : World P) : Prop extends Later w w' where
  eof : ∀ k, (w'.chan k).eof = true →
    ((w.chan k).eof = true ∨ reportsEof w k e = true) ∧ (w'.chan k).ctx = (w.chan k).ctx

theorem follows_of_silent {e : Event} (h : Silent w u) : Follows w e u :=
  ⟨h.toLater, fun k hk => ⟨.inl (h.eof k hk).1, (h.eof k hk).2⟩⟩

theorem follows_eventCb (lib : Libs P) (c : Choices) (n : ℕ) (events : BevEvents) (w : World P) :
    Follows w (.eventCb n events c) (next lib w (.eventCb n events c)) := by
  have h1 := aside_alterBev n (fun e => { e with
    connecting := e.connecting && !events.connected }) (aside_refl w)
  have hcb : ((alterBev n (fun e => { e with
      connecting := e.connecting && !events.connected }) w).bev n).cbarg = (w.bev n).cbarg := by
    simp [alterBev]
  have h1ctx : (fun m => ((alterBev n (fun e => { e with
      connecting := e.connecting && !events.connected }) w).chan m).ctx) =
      fun m => (w.chan m).ctx := rfl
  rw [next, deliver]
  generalize alterBev n _ w = v at h1 hcb h1ctx ⊢
  split
  · next k hk =>
    have h2 : Silent (onChan k (fun s => { s with eof := s.eof || (ioEvent events).eof }) v)
        (tcpSocketEventCb lib c k events v) := by
      rw [tcpSocketEventCb]
      split
      · exact silent_httpSessionEventCb lib c k _ _ (silent_refl _)
      · exact (aside_crash (aside_refl _)).toSilent
    have hk : (w.bev n).cbarg = some k := hcb.symm.trans hk
    refine ⟨later_trans (later_trans h1.toLater ?_) h2.toLater, ?_⟩
    · refine { later_refl v with ctx := ?_ }
      intro m j hj
      by_cases hm : m = k
      · subst hm
        exact .inl (by simpa [onChan] using hj)
      · exact .inl (by simpa [onChan, hm] using hj)
    · intro m hm
      obtain ⟨hm, hctx⟩ := h2.eof m hm
      by_cases hmk : m = k
      · subst hmk
        simp only [onChan, Function.update_self, Bool.or_eq_true] at hm hctx
        have hold : (v.chan m).ctx = (w.chan m).ctx := congrFun h1ctx m
        refine ⟨?_, hctx.trans hold⟩
        rcases hm with hm | hm
        · exact .inl (h1.eof m hm).1
        · exact .inr (by simp [reportsEof, hk, hm])
      · simp only [onChan, hmk, ne_eq, not_false_eq_true, Function.update_of_ne] at hm hctx
        exact ⟨.inl (h1.eof m hm).1, hctx.trans (h1.eof m hm).2⟩
  · exact follows_of_silent h1.toSilent

theorem aside_flushOutput (n k : ℕ) (h : Aside w u) : Aside w (flushOutput n k u) :=
  aside_of_marks h rfl

theorem follows_next (lib : Libs P) (e : Event) (w : World P) (he : ∀ c, e ≠ .accept c) :
    Follows w e (next lib w e) := by
  have h := aside_refl w
  cases e with
  | accept c => exact absurd rfl (he c)
  | arrive n data =>
    apply follows_of_silent
    exact (aside_alterBev n (fun e => { e with input := e.input ++ data }) h).toSilent
  | flush n k => exact follows_of_silent (aside_flushOutput n k h).toSilent
  | readCb n c =>
    apply follows_of_silent
    apply silent_deliver n _ _ h.toSilent
    intro k u hu
    exact silent_service k _ (fun m v hv => silent_httpSessionReadCb lib c k m hv) hu
  | writeCb n c =>
    apply follows_of_silent
    apply silent_deliver n _ _ h.toSilent
    intro k u hu
    exact silent_service k _ (fun m v hv => silent_shouldClose lib c k m hv) hu
  | eventCb n events c => exact follows_eventCb lib c n events w
  | dnsCb r a c =>
    apply follows_of_silent
    rw [next]
    split
    · apply Aside.toSilent
      apply aside_dnsnameResolvedCb
      apply aside_handOver
      exact aside_of_marks h rfl
    · exact h.toSilent
  | fini => exact follows_of_silent (aside_httpServiceFini h).toSilent

end Tigera.SessionHistory
