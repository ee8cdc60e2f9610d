import TigeraWebservice.InsertOnceTable
import TigeraWebservice.LockedObject

/-!
# The hash table among threads

`hashtable_add` and `hashtable_find` in the steps they take between the calls of
`rwlock`: the bucket is computed before the lock is taken, its nodes are visited
one at a time, and a new node is made before it is linked. The answers of any
number of threads are those of an insert-once map, in the order in which the
calls give the lock back.
-/

set_option autoImplicit false

namespace Tigera.SharedTable
open TransitionRuns LockedObject LinkChain CellChain Tigera.SinglyLinkedList Tigera.HashTable
open InsertOnceMap Tigera.InsertOnceTable

variable {α K : Type*}

inductive Point (α K : Type*) where
  | counting (ok : Bool) (value : Option α) (key : K) (bucket : ℕ)
  | adding (ok : Bool) (value : Option α) (key : K) (bucket : ℕ) (node : Option ℕ)
  | pushing (ok : Bool) (value : Option α) (bucket : ℕ)
  | linking (value : Option α) (bucket : ℕ) (a : ℕ)
  | opening (key : K) (bucket : ℕ)
  | finding (key : K) (node : Option ℕ)
  | reading (a : ℕ)

def pointOf : Op α K → ℕ → Point α K
  | .add ok value key, bucket => .counting ok value key bucket
  | .find key, bucket => .opening key bucket

def keyOfOp : Op α K → K
  | .add _ _ key => key
  | .find key => key

/-- One comparison of `_hashtable_find`; `none` is a null node. -/
def visit (t : Hashtable α K) (key : K) (a : ℕ) : Option (Bool × Option ℕ) :=
  (t.buckets.node a).map fun n => (t.cmp n.data key = 0, n.next)

/-- `hashtable_add` counts before it searches. -/
def counted (t : Hashtable α K) (bucket : ℕ) : Hashtable α K :=
  if t.buckets.head bucket ≠ none then { t with collisions := t.collisions + 1 } else t

def lockedStep : Point α K → Hashtable α K →
    Option ((Point α K ⊕ Outcome α) × Hashtable α K)
  | .counting ok value key bucket, t =>
    some (.inl (.adding ok value key bucket (t.buckets.head bucket)), counted t bucket)
  | .adding ok value _ bucket none, t => some (.inl (.pushing ok value bucket), t)
  | .adding ok value key bucket (some a), t =>
    match visit t key a with
    | none => none
    | some (true, _) => some (.inr (.error .found), t)
    | some (false, next) => some (.inl (.adding ok value key bucket next), t)
  | .pushing ok value bucket, t =>
    match snodeNew ok t.buckets with
    | (none, buckets) => some (.inr (.error .error), { t with buckets := buckets })
    | (some a, buckets) => some (.inl (.linking value bucket a), { t with buckets := buckets })
  | .linking value bucket a, t =>
    some (.inr (.error .success), { t with buckets := { t.buckets with
      node := Function.update t.buckets.node a (some ⟨t.buckets.head bucket, value⟩)
      head := Function.update t.buckets.head bucket (some a) } })
  | .opening key bucket, t => some (.inl (.finding key (t.buckets.head bucket)), t)
  | .finding _ none, t => some (.inr (.value none), t)
  | .finding key (some a), t =>
    match visit t key a with
    | none => none
    | some (true, _) => some (.inl (.reading a), t)
    | some (false, next) => some (.inl (.finding key next), t)
  | .reading a, t => (t.buckets.node a).map fun n => (.inr (.value n.data), t)

/-- The calls of the table under its lock. -/
def calls : Program (Hashtable α K) (Op α K) (Outcome α) (Point α K) where
  mode
    | .add _ _ _ => .exclusive
    | .find _ => .shared
  prepare op t := (hashtableGetBucket (keyOfOp op) t).map (pointOf op)
  step := lockedStep

def Reads : Point α K → Prop
  | .opening _ _ | .finding _ _ | .reading _ => True
  | _ => False

variable {t u : Hashtable α K} {key : K} {l : Point α K} {x : Point α K ⊕ Outcome α}

theorem lockedStep_alike (h : lockedStep l t = some (x, u)) : Alike t u := by
  have hsame : ∀ {y : Point α K ⊕ Outcome α}, some (y, t) = some (x, u) → Alike t u := by
    intro y he
    rw [← (Prod.mk.inj (Option.some.inj he)).2]
    exact alike_refl t
  cases l with
  | counting ok value key bucket =>
    obtain ⟨-, rfl⟩ := Prod.mk.inj (Option.some.inj h)
    rw [counted]
    split <;> exact ⟨rfl, rfl, rfl, rfl⟩
  | adding ok value key bucket node =>
    cases node with
    | none => exact hsame h
    | some a =>
      simp only [lockedStep] at h
      split at h
      · cases h
      · exact hsame h
      · exact hsame h
  | pushing ok value bucket =>
    cases ok with
    | false =>
      obtain ⟨-, rfl⟩ := Prod.mk.inj (Option.some.inj h)
      exact ⟨rfl, rfl, rfl, rfl⟩
    | true =>
      obtain ⟨-, rfl⟩ := Prod.mk.inj (Option.some.inj h)
      exact ⟨rfl, rfl, rfl, rfl⟩
  | linking value bucket a =>
    obtain ⟨-, rfl⟩ := Prod.mk.inj (Option.some.inj h)
    exact ⟨rfl, rfl, rfl, rfl⟩
  | opening key bucket => exact hsame h
  | finding key node =>
    cases node with
    | none => exact hsame h
    | some a =>
      simp only [lockedStep] at h
      split at h
      · cases h
      · exact hsame h
      · exact hsame h
  | reading a =>
    obtain ⟨n, -, he⟩ := Option.map_eq_some_iff.mp h
    exact hsame (congrArg some he)

theorem lockedStep_reads (hl : Reads l) (h : lockedStep l t = some (x, u)) :
    u = t ∧ ∀ l', x = .inl l' → Reads l' := by
  cases l with
  | opening key bucket =>
    obtain ⟨rfl, rfl⟩ := Prod.mk.inj (Option.some.inj h)
    exact ⟨rfl, fun l' he => Sum.inl.inj he ▸ trivial⟩
  | finding key node =>
    cases node with
    | none =>
      obtain ⟨rfl, rfl⟩ := Prod.mk.inj (Option.some.inj h)
      exact ⟨rfl, fun l' he => nomatch he⟩
    | some a =>
      simp only [lockedStep] at h
      split at h
      · cases h
      · obtain ⟨rfl, rfl⟩ := Prod.mk.inj (Option.some.inj h)
        exact ⟨rfl, fun l' he => Sum.inl.inj he ▸ trivial⟩
      · obtain ⟨rfl, rfl⟩ := Prod.mk.inj (Option.some.inj h)
        exact ⟨rfl, fun l' he => Sum.inl.inj he ▸ trivial⟩
  | reading a =>
    obtain ⟨n, -, he⟩ := Option.map_eq_some_iff.mp h
    obtain ⟨rfl, rfl⟩ := Prod.mk.inj he
    exact ⟨rfl, fun l' he => nomatch he⟩
  | _ => exact absurd hl id

theorem getBucket_alike (h : Alike t u) (key : K) :
    hashtableGetBucket key u = hashtableGetBucket key t := by
  rw [hashtableGetBucket, h.nrBuckets, bucketOf_alike h, hashtableGetBucket]

theorem calls_lawful : Lawful (calls : Program (Hashtable α K) (Op α K) (Outcome α) (Point α K)) := by
  apply lawful_of_reading Reads
  · intro op l s x s' h
    show (hashtableGetBucket _ s').map _ = _
    rw [getBucket_alike (lockedStep_alike h)]
    rfl
  · intro op s l hm hl
    cases op with
    | add ok value key => cases hm
    | find key =>
      obtain ⟨bucket, -, rfl⟩ := Option.map_eq_some_iff.mp hl
      trivial
  · exact fun l s x s' hl h => lockedStep_reads hl h

theorem visit_some {a : ℕ} {n : Cell ℕ (Option α)} (hn : t.buckets.node a = some n) :
    visit t key a = some (decide (t.cmp n.data key = 0), n.next) := by
  rw [visit, hn]
  rfl

theorem adding_steps {ok : Bool} {value : Option α} {bucket fuel : ℕ} {p r : Option ℕ}
    (h : hashtableFindNode t key fuel p = some r) :
    (r = none → ∀ o u, Steps calls (.pushing ok value bucket) t o u →
        Steps calls (.adding ok value key bucket p) t o u) ∧
      (r ≠ none → Steps calls (.adding ok value key bucket p) t (.error .found) t) := by
  induction fuel generalizing p with
  | zero =>
    cases p with
    | none =>
      obtain rfl := Option.some.inj h
      exact ⟨fun _ o u hs => .more rfl hs, fun hne => absurd rfl hne⟩
    | some a => cases h
  | succ fuel ih =>
    cases p with
    | none =>
      obtain rfl := Option.some.inj h
      exact ⟨fun _ o u hs => .more rfl hs, fun hne => absurd rfl hne⟩
    | some a =>
      rw [hashtableFindNode] at h
      cases hn : t.buckets.node a with
      | none =>
        rw [hn] at h
        cases h
      | some n =>
        rw [hn] at h
        by_cases hk : t.cmp n.data key = 0
        · simp only [hk, if_true] at h
          obtain rfl := Option.some.inj h
          have hstep : lockedStep (.adding ok value key bucket (some a)) t =
              some (.inr (.error .found), t) := by
            simp only [lockedStep, visit_some hn, hk, decide_true]
          exact ⟨fun he => absurd he (Option.some_ne_none a), fun _ => .last hstep⟩
        · simp only [hk, if_false] at h
          have hstep : lockedStep (.adding ok value key bucket (some a)) t =
              some (.inl (.adding ok value key bucket n.next), t) := by
            simp only [lockedStep, visit_some hn, hk, decide_false]
          obtain ⟨h1, h2⟩ := ih h
          exact ⟨fun hr o u hs => .more hstep (h1 hr o u hs), fun hr => .more hstep (h2 hr)⟩

theorem finding_steps {fuel : ℕ} {p r : Option ℕ} (h : hashtableFindNode t key fuel p = some r) :
    (r = none → Steps calls (.finding key p) t (.value none) t) ∧
      ∀ a n, r = some a → t.buckets.node a = some n →
        Steps calls (.finding key p) t (.value n.data) t := by
  induction fuel generalizing p with
  | zero =>
    cases p with
    | none =>
      obtain rfl := Option.some.inj h
      exact ⟨fun _ => .last rfl, fun a n he => absurd he.symm (Option.some_ne_none a)⟩
    | some a => cases h
  | succ fuel ih =>
    cases p with
    | none =>
      obtain rfl := Option.some.inj h
      exact ⟨fun _ => .last rfl, fun a n he => absurd he.symm (Option.some_ne_none a)⟩
    | some a =>
      rw [hashtableFindNode] at h
      cases hn : t.buckets.node a with
      | none =>
        rw [hn] at h
        cases h
      | some n =>
        rw [hn] at h
        by_cases hk : t.cmp n.data key = 0
        · simp only [hk, if_true] at h
          obtain rfl := Option.some.inj h
          refine ⟨fun he => absurd he (Option.some_ne_none a), ?_⟩
          rintro b m he hm
          obtain rfl := Option.some.inj he
          have hstep : lockedStep (.finding key (some a)) t = some (.inl (.reading a), t) := by
            simp only [lockedStep, visit_some hn, hk, decide_true]
          have hread : lockedStep (.reading a) t = some (.inr (.value m.data), t) := by
            rw [lockedStep, hm]
            rfl
          exact .more hstep (.last hread)
        · simp only [hk, if_false] at h
          have hstep : lockedStep (.finding key (some a)) t = some (.inl (.finding key n.next), t) := by
            simp only [lockedStep, visit_some hn, hk, decide_false]
          obtain ⟨h1, h2⟩ := ih h
          exact ⟨fun hr => .more hstep (h1 hr), fun b m hb hm => .more hstep (h2 b m hb hm)⟩

theorem pushing_steps (ok : Bool) (value : Option α) (bucket : ℕ) (t : Hashtable α K) :
    Steps calls (.pushing ok value bucket) t
      (.error (if ok then .success else .error))
      { t with buckets := (slistPushFront ok bucket value t.buckets).2 } := by
  cases ok with
  | false => exact .last rfl
  | true => exact .more rfl (.last rfl)

theorem executes_perform {op : Op α K} {o : Outcome α} (h : perform op t = some (o, u)) :
    Executes calls op t o u := by
  cases op with
  | find key =>
    obtain ⟨v, hv, he⟩ := Option.map_eq_some_iff.mp h
    obtain ⟨rfl, rfl⟩ := Prod.mk.inj he
    cases hb : hashtableGetBucket key t with
    | none =>
      rw [hashtableFind, hb] at hv
      cases hv
    | some bucket =>
      have hprepare : calls.prepare (.find key) t = some (.opening key bucket) := by
        show (hashtableGetBucket key t).map _ = _
        rw [hb]
        rfl
      refine ⟨_, hprepare, .more rfl ?_⟩
      rw [hashtableFind, hb] at hv
      simp only at hv
      split at hv
      · cases hv
      · next hfind =>
        obtain rfl := Option.some.inj hv
        exact (finding_steps hfind).1 rfl
      · next a hfind =>
        obtain ⟨n, hn, rfl⟩ := Option.map_eq_some_iff.mp hv
        exact (finding_steps hfind).2 a n rfl hn
  | add ok value key =>
    obtain ⟨⟨e, u'⟩, hadd, he⟩ := Option.map_eq_some_iff.mp h
    obtain ⟨rfl, rfl⟩ := Prod.mk.inj he
    cases hb : hashtableGetBucket key t with
    | none =>
      rw [hashtableAdd, hb] at hadd
      cases hadd
    | some bucket =>
      have hprepare : calls.prepare (.add ok value key) t = some (.counting ok value key bucket) := by
        show (hashtableGetBucket key t).map _ = _
        rw [hb]
        rfl
      have hbuckets : (counted t bucket).buckets = t.buckets := by
        rw [counted]
        split <;> rfl
      have hcount : calls.step (.counting ok value key bucket) t = some (.inl (.adding ok value key
          bucket (t.buckets.head bucket)), counted t bucket) := rfl
      refine ⟨_, hprepare, .more hcount ?_⟩
      rw [← hbuckets]
      rw [hashtableAdd, hb] at hadd
      simp only at hadd
      rw [← counted] at hadd
      split at hadd
      · cases hadd
      · next hfind =>
        obtain ⟨rfl, rfl⟩ := Prod.mk.inj (Option.some.inj hadd)
        exact (adding_steps hfind).2 (Option.some_ne_none _)
      · next hfind =>
        refine (adding_steps hfind).1 rfl _ _ ?_
        have hpush := pushing_steps ok value bucket (counted t bucket)
        cases ok with
        | false =>
          obtain ⟨rfl, rfl⟩ := Prod.mk.inj (Option.some.inj hadd)
          exact hpush
        | true =>
          obtain ⟨rfl, rfl⟩ := Prod.mk.inj (Option.some.inj hadd)
          exact hpush

section threads
variable {κ ν τ : Type*} [DecidableEq κ] [DecidableEq τ] (keyOf : ν → κ)

/-- The calls that insert-once maps know: a value is added under its own key. -/
def requests : Program (Hashtable ν κ) (Request κ ν) (Outcome ν) (Point ν κ) :=
  calls.through (call keyOf)

def answer (vs : List ν) (r : Request κ ν) : Outcome ν × List ν :=
  (outcome (serve keyOf vs r).1, (serve keyOf vs r).2)

def Holding (settings t : Hashtable ν κ) (vs : List ν) : Prop :=
  Alike settings t ∧ ∃ xs, Stores keyOf t xs vs

variable {keyOf} {settings t u : Hashtable ν κ} {vs : List ν} {r : Request κ ν} {o : Outcome ν}

omit [DecidableEq κ] in
theorem requests_lawful :
    Lawful (requests keyOf : Program (Hashtable ν κ) (Request κ ν) (Outcome ν) (Point ν κ)) :=
  lawful_through (call keyOf) calls_lawful

theorem executes_answer (h : Holding keyOf settings t vs) (r : Request κ ν) :
    ∃ u, Executes (requests keyOf) r t (answer keyOf vs r).1 u ∧
      Holding keyOf settings u (answer keyOf vs r).2 := by
  obtain ⟨ha, xs, hs⟩ := h
  obtain ⟨u, ys, hperform, hau, hu⟩ := perform_serves hs r
  exact ⟨u, executes_through.mpr (executes_perform hperform), alike_trans ha hau, ys, hu⟩

theorem answers_simulated (h : Holding keyOf settings t vs) (he : Executes (requests keyOf) r t o u) :
    o = (answer keyOf vs r).1 ∧ Holding keyOf settings u (answer keyOf vs r).2 := by
  obtain ⟨u', he', hu'⟩ := executes_answer h r
  obtain ⟨rfl, rfl⟩ := executes_unique he' he
  exact ⟨rfl, hu'⟩

theorem replies_history (vs : List ν) (rs : List (Request κ ν)) :
    replies (answer keyOf) vs rs = (history keyOf vs rs).map fun e => (e.1, outcome e.2) := by
  induction rs generalizing vs with
  | nil => rfl
  | cons r rs ih =>
    rw [replies, history, List.map_cons, ih]
    rfl

theorem kept_history (vs : List ν) (rs : List (Request κ ν)) :
    rs.foldl (fun vs r => (answer keyOf vs r).2) vs =
      vs ++ (history keyOf vs rs).filterMap added := by
  induction rs generalizing vs with
  | nil => exact (List.append_nil vs).symm
  | cons r rs ih => rw [kept_cons, List.foldl_cons, ih, answer]

theorem serial_history {log : List (Request κ ν × Outcome ν)} (h : Holding keyOf settings t vs)
    (hs : Serial (requests keyOf) t log u) : ∃ rs,
      log = (history keyOf vs rs).map (fun e => (e.1, outcome e.2)) ∧
      Holding keyOf settings u (vs ++ (history keyOf vs rs).filterMap added) := by
  have sim : ∀ (t : Hashtable ν κ) (vs : List ν) r o u, Holding keyOf settings t vs →
      Executes (requests keyOf) r t o u →
        o = (answer keyOf vs r).1 ∧ Holding keyOf settings u (answer keyOf vs r).2 :=
    fun t vs r o u ht he => answers_simulated ht he
  obtain ⟨hu, hlog⟩ := serial_simulates sim hs h
  refine ⟨log.map Prod.fst, ?_, ?_⟩
  · rw [← replies_history]
    exact hlog
  · rw [← kept_history]
    exact hu

theorem answering_of_holding (h : Holding keyOf settings t vs) :
    Answering (requests keyOf) t := by
  intro log u hs r
  obtain ⟨rs, -, hu⟩ := serial_history h hs
  obtain ⟨u', he, -⟩ := executes_answer hu r
  exact ⟨_, u', he⟩

omit [DecidableEq κ] in
theorem holding_new {cmp : Option ν → κ → ℤ} {hash : κ → UInt32} {valueFree : Bool} {nr : ℕ}
    {table array lock : Bool} (hnr : 1 ≤ nr) (hcmp : ∀ v k, cmp (some v) k = 0 ↔ k = keyOf v)
    (hnew : hashtableNew cmp hash valueFree nr table array lock = some t) : Holding keyOf t t [] := by
  rw [hashtableNew_spec hnew]
  exact ⟨alike_refl _, fun _ => [], stores_new hnr hcmp⟩

abbrev Threads (τ κ ν : Type*) := State τ (Hashtable ν κ) (Request κ ν) (Outcome ν) (Point ν κ)

/-- The calls that have returned in the state `w`, which `w'` follows, are the
history `h` of an insert-once map; between two writers the table holds the
values that have been stored. -/
structure Linearized (keyOf : ν → κ) (t : Hashtable ν κ) (h : List (Request κ ν × Answer ν))
    (w w' : Threads τ κ ν) : Prop where
  answers : w.log = h.map fun e => (e.1, outcome e.2)
  insertOnce : InsertOnce keyOf h
  order : w.log <+: w'.log
  table : w.lock.writer = none → ∃ xs, Bucketed w.object xs ∧ Placed keyOf t.hash t.nrBuckets xs ∧
    ∀ i, (xs i).map Prod.snd = (contents keyOf t (h.filterMap added) i).map some

omit [DecidableEq τ] in
theorem linearized_of_inv {w w' : Threads τ κ ν} (h : Holding keyOf t t [])
    (hi : Inv (requests keyOf) t w) (ho : w.log <+: w'.log) :
    ∃ hist, Linearized keyOf t hist w w' := by
  obtain ⟨-, base, hb⟩ := hi
  obtain ⟨rs, hlog, ha, xs, hs⟩ := serial_history h hb.serial
  rw [List.nil_append] at hs
  refine ⟨history keyOf [] rs, hlog, history_insertOnce rs, ho, fun hnone => ?_⟩
  rw [hb.unchanged hnone]
  refine ⟨xs, hs.bucketed, ?_, fun i => ?_⟩
  · rw [← ha.hash, ← ha.nrBuckets]
    exact stores_placed hs
  · rw [hs.data, contents_alike ha]

variable {cmp : Option ν → κ → ℤ} {hash : κ → UInt32} {valueFree : Bool} {nr : ℕ}
  {table array lock : Bool} {w w' : Threads τ κ ν} {es fs : List (Event τ (Request κ ν))}

/-- However the steps of the threads come between one another, the calls are
answered as if each had been made on its own when it gave the lock back. -/
theorem threads_linearized (hnr : 1 ≤ nr) (hcmp : ∀ v k, cmp (some v) k = 0 ↔ k = keyOf v)
    (hnew : hashtableNew cmp hash valueFree nr table array lock = some t)
    (h : Goes (requests keyOf) (initial t) es w) (h' : Goes (requests keyOf) w fs w') :
    ∃ hist, Linearized keyOf t hist w w' :=
  linearized_of_inv (holding_new hnr hcmp hnew) (run_inv requests_lawful h (inv_initial _ t))
    (run_log h')

/-- No thread is stuck: an idle one may call, one that has the lock may go on,
and one that waits for it can still be answered. -/
structure Live (keyOf : ν → κ) (w : Threads τ κ ν) (i : τ) : Prop where
  calls : w.phase i = .idle → ∀ r, enabled (requests keyOf) w (.call i r) = true
  works : ∀ r l, w.phase i = .working r l → enabled (requests keyOf) w (.step i) = true
  answered : ∀ r, callOf (w.phase i) = some r → ∃ fs w' o, Goes (requests keyOf) w fs w' ∧
    w'.phase i = .idle ∧ ∃ between, w'.log = w.log ++ between ++ [(r, o)]

theorem threads_live (hnr : 1 ≤ nr) (hcmp : ∀ v k, cmp (some v) k = 0 ↔ k = keyOf v)
    (hnew : hashtableNew cmp hash valueFree nr table array lock = some t)
    (h : Goes (requests keyOf) (initial t) es w) (i : τ) : Live keyOf w i := by
  have hi := run_inv requests_lawful h (inv_initial _ t)
  have ha : Answering (requests keyOf) t := answering_of_holding (holding_new hnr hcmp hnew)
  refine ⟨?_, fun r l hw => step_enabled ha hi hw, fun r hr => goes_answer requests_lawful ha hi hr⟩
  intro hidle r
  rw [enabled, hidle]
  exact prepare_isSome requests_lawful ha hi r

/-- Someone has been told that `v` is the value of the key `k`. -/
def Answered (keyOf : ν → κ) (k : κ) (v : ν) (log : List (Request κ ν × Outcome ν)) : Prop :=
  (.find k, .value (some v)) ∈ log ∨ ∃ room, keyOf v = k ∧ (.add room v, .error .success) ∈ log

structure Kept (keyOf : ν → κ) (t : Hashtable ν κ) (k : κ) (v : ν) (w w' : Threads τ κ ν) : Prop where
  finds : ∀ before after o, w'.log = w.log ++ before ++ (.find k, o) :: after → o = .value (some v)
  adds : ∀ before after room v' o, keyOf v' = k →
    w'.log = w.log ++ before ++ (.add room v', o) :: after → o = .error .found
  table : w'.lock.writer = none → ∃ xs, Bucketed w'.object xs ∧
    some v ∈ (xs (bucketOf t k)).map Prod.snd

theorem outcome_injective : Function.Injective (outcome : Answer ν → Outcome ν) := by
  intro a b h
  cases a <;> cases b <;> cases h <;> rfl

omit [DecidableEq κ] [DecidableEq τ] in
theorem history_part {hist : List (Request κ ν × Answer ν)}
    {before after : List (Request κ ν × Outcome ν)} {o : Outcome ν}
    (h : hist.map (fun e => (e.1, outcome e.2)) = before ++ (r, o) :: after) :
    ∃ b a c, hist = b ++ (r, a) :: c ∧ b.map (fun e => (e.1, outcome e.2)) = before ∧
      outcome a = o := by
  obtain ⟨b, c, rfl, hb, hc⟩ := List.map_eq_append_iff.mp h
  obtain ⟨e, c, rfl, he, -⟩ := List.map_eq_cons_iff.mp hc
  obtain ⟨rfl, rfl⟩ := Prod.mk.inj he
  exact ⟨b, e.2, c, rfl, hb, rfl⟩

omit [DecidableEq τ] in
theorem firstStored_answered {hist : List (Request κ ν × Answer ν)} {k : κ} {v : ν}
    {log rest : List (Request κ ν × Outcome ν)} (hio : InsertOnce keyOf hist)
    (hlog : hist.map (fun e => (e.1, outcome e.2)) = log ++ rest) (h : Answered keyOf k v log) :
    ∃ b c, hist = b ++ c ∧ b.map (fun e => (e.1, outcome e.2)) = log ∧
      firstStored keyOf k b = some v := by
  obtain ⟨b, c, rfl, hb, -⟩ := List.map_eq_append_iff.mp hlog
  refine ⟨b, c, rfl, hb, ?_⟩
  obtain ⟨e, he, htold⟩ : ∃ e ∈ b, Told keyOf k v e := by
    rcases h with hmem | ⟨room, hk, hmem⟩
    · rw [← hb] at hmem
      obtain ⟨⟨r, a⟩, he, heq⟩ := List.mem_map.mp hmem
      obtain ⟨rfl, ha⟩ := Prod.mk.inj heq
      obtain rfl : a = .value (some v) := outcome_injective ha
      exact ⟨_, he, .found⟩
    · rw [← hb] at hmem
      obtain ⟨⟨r, a⟩, he, heq⟩ := List.mem_map.mp hmem
      obtain ⟨rfl, ha⟩ := Prod.mk.inj heq
      obtain rfl : a = .stored := outcome_injective ha
      exact ⟨_, he, .stored room hk⟩
  obtain ⟨b₁, b₂, rfl⟩ := List.append_of_mem he
  have hfirst := told_firstStored hio (List.append_assoc b₁ (e :: b₂) c) htold
  have hsplit : b₁ ++ e :: b₂ = (b₁ ++ [e]) ++ b₂ := by rw [List.append_assoc]; rfl
  rw [hsplit]
  exact firstStored_append hfirst

/-- A value found or stored once is the value of its key for good: every later
call with the key finds it, and the table holds it. -/
theorem threads_kept (hnr : 1 ≤ nr) (hcmp : ∀ v k, cmp (some v) k = 0 ↔ k = keyOf v)
    (hnew : hashtableNew cmp hash valueFree nr table array lock = some t)
    (h : Goes (requests keyOf) (initial t) es w) (h' : Goes (requests keyOf) w fs w') {k : κ} {v : ν}
    (hv : Answered keyOf k v w.log) : Kept keyOf t k v w w' := by
  have hi := run_inv requests_lawful (run_append h h') (inv_initial _ t)
  obtain ⟨hist, hlin⟩ := linearized_of_inv (holding_new hnr hcmp hnew) hi (List.prefix_refl _)
  obtain ⟨rest, hrest⟩ := run_log h'
  obtain ⟨b, c, hbc, hb, hfirst⟩ :=
    firstStored_answered hlin.insertOnce (hlin.answers.symm.trans hrest.symm) hv
  -- whatever comes after the part `b` of the history comes after the value
  have hlater : ∀ before after (r : Request κ ν) o, w'.log = w.log ++ before ++ (r, o) :: after →
      ∃ b' a c', hist = b' ++ (r, a) :: c' ∧ outcome a = o ∧ firstStored keyOf k b' = some v := by
    intro before after r o he
    obtain ⟨b', a, c', hh, hb', ha⟩ := history_part (hlin.answers.symm.trans he)
    obtain ⟨b₁, b₂, rfl, hb₁, -⟩ := List.map_eq_append_iff.mp hb'
    have hsame : b₁ = b := by
      have hlength : b₁.length = b.length := by
        rw [← List.length_map (f := fun e : Request κ ν × Answer ν => (e.1, outcome e.2)), hb₁, ← hb,
          List.length_map]
      rw [hbc, List.append_assoc] at hh
      exact (List.append_inj hh.symm hlength).1
    rw [hsame] at hh
    exact ⟨b ++ b₂, a, c', hh, ha, firstStored_append hfirst⟩
  refine ⟨?_, ?_, ?_⟩
  · intro before after o he
    obtain ⟨b', a, c', hh, ha, hf⟩ := hlater before after _ o he
    rw [← ha, hlin.insertOnce.finds b' c' k a hh, hf]
    rfl
  · intro before after room v' o hk he
    obtain ⟨b', a, c', hh, ha, hf⟩ := hlater before after _ o he
    have hpresent : a = .present := by
      apply (hlin.insertOnce.present b' c' room v' a hh).mpr
      rw [hk, hf]
      exact Option.some_ne_none v
    rw [← ha, hpresent]
    rfl
  · intro hnone
    obtain ⟨xs, hbucketed, -, hdata⟩ := hlin.table hnone
    have hall : firstStored keyOf k (b ++ c) = some v := firstStored_append hfirst
    obtain ⟨hmem, hkey⟩ := lookup_key hall
    refine ⟨xs, hbucketed, ?_⟩
    rw [hdata]
    apply List.mem_map_of_mem
    rw [contents_mem, hkey, hbc]
    exact ⟨hmem, rfl⟩

end threads

def together : List (Event ℕ (Request ℕ ℕ)) :=
  [.call 0 (.add true 14), .call 1 (.find 4), .lock 0, .call 2 (.find 4), .step 0, .step 0, .step 0,
    .step 0, .unlock 0, .lock 1, .lock 2, .step 1, .step 2, .step 1, .step 2, .step 1, .step 2,
    .unlock 2]

def afterwards : List (Event ℕ (Request ℕ ℕ)) := [.call 0 (.add true 24), .unlock 1]

def lastDigit (v : ℕ) : ℕ := v % 10

def begun : Threads ℕ ℕ ℕ := together.foldl (next (requests lastDigit)) (initial digitTable)

def ended : Threads ℕ ℕ ℕ := afterwards.foldl (next (requests lastDigit)) begun

theorem goes_together : Goes (requests lastDigit) (initial digitTable) together begun :=
  run_of_admits (initial digitTable) together (by decide +kernel)

theorem goes_afterwards : Goes (requests lastDigit) begun afterwards ended :=
  run_of_admits begun afterwards (by decide +kernel)

theorem digitTable_compares (v k : ℕ) :
    (if some v = none ∨ (some v).map (· % 10) ≠ some k then (1 : ℤ) else 0) = 0 ↔
      k = lastDigit v := by
  simp [lastDigit, eq_comm]

theorem digitTable_new : hashtableNew (fun d k => if d = none ∨ d.map (· % 10) ≠ some k then 1 else 0)
    (fun k => k.toUInt32) false 2 true true true = some digitTable := rfl

theorem threads_linearized_together : ∃ hist, Linearized lastDigit digitTable hist begun ended :=
  threads_linearized (by decide) digitTable_compares digitTable_new goes_together goes_afterwards

theorem threads_live_together : Live lastDigit begun 1 :=
  threads_live (by decide) digitTable_compares digitTable_new goes_together 1

theorem threads_kept_together : Kept lastDigit digitTable 4 14 begun ended :=
  threads_kept (by decide) digitTable_compares digitTable_new goes_together goes_afterwards
    (.inl (by decide +kernel))

end Tigera.SharedTable
