import TigeraWebservice.SinglyLinkedList
import Mathlib.Algebra.Group.Int.Defs
import Mathlib.Algebra.Group.Nat.Defs

/-!
# The hash table

`hashtable.c`, one call at a time, as its lock has it. Keys and values stand
for the pointers to them; `cmp` and `hash` are the table's own. The buckets are
the singly linked lists named by their index.
-/

set_option autoImplicit false

namespace Tigera.HashTable
open LinkChain CellChain Tigera.SinglyLinkedList

inductive HashtableError where
  | success
  | found
  | error
  deriving DecidableEq, Repr

structure Hashtable (α K : Type*) where
  buckets : Slists ℕ α
  nrBuckets : ℕ
  collisions : UInt64
  cmp : Option α → K → ℤ
  hash : K → UInt32
  valueFree : Bool

variable {α K : Type*}

/-- `table`, `array` and `lock` tell which of the allocations find room. Where
one does not, the table is freed before it has a value in it. -/
def hashtableNew (cmp : Option α → K → ℤ) (hash : K → UInt32) (valueFree : Bool) (nrBuckets : ℕ)
    (table array lock : Bool) : Option (Hashtable α K) :=
  -- `calloc` gives nothing when the size of the array overflows
  if table && (array && nrBuckets * 8 < 2 ^ 64) && lock then
    some { buckets := slistNew, nrBuckets, collisions := 0, cmp, hash, valueFree }
  else none

/-- The remainder of a `hash_t` fits in one. -/
def bucketOf (t : Hashtable α K) (key : K) : ℕ := (t.hash key).toNat % t.nrBuckets

def hashtableGetBucket (key : K) (t : Hashtable α K) : Option ℕ :=
  if t.nrBuckets = 0 then none else some (bucketOf t key)

/-- `_hashtable_find` from `node` on. -/
def hashtableFindNode (t : Hashtable α K) (key : K) : ℕ → Option ℕ → Option (Option ℕ)
  | _, none => some none
  | 0, some _ => none
  | fuel + 1, some a =>
    match t.buckets.node a with
    | none => none
    | some n => if t.cmp n.data key = 0 then some (some a) else hashtableFindNode t key fuel n.next

def hashtableAdd (ok : Bool) (value : Option α) (key : K) (t : Hashtable α K) :
    Option (HashtableError × Hashtable α K) :=
  match hashtableGetBucket key t with
  | none => none
  | some bucket =>
    let t := if t.buckets.head bucket ≠ none then { t with collisions := t.collisions + 1 } else t
    match hashtableFindNode t key t.buckets.made (t.buckets.head bucket) with
    | none => none
    | some (some _) => some (.found, t)
    | some none =>
      match slistPushFront ok bucket value t.buckets with
      | (none, buckets) => some (.error, { t with buckets := buckets })
      | (some _, buckets) => some (.success, { t with buckets := buckets })

def hashtableFind (key : K) (t : Hashtable α K) : Option (Option α) :=
  match hashtableGetBucket key t with
  | none => none
  | some bucket =>
    match hashtableFindNode t key t.buckets.made (t.buckets.head bucket) with
    | none => none
    | some none => some none
    | some (some a) => (t.buckets.node a).map Cell.data

def hashtableGetCollisions (t : Hashtable α K) : UInt64 := t.collisions

def bucketData (t : Hashtable α K) (i : ℕ) : List (Option α) :=
  (slistForeach t.buckets t.buckets.made (t.buckets.head i)).getD []

inductive Op (α K : Type*) where
  | add (ok : Bool) (value : Option α) (key : K)
  | find (key : K)

inductive Outcome (α : Type*) where
  | error (e : HashtableError)
  | value (v : Option α)
  deriving DecidableEq, Repr

def perform : Op α K → Hashtable α K → Option (Outcome α × Hashtable α K)
  | .add ok value key, t => (hashtableAdd ok value key t).map fun (e, t) => (.error e, t)
  | .find key, t => (hashtableFind key t).map fun v => (.value v, t)

def performAll : List (Op α K) → Hashtable α K → Option (List (Outcome α) × Hashtable α K)
  | [], t => some ([], t)
  | op :: ops, t =>
    match perform op t with
    | none => none
    | some (o, t) => (performAll ops t).map fun (os, t) => (o :: os, t)

/-- The buckets hold the nodes `xs`, and the heap no others. -/
structure Bucketed (t : Hashtable α K) (xs : ℕ → List (ℕ × Option α)) : Prop where
  buckets : Represents t.buckets xs
  within : ∀ i, t.nrBuckets ≤ i → xs i = []
  some_bucket : 0 < t.nrBuckets

/-- `u` is a table with the settings of `t`. -/
structure Alike (t u : Hashtable α K) : Prop where
  nrBuckets : u.nrBuckets = t.nrBuckets
  cmp : u.cmp = t.cmp
  hash : u.hash = t.hash
  valueFree : u.valueFree = t.valueFree

inductive Added (t : Hashtable α K) (xs : ℕ → List (ℕ × Option α)) (ok : Bool)
    (value : Option α) (key : K) : HashtableError → (ℕ → List (ℕ × Option α)) → Prop where
  | found (x : ℕ × Option α) (hx : x ∈ xs (bucketOf t key)) (hk : t.cmp x.2 key = 0) :
    Added t xs ok value key .found xs
  | error (hk : ∀ x ∈ xs (bucketOf t key), t.cmp x.2 key ≠ 0) (hok : ok = false) :
    Added t xs ok value key .error xs
  | success (a : ℕ) (hk : ∀ x ∈ xs (bucketOf t key), t.cmp x.2 key ≠ 0) (hok : ok = true) :
    Added t xs ok value key .success
      (Function.update xs (bucketOf t key) ((a, value) :: xs (bucketOf t key)))

variable {t u v : Hashtable α K} {xs : ℕ → List (ℕ × Option α)} {ys : List (ℕ × Option α)} {key : K}

theorem alike_refl (t : Hashtable α K) : Alike t t := ⟨rfl, rfl, rfl, rfl⟩

theorem alike_trans (h : Alike t u) (h' : Alike u v) : Alike t v :=
  ⟨h'.nrBuckets.trans h.nrBuckets, h'.cmp.trans h.cmp, h'.hash.trans h.hash,
    h'.valueFree.trans h.valueFree⟩

theorem bucketOf_alike (h : Alike t u) (key : K) : bucketOf u key = bucketOf t key := by
  rw [bucketOf, h.hash, h.nrBuckets, bucketOf]

theorem hashtableNew_spec {cmp : Option α → K → ℤ} {hash : K → UInt32} {valueFree : Bool} {nr : ℕ}
    {table array lock : Bool} (h : hashtableNew cmp hash valueFree nr table array lock = some t) :
    t = ⟨slistNew, nr, 0, cmp, hash, valueFree⟩ := by
  unfold hashtableNew at h
  split at h
  · exact (Option.some.inj h).symm
  · cases h

theorem hashtableNew_fits {cmp : Option α → K → ℤ} {hash : K → UInt32} {valueFree : Bool} {nr : ℕ}
    {table array lock : Bool} (h : hashtableNew cmp hash valueFree nr table array lock = some t) :
    nr * 8 < 2 ^ 64 := by
  unfold hashtableNew at h
  split at h
  · next hroom =>
    simp only [Bool.and_eq_true, decide_eq_true_eq] at hroom
    exact hroom.1.2.2
  · cases h

theorem bucketed_new {cmp : Option α → K → ℤ} {hash : K → UInt32} {valueFree : Bool} {nr : ℕ}
    (hnr : 1 ≤ nr) : Bucketed ⟨slistNew, nr, 0, cmp, hash, valueFree⟩ fun _ => [] :=
  ⟨represents_new, fun _ _ => rfl, hnr⟩

theorem getBucket_eq (h : Bucketed t xs) (key : K) :
    hashtableGetBucket key t = some (bucketOf t key) :=
  if_neg (Nat.pos_iff_ne_zero.mp h.some_bucket)

theorem bucketData_eq (h : Bucketed t xs) (i : ℕ) : bucketData t i = (xs i).map Prod.snd := by
  rw [bucketData, slistForeach_spec h.buckets]
  rfl

theorem findNode_chain {p : Option ℕ} (fuel : ℕ) (h : Chain t.buckets.node p ys)
    (hf : ys.length ≤ fuel) :
    hashtableFindNode t key fuel p = some ((ys.find? fun x => t.cmp x.2 key = 0).map Prod.fst) := by
  induction ys generalizing fuel p with
  | nil =>
    obtain rfl : p = none := h
    cases fuel <;> rfl
  | cons y ys ih =>
    obtain ⟨rfl, q, hy, hq⟩ := h
    cases fuel with
    | zero => cases hf
    | succ fuel =>
      rw [hashtableFindNode, hy, List.find?_cons]
      by_cases hk : t.cmp y.2 key = 0
      · simp only [hk, if_true, decide_true, Option.map_some]
      · simp only [hk, if_false, decide_false]
        exact ih fuel hq (Nat.le_of_succ_le_succ hf)

theorem findNode_spec (h : Represents t.buckets xs) (key : K) (i : ℕ) :
    hashtableFindNode t key t.buckets.made (t.buckets.head i) =
      some (((xs i).find? fun x => t.cmp x.2 key = 0).map Prod.fst) :=
  findNode_chain t.buckets.made (h.shelf.chain i) (length_le_made h i)

theorem within_update (h : Bucketed t xs) (key : K) (ys : List (ℕ × Option α)) (i : ℕ)
    (hi : t.nrBuckets ≤ i) : Function.update xs (bucketOf t key) ys i = [] := by
  have hlt : bucketOf t key < t.nrBuckets := Nat.mod_lt _ h.some_bucket
  rw [Function.update_of_ne (Nat.ne_of_gt (Nat.lt_of_lt_of_le hlt hi))]
  exact h.within i hi

theorem hashtableAdd_spec (h : Bucketed t xs) (ok : Bool) (value : Option α) (key : K) :
    ∃ e u ys, hashtableAdd ok value key t = some (e, u) ∧ Alike t u ∧
      u.collisions = (if xs (bucketOf t key) = [] then t.collisions else t.collisions + 1) ∧
      Added t xs ok value key e ys ∧ Bucketed u ys := by
  generalize hc : (if xs (bucketOf t key) = [] then t.collisions else t.collisions + 1) = c
  have hcount : (if t.buckets.head (bucketOf t key) ≠ none then
      { t with collisions := t.collisions + 1 } else t) = { t with collisions := c } := by
    by_cases hb : xs (bucketOf t key) = []
    · rw [← hc, if_pos hb, if_neg (not_not.mpr ((head_none_iff h.buckets _).mpr hb))]
    · rw [← hc, if_neg hb, if_pos (mt (head_none_iff h.buckets _).mp hb)]
  have hfind := findNode_spec (t := { t with collisions := c }) h.buckets key (bucketOf t key)
  have halike : Alike t { t with collisions := c } := ⟨rfl, rfl, rfl, rfl⟩
  cases hx : (xs (bucketOf t key)).find? fun x => t.cmp x.2 key = 0 with
  | some x =>
    rw [hx] at hfind
    have hk := List.find?_some hx
    refine ⟨.found, { t with collisions := c }, xs, ?_, halike, rfl,
      .found x (List.mem_of_find?_eq_some hx) (of_decide_eq_true hk),
      ⟨h.buckets, h.within, h.some_bucket⟩⟩
    simp only [hashtableAdd, getBucket_eq h, hcount, hfind, Option.map_some]
  | none =>
    rw [hx] at hfind
    have hk : ∀ x ∈ xs (bucketOf t key), t.cmp x.2 key ≠ 0 := fun x hm he =>
      List.find?_eq_none.mp hx x hm (decide_eq_true he)
    cases ok with
    | false =>
      refine ⟨.error, { t with collisions := c }, xs, ?_, halike, rfl, .error hk rfl,
        ⟨h.buckets, h.within, h.some_bucket⟩⟩
      simp only [hashtableAdd, getBucket_eq h, hcount, hfind, Option.map_none, slistPushFront_fails]
    | true =>
      obtain ⟨s, hs, hr⟩ := slistPushFront_spec (bucketOf t key) value h.buckets
      refine ⟨.success, { t with collisions := c, buckets := s }, _, ?_, ⟨rfl, rfl, rfl, rfl⟩, rfl,
        .success t.buckets.made hk rfl, ⟨hr, within_update h key _, h.some_bucket⟩⟩
      simp only [hashtableAdd, getBucket_eq h, hcount, hfind, Option.map_none, hs]

theorem hashtableFind_spec (h : Bucketed t xs) (key : K) :
    hashtableFind key t = some
      ((((xs (bucketOf t key)).map Prod.snd).find? fun d => t.cmp d key = 0).join) := by
  have hfind := findNode_spec h.buckets key (bucketOf t key)
  have hmap : (((xs (bucketOf t key)).map Prod.snd).find? fun d => t.cmp d key = 0) =
      ((xs (bucketOf t key)).find? fun x => t.cmp x.2 key = 0).map Prod.snd :=
    List.find?_map ..
  rw [hmap]
  cases hx : (xs (bucketOf t key)).find? fun x => t.cmp x.2 key = 0 with
  | none =>
    rw [hx] at hfind
    simp only [hashtableFind, getBucket_eq h, hfind, Option.map_none, Option.join_none]
  | some x =>
    rw [hx] at hfind
    obtain ⟨q, hq⟩ := chain_mem (h.buckets.shelf.chain _) (List.mem_of_find?_eq_some hx)
    simp only [hashtableFind, getBucket_eq h, hfind, Option.map_some, hq, Option.join_some]

theorem perform_bucketed (h : Bucketed t xs) (op : Op α K) :
    ∃ o u ys, perform op t = some (o, u) ∧ Alike t u ∧ Bucketed u ys := by
  cases op with
  | find key => exact ⟨_, t, xs, congrArg (Option.map _) (hashtableFind_spec h key), alike_refl t, h⟩
  | add ok value key =>
    obtain ⟨e, u, ys, hadd, ha, -, -, hu⟩ := hashtableAdd_spec h ok value key
    exact ⟨.error e, u, ys, congrArg (Option.map _) hadd, ha, hu⟩

theorem performAll_bucketed (h : Bucketed t xs) (ops : List (Op α K)) :
    ∃ os u ys, performAll ops t = some (os, u) ∧ Alike t u ∧ Bucketed u ys := by
  induction ops generalizing t xs with
  | nil => exact ⟨[], t, xs, rfl, alike_refl t, h⟩
  | cons op ops ih =>
    obtain ⟨o, t1, xs1, hop, ha, h1⟩ := perform_bucketed h op
    obtain ⟨os, u, ys, hops, hau, hu⟩ := ih h1
    refine ⟨o :: os, u, ys, ?_, alike_trans ha hau, hu⟩
    rw [performAll, hop]
    show (performAll ops t1).map _ = _
    rw [hops]
    rfl

theorem perform_no_buckets (h : t.nrBuckets = 0) (op : Op α K) : perform op t = none := by
  cases op with
  | find key => rw [perform, hashtableFind, hashtableGetBucket, if_pos h]; rfl
  | add ok value key => rw [perform, hashtableAdd, hashtableGetBucket, if_pos h]; rfl

end Tigera.HashTable
