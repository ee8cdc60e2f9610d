import TigeraWebservice.DoublyLinkedList
import TigeraWebservice.HashTable
import TigeraWebservice.JokeCreate

/-!
# Destruction

`list_free`, `slist_free` and `hashtable_free`. Each of them pops until it is
given a null pointer, which may be a datum of the list as well as its end.
-/

set_option autoImplicit false

namespace Tigera.Destruction
open LinkChain TransitionRuns
open Tigera.JokeCreate (int32 sizeT int32_add int32_eq)
open Tigera.DoublyLinkedList (NodeList listNew listFree listFree_drains sequences outcomes)
open Tigera.SinglyLinkedList Tigera.HashTable

variable {κ α K : Type*}

/-- The pointers given to `value_free`, and the lists with the bucket drained. -/
def drainBucket [DecidableEq κ] (valueFree : Bool) (bucket : κ) :
    ℕ → Slists κ α → Option (List α × Slists κ α)
  | 0, _ => none
  | fuel + 1, s =>
    match slistPopFront bucket s with
    | none => none
    | some (none, s) => some ([], s)
    | some (some value, s) => (drainBucket valueFree bucket fuel s).map fun (values, s) =>
      (if valueFree then value :: values else values, s)

/-- From the bucket `i` on, an `int` that wraps around. -/
def freeBuckets (valueFree : Bool) (nrBuckets : ℕ) :
    ℕ → ℤ → Slists ℕ α → Option (List α × Slists ℕ α)
  | 0, _, _ => none
  | fuel + 1, i, s =>
    if sizeT i < nrBuckets then
      match drainBucket valueFree (sizeT i) (s.made + 1) s with
      | none => none
      | some (values, s) => (freeBuckets valueFree nrBuckets fuel (int32 (i + 1)) s).map
          fun (others, s) => (values ++ others, s)
    else some ([], s)

/-- The pointers given to `value_free`, and what is left of the buckets. -/
def hashtableFree (t : Hashtable α K) : Option (List α × Slists ℕ α) :=
  freeBuckets t.valueFree t.nrBuckets (t.nrBuckets + 1) 0 t.buckets

variable {l : NodeList α} {s : Slists κ α} {t : Hashtable α K} {xs : List (ℕ × Option α)}

section lists
variable [DecidableEq κ] {ys : κ → List (ℕ × Option α)}

theorem drainBucket_drains (valueFree : Bool) (i : κ) (fuel : ℕ) (h : Represents s ys)
    (hf : (ys i).length < fuel) :
    ∃ s', drainBucket valueFree i fuel s = some (if valueFree then drained (ys i) else [], s') ∧
      Represents s' (Function.update ys i (undrained (ys i))) := by
  induction fuel generalizing s ys with
  | zero => cases hf
  | succ fuel ih =>
    cases hi : ys i with
    | nil =>
      refine ⟨s, ?_, ?_⟩
      · rw [drainBucket, slistPopFront_empty h hi]
        cases valueFree <;> rfl
      · rwa [undrained, ← hi, Function.update_eq_self]
    | cons x xs =>
      obtain ⟨a, d⟩ := x
      obtain ⟨s1, hs1, -, h1⟩ := slistPopFront_spec h hi
      rw [drainBucket, hs1]
      cases d with
      | none => exact ⟨s1, by cases valueFree <;> rfl, h1⟩
      | some v =>
        have hlen : (Function.update ys i xs i).length < fuel := by
          rw [Function.update_self]
          rw [hi] at hf
          exact Nat.lt_of_succ_lt_succ hf
        obtain ⟨s2, hs2, h2⟩ := ih h1 hlen
        rw [Function.update_self] at hs2 h2
        rw [Function.update_idem] at h2
        refine ⟨s2, ?_, h2⟩
        show (drainBucket valueFree i fuel s1).map _ = _
        rw [hs2]
        cases valueFree <;> rfl

theorem slistFree_eq (i : κ) (fuel : ℕ) (s : Slists κ α) :
    slistFree i fuel s = (drainBucket false i fuel s).map Prod.snd := by
  induction fuel generalizing s with
  | zero => rfl
  | succ fuel ih =>
    rw [slistFree, drainBucket]
    rcases slistPopFront i s with - | ⟨d, s1⟩
    · rfl
    · cases d with
      | none => rfl
      | some v =>
        show slistFree i fuel s1 = Option.map _ (Option.map _ _)
        rw [ih, Option.map_map]
        rfl

theorem slistFree_drains (i : κ) (h : Represents s ys) :
    ∃ s', slistFree i (s.made + 1) s = some s' ∧
      Represents s' (Function.update ys i (undrained (ys i))) := by
  obtain ⟨s', hs', h'⟩ := drainBucket_drains false i (s.made + 1) h
    (Nat.lt_succ_of_le (length_le_made h i))
  refine ⟨s', ?_, h'⟩
  rw [slistFree_eq, hs']
  rfl

end lists

/-- The buckets below `k` have been drained. -/
def passed (ys : ℕ → List (ℕ × Option α)) (k i : ℕ) : List (ℕ × Option α) :=
  if i < k then undrained (ys i) else ys i

section buckets
variable {s : Slists ℕ α} {ys : ℕ → List (ℕ × Option α)} {k nr : ℕ}

theorem passed_step (ys : ℕ → List (ℕ × Option α)) (k : ℕ) :
    Function.update (passed ys k) k (undrained (passed ys k k)) = passed ys (k + 1) := by
  funext i
  by_cases hi : i = k
  · subst hi
    rw [Function.update_self, passed, passed, if_neg (Nat.lt_irrefl i), if_pos (Nat.lt_succ_self i)]
  · have hlt : i < k ↔ i < k + 1 := by omega
    rw [Function.update_of_ne hi, passed, passed]
    simp only [hlt]

theorem index_eq (hk : k < 2 ^ 31) : sizeT (int32 k) = k := by
  rw [int32_eq (by omega) (by omega), sizeT]
  omega

theorem index_past (hnr : nr * 8 < 2 ^ 64) : ¬ sizeT (int32 (min nr (2 ^ 31) : ℕ)) < nr := by
  by_cases hlt : nr < 2 ^ 31
  · rw [Nat.min_eq_left (Nat.le_of_lt hlt), index_eq hlt]
    exact Nat.lt_irrefl nr
  · have hwrap : sizeT (int32 (2 ^ 31 : ℕ)) = 2 ^ 64 - 2 ^ 31 := by decide
    rw [Nat.min_eq_right (Nat.le_of_not_lt hlt), hwrap]
    omega

theorem freeBuckets_drains (valueFree : Bool) (hnr : nr * 8 < 2 ^ 64) (n fuel : ℕ)
    (hm : k + n = min nr (2 ^ 31)) (h : Represents s (passed ys k)) (hf : n < fuel) :
    ∃ s', freeBuckets valueFree nr fuel (int32 k) s = some ((List.range' k n).flatMap
        fun i => if valueFree then drained (ys i) else [], s') ∧
      Represents s' (passed ys (min nr (2 ^ 31))) := by
  induction n generalizing k s fuel with
  | zero =>
    cases fuel with
    | zero => cases hf
    | succ fuel =>
      obtain rfl : k = min nr (2 ^ 31) := hm
      refine ⟨s, ?_, h⟩
      rw [freeBuckets, if_neg (index_past hnr)]
      rfl
  | succ n ih =>
    cases fuel with
    | zero => cases hf
    | succ fuel =>
      -- this turn drains the bucket `k`, and the index goes on to the next one
      have hk : k < nr ∧ k < 2 ^ 31 := by omega
      have hsame : passed ys k k = ys k := if_neg (Nat.lt_irrefl k)
      obtain ⟨s1, hs1, h1⟩ := drainBucket_drains valueFree k (s.made + 1) h
        (Nat.lt_succ_of_le (length_le_made h k))
      rw [passed_step] at h1
      rw [hsame] at hs1
      obtain ⟨s2, hs2, h2⟩ := ih fuel (by omega) h1 (Nat.lt_of_succ_lt_succ hf)
      refine ⟨s2, ?_, h2⟩
      have hnext : int32 (int32 k + 1) = int32 (k + 1 : ℕ) := int32_add k 1
      rw [freeBuckets, index_eq hk.2, if_pos hk.1, hs1]
      show (freeBuckets valueFree nr fuel (int32 (int32 k + 1)) s1).map _ = _
      rw [hnext, hs2]
      rfl

end buckets

theorem hashtableFree_drains {ys : ℕ → List (ℕ × Option α)} (h : Bucketed t ys)
    (hnr : t.nrBuckets * 8 < 2 ^ 64) :
    ∃ s', hashtableFree t = some ((List.range (min t.nrBuckets (2 ^ 31))).flatMap
        fun i => if t.valueFree then drained (ys i) else [], s') ∧
      Represents s' (passed ys (min t.nrBuckets (2 ^ 31))) := by
  have hstart : Represents t.buckets (passed ys 0) := h.buckets
  obtain ⟨s', hs', h'⟩ := freeBuckets_drains t.valueFree hnr (min t.nrBuckets (2 ^ 31))
    (t.nrBuckets + 1) (Nat.zero_add _) hstart (by omega)
  refine ⟨s', ?_, h'⟩
  rw [hashtableFree, List.range_eq_range']
  exact hs'

theorem nodes_freed_iff {s : Slists κ α} {ys : κ → List (ℕ × Option α)} (h : Represents s ys) :
    (∀ a, s.node a = none) ↔ ∀ i, ys i = [] := by
  constructor
  · intro hall i
    cases hi : ys i with
    | nil => rfl
    | cons x xs =>
      have hx : x ∈ ys i := by rw [hi]; exact List.mem_cons_self
      obtain ⟨q, hq⟩ := CellChain.chain_mem (h.shelf.chain i) hx
      rw [hall] at hq
      cases hq
  · intro hall a
    apply h.shelf.only
    intro i
    rw [hall]
    exact List.not_mem_nil

theorem list_freed_iff (h : DoublyLinkedList.Represents l xs) :
    (∀ a, l.node a = none) ↔ xs = [] := by
  constructor
  · intro hall
    cases xs with
    | nil => rfl
    | cons x xs =>
      have hx := DoublyLinkedList.node_held
        (show DoublyLinkedList.Represents l ([] ++ (x.1, x.2) :: xs) from h)
      rw [hall] at hx
      cases hx
  · rintro rfl a
    exact h.only a List.not_mem_nil

def ListFreed (l : NodeList α) : Prop :=
  ∃ l', listFree (l.made + 1) l = some l' ∧ ∀ a, l'.node a = none

def SlistFreed (s : Slists Unit α) : Prop :=
  ∃ s', slistFree () (s.made + 1) s = some s' ∧ ∀ a, s'.node a = none

def stored (t : Hashtable α K) : List (Option α) := (List.range t.nrBuckets).flatMap (bucketData t)

/-- No node of the table is left, and each of its values has been given to
`value_free`, if there is one. -/
def TableFreed (t : Hashtable α K) : Prop :=
  ∃ freed s', hashtableFree t = some (freed, s') ∧ (∀ a, s'.node a = none) ∧
    (t.valueFree = true → (freed.map some).Perm (stored t))

/-- An `int` reaches every bucket in use, no bucket has a null datum before its
last, and there is none at all where the values have to be freed. -/
structure Clears (t : Hashtable α K) : Prop where
  reached : ∀ i < t.nrBuckets, 2 ^ 31 ≤ i → bucketData t i = []
  before_last : ∀ i < t.nrBuckets, ∀ d ∈ (bucketData t i).dropLast, d ≠ none
  values : t.valueFree = true → ∀ i < t.nrBuckets, none ∉ bucketData t i

section tables
variable {ys : ℕ → List (ℕ × Option α)}

theorem passed_nil_iff (h : Bucketed t ys) :
    (∀ i, passed ys (min t.nrBuckets (2 ^ 31)) i = []) ↔
      (∀ i < t.nrBuckets, 2 ^ 31 ≤ i → bucketData t i = []) ∧
        ∀ i < t.nrBuckets, ∀ d ∈ (bucketData t i).dropLast, d ≠ none := by
  simp only [bucketData_eq h, List.map_eq_nil_iff, ← undrained_nil_iff]
  constructor
  · intro hall
    have hbeyond : ∀ i, 2 ^ 31 ≤ i → ys i = [] := by
      intro i hi
      have hnil := hall i
      rwa [passed, if_neg (by omega)] at hnil
    refine ⟨fun i _ => hbeyond i, ?_⟩
    intro i hi
    by_cases hlow : i < 2 ^ 31
    · have hnil := hall i
      rwa [passed, if_pos (by omega)] at hnil
    · rw [hbeyond i (Nat.le_of_not_lt hlow)]
      rfl
  · rintro ⟨hbeyond, hlast⟩ i
    rw [passed]
    split
    · exact hlast i (by omega)
    · by_cases hi : i < t.nrBuckets
      · exact hbeyond i hi (by omega)
      · exact h.within i (Nat.le_of_not_lt hi)

/-- Once every bucket is empty, the values have all been freed unless one of
them is null. -/
theorem freed_perm_iff (h : Bucketed t ys)
    (hreached : ∀ i < t.nrBuckets, 2 ^ 31 ≤ i → bucketData t i = []) :
    ((((List.range (min t.nrBuckets (2 ^ 31))).flatMap fun i => drained (ys i)).map some).Perm
      (stored t)) ↔ ∀ i < t.nrBuckets, none ∉ bucketData t i := by
  constructor
  · intro hperm i hi hnone
    have hmem : none ∈ stored t := List.mem_flatMap.mpr ⟨i, List.mem_range.mpr hi, hnone⟩
    obtain ⟨v, -, hv⟩ := List.mem_map.mp (hperm.mem_iff.mpr hmem)
    cases hv
  · intro hvalues
    obtain ⟨r, hr⟩ := Nat.exists_eq_add_of_le (Nat.min_le_left t.nrBuckets (2 ^ 31))
    have hrest : ((List.range r).map (min t.nrBuckets (2 ^ 31) + ·)).flatMap (bucketData t) = [] := by
      rw [List.flatMap_eq_nil_iff]
      intro i hi
      obtain ⟨j, hj, rfl⟩ := List.mem_map.mp hi
      have hlt := List.mem_range.mp hj
      exact hreached _ (by omega) (by omega)
    have hseen : ∀ i ∈ List.range (min t.nrBuckets (2 ^ 31)),
        (drained (ys i)).map some = bucketData t i := by
      intro i hi
      have hlt := List.mem_range.mp hi
      have hnone := hvalues i (by omega)
      rw [bucketData_eq h] at hnone ⊢
      exact drained_all hnone
    have hall : stored t = (List.range (min t.nrBuckets (2 ^ 31))).flatMap (bucketData t) := by
      conv_lhs => rw [stored, hr, List.range_add, List.flatMap_append, hrest, List.append_nil]
    rw [List.map_flatMap, hall, List.flatMap_congr hseen]

theorem tableFreed_iff (h : Bucketed t ys) (hnr : t.nrBuckets * 8 < 2 ^ 64) :
    TableFreed t ↔ Clears t := by
  obtain ⟨s', hs', h'⟩ := hashtableFree_drains h hnr
  have hnodes := (nodes_freed_iff h').trans (passed_nil_iff h)
  constructor
  · rintro ⟨freed, s, hfree, hnone, hperm⟩
    obtain ⟨rfl, rfl⟩ := Prod.mk.inj (Option.some.inj (hs'.symm.trans hfree))
    obtain ⟨hreached, hlast⟩ := hnodes.mp hnone
    refine ⟨hreached, hlast, ?_⟩
    intro hv
    have hperm := hperm hv
    simp only [hv, if_true] at hperm
    exact (freed_perm_iff h hreached).mp hperm
  · rintro ⟨hreached, hlast, hvalues⟩
    refine ⟨_, s', hs', hnodes.mpr ⟨hreached, hlast⟩, ?_⟩
    intro hv
    simp only [hv, if_true]
    exact (freed_perm_iff h hreached).mpr (hvalues hv)

end tables

theorem tableFreed_no_buckets (hnr : t.nrBuckets = 0) (hnone : ∀ a, t.buckets.node a = none) :
    TableFreed t ↔ Clears t := by
  refine iff_of_true ⟨[], t.buckets, ?_, hnone, ?_⟩ ?_
  · rw [hashtableFree, hnr]
    rfl
  · intro _
    rw [stored, hnr]
    exact List.Perm.nil
  · constructor <;> simp [hnr]

theorem listFreed_iff (h : DoublyLinkedList.Represents l xs) :
    ListFreed l ↔ ∀ d ∈ (xs.map Prod.snd).dropLast, d ≠ none := by
  obtain ⟨l', hl', h'⟩ := listFree_drains (l.made + 1) h (Nat.lt_succ_of_le h.made)
  rw [← undrained_nil_iff, ← list_freed_iff h']
  constructor
  · rintro ⟨l2, hl2, hnone⟩
    obtain rfl := Option.some.inj (hl'.symm.trans hl2)
    exact hnone
  · exact fun hnone => ⟨l', hl', hnone⟩

theorem slistFreed_iff {s : Slists Unit α} {ys : Unit → List (ℕ × Option α)} (h : Represents s ys) :
    SlistFreed s ↔
      ∀ d ∈ ((slistForeach s s.made (s.head ())).getD []).dropLast, d ≠ none := by
  obtain ⟨s', hs', h'⟩ := slistFree_drains () h
  have hnodes : (∀ a, s'.node a = none) ↔ undrained (ys ()) = [] := by
    rw [nodes_freed_iff h']
    constructor
    · intro hall
      have hone := hall ()
      rwa [Function.update_self] at hone
    · rintro hone ⟨⟩
      rwa [Function.update_self]
  rw [slistForeach_spec h, Option.getD_some, ← undrained_nil_iff, ← hnodes]
  constructor
  · rintro ⟨s2, hs2, hnone⟩
    obtain rfl := Option.some.inj (hs'.symm.trans hs2)
    exact hnone
  · exact fun hnone => ⟨s', hs', hnone⟩

/-- Destruction is complete exactly when no datum that has to be popped or freed
is taken for the end of a list. -/
theorem freed_exactly :
    (∀ (ops : List (DoublyLinkedList.Op α)) xs, Run (sequences α) (fun _ _ => True) [] ops xs →
      ∃ l, DoublyLinkedList.performAll ops listNew = some (outcomes ops [], l) ∧
        (ListFreed l ↔ ∀ d ∈ (xs.map Prod.snd).dropLast, d ≠ none)) ∧
    (∀ (pushes : List (Bool × Option α)) s, pushAll () pushes slistNew = s →
      (SlistFreed s ↔ ∀ d ∈ ((slistForeach s s.made (s.head ())).getD []).dropLast, d ≠ none)) ∧
    ∀ (cmp : Option α → K → ℤ) hash valueFree nr table array lock t (ops : List (Op α K)),
      hashtableNew cmp hash valueFree nr table array lock = some t →
      (1 ≤ nr → ∃ os u, performAll ops t = some (os, u)) ∧
        ∀ os u, performAll ops t = some (os, u) → (TableFreed u ↔ Clears u) := by
  refine ⟨?_, ?_, ?_⟩
  · intro ops xs hrun
    obtain ⟨l, hl, hr⟩ := DoublyLinkedList.performAll_specified hrun DoublyLinkedList.represents_new
    exact ⟨l, hl, listFreed_iff hr⟩
  · rintro pushes s rfl
    obtain ⟨ys, h⟩ := pushAll_represents () pushes represents_new
    exact slistFreed_iff h
  · intro cmp hash valueFree nr table array lock t ops hnew
    have hfits := hashtableNew_fits hnew
    obtain rfl := hashtableNew_spec hnew
    rcases Nat.eq_zero_or_pos nr with rfl | hnr
    · refine ⟨fun hnr => absurd hnr (by decide), ?_⟩
      intro os u hu
      cases ops with
      | nil =>
        obtain ⟨-, rfl⟩ := Prod.mk.inj (Option.some.inj hu)
        exact tableFreed_no_buckets rfl fun _ => rfl
      | cons op ops =>
        rw [performAll, perform_no_buckets rfl] at hu
        cases hu
    · obtain ⟨os, u, ys, hops, ha, hu⟩ := performAll_bucketed (bucketed_new hnr) ops
      refine ⟨fun _ => ⟨os, u, hops⟩, ?_⟩
      intro os' u' hops'
      obtain ⟨-, rfl⟩ := Prod.mk.inj (Option.some.inj (hops.symm.trans hops'))
      exact tableFreed_iff hu (by rwa [ha.nrBuckets])

def twoBuckets : Hashtable ℕ ℕ :=
  ⟨slistNew, 2, 0, fun d k => if d = some k then 0 else 1, fun k => k.toUInt32, true⟩

theorem freed_exactly_null_last :
    (∃ l, DoublyLinkedList.performAll [.pushBack 1 (some 7), .pushBack 2 none] listNew =
        some ([none, none], l) ∧ ListFreed l) ∧
      SlistFreed (pushAll () [(true, (none : Option ℕ)), (false, some 3), (true, some 7)] slistNew) ∧
      ∃ u, performAll [.add true (some 5) 5, .add true (some 7) 7, .add true (some 8) 8] twoBuckets =
        some ([.error .success, .error .success, .error .success], u) ∧ TableFreed u := by
  obtain ⟨hlist, hslist, htable⟩ := @freed_exactly ℕ ℕ
  obtain ⟨l, hl, hfreed⟩ := hlist [.pushBack 1 (some 7), .pushBack 2 none] _
    (run_of_admits [] _ (by decide))
  refine ⟨⟨l, hl, hfreed.mpr (by decide)⟩, (hslist _ _ rfl).mpr (by decide), _, rfl, ?_⟩
  have hiff := (htable (fun d k => if d = some k then 0 else 1) (fun k => k.toUInt32) true 2 true true
    true twoBuckets [.add true (some 5) 5, .add true (some 7) 7, .add true (some 8) 8] rfl).2 _ _ rfl
  exact hiff.mpr ⟨by decide, by decide, by decide⟩

/-- A null datum in front of another ends all three loops early. -/
theorem null_first_leaks :
    (∃ l l', DoublyLinkedList.performAll [.pushBack 1 none, .pushBack 2 (some 7)] listNew =
        some ([none, none], l) ∧ listFree (l.made + 1) l = some l' ∧ (l'.node 2).isSome = true) ∧
      (∃ s', slistFree () 3 (pushAll () [(true, some 7), (true, none)] slistNew) = some s' ∧
        (s'.node 0).isSome = true) ∧
      ∃ u s', performAll [.add true (some 7) 7, .add true none 9] twoBuckets =
          some ([.error .success, .error .success], u) ∧
        hashtableFree u = some ([], s') ∧ (s'.node 0).isSome = true := by
  refine ⟨⟨_, _, rfl, rfl, rfl⟩, ⟨_, rfl, rfl⟩, _, _, rfl, rfl, rfl⟩

end Tigera.Destruction
