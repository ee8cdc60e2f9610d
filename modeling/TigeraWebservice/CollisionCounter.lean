import TigeraWebservice.HashTable
import Mathlib.Algebra.BigOperators.Group.Finset.Basic

/-!
# The collision counter

`hashtable_add` counts before it knows whether it will store. The counter tells
how many values share their bucket with an older one as long as every add to a
bucket in use stores its value.
-/

set_option autoImplicit false

namespace Tigera.CollisionCounter
open LinkChain Tigera.SinglyLinkedList Tigera.HashTable

variable {α K : Type*}

/-- How many of the values have gone into a bucket with a value in it. -/
def excess (t : Hashtable α K) : ℕ :=
  ∑ i ∈ Finset.range t.nrBuckets, ((bucketData t i).length - 1)

/-- The counter shows the number, as far as a `size_t` can. -/
def Counted (t : Hashtable α K) : Prop := hashtableGetCollisions t = UInt64.ofNat (excess t)

instance (t : Hashtable α K) : Decidable (Counted t) :=
  inferInstanceAs (Decidable (hashtableGetCollisions t = UInt64.ofNat (excess t)))

/-- The bucket is empty, or the value is new to it and there is room for it. -/
def Fits : Op α K → Hashtable α K → Prop
  | .add ok _ key, t => bucketData t (bucketOf t key) = [] ∨
      ok = true ∧ ∀ d ∈ bucketData t (bucketOf t key), t.cmp d key ≠ 0
  | .find _, _ => True

variable {t u : Hashtable α K} {xs : ℕ → List (ℕ × Option α)} {key : K} {op : Op α K}

theorem excess_eq (h : Bucketed t xs) :
    excess t = ∑ i ∈ Finset.range t.nrBuckets, ((xs i).length - 1) := by
  apply Finset.sum_congr rfl
  intro i _
  rw [bucketData_eq h, List.length_map]

theorem excess_same (h : Bucketed t xs) (ha : Alike t u) (hu : Bucketed u xs) :
    excess u = excess t := by
  rw [excess_eq h, excess_eq hu, ha.nrBuckets]

theorem excess_push (h : Bucketed t xs) (ha : Alike t u) {x : ℕ × Option α}
    (hu : Bucketed u (Function.update xs (bucketOf t key) (x :: xs (bucketOf t key)))) :
    excess u = excess t + if xs (bucketOf t key) = [] then 0 else 1 := by
  have hb : bucketOf t key ∈ Finset.range t.nrBuckets :=
    Finset.mem_range.mpr (Nat.mod_lt _ h.some_bucket)
  rw [excess_eq h, excess_eq hu, ha.nrBuckets, ← Finset.add_sum_erase _ _ hb,
    ← Finset.add_sum_erase (Finset.range t.nrBuckets) _ hb, Function.update_self]
  have hothers : ∑ i ∈ (Finset.range t.nrBuckets).erase (bucketOf t key),
      ((Function.update xs (bucketOf t key) (x :: xs (bucketOf t key)) i).length - 1) =
      ∑ i ∈ (Finset.range t.nrBuckets).erase (bucketOf t key), ((xs i).length - 1) := by
    apply Finset.sum_congr rfl
    intro i hi
    rw [Function.update_of_ne (Finset.ne_of_mem_erase hi)]
  rw [hothers]
  cases xs (bucketOf t key) with
  | nil => rfl
  | cons y ys =>
    rw [if_neg (List.cons_ne_nil y ys)]
    simp only [List.length_cons]
    omega

theorem counted_succ_iff (hc : Counted t) (m : ℕ) (hm : m ≤ 1) :
    t.collisions + 1 = UInt64.ofNat (excess t + m) ↔ m = 1 := by
  have hc : t.collisions = UInt64.ofNat (excess t) := hc
  rw [hc]
  obtain rfl | rfl : m = 0 ∨ m = 1 := by omega
  · simp
  · simp

theorem fits_iff (h : Bucketed t xs) (ok : Bool) (value : Option α) (key : K) :
    Fits (.add ok value key) t ↔ xs (bucketOf t key) = [] ∨
      ok = true ∧ ∀ x ∈ xs (bucketOf t key), t.cmp x.2 key ≠ 0 := by
  rw [Fits, bucketData_eq h, List.map_eq_nil_iff]
  exact or_congr Iff.rfl (and_congr Iff.rfl List.forall_mem_map)

theorem counted_empty (h : Bucketed t xs) (hc : Counted t) (hb : xs (bucketOf t key) = [])
    {ok : Bool} {value : Option α} {e : HashtableError} {ys : ℕ → List (ℕ × Option α)}
    (ha : Alike t u) (hadded : Added t xs ok value key e ys) (hu : Bucketed u ys)
    (hcount : u.collisions = t.collisions) : Counted u := by
  have hexcess : excess u = excess t := by
    cases hadded with
    | found => exact excess_same h ha hu
    | error => exact excess_same h ha hu
    | success => rw [excess_push h ha hu, if_pos hb, Nat.add_zero]
  rw [Counted, hashtableGetCollisions, hcount, hexcess]
  exact hc

theorem counted_used (h : Bucketed t xs) (hc : Counted t) (hb : xs (bucketOf t key) ≠ [])
    {ok : Bool} {value : Option α} {e : HashtableError} {ys : ℕ → List (ℕ × Option α)}
    (ha : Alike t u) (hadded : Added t xs ok value key e ys) (hu : Bucketed u ys)
    (hcount : u.collisions = t.collisions + 1) :
    Counted u ↔ ok = true ∧ ∀ x ∈ xs (bucketOf t key), t.cmp x.2 key ≠ 0 := by
  rw [Counted, hashtableGetCollisions, hcount]
  cases hadded with
  | found x hx hk =>
    rw [excess_same h ha hu, ← Nat.add_zero (excess t), counted_succ_iff hc 0 (by decide)]
    exact iff_of_false (by decide) fun hfits => hfits.2 x hx hk
  | error hk hok =>
    rw [excess_same h ha hu, ← Nat.add_zero (excess t), counted_succ_iff hc 0 (by decide)]
    exact iff_of_false (by decide) fun hfits => by rw [hok] at hfits; cases hfits.1
  | success a hk hok =>
    rw [excess_push h ha hu, if_neg hb, counted_succ_iff hc 1 (by decide)]
    exact iff_of_true rfl ⟨hok, hk⟩

theorem perform_counted (h : Bucketed t xs) (hc : Counted t) (op : Op α K) :
    ∃ o u ys, perform op t = some (o, u) ∧ Bucketed u ys ∧ (Counted u ↔ Fits op t) := by
  cases op with
  | find key =>
    have hfind : perform (.find key) t = _ := congrArg (Option.map _) (hashtableFind_spec h key)
    exact ⟨_, t, xs, hfind, h, iff_of_true hc trivial⟩
  | add ok value key =>
    obtain ⟨e, u, ys, hadd, ha, hcount, hadded, hu⟩ := hashtableAdd_spec h ok value key
    refine ⟨.error e, u, ys, by rw [perform, hadd]; rfl, hu, ?_⟩
    rw [fits_iff h]
    by_cases hb : xs (bucketOf t key) = []
    · rw [if_pos hb] at hcount
      exact iff_of_true (counted_empty h hc hb ha hadded hu hcount) (.inl hb)
    · rw [if_neg hb] at hcount
      rw [counted_used h hc hb ha hadded hu hcount]
      exact ⟨.inr, fun hfits => hfits.resolve_left hb⟩

/-- Calls one after the other leave a table that satisfies `P`. -/
def Reaches (t : Hashtable α K) (ops : List (Op α K)) (P : Hashtable α K → Prop) : Prop :=
  ∃ os u, performAll ops t = some (os, u) ∧ P u

theorem reaches_cons {P : Hashtable α K → Prop} {o : Outcome α} {ops : List (Op α K)}
    (h : perform op t = some (o, u)) : Reaches t (op :: ops) P ↔ Reaches u ops P := by
  unfold Reaches
  rw [performAll, h]
  constructor
  · rintro ⟨os, v, hv, hP⟩
    obtain ⟨r, hr, he⟩ := Option.map_eq_some_iff.mp hv
    obtain ⟨-, rfl⟩ := Prod.mk.inj he
    exact ⟨r.1, r.2, hr, hP⟩
  · rintro ⟨os, v, hv, hP⟩
    refine ⟨o :: os, v, ?_, hP⟩
    show (performAll ops u).map _ = _
    rw [hv]
    rfl

theorem reaches_nil {P : Hashtable α K → Prop} : Reaches t [] P ↔ P t := by
  constructor
  · rintro ⟨os, u, hu, hP⟩
    obtain ⟨-, rfl⟩ := Prod.mk.inj (Option.some.inj hu)
    exact hP
  · intro hP
    exact ⟨[], t, rfl, hP⟩

theorem run_counted (h : Bucketed t xs) (hc : Counted t) (ops : List (Op α K)) :
    (∀ before, before <+: ops → Reaches t before Counted) ↔
      ∀ before op, before ++ [op] <+: ops → Reaches t before (Fits op) := by
  induction ops generalizing t xs with
  | nil =>
    refine iff_of_true ?_ ?_
    · intro before hb
      rw [List.prefix_nil.mp hb]
      exact reaches_nil.mpr hc
    · intro before op hb
      exact absurd (List.prefix_nil.mp hb) (List.append_ne_nil_of_right_ne_nil _ (by simp))
  | cons op ops ih =>
    obtain ⟨o, u, ys, hop, hu, hiff⟩ := perform_counted h hc op
    constructor
    · intro hall
      have hcu : Counted u := by
        have hone := hall [op] ⟨ops, rfl⟩
        exact reaches_nil.mp ((reaches_cons hop).mp hone)
      have hrest := (ih hu hcu).mp fun before hb =>
        (reaches_cons hop).mp (hall (op :: before) (List.cons_prefix_cons.mpr ⟨rfl, hb⟩))
      intro before op' hb
      cases before with
      | nil =>
        obtain ⟨rfl, -⟩ := List.cons_prefix_cons.mp hb
        exact reaches_nil.mpr (hiff.mp hcu)
      | cons e before =>
        obtain ⟨rfl, htail⟩ := List.cons_prefix_cons.mp hb
        exact (reaches_cons hop).mpr (hrest before op' htail)
    · intro hall
      have hfits : Fits op t := reaches_nil.mp (hall [] op ⟨ops, rfl⟩)
      have hrest := (ih hu (hiff.mpr hfits)).mpr fun before op' hb =>
        (reaches_cons hop).mp (hall (op :: before) op' (List.cons_prefix_cons.mpr ⟨rfl, hb⟩))
      intro before hb
      cases before with
      | nil => exact reaches_nil.mpr hc
      | cons e before =>
        obtain ⟨rfl, htail⟩ := List.cons_prefix_cons.mp hb
        exact (reaches_cons hop).mpr (hrest before htail)

theorem counted_new {cmp : Option α → K → ℤ} {hash : K → UInt32} {valueFree : Bool} {nr : ℕ}
    (hnr : 1 ≤ nr) : Counted (⟨slistNew, nr, 0, cmp, hash, valueFree⟩ : Hashtable α K) := by
  have hsum : excess (⟨slistNew, nr, 0, cmp, hash, valueFree⟩ : Hashtable α K) = 0 :=
    (excess_eq (bucketed_new hnr)).trans (Finset.sum_eq_zero fun i _ => rfl)
  rw [Counted, hsum]
  rfl

/-- The counter is right after every call of a sequence exactly when every call
of it fits. -/
theorem collisions_counted (cmp : Option α → K → ℤ) (hash : K → UInt32) (valueFree : Bool) (nr : ℕ)
    (table array lock : Bool) (t : Hashtable α K) (hnr : 1 ≤ nr)
    (hnew : hashtableNew cmp hash valueFree nr table array lock = some t) (ops : List (Op α K)) :
    (∀ before, before <+: ops → Reaches t before Counted) ↔
      ∀ before op, before ++ [op] <+: ops → Reaches t before (Fits op) := by
  rw [hashtableNew_spec hnew]
  exact run_counted (bucketed_new hnr) (counted_new hnr) ops

def oneBucket : Hashtable ℕ ℕ :=
  ⟨slistNew, 1, 0, fun d k => if d = some k then 0 else 1, fun k => k.toUInt32, false⟩

def threeKeys : List (Op ℕ ℕ) :=
  [.add true (some 5) 5, .add true (some 6) 6, .find 5, .add true (some 7) 7]

theorem collisions_counted_threeKeys :
    (∀ before, before <+: threeKeys → Reaches oneBucket before Counted) ↔
      ∀ before op, before ++ [op] <+: threeKeys → Reaches oneBucket before (Fits op) :=
  collisions_counted (fun d k => if d = some k then 0 else 1) (fun k => k.toUInt32) false 1
    true true true oneBucket (by decide) rfl threeKeys

/-- A key that is there already is counted as a collision. -/
theorem readded_counted : hashtableNew (fun d k => if d = some k then 0 else 1)
      (fun k : ℕ => k.toUInt32) false 1 true true true = some oneBucket ∧
    ∃ u, performAll [.add true (some 5) 5, .add true (some 5) 5] oneBucket =
        some ([.error .success, .error .found], u) ∧
      hashtableGetCollisions u = 1 ∧ excess u = 0 ∧ ¬ Counted u :=
  ⟨rfl, _, rfl, rfl, rfl, by decide⟩

end Tigera.CollisionCounter
