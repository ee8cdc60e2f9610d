import TigeraWebservice.HashTable
import TigeraWebservice.InsertOnceMap

/-!
# The hash table as an insert-once map

The values that have been stored, in the order of their arrival, determine what
each bucket holds: those whose key falls in it, the last one in front.
-/

set_option autoImplicit false

namespace Tigera.InsertOnceTable
open Tigera.SinglyLinkedList Tigera.HashTable InsertOnceMap

variable {κ ν : Type*} (keyOf : ν → κ)

def call : Request κ ν → Op ν κ
  | .add ok v => .add ok (some v) (keyOf v)
  | .find k => .find k

def outcome : Answer ν → Outcome ν
  | .stored => .error .success
  | .present => .error .found
  | .refused => .error .error
  | .value v => .value v

/-- What the bucket `i` holds when the values `vs` have arrived. -/
def contents (t : Hashtable ν κ) (vs : List ν) (i : ℕ) : List ν :=
  (vs.filter fun v => bucketOf t (keyOf v) = i).reverse

/-- The table stands for the values `vs`. -/
structure Stores (t : Hashtable ν κ) (xs : ℕ → List (ℕ × Option ν)) (vs : List ν) : Prop where
  bucketed : Bucketed t xs
  data : ∀ i, (xs i).map Prod.snd = (contents keyOf t vs i).map some
  nodup : (vs.map keyOf).Nodup
  compares : ∀ v k, t.cmp (some v) k = 0 ↔ k = keyOf v

variable {keyOf} {t u : Hashtable ν κ} {xs ys : ℕ → List (ℕ × Option ν)} {vs : List ν}

theorem contents_alike (h : Alike t u) (vs : List ν) (i : ℕ) :
    contents keyOf u vs i = contents keyOf t vs i := by
  simp only [contents, bucketOf_alike h]

theorem contents_mem {v : ν} {i : ℕ} :
    v ∈ contents keyOf t vs i ↔ v ∈ vs ∧ bucketOf t (keyOf v) = i := by
  rw [contents, List.mem_reverse, List.mem_filter, decide_eq_true_iff]

theorem contents_nodup (hn : (vs.map keyOf).Nodup) (i : ℕ) :
    ((contents keyOf t vs i).map keyOf).Nodup := by
  rw [contents, List.map_reverse, List.nodup_reverse]
  exact hn.sublist (List.Sublist.map _ List.filter_sublist)

theorem contents_snoc (v : ν) (i : ℕ) : contents keyOf t (vs ++ [v]) i =
    if bucketOf t (keyOf v) = i then v :: contents keyOf t vs i else contents keyOf t vs i := by
  rw [contents, List.filter_append]
  by_cases hi : bucketOf t (keyOf v) = i
  · have hv : [v].filter (fun v => bucketOf t (keyOf v) = i) = [v] := by simp [hi]
    rw [if_pos hi, hv, List.reverse_append]
    rfl
  · have hv : [v].filter (fun v => bucketOf t (keyOf v) = i) = [] := by simp [hi]
    rw [if_neg hi, hv, List.append_nil]
    rfl

theorem stores_alike (h : Stores keyOf t xs vs) (ha : Alike t u) (hu : Bucketed u xs) :
    Stores keyOf u xs vs := by
  refine ⟨hu, ?_, h.nodup, ?_⟩
  · intro i
    rw [contents_alike ha]
    exact h.data i
  · rw [ha.cmp]
    exact h.compares

theorem stores_new {cmp : Option ν → κ → ℤ} {hash : κ → UInt32} {valueFree : Bool} {nr : ℕ}
    (hnr : 1 ≤ nr) (hcmp : ∀ v k, cmp (some v) k = 0 ↔ k = keyOf v) :
    Stores keyOf ⟨slistNew, nr, 0, cmp, hash, valueFree⟩ (fun _ => []) [] :=
  ⟨bucketed_new hnr, fun _ => rfl, List.nodup_nil, hcmp⟩

/-- Every value is in the bucket of its key, and no two have one key. -/
structure Placed (keyOf : ν → κ) (hash : κ → UInt32) (nr : ℕ) (xs : ℕ → List (ℕ × Option ν)) :
    Prop where
  bucket : ∀ i x, x ∈ xs i → ∃ v, x.2 = some v ∧ i = (hash (keyOf v)).toNat % nr
  unique : ∀ i j x y v w, x ∈ xs i → y ∈ xs j → x.2 = some v → y.2 = some w →
    keyOf v = keyOf w → x = y

theorem stores_bucket (h : Stores keyOf t xs vs) (i : ℕ) (x : ℕ × Option ν) (hx : x ∈ xs i) :
    ∃ v, x.2 = some v ∧ bucketOf t (keyOf v) = i := by
  have hmem : x.2 ∈ (contents keyOf t vs i).map some := by
    rw [← h.data]
    exact List.mem_map_of_mem hx
  obtain ⟨v, hv, hxv⟩ := List.mem_map.mp hmem
  exact ⟨v, hxv.symm, (contents_mem.mp hv).2⟩

theorem stores_unique (h : Stores keyOf t xs vs) {i j : ℕ} {x y : ℕ × Option ν} {v w : ν}
    (hx : x ∈ xs i) (hy : y ∈ xs j) (hv : x.2 = some v) (hw : y.2 = some w)
    (hk : keyOf v = keyOf w) : x = y := by
  obtain ⟨v', hv', hi⟩ := stores_bucket h i x hx
  obtain ⟨w', hw', hj⟩ := stores_bucket h j y hy
  obtain rfl : v = v' := Option.some.inj (hv.symm.trans hv')
  obtain rfl : w = w' := Option.some.inj (hw.symm.trans hw')
  obtain rfl : i = j := by rw [← hi, hk, hj]
  have hkeys : ((xs i).map fun x => x.2.map keyOf).Nodup := by
    have hmap : ((xs i).map fun x => x.2.map keyOf) =
        ((contents keyOf t vs i).map keyOf).map some := by
      rw [List.map_map]
      show (xs i).map (Option.map keyOf ∘ Prod.snd) = _
      rw [← List.map_map, h.data, List.map_map]
      rfl
    rw [hmap]
    exact (contents_nodup h.nodup i).map fun _ _ => Option.some.inj
  apply List.inj_on_of_nodup_map hkeys hx hy
  show x.2.map keyOf = y.2.map keyOf
  rw [hv, hw, Option.map_some, Option.map_some, hk]

theorem stores_placed (h : Stores keyOf t xs vs) : Placed keyOf t.hash t.nrBuckets xs := by
  refine ⟨?_, fun i j x y v w => stores_unique h⟩
  intro i x hx
  obtain ⟨v, hv, hi⟩ := stores_bucket h i x hx
  exact ⟨v, hv, hi.symm⟩

variable [DecidableEq κ]

theorem lookup_contents (hn : (vs.map keyOf).Nodup) (k : κ) :
    lookup keyOf (contents keyOf t vs (bucketOf t k)) k = lookup keyOf vs k := by
  apply Option.ext
  intro v
  rw [lookup_some_iff (contents_nodup hn _), lookup_some_iff hn, contents_mem]
  constructor
  · rintro ⟨⟨hv, -⟩, hk⟩
    exact ⟨hv, hk⟩
  · rintro ⟨hv, rfl⟩
    exact ⟨⟨hv, rfl⟩, rfl⟩

theorem stores_find (h : Stores keyOf t xs vs) (k : κ) :
    ((((xs (bucketOf t k)).map Prod.snd).find? fun d => t.cmp d k = 0).join) =
      lookup keyOf vs k := by
  have hcmp : (fun v => decide (t.cmp (some v) k = 0)) = fun v => decide (keyOf v = k) := by
    funext v
    exact decide_eq_decide.mpr ((h.compares v k).trans eq_comm)
  rw [h.data, List.find?_map, ← lookup_contents (t := t) h.nodup k, lookup]
  show ((List.find? (fun v => decide (t.cmp (some v) k = 0)) _).map some).join = _
  rw [hcmp]
  cases List.find? (fun v => decide (keyOf v = k)) (contents keyOf t vs (bucketOf t k)) <;> rfl

theorem stores_absent_iff (h : Stores keyOf t xs vs) (k : κ) :
    (∀ x ∈ xs (bucketOf t k), t.cmp x.2 k ≠ 0) ↔ lookup keyOf vs k = none := by
  rw [lookup_none_iff, List.mem_map]
  constructor
  · rintro hall ⟨v, hv, rfl⟩
    have hmem : some v ∈ (xs (bucketOf t (keyOf v))).map Prod.snd := by
      rw [h.data]
      exact List.mem_map_of_mem (contents_mem.mpr ⟨hv, rfl⟩)
    obtain ⟨x, hx, hxv⟩ := List.mem_map.mp hmem
    apply hall x hx
    rw [hxv]
    exact (h.compares v _).mpr rfl
  · intro habsent x hx hk
    have hmem : x.2 ∈ (contents keyOf t vs (bucketOf t k)).map some := by
      rw [← h.data]
      exact List.mem_map_of_mem hx
    obtain ⟨v, hv, hxv⟩ := List.mem_map.mp hmem
    rw [← hxv] at hk
    exact habsent ⟨v, (contents_mem.mp hv).1, ((h.compares v k).mp hk).symm⟩

theorem stores_push (h : Stores keyOf t xs vs) (ha : Alike t u) {v : ν} {a : ℕ}
    (hv : lookup keyOf vs (keyOf v) = none)
    (hu : Bucketed u (Function.update xs (bucketOf t (keyOf v))
      ((a, some v) :: xs (bucketOf t (keyOf v))))) :
    Stores keyOf u (Function.update xs (bucketOf t (keyOf v))
      ((a, some v) :: xs (bucketOf t (keyOf v)))) (vs ++ [v]) := by
  refine ⟨hu, ?_, ?_, ?_⟩
  · intro i
    rw [contents_alike ha, contents_snoc]
    by_cases hi : bucketOf t (keyOf v) = i
    · subst hi
      rw [Function.update_self, if_pos rfl, List.map_cons, h.data, List.map_cons]
    · rw [Function.update_of_ne (Ne.symm hi), if_neg hi, h.data]
  · have hn := serve_nodup (.add true v) h.nodup
    rwa [serve, hv] at hn
  · rw [ha.cmp]
    exact h.compares

theorem perform_serves (h : Stores keyOf t xs vs) (r : Request κ ν) :
    ∃ u ys, perform (call keyOf r) t = some (outcome (serve keyOf vs r).1, u) ∧ Alike t u ∧
      Stores keyOf u ys (serve keyOf vs r).2 := by
  cases r with
  | find k =>
    refine ⟨t, xs, ?_, alike_refl t, h⟩
    show (hashtableFind k t).map _ = _
    rw [hashtableFind_spec h.bucketed, stores_find h]
    rfl
  | add room v =>
    obtain ⟨e, u, ys, hadd, ha, -, hadded, hu⟩ := hashtableAdd_spec h.bucketed room (some v) (keyOf v)
    have hperform : perform (call keyOf (.add room v)) t = some (.error e, u) := by
      show (hashtableAdd room (some v) (keyOf v) t).map _ = _
      rw [hadd]
      rfl
    have habsent := stores_absent_iff h (keyOf v)
    refine ⟨u, ys, ?_⟩
    rw [hperform, serve]
    cases hadded with
    | found x hx hk =>
      cases hv : lookup keyOf vs (keyOf v) with
      | none => exact absurd hk (habsent.mpr hv x hx)
      | some w => exact ⟨rfl, ha, stores_alike h ha hu⟩
    | error hk hok =>
      rw [habsent.mp hk, hok]
      exact ⟨rfl, ha, stores_alike h ha hu⟩
    | success a hk hok =>
      rw [habsent.mp hk, hok]
      exact ⟨rfl, ha, stores_push h ha (habsent.mp hk) hu⟩

theorem performAll_serves (h : Stores keyOf t xs vs) (rs : List (Request κ ν)) :
    ∃ u ys, performAll (rs.map (call keyOf)) t =
        some ((history keyOf vs rs).map fun e => outcome e.2, u) ∧ Alike t u ∧
      Stores keyOf u ys (vs ++ (history keyOf vs rs).filterMap added) := by
  induction rs generalizing t xs vs with
  | nil =>
    refine ⟨t, xs, rfl, alike_refl t, ?_⟩
    rwa [history, List.filterMap_nil, List.append_nil]
  | cons r rs ih =>
    obtain ⟨t1, xs1, hr, ha, h1⟩ := perform_serves h r
    obtain ⟨u, ys, hrs, hau, hu⟩ := ih h1
    refine ⟨u, ys, ?_, alike_trans ha hau, ?_⟩
    · rw [List.map_cons, performAll, hr]
      show (performAll _ t1).map _ = _
      rw [hrs]
      rfl
    · rwa [kept_cons]

/-- The table answers as an insert-once map; an add that stores nothing has no
effect on later answers. -/
theorem insert_once (keyOf : ν → κ) (cmp : Option ν → κ → ℤ) (hash : κ → UInt32) (valueFree : Bool)
    (nr : ℕ) (table array lock : Bool) (t : Hashtable ν κ) (hnr : 1 ≤ nr)
    (hcmp : ∀ v k, cmp (some v) k = 0 ↔ k = keyOf v)
    (hnew : hashtableNew cmp hash valueFree nr table array lock = some t)
    (rs : List (Request κ ν)) :
    ∃ h u xs, h.map Prod.fst = rs ∧
      performAll (rs.map (call keyOf)) t = some (h.map fun e => outcome e.2, u) ∧
      InsertOnce keyOf h ∧
      (∀ before after r a, h = before ++ (r, a) :: after → a = .present ∨ a = .refused →
        ∃ u', performAll (((before ++ after).map Prod.fst).map (call keyOf)) t =
          some ((before ++ after).map fun e => outcome e.2, u')) ∧
      Bucketed u xs ∧ Placed keyOf hash nr xs := by
  have h0 : Stores keyOf ⟨slistNew, nr, 0, cmp, hash, valueFree⟩ (fun _ => []) [] :=
    stores_new hnr hcmp
  rw [← hashtableNew_spec hnew] at h0
  obtain ⟨u, xs, hperform, ha, hu⟩ := performAll_serves h0 rs
  refine ⟨history keyOf [] rs, u, xs, history_requests [] rs, hperform, history_insertOnce rs, ?_,
    hu.bucketed, ?_⟩
  · intro before after r a hh hnothing
    have hne : a ≠ .stored := by
      rintro rfl
      exact hnothing.elim (fun he => nomatch he) (fun he => nomatch he)
    obtain ⟨u', ys, hperform', -, -⟩ := performAll_serves h0 ((before ++ after).map Prod.fst)
    rw [history_without hh hne] at hperform'
    exact ⟨u', hperform'⟩
  · have hplaced := stores_placed hu
    rwa [ha.hash, ha.nrBuckets, hashtableNew_spec hnew] at hplaced

def digitTable : Hashtable ℕ ℕ :=
  ⟨slistNew, 2, 0, fun d k => if d = none ∨ d.map (· % 10) ≠ some k then 1 else 0,
    fun k => k.toUInt32, false⟩

def lastDigits : List (Request ℕ ℕ) :=
  [.add true 14, .add true 24, .find 4, .add false 6, .add true 16, .find 6, .find 5]

theorem insert_once_lastDigits : ∃ h u xs, h.map Prod.fst = lastDigits ∧
    performAll (lastDigits.map (call (· % 10))) digitTable = some (h.map fun e => outcome e.2, u) ∧
    InsertOnce (· % 10) h ∧
    (∀ before after r a, h = before ++ (r, a) :: after → a = .present ∨ a = .refused →
      ∃ u', performAll (((before ++ after).map Prod.fst).map (call (· % 10))) digitTable =
        some ((before ++ after).map fun e => outcome e.2, u')) ∧
    Bucketed u xs ∧ Placed (· % 10) (fun k : ℕ => k.toUInt32) 2 xs := by
  refine insert_once (fun v : ℕ => v % 10)
    (fun d k => if d = none ∨ d.map (· % 10) ≠ some k then 1 else 0) (fun k => k.toUInt32) false 2
    true true true digitTable (by decide) ?_ rfl lastDigits
  intro v k
  simp [eq_comm]

example : (performAll (lastDigits.map (call (· % 10))) digitTable).map Prod.fst =
    some [.error .success, .error .found, .value (some 14), .error .error, .error .success,
      .value (some 16), .value none] := by decide

end Tigera.InsertOnceTable
