import Mathlib.Data.List.Nodup

/-!
# Insert-once maps

Values carry their keys. A value is stored unless one with its key is there
already or no room is found for it, and nothing is ever taken out. The map is
the list of its values in the order of their arrival.
-/

set_option autoImplicit false

namespace InsertOnceMap

variable {κ ν : Type*}

inductive Request (κ ν : Type*) where
  | add (room : Bool) (v : ν)
  | find (k : κ)
  deriving DecidableEq, Repr

inductive Answer (ν : Type*) where
  | stored
  | present
  | refused
  | value (v : Option ν)
  deriving DecidableEq, Repr

variable [DecidableEq κ] (keyOf : ν → κ)

def lookup (vs : List ν) (k : κ) : Option ν := vs.find? fun v => keyOf v = k

def serve (vs : List ν) : Request κ ν → Answer ν × List ν
  | .find k => (.value (lookup keyOf vs k), vs)
  | .add room v =>
    match lookup keyOf vs (keyOf v) with
    | some _ => (.present, vs)
    | none => if room then (.stored, vs ++ [v]) else (.refused, vs)

def history : List ν → List (Request κ ν) → List (Request κ ν × Answer ν)
  | _, [] => []
  | vs, r :: rs => (r, (serve keyOf vs r).1) :: history (serve keyOf vs r).2 rs

def added : Request κ ν × Answer ν → Option ν
  | (.add _ v, .stored) => some v
  | _ => none

/-- The first value with the key `k` that an add has stored. -/
def firstStored (k : κ) (h : List (Request κ ν × Answer ν)) : Option ν :=
  lookup keyOf (h.filterMap added) k

/-- Every answer is what the requests before it call for. -/
structure InsertOnce (h : List (Request κ ν × Answer ν)) : Prop where
  finds : ∀ before after k a, h = before ++ (.find k, a) :: after →
    a = .value (firstStored keyOf k before)
  present : ∀ before after room v a, h = before ++ (.add room v, a) :: after →
    (a = .present ↔ firstStored keyOf (keyOf v) before ≠ none)
  absent : ∀ before after room v a, h = before ++ (.add room v, a) :: after →
    firstStored keyOf (keyOf v) before = none → a = if room then .stored else .refused

variable {keyOf} {vs : List ν} {h : List (Request κ ν × Answer ν)}

theorem lookup_none_iff {k : κ} : lookup keyOf vs k = none ↔ k ∉ vs.map keyOf := by
  rw [lookup, List.find?_eq_none, List.mem_map]
  constructor
  · rintro hall ⟨v, hv, hk⟩
    exact hall v hv (decide_eq_true hk)
  · intro hk v hv he
    exact hk ⟨v, hv, of_decide_eq_true he⟩

theorem lookup_key {k : κ} {v : ν} (hv : lookup keyOf vs k = some v) : v ∈ vs ∧ keyOf v = k := by
  rw [lookup] at hv
  have hk := List.find?_some hv
  exact ⟨List.mem_of_find?_eq_some hv, of_decide_eq_true hk⟩

theorem lookup_some_iff {k : κ} {v : ν} (hn : (vs.map keyOf).Nodup) :
    lookup keyOf vs k = some v ↔ v ∈ vs ∧ keyOf v = k := by
  constructor
  · exact lookup_key
  · rintro ⟨hv, hk⟩
    cases hw : lookup keyOf vs k with
    | none => exact absurd (List.mem_map.mpr ⟨v, hv, hk⟩) (lookup_none_iff.mp hw)
    | some w =>
      obtain ⟨hmem, hwk⟩ := lookup_key hw
      rw [List.inj_on_of_nodup_map hn hmem hv (hwk.trans hk.symm)]

theorem serve_kept (vs : List ν) (r : Request κ ν) :
    (serve keyOf vs r).2 = vs ++ [(r, (serve keyOf vs r).1)].filterMap added := by
  cases r with
  | find k => exact (List.append_nil vs).symm
  | add room v =>
    rw [serve]
    split
    · exact (List.append_nil vs).symm
    · cases room with
      | false => exact (List.append_nil vs).symm
      | true => rfl

theorem kept_cons (vs : List ν) (r : Request κ ν) (rs : List (Request κ ν)) :
    vs ++ (history keyOf vs (r :: rs)).filterMap added =
      (serve keyOf vs r).2 ++ (history keyOf (serve keyOf vs r).2 rs).filterMap added := by
  conv_rhs => rw [serve_kept, List.append_assoc, ← List.filterMap_append, ← serve_kept]
  rfl

theorem serve_nodup (r : Request κ ν) (hn : (vs.map keyOf).Nodup) :
    ((serve keyOf vs r).2.map keyOf).Nodup := by
  cases r with
  | find k => exact hn
  | add room v =>
    rw [serve]
    split
    · exact hn
    · rename_i hv
      cases room with
      | false => exact hn
      | true =>
        show ((vs ++ [v]).map keyOf).Nodup
        rw [List.map_append, List.nodup_append]
        refine ⟨hn, List.nodup_singleton _, ?_⟩
        intro k hk k' hk' he
        obtain rfl : k' = keyOf v := by simpa using hk'
        exact lookup_none_iff.mp hv (he ▸ hk)

theorem history_requests (vs : List ν) (rs : List (Request κ ν)) :
    (history keyOf vs rs).map Prod.fst = rs := by
  induction rs generalizing vs with
  | nil => rfl
  | cons r rs ih => exact congrArg (r :: ·) (ih _)

theorem history_append (vs : List ν) (rs qs : List (Request κ ν)) :
    history keyOf vs (rs ++ qs) = history keyOf vs rs ++
      history keyOf (vs ++ (history keyOf vs rs).filterMap added) qs := by
  induction rs generalizing vs with
  | nil =>
    rw [history, List.filterMap_nil, List.append_nil]
    rfl
  | cons r rs ih =>
    rw [kept_cons, List.cons_append, history, ih]
    rfl

theorem history_split {rs : List (Request κ ν)} {before after : List (Request κ ν × Answer ν)}
    (hh : history keyOf vs rs = before ++ after) :
    before = history keyOf vs (before.map Prod.fst) ∧
      after = history keyOf (vs ++ before.filterMap added) (after.map Prod.fst) := by
  have hrs : rs = before.map Prod.fst ++ after.map Prod.fst := by
    rw [← @history_requests κ ν _ keyOf vs rs, hh, List.map_append]
  rw [hrs, history_append] at hh
  have hlength : (history keyOf vs (before.map Prod.fst)).length = before.length := by
    have hmap := congrArg List.length (@history_requests κ ν _ keyOf vs (before.map Prod.fst))
    rwa [List.length_map, List.length_map] at hmap
  obtain ⟨hbefore, hafter⟩ := List.append_inj hh hlength
  rw [hbefore] at hafter
  exact ⟨hbefore.symm, hafter.symm⟩

theorem history_at {rs : List (Request κ ν)} {before after : List (Request κ ν × Answer ν)}
    {r : Request κ ν} {a : Answer ν} (hh : history keyOf vs rs = before ++ (r, a) :: after) :
    a = (serve keyOf (vs ++ before.filterMap added) r).1 :=
  (Prod.mk.inj (List.cons_eq_cons.mp (history_split hh).2).1).2

theorem history_insertOnce (rs : List (Request κ ν)) : InsertOnce keyOf (history keyOf [] rs) := by
  constructor
  · intro before after k a hh
    exact history_at hh
  · intro before after room v a hh
    have ha := history_at hh
    rw [List.nil_append, serve] at ha
    rw [firstStored]
    cases hv : lookup keyOf (before.filterMap added) (keyOf v) with
    | some w =>
      rw [hv] at ha
      exact iff_of_true ha (Option.some_ne_none w)
    | none =>
      rw [hv] at ha
      refine iff_of_false ?_ (not_not.mpr rfl)
      cases room <;> rw [ha] <;> exact fun he => nomatch he
  · intro before after room v a hh hv
    have ha := history_at hh
    rw [firstStored] at hv
    rw [List.nil_append, serve, hv] at ha
    cases room <;> exact ha

theorem history_without {rs : List (Request κ ν)} {before after : List (Request κ ν × Answer ν)}
    {r : Request κ ν} {a : Answer ν} (hh : history keyOf vs rs = before ++ (r, a) :: after)
    (ha : a ≠ .stored) :
    history keyOf vs ((before ++ after).map Prod.fst) = before ++ after := by
  obtain ⟨hbefore, hafter⟩ := history_split hh
  have hrest := (List.cons_eq_cons.mp hafter).2
  have hkept := @serve_kept κ ν _ keyOf (vs ++ before.filterMap added) r
  have hnothing : [(r, a)].filterMap added = [] := by
    cases r <;> cases a <;> first | rfl | exact absurd rfl ha
  rw [← history_at hh, hnothing, List.append_nil] at hkept
  rw [hkept] at hrest
  rw [List.map_append, history_append, ← hbefore, ← hrest]

theorem firstStored_append {k : κ} {v : ν} {before after : List (Request κ ν × Answer ν)}
    (hv : firstStored keyOf k before = some v) : firstStored keyOf k (before ++ after) = some v := by
  rw [firstStored, lookup] at hv ⊢
  rw [List.filterMap_append, List.find?_append, hv, Option.some_or]

/-- The value that a key is known to have, from an answer to someone. -/
inductive Told (keyOf : ν → κ) (k : κ) (v : ν) : Request κ ν × Answer ν → Prop where
  | found : Told keyOf k v (.find k, .value (some v))
  | stored (room : Bool) (key : keyOf v = k) : Told keyOf k v (.add room v, .stored)

theorem told_firstStored (hio : InsertOnce keyOf h) {k : κ} {v : ν}
    {before after : List (Request κ ν × Answer ν)} {e : Request κ ν × Answer ν}
    (hh : h = before ++ e :: after) (ht : Told keyOf k v e) :
    firstStored keyOf k (before ++ [e]) = some v := by
  cases ht with
  | found =>
    have ha := hio.finds before after k _ hh
    exact firstStored_append (Answer.value.inj ha).symm
  | stored room key =>
    have hnone : firstStored keyOf (keyOf v) before = none := by
      by_contra hne
      cases (hio.present before after room v _ hh).mpr hne
    rw [firstStored, lookup, key] at hnone
    have hv : [v].find? (fun v => decide (keyOf v = k)) = some v := by
      rw [List.find?_cons, decide_eq_true key]
    rw [firstStored, lookup, List.filterMap_append, List.find?_append, hnone]
    exact hv

end InsertOnceMap
