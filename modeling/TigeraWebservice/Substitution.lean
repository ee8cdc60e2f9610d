import Mathlib.Data.List.Infix
import Mathlib.Data.Nat.Notation

/-!
# Substitution for occurrences of a word

A scan of a text looks at what is left of it, passes an occurrence of the word
as a whole and any other letter by itself. The occurrences found so are the
leftmost ones that do not overlap. `replace` puts another word in their place
and `replaceBoth` substitutes for two words in one scan.
-/

set_option autoImplicit false

namespace Substitution

variable {α : Type*}

theorem drop_pred_append {w : List α} (hw : 0 < w.length) (s : List α) :
    ∃ c t, w ++ s = c :: t ∧ t.drop (w.length - 1) = s := by
  cases w with
  | nil => cases hw
  | cons c w => exact ⟨c, w ++ s, rfl, by simp⟩

variable [DecidableEq α]

/-- Where the scan looks, after `k` letters still to be passed. -/
def looksFrom (word : List α) : ℕ → List α → List (List α)
  | _, [] => []
  | k + 1, _ :: s => looksFrom word k s
  | 0, c :: s =>
    (c :: s) :: looksFrom word (if word.isPrefixOf (c :: s) then word.length - 1 else 0) s

def replaceFrom (word new : List α) : ℕ → List α → List α
  | _, [] => []
  | k + 1, _ :: s => replaceFrom word new k s
  | 0, c :: s =>
    if word.isPrefixOf (c :: s) then new ++ replaceFrom word new (word.length - 1) s
    else c :: replaceFrom word new 0 s

def replaceBothFrom (word new word' new' : List α) : ℕ → List α → List α
  | _, [] => []
  | k + 1, _ :: s => replaceBothFrom word new word' new' k s
  | 0, c :: s =>
    if word.isPrefixOf (c :: s) then new ++ replaceBothFrom word new word' new' (word.length - 1) s
    else if word'.isPrefixOf (c :: s) then
      new' ++ replaceBothFrom word new word' new' (word'.length - 1) s
    else c :: replaceBothFrom word new word' new' 0 s

def looks (word s : List α) : List (List α) := looksFrom word 0 s

/-- What is left of the text at every occurrence. -/
def hits (word s : List α) : List (List α) := (looks word s).filter word.isPrefixOf

/-- The text with every occurrence of `word` replaced by `new`. -/
def replace (word new s : List α) : List α := replaceFrom word new 0 s

def replaceBoth (word new word' new' s : List α) : List α := replaceBothFrom word new word' new' 0 s

variable {word new word' new' : List α}

theorem looksFrom_drop (k : ℕ) (s : List α) : looksFrom word k s = looks word (s.drop k) := by
  induction k generalizing s with
  | zero => rfl
  | succ k ih =>
    cases s with
    | nil => rfl
    | cons c s => exact ih s

theorem replaceFrom_drop (k : ℕ) (s : List α) :
    replaceFrom word new k s = replace word new (s.drop k) := by
  induction k generalizing s with
  | zero => rfl
  | succ k ih =>
    cases s with
    | nil => rfl
    | cons c s => exact ih s

theorem replaceBothFrom_drop (k : ℕ) (s : List α) :
    replaceBothFrom word new word' new' k s = replaceBoth word new word' new' (s.drop k) := by
  induction k generalizing s with
  | zero => rfl
  | succ k ih =>
    cases s with
    | nil => rfl
    | cons c s => exact ih s

@[simp] theorem replace_nil : replace word new [] = [] := rfl

@[simp] theorem looks_nil : looks word ([] : List α) = [] := rfl

@[simp] theorem hits_nil : hits word ([] : List α) = [] := rfl

@[simp] theorem replaceBoth_nil : replaceBoth word new word' new' [] = [] := rfl

theorem looks_append (hw : 0 < word.length) (s : List α) :
    looks word (word ++ s) = (word ++ s) :: looks word s := by
  obtain ⟨c, t, hs, ht⟩ := drop_pred_append hw s
  have hp : word.isPrefixOf (c :: t) = true := by simp [← hs]
  rw [hs, looks, looksFrom, if_pos hp, looksFrom_drop, ht]

theorem looks_cons {c : α} {s : List α} (hc : word.isPrefixOf (c :: s) = false) :
    looks word (c :: s) = (c :: s) :: looks word s := by
  rw [looks, looksFrom, hc]
  rfl

theorem hits_append (hw : 0 < word.length) (s : List α) :
    hits word (word ++ s) = (word ++ s) :: hits word s := by
  rw [hits, looks_append hw, List.filter_cons_of_pos (by simp)]
  rfl

theorem hits_cons {c : α} {s : List α} (hc : word.isPrefixOf (c :: s) = false) :
    hits word (c :: s) = hits word s := by
  rw [hits, looks_cons hc, List.filter_cons_of_neg (by simp [hc])]
  rfl

theorem replace_append (hw : 0 < word.length) (s : List α) :
    replace word new (word ++ s) = new ++ replace word new s := by
  obtain ⟨c, t, hs, ht⟩ := drop_pred_append hw s
  have hp : word.isPrefixOf (c :: t) = true := by simp [← hs]
  rw [hs, replace, replaceFrom, if_pos hp, replaceFrom_drop, ht]

theorem replace_cons {c : α} {s : List α} (hc : word.isPrefixOf (c :: s) = false) :
    replace word new (c :: s) = c :: replace word new s := by
  rw [replace, replaceFrom, hc]
  rfl

theorem replaceBoth_append (hw : 0 < word.length) (s : List α) :
    replaceBoth word new word' new' (word ++ s) = new ++ replaceBoth word new word' new' s := by
  obtain ⟨c, t, hs, ht⟩ := drop_pred_append hw s
  have hp : word.isPrefixOf (c :: t) = true := by simp [← hs]
  rw [hs, replaceBoth, replaceBothFrom, if_pos hp, replaceBothFrom_drop, ht]

theorem replaceBoth_append' (hw : 0 < word'.length) (s : List α)
    (hc : word.isPrefixOf (word' ++ s) = false) :
    replaceBoth word new word' new' (word' ++ s) = new' ++ replaceBoth word new word' new' s := by
  obtain ⟨c, t, hs, ht⟩ := drop_pred_append hw s
  have hp : word'.isPrefixOf (c :: t) = true := by simp [← hs]
  rw [hs] at hc ⊢
  rw [replaceBoth, replaceBothFrom, hc, if_neg (by decide), if_pos hp, replaceBothFrom_drop, ht]

theorem replaceBoth_cons {c : α} {s : List α} (hc : word.isPrefixOf (c :: s) = false)
    (hc' : word'.isPrefixOf (c :: s) = false) :
    replaceBoth word new word' new' (c :: s) = c :: replaceBoth word new word' new' s := by
  rw [replaceBoth, replaceBothFrom, hc, hc']
  rfl

/-- Every text is empty, begins with the word or begins with a letter passed
by itself. -/
inductive Scan (word : List α) : List α → Prop where
  | nil : Scan word []
  | hit (s : List α) (rest : Scan word s) : Scan word (word ++ s)
  | pass (c : α) (s : List α) (no : word.isPrefixOf (c :: s) = false) (rest : Scan word s) :
      Scan word (c :: s)

theorem scan (hw : 0 < word.length) (s : List α) : Scan word s := by
  induction hn : s.length using Nat.strong_induction_on generalizing s with
  | _ n ih =>
    subst hn
    cases s with
    | nil => exact .nil
    | cons c s =>
      cases hp : word.isPrefixOf (c :: s) with
      | false => exact .pass c s hp (ih s.length (by simp) s rfl)
      | true =>
        obtain ⟨t, ht⟩ := List.isPrefixOf_iff_prefix.mp hp
        rw [← ht]
        apply Scan.hit t
        apply ih t.length _ t rfl
        rw [← ht, List.length_append]
        omega

theorem length_replace (hw : 0 < word.length) (s : List α) :
    (replace word new s).length + (hits word s).length * word.length =
      s.length + (hits word s).length * new.length := by
  induction scan hw s with
  | nil => simp
  | hit s _ ih =>
    rw [replace_append hw, hits_append hw]
    simp only [List.length_append, List.length_cons, Nat.succ_mul]
    omega
  | pass c s no _ ih =>
    rw [replace_cons no, hits_cons no]
    simp only [List.length_cons]
    omega

theorem mem_replace {a : α} (hw : 0 < word.length) (s : List α) (ha : a ∈ replace word new s) :
    a ∈ s ∨ a ∈ new := by
  induction scan hw s with
  | nil => cases ha
  | hit s _ ih =>
    rw [replace_append hw, List.mem_append] at ha
    rcases ha with ha | ha
    · exact .inr ha
    · exact (ih ha).imp (List.mem_append_right _) id
  | pass c s no _ ih =>
    rw [replace_cons no, List.mem_cons] at ha
    rcases ha with rfl | ha
    · exact .inl List.mem_cons_self
    · exact (ih ha).imp (List.mem_cons_of_mem _) id

theorem replace_of_absent (hw : 0 < word.length) (s : List α) (hs : ¬ word <:+: s) :
    replace word new s = s := by
  induction scan hw s with
  | nil => rfl
  | hit s _ ih => exact absurd (List.prefix_append word s).isInfix hs
  | pass c s no _ ih =>
    rw [replace_cons no, ih]
    intro h
    exact hs (h.trans (List.suffix_cons c s).isInfix)

theorem replace_pass (u s : List α)
    (hu : ∀ k, k < u.length → word.isPrefixOf (u.drop k ++ s) = false) :
    replace word new (u ++ s) = u ++ replace word new s := by
  induction u with
  | nil => rfl
  | cons c u ih =>
    have h0 : word.isPrefixOf (c :: (u ++ s)) = false := hu 0 (by simp)
    rw [List.cons_append, replace_cons h0, ih, List.cons_append]
    intro k hk
    exact hu (k + 1) (by simpa using hk)

theorem looks_pass (u s : List α)
    (hu : ∀ k, k < u.length → word.isPrefixOf (u.drop k ++ s) = false) :
    looks word s ⊆ looks word (u ++ s) := by
  induction u with
  | nil => exact List.Subset.refl _
  | cons c u ih =>
    have h0 : word.isPrefixOf (c :: (u ++ s)) = false := hu 0 (by simp)
    rw [List.cons_append, looks_cons h0]
    apply List.subset_cons_of_subset
    apply ih
    intro k hk
    exact hu (k + 1) (by simpa using hk)

/-- Whatever follows `word'`, no occurrence of `word` begins within it. -/
def Apart (word word' : List α) : Prop :=
  ∀ s k, k < word'.length → word.isPrefixOf (word'.drop k ++ s) = false

theorem apart_of_notMem {c : α} {t word' : List α} (h : c ∉ word') : Apart (c :: t) word' := by
  intro s k hk
  rw [List.drop_eq_getElem_cons hk, List.cons_append, List.isPrefixOf]
  have hne : c ≠ word'[k] := by
    intro heq
    exact h (heq ▸ List.getElem_mem hk)
  simp [hne]

/-- After the first substitution `word'` begins at a letter of the text only
where it began before, and at no letter that has been put in. -/
def Untangled (word new word' s : List α) : Prop :=
  ∀ r ∈ looks word s,
    (word.isPrefixOf r = true → ∀ k, k < new.length →
      word'.isPrefixOf ((replace word new r).drop k) = false) ∧
    (word.isPrefixOf r = false → word'.isPrefixOf (replace word new r) = true →
      word'.isPrefixOf r = true)

theorem untangled_of_subset {s t : List α} (h : Untangled word new word' s)
    (hst : looks word t ⊆ looks word s) : Untangled word new word' t :=
  fun r hr => h r (hst hr)

/-- Two words that do not overlap may be replaced one after the other, as long
as the first substitution makes no occurrence of the second word. -/
theorem replace_replace (hw : 0 < word.length) (hw' : 0 < word'.length) (ha : Apart word word')
    (s : List α) (hs : Untangled word new word' s) :
    replace word' new' (replace word new s) = replaceBoth word new word' new' s := by
  induction hn : s.length using Nat.strong_induction_on generalizing s with
  | _ n ih =>
    subst hn
    cases scan hw s with
    | nil => rfl
    | hit s rest =>
      have hrest : Untangled word new word' s := by
        apply untangled_of_subset hs
        rw [looks_append hw]
        exact List.subset_cons_self _ _
      have hin := (hs (word ++ s) (by rw [looks_append hw]; exact List.mem_cons_self)).1 (by simp)
      rw [replace_append hw, replaceBoth_append hw, replace_pass new]
      · rw [ih s.length (by rw [List.length_append]; omega) s hrest rfl]
      · intro k hk
        have hk' := hin k hk
        rwa [replace_append hw, List.drop_append_of_le_length hk.le] at hk'
    | pass c s no rest =>
      have hrest : Untangled word new word' s := by
        apply untangled_of_subset hs
        rw [looks_cons no]
        exact List.subset_cons_self _ _
      have hin := (hs (c :: s) (by rw [looks_cons no]; exact List.mem_cons_self)).2 no
      cases hp : word'.isPrefixOf (c :: s) with
      | false =>
        rw [replace_cons no] at hin ⊢
        have hno : word'.isPrefixOf (c :: replace word new s) = false := by
          by_contra hyes
          have := hin (by simpa using hyes)
          rw [hp] at this
          cases this
        rw [replace_cons hno, replaceBoth_cons no hp, ih s.length (by simp) s hrest rfl]
      | true =>
        obtain ⟨t, ht⟩ := List.isPrefixOf_iff_prefix.mp hp
        have hsub : looks word t ⊆ looks word (c :: s) := by
          rw [← ht]
          exact looks_pass word' t (ha t)
        have hlen : t.length < (c :: s).length := by
          rw [← ht, List.length_append]
          omega
        rw [← ht] at no ⊢
        rw [replace_pass word' t (ha t), replace_append hw', replaceBoth_append' hw' t no,
          ih t.length hlen t (untangled_of_subset hs hsub) rfl]

end Substitution
