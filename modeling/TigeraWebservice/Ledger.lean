import Mathlib.Data.List.Count
import Mathlib.Data.Nat.Notation

/-!
# Ledgers of acquired and released resources

A ledger records, newest first, every acquisition, use and release of
resources named by `α`. It says nothing about what a resource holds. A ledger
is sound when each name is acquired once, is used only while it is held and is
released once at most. Counting releases then agrees with the status of the
name, and nothing recorded after a release names the released resource.
-/

set_option autoImplicit false

namespace ResourceLedger

variable {α : Type*}

inductive Entry (α : Type*) where
  | alloc (a : α)
  | use (a : α)
  | free (a : α)
  deriving DecidableEq, Repr

inductive Status where
  | fresh
  | live
  | freed
  deriving DecidableEq, Repr

def Entry.subject : Entry α → α
  | .alloc a => a
  | .use a => a
  | .free a => a

variable [DecidableEq α]

def status : List (Entry α) → α → Status
  | [], _ => .fresh
  | .alloc b :: l, a => if a = b then .live else status l a
  | .use _ :: l, a => status l a
  | .free b :: l, a => if a = b then .freed else status l a

def Allowed (l : List (Entry α)) : Entry α → Prop
  | .alloc a => status l a = .fresh
  | .use a => status l a = .live
  | .free a => status l a = .live

instance (l : List (Entry α)) (e : Entry α) : Decidable (Allowed l e) := by
  cases e <;> (unfold Allowed; infer_instance)

def Sound : List (Entry α) → Prop
  | [] => True
  | e :: l => Allowed l e ∧ Sound l

instance decidableSound : (l : List (Entry α)) → Decidable (Sound l)
  | [] => isTrue trivial
  | e :: l => @instDecidableAnd _ _ (inferInstanceAs (Decidable (Allowed l e))) (decidableSound l)

def frees (l : List (Entry α)) (a : α) : ℕ := l.count (.free a)

@[simp] theorem status_nil (a : α) : status [] a = .fresh := rfl

@[simp] theorem status_use (l : List (Entry α)) (b a : α) :
    status (.use b :: l) a = status l a := rfl

@[simp] theorem status_alloc (l : List (Entry α)) (b a : α) :
    status (.alloc b :: l) a = if a = b then .live else status l a := rfl

@[simp] theorem status_free (l : List (Entry α)) (b a : α) :
    status (.free b :: l) a = if a = b then .freed else status l a := rfl

@[simp] theorem sound_nil : Sound ([] : List (Entry α)) := trivial

@[simp] theorem sound_alloc (l : List (Entry α)) (a : α) :
    Sound (.alloc a :: l) ↔ status l a = .fresh ∧ Sound l := Iff.rfl

@[simp] theorem sound_use (l : List (Entry α)) (a : α) :
    Sound (.use a :: l) ↔ status l a = .live ∧ Sound l := Iff.rfl

@[simp] theorem sound_free (l : List (Entry α)) (a : α) :
    Sound (.free a :: l) ↔ status l a = .live ∧ Sound l := Iff.rfl

theorem frees_cons (e : Entry α) (l : List (Entry α)) (a : α) :
    frees (e :: l) a = frees l a + if e = .free a then 1 else 0 := by
  simp [frees, List.count_cons]

theorem frees_of_sound (l : List (Entry α)) (h : Sound l) (a : α) :
    frees l a = if status l a = .freed then 1 else 0 := by
  induction l with
  | nil => rfl
  | cons e l ih =>
    have ih := ih h.2
    have ha := h.1
    rw [frees_cons]
    cases e with
    | use b => exact ih
    | alloc b =>
      have hb : status l b = .fresh := ha
      by_cases hab : a = b
      · subst hab
        simp [ih, hb]
      · simp [ih, hab]
    | free b =>
      have hb : status l b = .live := ha
      by_cases hab : a = b
      · subst hab
        simp [ih, hb]
      · simp [ih, hab, Ne.symm hab]

theorem frees_le_one (l : List (Entry α)) (h : Sound l) (a : α) : frees l a ≤ 1 := by
  rw [frees_of_sound l h]
  split <;> omega

theorem frees_eq_one (l : List (Entry α)) (h : Sound l) (a : α) :
    frees l a = 1 ↔ status l a = .freed := by
  rw [frees_of_sound l h]
  split <;> simp_all

theorem status_freed_persists (later earlier : List (Entry α)) (a : α)
    (h : Sound (later ++ earlier)) (hf : status earlier a = .freed) :
    status (later ++ earlier) a = .freed := by
  induction later with
  | nil => exact hf
  | cons e later ih =>
    have ih := ih h.2
    have ha := h.1
    cases e with
    | use b => exact ih
    | alloc b =>
      have hb : status (later ++ earlier) b = .fresh := ha
      have hne : a ≠ b := fun hab => by simp [← hab, ih] at hb
      simpa [hne] using ih
    | free b =>
      by_cases hab : a = b
      · simp [hab]
      · simpa [hab] using ih

theorem status_of_alloc_mem (l : List (Entry α)) (h : Sound l) (a : α) (ha : .alloc a ∈ l) :
    status l a ≠ .fresh := by
  induction l with
  | nil => cases ha
  | cons e l ih =>
    rcases List.mem_cons.mp ha with rfl | ha
    · simp
    · have ih := ih h.2 ha
      cases e with
      | alloc b => rw [status_alloc]; split <;> simp [ih]
      | use b => exact ih
      | free b => rw [status_free]; split <;> simp [ih]

theorem frees_of_made {l : List (Entry α)} (h : Sound l) {a : α} (ha : .alloc a ∈ l) :
    frees l a = if status l a = .live then 0 else 1 := by
  have hne := status_of_alloc_mem l h a ha
  rw [frees_of_sound l h]
  cases hs : status l a <;> simp_all

/-- Nothing recorded after a release names the released resource. -/
def Untouched : List (Entry α) → Prop
  | [] => True
  | e :: l => .free e.subject ∉ l ∧ Untouched l

instance decidableUntouched : (l : List (Entry α)) → Decidable (Untouched l)
  | [] => isTrue trivial
  | e :: l => @instDecidableAnd _ _ (inferInstanceAs (Decidable (.free e.subject ∉ l)))
      (decidableUntouched l)

theorem status_of_free_mem (l : List (Entry α)) (h : Sound l) (a : α) (ha : .free a ∈ l) :
    status l a = .freed := by
  obtain ⟨later, earlier, rfl⟩ := List.append_of_mem ha
  exact status_freed_persists later _ a h (by simp)

theorem untouched_of_sound (l : List (Entry α)) (h : Sound l) : Untouched l := by
  induction l with
  | nil => trivial
  | cons e l ih =>
    refine ⟨?_, ih h.2⟩
    intro hm
    have hs := status_of_free_mem l h.2 e.subject hm
    have ha := h.1
    cases e with
    | alloc b => exact absurd (hs.symm.trans ha) (by decide)
    | use b => exact absurd (hs.symm.trans ha) (by decide)
    | free b => exact absurd (hs.symm.trans ha) (by decide)

theorem status_allocs (l : List (Entry α)) (as : List α) (a : α) :
    status ((as.map .alloc).reverse ++ l) a = if a ∈ as then .live else status l a := by
  induction as generalizing l with
  | nil => rfl
  | cons b as ih =>
    rw [List.map_cons, List.reverse_cons, List.append_assoc, List.singleton_append, ih]
    by_cases hab : a = b
    · simp [hab]
    · simp [hab]

theorem status_frees (l : List (Entry α)) (as : List α) (a : α) :
    status ((as.map .free).reverse ++ l) a = if a ∈ as then .freed else status l a := by
  induction as generalizing l with
  | nil => rfl
  | cons b as ih =>
    rw [List.map_cons, List.reverse_cons, List.append_assoc, List.singleton_append, ih]
    by_cases hab : a = b
    · simp [hab]
    · simp [hab]

theorem status_uses (l : List (Entry α)) (as : List α) (a : α) :
    status (as.map .use ++ l) a = status l a := by
  induction as with
  | nil => rfl
  | cons b as ih => exact ih

theorem sound_uses {l : List (Entry α)} {as : List α} (h : Sound l)
    (hlive : ∀ a ∈ as, status l a = .live) : Sound (as.map .use ++ l) := by
  induction as with
  | nil => exact h
  | cons b as ih =>
    refine ⟨?_, ih fun a ha => hlive a (List.mem_cons_of_mem _ ha)⟩
    exact (status_uses l as b).trans (hlive b (List.mem_cons_self ..))

theorem sound_allocs {l : List (Entry α)} {as : List α} (h : Sound l) (hd : as.Nodup)
    (hfresh : ∀ a ∈ as, status l a = .fresh) : Sound ((as.map .alloc).reverse ++ l) := by
  induction as generalizing l with
  | nil => exact h
  | cons b as ih =>
    obtain ⟨hb, hd⟩ := List.nodup_cons.mp hd
    rw [List.map_cons, List.reverse_cons, List.append_assoc, List.singleton_append]
    refine ih ⟨hfresh b (List.mem_cons_self ..), h⟩ hd fun a ha => ?_
    have hab : a ≠ b := fun hab => hb (hab ▸ ha)
    rw [status_alloc, if_neg hab]
    exact hfresh a (List.mem_cons_of_mem _ ha)

theorem sound_frees {l : List (Entry α)} {as : List α} (h : Sound l) (hd : as.Nodup)
    (hlive : ∀ a ∈ as, status l a = .live) : Sound ((as.map .free).reverse ++ l) := by
  induction as generalizing l with
  | nil => exact h
  | cons b as ih =>
    obtain ⟨hb, hd⟩ := List.nodup_cons.mp hd
    rw [List.map_cons, List.reverse_cons, List.append_assoc, List.singleton_append]
    refine ih ⟨hlive b (List.mem_cons_self ..), h⟩ hd fun a ha => ?_
    have hab : a ≠ b := fun hab => hb (hab ▸ ha)
    rw [status_free, if_neg hab]
    exact hlive a (List.mem_cons_of_mem _ ha)

end ResourceLedger
