import Mathlib.Algebra.Order.Group.Multiset
import TigeraWebservice.Ledger

/-!
# Holdings of a ledger

A sound ledger accounts for a multiset of names when these are its live names,
each once. Acquiring a name adds it to the holdings and releasing one takes it
away, wherever it is kept; once nothing is held, everything that was acquired
has been released once.
-/

set_option autoImplicit false

namespace ResourceLedger

variable {α : Type*} [DecidableEq α] {l : List (Entry α)} {held : Multiset α} {a : α}

structure Holds (l : List (Entry α)) (held : Multiset α) : Prop where
  sound : Sound l
  nodup : held.Nodup
  live : ∀ a, status l a = .live ↔ a ∈ held

theorem holds_nil : Holds ([] : List (Entry α)) 0 where
  sound := trivial
  nodup := Multiset.nodup_zero
  live := by simp

theorem holds_alloc (h : Holds l held) (hf : status l a = .fresh) :
    Holds (.alloc a :: l) (a ::ₘ held) := by
  have hnot : a ∉ held := fun ha => by
    have hl := (h.live a).mpr ha
    rw [hf] at hl
    cases hl
  constructor
  · exact ⟨hf, h.sound⟩
  · exact Multiset.nodup_cons.mpr ⟨hnot, h.nodup⟩
  · intro b
    by_cases hb : b = a
    · simp [hb]
    · simp [hb, h.live b]

theorem holds_free (h : Holds l (a ::ₘ held)) : Holds (.free a :: l) held := by
  obtain ⟨hnot, hnodup⟩ := Multiset.nodup_cons.mp h.nodup
  constructor
  · exact ⟨(h.live a).mpr (Multiset.mem_cons_self a held), h.sound⟩
  · exact hnodup
  · intro b
    by_cases hb : b = a
    · subst hb
      simp [hnot]
    · simp [hb, h.live b]

theorem holds_free_list (as : List α) (h : Holds l ((as : Multiset α) + held)) :
    Holds (as.map .free ++ l) held := by
  induction as generalizing held with
  | nil => simpa using h
  | cons a as ih =>
    apply holds_free
    apply ih
    rwa [Multiset.add_cons, ← Multiset.cons_add, Multiset.cons_coe]

theorem status_free_list (as : List α) (l : List (Entry α)) (ha : a ∉ as) :
    status (as.map .free ++ l) a = status l a := by
  induction as with
  | nil => rfl
  | cons b as ih =>
    obtain ⟨hne, has⟩ := not_or.mp (fun h => ha (List.mem_cons.mpr h))
    rw [List.map_cons, List.cons_append, status_free, if_neg hne]
    exact ih has

theorem holds_frees (h : Holds l 0) (ha : .alloc a ∈ l) : frees l a = 1 := by
  have hl : status l a ≠ .live := fun hl => Multiset.notMem_zero a ((h.live a).mp hl)
  rw [frees_of_made h.sound ha, if_neg hl]

end ResourceLedger
