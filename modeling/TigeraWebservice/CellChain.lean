import TigeraWebservice.LinkChain

/-!
# Chains of cells

Cells in a heap are chained by forward pointers. A shelf is a family of such
chains that share no cell and leave no cell of the heap out; a cell is put in
front of one of them, or the first cell of one is taken away.
-/

set_option autoImplicit false

namespace CellChain
open LinkChain

variable {ι κ α : Type*}

structure Cell (ι α : Type*) where
  next : Option ι
  data : α
  deriving DecidableEq, Repr

/-- The pointer `p` leads to the cells `xs`, in this order, and nowhere else. -/
def Chain (cell : ι → Option (Cell ι α)) : Option ι → List (ι × α) → Prop
  | p, [] => p = none
  | p, x :: xs => p = some x.1 ∧ ∃ q, cell x.1 = some ⟨q, x.2⟩ ∧ Chain cell q xs

structure Shelf (cell : ι → Option (Cell ι α)) (heads : κ → Option ι) (xs : κ → List (ι × α)) :
    Prop where
  chain : ∀ i, Chain cell (heads i) (xs i)
  nodup : ∀ i, (addresses (xs i)).Nodup
  apart : ∀ i j a, a ∈ addresses (xs i) → a ∈ addresses (xs j) → i = j
  only : ∀ a, (∀ i, a ∉ addresses (xs i)) → cell a = none

variable {cell cell' : ι → Option (Cell ι α)} {heads : κ → Option ι} {xs : κ → List (ι × α)}

theorem chain_congr {p : Option ι} {ys : List (ι × α)} (hc : ∀ a ∈ addresses ys, cell' a = cell a)
    (h : Chain cell p ys) : Chain cell' p ys := by
  induction ys generalizing p with
  | nil => exact h
  | cons y ys ih =>
    obtain ⟨hp, q, hy, hq⟩ := h
    refine ⟨hp, q, (hc y.1 (by simp)).trans hy, ih ?_ hq⟩
    intro a ha
    exact hc a (by simp [ha])

theorem chain_head {p : Option ι} {ys : List (ι × α)} (h : Chain cell p ys) : p = first ys none := by
  cases ys with
  | nil => exact h
  | cons y ys => exact h.1

theorem chain_mem {p : Option ι} {ys : List (ι × α)} {x : ι × α} (h : Chain cell p ys)
    (hx : x ∈ ys) : ∃ q, cell x.1 = some ⟨q, x.2⟩ := by
  induction ys generalizing p with
  | nil => cases hx
  | cons y ys ih =>
    obtain ⟨-, q, hy, hq⟩ := h
    rcases List.mem_cons.mp hx with rfl | hx
    · exact ⟨q, hy⟩
    · exact ih hq hx

theorem shelf_empty : Shelf (fun _ => none : ι → Option (Cell ι α)) (fun _ : κ => none)
    (fun _ => []) :=
  ⟨fun _ => rfl, fun _ => List.nodup_nil, fun _ _ _ ha => absurd ha List.not_mem_nil, fun _ _ => rfl⟩

theorem fresh_notMem (h : Shelf cell heads xs) {a : ι} (ha : cell a = none) (i : κ) :
    a ∉ addresses (xs i) := by
  intro hm
  obtain ⟨x, hx, rfl⟩ := List.mem_map.mp hm
  obtain ⟨q, hq⟩ := chain_mem (h.chain i) hx
  rw [ha] at hq
  cases hq

section moves
variable [DecidableEq ι] [DecidableEq κ]

theorem shelf_push (h : Shelf cell heads xs) (i : κ) {a : ι} (d : α) (ha : cell a = none) :
    Shelf (Function.update cell a (some ⟨heads i, d⟩)) (Function.update heads i (some a))
      (Function.update xs i ((a, d) :: xs i)) := by
  have hfresh := fresh_notMem h ha
  have hold : ∀ j, Chain (Function.update cell a (some ⟨heads i, d⟩)) (heads j) (xs j) := by
    intro j
    refine chain_congr (fun b hb => Function.update_of_ne ?_ _ _) (h.chain j)
    rintro rfl
    exact hfresh j hb
  constructor
  · intro j
    by_cases hj : j = i
    · subst hj
      rw [Function.update_self, Function.update_self]
      exact ⟨rfl, heads j, Function.update_self .., hold j⟩
    · rw [Function.update_of_ne hj, Function.update_of_ne hj]
      exact hold j
  · intro j
    by_cases hj : j = i
    · subst hj
      rw [Function.update_self]
      exact List.nodup_cons.mpr ⟨hfresh j, h.nodup j⟩
    · rw [Function.update_of_ne hj]
      exact h.nodup j
  · -- a cell on a chain is the new one, in front of the chain `i`, or an old one
    have hmem : ∀ j b, b ∈ addresses (Function.update xs i ((a, d) :: xs i) j) →
        b = a ∧ j = i ∨ b ≠ a ∧ b ∈ addresses (xs j) := by
      intro j b hb
      have hne : b ∈ addresses (xs j) → b ≠ a := by
        intro hm he
        rw [he] at hm
        exact hfresh j hm
      by_cases hj : j = i
      · subst hj
        rw [Function.update_self] at hb
        rcases List.mem_cons.mp hb with rfl | hb
        · exact .inl ⟨rfl, rfl⟩
        · exact .inr ⟨hne hb, hb⟩
      · rw [Function.update_of_ne hj] at hb
        exact .inr ⟨hne hb, hb⟩
    intro j k b hj hk
    rcases hmem j b hj with ⟨hba, rfl⟩ | ⟨hba, hj⟩
    · rcases hmem k b hk with ⟨-, rfl⟩ | ⟨hne, -⟩
      · rfl
      · exact absurd hba hne
    · rcases hmem k b hk with ⟨he, -⟩ | ⟨-, hk⟩
      · exact absurd he hba
      · exact h.apart j k b hj hk
  · intro b hb
    have hba : b ≠ a := by
      rintro rfl
      apply hb i
      rw [Function.update_self]
      exact List.mem_cons_self
    rw [Function.update_of_ne hba]
    apply h.only
    intro j hj
    apply hb j
    by_cases hji : j = i
    · subst hji
      rw [Function.update_self]
      exact List.mem_cons_of_mem _ hj
    · rwa [Function.update_of_ne hji]

theorem shelf_pop (h : Shelf cell heads xs) {i : κ} {x : ι × α} {ys : List (ι × α)}
    (hi : xs i = x :: ys) : heads i = some x.1 ∧ ∃ q, cell x.1 = some ⟨q, x.2⟩ ∧
      Shelf (Function.update cell x.1 none) (Function.update heads i q)
        (Function.update xs i ys) := by
  have hc := h.chain i
  have hn := h.nodup i
  rw [hi] at hc hn
  obtain ⟨hp, q, hx, hq⟩ := hc
  obtain ⟨hxy, hys⟩ := List.nodup_cons.mp hn
  -- what is still on a chain was on it before, and is not the cell taken away
  have hsub : ∀ j b, b ∈ addresses (Function.update xs i ys j) → b ∈ addresses (xs j) ∧ b ≠ x.1 := by
    intro j b hb
    by_cases hj : j = i
    · subst hj
      rw [Function.update_self] at hb
      refine ⟨?_, ?_⟩
      · rw [hi]
        exact List.mem_cons_of_mem _ hb
      · rintro rfl
        exact hxy hb
    · rw [Function.update_of_ne hj] at hb
      refine ⟨hb, ?_⟩
      rintro rfl
      exact hj (h.apart j i _ hb (by rw [hi]; exact List.mem_cons_self))
  refine ⟨hp, q, hx, ?_, ?_, ?_, ?_⟩
  · intro j
    have hframe : ∀ b ∈ addresses (Function.update xs i ys j),
        Function.update cell x.1 none b = cell b := fun b hb =>
      Function.update_of_ne (hsub j b hb).2 _ _
    apply chain_congr hframe
    by_cases hj : j = i
    · subst hj
      rw [Function.update_self, Function.update_self]
      exact hq
    · rw [Function.update_of_ne hj, Function.update_of_ne hj]
      exact h.chain j
  · intro j
    by_cases hj : j = i
    · subst hj
      rw [Function.update_self]
      exact hys
    · rw [Function.update_of_ne hj]
      exact h.nodup j
  · intro j k b hj hk
    exact h.apart j k b (hsub j b hj).1 (hsub k b hk).1
  · intro b hb
    by_cases hbx : b = x.1
    · rw [hbx, Function.update_self]
    · rw [Function.update_of_ne hbx]
      apply h.only
      intro j hj
      apply hb j
      by_cases hji : j = i
      · subst hji
        rw [Function.update_self]
        rw [hi] at hj
        exact (List.mem_cons.mp hj).resolve_left hbx
      · rwa [Function.update_of_ne hji]

end moves

end CellChain
