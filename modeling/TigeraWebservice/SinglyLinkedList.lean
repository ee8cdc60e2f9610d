import TigeraWebservice.CellChain
import Mathlib.Data.List.Perm.Subperm

/-!
# Singly linked lists

`slist.c`. The lists are named by the members of a type and share one heap. A
node is named by the number of nodes made before it; whether `calloc` finds
room for one is an argument. An access through a pointer that leads to no node
faults.
-/

set_option autoImplicit false

namespace Tigera.SinglyLinkedList
open LinkChain CellChain

variable {κ α : Type*}

/-- Each `struct slist` by its only field, and the nodes in the heap. `made`
bounds the turns of every loop over a list. -/
structure Slists (κ α : Type*) where
  node : ℕ → Option (Cell ℕ (Option α))
  head : κ → Option ℕ
  made : ℕ

def slistNew : Slists κ α where
  node _ := none
  head _ := none
  made := 0

def snodeNew (ok : Bool) (s : Slists κ α) : Option ℕ × Slists κ α :=
  if ok then
    (some s.made, { s with node := Function.update s.node s.made (some ⟨none, none⟩)
                           made := s.made + 1 })
  else (none, s)

def snodeFree (a : ℕ) (s : Slists κ α) : Slists κ α :=
  { s with node := Function.update s.node a none }

def slistPushFront [DecidableEq κ] (ok : Bool) (i : κ) (data : Option α) (s : Slists κ α) :
    Option ℕ × Slists κ α :=
  match snodeNew ok s with
  | (none, s) => (none, s)
  | (some a, s) =>
    (some a, { s with node := Function.update s.node a (some ⟨s.head i, data⟩)
                      head := Function.update s.head i (some a) })

def slistPopFront [DecidableEq κ] (i : κ) (s : Slists κ α) : Option (Option α × Slists κ α) :=
  match s.head i with
  | none => some (none, s)
  | some a =>
    match s.node a with
    | none => none
    | some n => some (n.data, snodeFree a { s with head := Function.update s.head i n.next })

/-- What is left of the lists once one of them has been drained. -/
def slistFree [DecidableEq κ] (i : κ) : ℕ → Slists κ α → Option (Slists κ α)
  | 0, _ => none
  | fuel + 1, s =>
    match slistPopFront i s with
    | none => none
    | some (none, s) => some s
    | some (some _, s) => slistFree i fuel s

/-- The data that `slist_foreach` visits from `node` on; nothing when it has not
come to the end within its turns. -/
def slistForeach (s : Slists κ α) : ℕ → Option ℕ → Option (List (Option α))
  | _, none => some []
  | 0, some _ => none
  | fuel + 1, some a =>
    match s.node a with
    | none => none
    | some n => (slistForeach s fuel n.next).map (n.data :: ·)

/-- Pushes onto one list, some of which find no room. -/
def pushAll [DecidableEq κ] (i : κ) : List (Bool × Option α) → Slists κ α → Slists κ α
  | [], s => s
  | (ok, d) :: pushes, s => pushAll i pushes (slistPushFront ok i d s).2

/-- The lists hold the nodes `xs`, in this order, and the heap no others. -/
structure Represents (s : Slists κ α) (xs : κ → List (ℕ × Option α)) : Prop where
  shelf : Shelf s.node s.head xs
  fresh : ∀ a, s.made ≤ a → s.node a = none

variable {s s' : Slists κ α} {xs : κ → List (ℕ × Option α)} {i : κ} {x : ℕ × Option α}
  {ys : List (ℕ × Option α)}

theorem represents_new : Represents (slistNew : Slists κ α) (fun _ => []) :=
  ⟨shelf_empty, fun _ _ => rfl⟩

theorem head_eq (h : Represents s xs) (i : κ) : s.head i = first (xs i) none :=
  chain_head (h.shelf.chain i)

theorem head_none_iff (h : Represents s xs) (i : κ) : s.head i = none ↔ xs i = [] := by
  rw [head_eq h]
  cases xs i with
  | nil => exact iff_of_true rfl rfl
  | cons x ys => exact iff_of_false (Option.some_ne_none _) (List.cons_ne_nil _ _)

theorem length_le_made (h : Represents s xs) (i : κ) : (xs i).length ≤ s.made := by
  have hsub : addresses (xs i) ⊆ List.range s.made := by
    intro a ha
    rw [List.mem_range]
    by_contra hge
    exact fresh_notMem h.shelf (h.fresh a (Nat.not_lt.mp hge)) i ha
  have hle := (List.subperm_of_subset (h.shelf.nodup i) hsub).length_le
  rwa [addresses, List.length_map, List.length_range] at hle

theorem foreach_chain {p : Option ℕ} (fuel : ℕ) (h : Chain s.node p ys) (hf : ys.length ≤ fuel) :
    slistForeach s fuel p = some (ys.map Prod.snd) := by
  induction ys generalizing fuel p with
  | nil =>
    obtain rfl : p = none := h
    cases fuel <;> rfl
  | cons y ys ih =>
    obtain ⟨rfl, q, hy, hq⟩ := h
    cases fuel with
    | zero => cases hf
    | succ fuel =>
      rw [slistForeach, hy]
      show (slistForeach s fuel q).map _ = _
      rw [ih fuel hq (Nat.le_of_succ_le_succ hf)]
      rfl

theorem slistForeach_spec (h : Represents s xs) (i : κ) :
    slistForeach s s.made (s.head i) = some ((xs i).map Prod.snd) :=
  foreach_chain s.made (h.shelf.chain i) (length_le_made h i)

section operations
variable [DecidableEq κ]

theorem slistPushFront_fails (i : κ) (d : Option α) (s : Slists κ α) :
    slistPushFront false i d s = (none, s) := rfl

theorem slistPushFront_spec (i : κ) (d : Option α) (h : Represents s xs) :
    ∃ s', slistPushFront true i d s = (some s.made, s') ∧
      Represents s' (Function.update xs i ((s.made, d) :: xs i)) := by
  refine ⟨_, rfl, ?_, ?_⟩
  · simp only [Function.update_idem]
    exact shelf_push h.shelf i d (h.fresh s.made (Nat.le_refl _))
  · intro a ha
    have hne : a ≠ s.made := fun he => Nat.not_succ_le_self s.made (he ▸ ha)
    show Function.update (Function.update s.node s.made _) s.made _ a = none
    rw [Function.update_of_ne hne, Function.update_of_ne hne]
    exact h.fresh a (Nat.le_of_succ_le ha)

theorem pushAll_represents (i : κ) (pushes : List (Bool × Option α)) (h : Represents s xs) :
    ∃ ys, Represents (pushAll i pushes s) ys := by
  induction pushes generalizing s xs with
  | nil => exact ⟨xs, h⟩
  | cons p pushes ih =>
    obtain ⟨ok, d⟩ := p
    cases ok with
    | false => exact ih h
    | true =>
      obtain ⟨s1, hs1, h1⟩ := slistPushFront_spec i d h
      rw [pushAll, hs1]
      exact ih h1

theorem slistPopFront_empty (h : Represents s xs) (hi : xs i = []) :
    slistPopFront i s = some (none, s) := by
  rw [slistPopFront, (head_none_iff h i).mpr hi]

theorem slistPopFront_spec (h : Represents s xs) (hi : xs i = x :: ys) :
    ∃ s', slistPopFront i s = some (x.2, s') ∧ s'.made = s.made ∧
      Represents s' (Function.update xs i ys) := by
  obtain ⟨hp, q, hx, hs⟩ := shelf_pop h.shelf hi
  refine ⟨snodeFree x.1 { s with head := Function.update s.head i q }, ?_, rfl, hs, ?_⟩
  · rw [slistPopFront, hp]
    show (match s.node x.1 with | none => none | some n => _) = _
    rw [hx]
  · intro a ha
    show Function.update s.node x.1 none a = none
    by_cases hax : a = x.1
    · rw [hax, Function.update_self]
    · rw [Function.update_of_ne hax]
      exact h.fresh a ha

end operations

end Tigera.SinglyLinkedList
