import Mathlib.Data.List.Nodup
import Mathlib.Logic.Function.Basic

/-!
# Chains of nodes with back links

Nodes in a heap are chained from a head. The back link of a node is the place
of the link that leads to it: the head, or the forward link of the node before.
Cutting a chain in two says which links hold the parts together, and those are
all that insertion and removal have to change.
-/

set_option autoImplicit false

namespace LinkChain

variable {ι α : Type*}

/-- The place of a link. -/
inductive Link (ι : Type*) where
  | null
  | head
  | next (a : ι)
  deriving DecidableEq, Repr

structure Node (ι α : Type*) where
  next : Option ι
  previous : Link ι
  data : α
  deriving DecidableEq, Repr

/-- The first of the nodes `xs`, or what follows them. -/
def first : List (ι × α) → Option ι → Option ι
  | [], w => w
  | x :: _, _ => some x.1

/-- The link that follows the nodes `xs` when they follow the link `p`. -/
def last (p : Link ι) (xs : List (ι × α)) : Link ι := xs.foldl (fun _ x => .next x.1) p

/-- The nodes `xs` follow the link `p`, and `w` follows them. -/
def Linked (node : ι → Option (Node ι α)) : Link ι → List (ι × α) → Option ι → Prop
  | _, [], _ => True
  | p, x :: xs, w => node x.1 = some ⟨first xs w, p, x.2⟩ ∧ Linked node (.next x.1) xs w

def addresses (xs : List (ι × α)) : List ι := xs.map Prod.fst

variable {node node' : ι → Option (Node ι α)} {p : Link ι} {w : Option ι}

@[simp] theorem first_nil : first ([] : List (ι × α)) w = w := rfl

@[simp] theorem first_cons (x : ι × α) (xs : List (ι × α)) : first (x :: xs) w = some x.1 := rfl

@[simp] theorem last_nil : last p ([] : List (ι × α)) = p := rfl

@[simp] theorem addresses_nil : addresses ([] : List (ι × α)) = [] := rfl

@[simp] theorem addresses_cons (x : ι × α) (xs : List (ι × α)) :
    addresses (x :: xs) = x.1 :: addresses xs := rfl

@[simp] theorem addresses_append (xs ys : List (ι × α)) :
    addresses (xs ++ ys) = addresses xs ++ addresses ys := List.map_append

theorem first_append (xs ys : List (ι × α)) : first (xs ++ ys) w = first xs (first ys w) := by
  cases xs with
  | nil => rfl
  | cons x xs => rfl

theorem last_append (xs ys : List (ι × α)) : last p (xs ++ ys) = last (last p xs) ys :=
  List.foldl_append

theorem last_concat (xs : List (ι × α)) (x : ι × α) : last p (xs ++ [x]) = .next x.1 := by
  rw [last_append]
  rfl

theorem last_cases (xs : List (ι × α)) :
    (xs = [] ∧ last p xs = p) ∨ ∃ ys x, xs = ys ++ [x] ∧ last p xs = .next x.1 := by
  rcases List.eq_nil_or_concat' xs with rfl | ⟨ys, x, rfl⟩
  · exact .inl ⟨rfl, rfl⟩
  · exact .inr ⟨ys, x, rfl, last_concat ys x⟩

theorem last_mem {a : ι} (xs : List (ι × α)) (h : last p xs = .next a) (hp : p ≠ .next a) :
    a ∈ addresses xs := by
  rcases last_cases (p := p) xs with ⟨rfl, hl⟩ | ⟨ys, x, rfl, hl⟩
  · exact absurd h hp
  · rw [hl] at h
    cases h
    simp

theorem linked_append (p : Link ι) (xs ys : List (ι × α)) (w : Option ι) :
    Linked node p (xs ++ ys) w ↔ Linked node p xs (first ys w) ∧ Linked node (last p xs) ys w := by
  induction xs generalizing p with
  | nil => simp [Linked]
  | cons x xs ih =>
    rw [List.cons_append, Linked, Linked, ih, first_append, and_assoc]
    rfl

theorem linked_congr (p : Link ι) (xs : List (ι × α)) (w : Option ι)
    (h : ∀ a ∈ addresses xs, node' a = node a) (hl : Linked node p xs w) :
    Linked node' p xs w := by
  induction xs generalizing p with
  | nil => trivial
  | cons x xs ih =>
    refine ⟨(h x.1 (by simp)).trans hl.1, ih (.next x.1) ?_ hl.2⟩
    intro a ha
    exact h a (by simp [ha])

theorem linked_node {xs ys : List (ι × α)} {x : ι × α} (h : Linked node p (xs ++ x :: ys) w) :
    node x.1 = some ⟨first ys w, last p xs, x.2⟩ := by
  rw [linked_append] at h
  exact h.2.1

theorem linked_redirect [DecidableEq ι] (xs : List (ι × α)) (x : ι × α) (w' : Option ι)
    (hx : x.1 ∉ addresses xs) (h : Linked node p (xs ++ [x]) w) :
    Linked (Function.update node x.1 (some ⟨w', last p xs, x.2⟩)) p (xs ++ [x]) w' := by
  rw [linked_append] at h ⊢
  refine ⟨linked_congr p xs _ ?_ h.1, ?_⟩
  · intro a ha
    rw [Function.update_of_ne]
    rintro rfl
    exact hx ha
  · rw [Linked, Function.update_self]
    exact ⟨rfl, trivial⟩

theorem linked_rebase [DecidableEq ι] (p' : Link ι) (x : ι × α) (xs : List (ι × α))
    (hx : x.1 ∉ addresses xs) (h : Linked node p (x :: xs) w) :
    Linked (Function.update node x.1 (some ⟨first xs w, p', x.2⟩)) p' (x :: xs) w := by
  rw [Linked] at h ⊢
  refine ⟨Function.update_self .., linked_congr _ xs _ ?_ h.2⟩
  intro a ha
  rw [Function.update_of_ne]
  rintro rfl
  exact hx ha

theorem split_at {a : ι} {xs : List (ι × α)} (h : a ∈ addresses xs) :
    ∃ ys d zs, xs = ys ++ (a, d) :: zs := by
  obtain ⟨⟨b, d⟩, hx, rfl⟩ := List.mem_map.mp h
  obtain ⟨ys, zs, rfl⟩ := List.append_of_mem hx
  exact ⟨ys, d, zs, rfl⟩

theorem apart_of_nodup {a : ι} {d : α} {xs ys : List (ι × α)}
    (h : (addresses (xs ++ (a, d) :: ys)).Nodup) : a ∉ addresses xs ∧ a ∉ addresses ys := by
  rw [addresses_append, addresses_cons, List.nodup_middle] at h
  simpa [not_or] using (List.nodup_cons.mp h).1

/-- What lies behind the first null datum. -/
def undrained : List (ι × Option α) → List (ι × Option α)
  | [] => []
  | (_, none) :: xs => xs
  | (_, some _) :: xs => undrained xs

def drained : List (ι × Option α) → List α
  | [] => []
  | (_, none) :: _ => []
  | (_, some v) :: xs => v :: drained xs

theorem undrained_nil_iff {xs : List (ι × Option α)} :
    undrained xs = [] ↔ ∀ d ∈ (xs.map Prod.snd).dropLast, d ≠ none := by
  induction xs with
  | nil => exact iff_of_true rfl fun d hd => absurd hd List.not_mem_nil
  | cons x xs ih =>
    obtain ⟨a, d⟩ := x
    cases xs with
    | nil => cases d <;> exact iff_of_true rfl fun d hd => absurd hd List.not_mem_nil
    | cons y ys =>
      rw [List.map_cons, List.map_cons, List.dropLast_cons_cons, List.forall_mem_cons]
      cases d with
      | none => exact iff_of_false (List.cons_ne_nil y ys) fun h => h.1 rfl
      | some v => exact ih.trans ⟨fun h => ⟨Option.some_ne_none v, h⟩, And.right⟩

theorem drained_all {xs : List (ι × Option α)} (h : none ∉ xs.map Prod.snd) :
    (drained xs).map some = xs.map Prod.snd := by
  induction xs with
  | nil => rfl
  | cons x xs ih =>
    obtain ⟨a, d⟩ := x
    rw [List.map_cons, List.mem_cons, not_or] at h
    cases d with
    | none => exact absurd rfl h.1
    | some v => exact congrArg (some v :: ·) (ih h.2)

theorem undrained_all {xs : List (ι × Option α)} (h : ∀ x ∈ xs, x.2.isSome) :
    undrained xs = [] := by
  rw [undrained_nil_iff]
  rintro d hd rfl
  obtain ⟨x, hx, hnone⟩ := List.mem_map.mp (List.dropLast_subset _ hd)
  have hsome := h x hx
  rw [hnone] at hsome
  cases hsome

section sequences
variable [DecidableEq ι]

/-- `x` put in front of the item named `b`. -/
def insertBefore (b : ι) (x : ι × α) : List (ι × α) → List (ι × α)
  | [] => []
  | y :: ys => if y.1 = b then x :: y :: ys else y :: insertBefore b x ys

def delete (a : ι) (xs : List (ι × α)) : List (ι × α) := xs.filter fun x => x.1 ≠ a

def lookup (a : ι) (xs : List (ι × α)) : Option α := (xs.find? fun x => x.1 = a).map Prod.snd

theorem insertBefore_split {b : ι} {e : α} {xs ys : List (ι × α)} (x : ι × α)
    (hb : b ∉ addresses xs) :
    insertBefore b x (xs ++ (b, e) :: ys) = xs ++ x :: (b, e) :: ys := by
  induction xs with
  | nil => simp [insertBefore]
  | cons y xs ih =>
    simp only [addresses_cons, List.mem_cons, not_or] at hb
    rw [List.cons_append, insertBefore, if_neg (Ne.symm hb.1), ih hb.2, List.cons_append]

theorem delete_of_notMem {a : ι} {xs : List (ι × α)} (h : a ∉ addresses xs) : delete a xs = xs := by
  rw [delete, List.filter_eq_self]
  intro x hx
  rw [decide_eq_true_iff]
  rintro rfl
  exact h (List.mem_map_of_mem hx)

theorem delete_split {a : ι} {d : α} {xs ys : List (ι × α)} (hx : a ∉ addresses xs)
    (hy : a ∉ addresses ys) : delete a (xs ++ (a, d) :: ys) = xs ++ ys := by
  have h1 := delete_of_notMem hx
  have h2 := delete_of_notMem hy
  rw [delete] at h1 h2 ⊢
  rw [List.filter_append, List.filter_cons_of_neg (by simp), h1, h2]

theorem lookup_split {a : ι} {d : α} {xs ys : List (ι × α)} (hx : a ∉ addresses xs) :
    lookup a (xs ++ (a, d) :: ys) = some d := by
  induction xs with
  | nil => simp [lookup]
  | cons x xs ih =>
    simp only [addresses_cons, List.mem_cons, not_or] at hx
    have ih := ih hx.2
    rw [lookup] at ih ⊢
    rw [List.cons_append, List.find?_cons_of_neg (by simpa using Ne.symm hx.1), ih]

end sequences

end LinkChain
