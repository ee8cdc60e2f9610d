import TigeraWebservice.DoublyLinkedList

/-!
# Replacing every element in place

The loop of `list-test.c`: `list_foreach_safe` over a list, whose body removes
the node it stands on and pushes what is made of its data before the next one.
The allocator may place a new node where the removed one was.
-/

set_option autoImplicit false

namespace Tigera.SafeIteration
open LinkChain TransitionRuns Tigera.DoublyLinkedList

variable {α : Type*}

/-- From `node` on; `fresh k` is the address of the new node of turn `k`. The
nodes visited are returned with their data. -/
def replaceEach (f : Option α → Option α) (fresh : ℕ → ℕ) :
    ℕ → ℕ → Option ℕ → NodeList α → Option (List (ℕ × Option α) × NodeList α)
  | _, _, none, l => some ([], l)
  | 0, _, some _, _ => none
  | fuel + 1, k, some a, l =>
    match listNext a l with
    | none => none
    | some next => do
      let (item, l) ← listRemove (some a) l
      let l ← listPushBefore next (fresh k) (f item) l
      let (visited, l) ← replaceEach f fresh fuel (k + 1) next l
      some ((a, item) :: visited, l)

/-- A new node is placed neither where one was put in before nor where one is
still to be visited. -/
def unused (fresh : ℕ → ℕ) : ℕ → List ℕ → List (ℕ × Option α) → Bool
  | _, _, [] => true
  | k, placed, _ :: xs => fresh k ∉ placed && fresh k ∉ addresses xs &&
      unused fresh (k + 1) (placed ++ [fresh k]) xs

def replaced (f : Option α → Option α) (fresh : ℕ → ℕ) :
    ℕ → List (ℕ × Option α) → List (ℕ × Option α)
  | _, [] => []
  | k, x :: xs => (fresh k, f x.2) :: replaced f fresh (k + 1) xs

variable {f : Option α → Option α} {fresh : ℕ → ℕ} {l : NodeList α}
  {xs placed : List (ℕ × Option α)} {a k : ℕ} {d : Option α}

theorem replaced_data (f : Option α → Option α) (fresh : ℕ → ℕ) (k : ℕ)
    (xs : List (ℕ × Option α)) :
    (replaced f fresh k xs).map Prod.snd = xs.map fun x => f x.2 := by
  induction xs generalizing k with
  | nil => rfl
  | cons x xs ih => exact congrArg _ (ih (k + 1))

theorem pushBefore_first {ys zs : List (ℕ × Option α)} (d : Option α) (h : Represents l (ys ++ zs))
    (ha : a ∉ addresses (ys ++ zs)) :
    ∃ l', listPushBefore (first zs none) a d l = some l' ∧ Represents l' (ys ++ (a, d) :: zs) := by
  have hfree : l.node a = none := h.only a ha
  cases zs with
  | nil =>
    rw [List.append_nil] at h
    exact listPushBack_spec d h hfree
  | cons z zs => exact listPushBefore_spec d h hfree

theorem replaceEach_spec (fuel : ℕ) (h : Represents l (placed ++ xs))
    (hu : unused fresh k (addresses placed) xs = true) (hf : xs.length ≤ fuel) :
    ∃ l', replaceEach f fresh fuel k (first xs none) l = some (xs, l') ∧
      Represents l' (placed ++ replaced f fresh k xs) := by
  induction xs generalizing fuel k l placed with
  | nil => exact ⟨l, by cases fuel <;> rfl, h⟩
  | cons x xs ih =>
    obtain ⟨a, d⟩ := x
    cases fuel with
    | zero => cases hf
    | succ fuel =>
      simp only [unused, Bool.and_eq_true, decide_eq_true_eq] at hu
      obtain ⟨⟨hplaced, hcoming⟩, hrest⟩ := hu
      have hnext : listNext a l = some (first xs none) := by
        rw [listNext, node_held h]
        rfl
      obtain ⟨l1, hl1, h1⟩ := listRemove_spec h
      have hfree : fresh k ∉ addresses (placed ++ xs) := by simp [hplaced, hcoming]
      obtain ⟨l2, hl2, h2⟩ := pushBefore_first (f d) h1 hfree
      have h2 : Represents l2 ((placed ++ [(fresh k, f d)]) ++ xs) := by
        rwa [List.append_assoc]
      obtain ⟨l3, hl3, h3⟩ := ih fuel h2 (by simpa using hrest) (Nat.le_of_succ_le_succ hf)
      refine ⟨l3, ?_, ?_⟩
      · simp only [first_cons, replaceEach, hnext, hl1, hl2, hl3, Option.bind_eq_bind,
          Option.bind_some]
      · rwa [List.append_assoc] at h3

/-- The loop visits the elements of the list, each once and no other, and leaves
in their order what `f` makes of them. -/
theorem replace_in_place (f : Option α → Option α) (fresh : ℕ → ℕ) (fuel : ℕ)
    (h : Represents l xs) (hu : unused fresh 0 [] xs = true) (hf : xs.length ≤ fuel) :
    ∃ l' ys, replaceEach f fresh fuel 0 l.head l = some (xs, l') ∧
      ys.map Prod.snd = (xs.map fun x => f x.2) ∧ Represents l' ys ∧ Shape l' ys := by
  have hall : Represents l ([] ++ xs) := h
  obtain ⟨l', hl', hr⟩ := replaceEach_spec fuel hall hu hf
  rw [← h.head] at hl'
  exact ⟨l', replaced f fresh 0 xs, hl', replaced_data f fresh 0 xs, hr, represents_shape hr⟩

def threeItems : List (Op ℕ) := [.pushBack 1 (some 10), .pushBack 2 none, .pushFront 3 (some 30)]

theorem replace_in_place_three : ∃ l l' : NodeList ℕ, ∃ ys,
    performAll threeItems listNew = some ([none, none, none], l) ∧
      replaceEach (fun d => d.map (· + 1)) (fun k => [3, 1, 2].getD k 0) 3 0 l.head l =
        some ([(3, some 30), (1, some 10), (2, none)], l') ∧
      ys.map Prod.snd = [some 31, some 11, none] ∧ Represents l' ys ∧ Shape l' ys := by
  obtain ⟨l, hl, hr⟩ := performAll_specified
    (run_of_admits (S := sequences ℕ) (C := fun _ _ => True) [] threeItems (by decide))
    represents_new
  obtain ⟨l', ys, h⟩ := replace_in_place (fun d => d.map (· + 1)) (fun k => [3, 1, 2].getD k 0) 3 hr
    (by decide) (by decide)
  exact ⟨l, l', ys, hl, h⟩

end Tigera.SafeIteration
