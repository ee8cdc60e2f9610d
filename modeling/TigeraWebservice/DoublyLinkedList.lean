import TigeraWebservice.LinkChain
import TigeraWebservice.Runs

/-!
# The doubly linked list

`list.c` and the accessors of `list.h`. A node is named by its address, and
the address of a new one is the allocator's choice. Every access through a
pointer that leads to no node faults. The operations are those on the sequence
of the nodes' addresses and data, in the order of the forward links.
-/

set_option autoImplicit false

namespace Tigera.DoublyLinkedList
open LinkChain TransitionRuns

variable {α : Type*}

/-- `struct list` and the nodes in the heap. `made` counts the calls of
`node_new` and bounds the turns of every loop over a list. -/
structure NodeList (α : Type*) where
  node : ℕ → Option (Node ℕ (Option α))
  head : Option ℕ
  tail : Link ℕ
  made : ℕ

def listNew : NodeList α where
  node _ := none
  head := none
  tail := .head
  made := 0

/-- The node that the allocator places at `a`. -/
def nodeNew (a : ℕ) (l : NodeList α) : NodeList α :=
  { l with node := Function.update l.node a (some ⟨none, .null, none⟩), made := l.made + 1 }

def alter (a : ℕ) (f : Node ℕ (Option α) → Node ℕ (Option α)) (l : NodeList α) :
    Option (NodeList α) :=
  (l.node a).map fun n => { l with node := Function.update l.node a (some (f n)) }

def nodeFree (a : ℕ) (l : NodeList α) : Option (NodeList α) :=
  (l.node a).map fun _ => { l with node := Function.update l.node a none }

/-- The assignment `*p = v` to a link. -/
def store (p : Link ℕ) (v : Option ℕ) (l : NodeList α) : Option (NodeList α) :=
  match p with
  | .null => none
  | .head => some { l with head := v }
  | .next a => alter a (fun n => { n with next := v }) l

/-- The assignment `node->previous = p`, unless `node` is null. -/
def setPrevious (node : Option ℕ) (p : Link ℕ) (l : NodeList α) : Option (NodeList α) :=
  match node with
  | none => some l
  | some b => alter b (fun m => { m with previous := p }) l

/-- What the link `p` holds. -/
def load (p : Link ℕ) (l : NodeList α) : Option (Option ℕ) :=
  match p with
  | .null => none
  | .head => some l.head
  | .next a => (l.node a).map Node.next

/-- The node whose forward link is at `p`. -/
def downcast : Link ℕ → Option ℕ
  | .next a => some a
  | _ => none

def listRemove (node : Option ℕ) (l : NodeList α) : Option (Option α × NodeList α) :=
  match node with
  | none => some (none, l)
  | some a => do
    let n ← l.node a
    let data := n.data
    let l ← store n.previous n.next l
    let n ← l.node a
    let l ← setPrevious n.next n.previous l
    let n ← l.node a
    let l := if l.tail = .next a then { l with tail := n.previous } else l
    let l ← nodeFree a l
    some (data, l)

def listPushFront (a : ℕ) (data : Option α) (l : NodeList α) : Option (NodeList α) := do
  let l := nodeNew a l
  let l ← alter a (fun n => { n with data := data, next := l.head, previous := .head }) l
  let l ← match l.head with
    | some b => alter b (fun m => { m with previous := .next a }) l
    | none => some { l with tail := .next a }
  some { l with head := some a }

def listPushBack (a : ℕ) (data : Option α) (l : NodeList α) : Option (NodeList α) := do
  let l := nodeNew a l
  let l ← alter a (fun n => { n with data := data }) l
  let l ← store l.tail (some a) l
  let l ← alter a (fun n => { n with previous := l.tail }) l
  some { l with tail := .next a }

def listPushBefore (next : Option ℕ) (a : ℕ) (data : Option α) (l : NodeList α) :
    Option (NodeList α) :=
  match next with
  | none => listPushBack a data l
  | some b => do
    let l := nodeNew a l
    let l ← alter a (fun n => { n with data := data, next := some b }) l
    let m ← l.node b
    let l ← alter a (fun n => { n with previous := m.previous }) l
    let l ← store m.previous (some a) l
    alter b (fun m => { m with previous := .next a }) l

def listPopFront (l : NodeList α) : Option (Option α × NodeList α) := listRemove l.head l

def listTail (l : NodeList α) : Option ℕ := if l.tail = .head then none else downcast l.tail

def listNext (a : ℕ) (l : NodeList α) : Option (Option ℕ) := (l.node a).map Node.next

def listPrevious (a : ℕ) (l : NodeList α) : Option (Option ℕ) :=
  (l.node a).map fun n => if n.previous = .head then none else downcast n.previous

/-- The nodes that `list_foreach` visits from `node` on; nothing when it has
not come to the end within its turns. -/
def listForeach (l : NodeList α) : ℕ → Option ℕ → Option (List ℕ)
  | _, none => some []
  | 0, some _ => none
  | fuel + 1, some a =>
    match l.node a with
    | none => none
    | some n => (listForeach l fuel n.next).map (a :: ·)

/-- What is left in the heap once the list has been emptied and released. -/
def listFree : ℕ → NodeList α → Option (NodeList α)
  | 0, _ => none
  | fuel + 1, l =>
    match listPopFront l with
    | none => none
    | some (none, l) => some l
    | some (some _, l) => listFree fuel l

/-- The list holds the nodes `xs`, in this order, and the heap no others. -/
structure Represents (l : NodeList α) (xs : List (ℕ × Option α)) : Prop where
  head : l.head = first xs none
  tail : l.tail = last .head xs
  linked : Linked l.node .head xs none
  nodup : (addresses xs).Nodup
  only : ∀ a, a ∉ addresses xs → l.node a = none
  made : xs.length ≤ l.made

variable {l l' : NodeList α} {xs ys : List (ℕ × Option α)} {a : ℕ} {d : Option α} {w : Option ℕ}

theorem represents_new : Represents (listNew : NodeList α) [] :=
  ⟨rfl, rfl, trivial, List.nodup_nil, fun _ _ => rfl, Nat.le_refl _⟩

theorem node_fresh (h : Represents l xs) (ha : l.node a = none) : a ∉ addresses xs := by
  intro hm
  obtain ⟨ys, d, zs, rfl⟩ := split_at hm
  rw [linked_node h.linked] at ha
  cases ha

theorem node_held (h : Represents l (xs ++ (a, d) :: ys)) :
    l.node a = some ⟨first ys none, last .head xs, d⟩ :=
  linked_node h.linked

theorem alter_eq {n : Node ℕ (Option α)} (f : Node ℕ (Option α) → Node ℕ (Option α))
    (h : l.node a = some n) :
    alter a f l = some { l with node := Function.update l.node a (some (f n)) } := by
  rw [alter, h]
  rfl

/-- Nothing but the chain of the nodes `xs`, as far as the link `p` leads to
it, has changed. -/
structure Relinked (xs : List (ℕ × Option α)) (l l' : NodeList α) : Prop where
  tail : l'.tail = l.tail
  made : l'.made = l.made
  others : ∀ a, a ∉ addresses xs → l'.node a = l.node a

theorem store_last (w' : Option ℕ) (hl : Linked l.node .head xs w) (hn : (addresses xs).Nodup)
    (hh : l.head = first xs w) :
    ∃ l', store (last .head xs) w' l = some l' ∧ Relinked xs l l' ∧
      Linked l'.node .head xs w' ∧ l'.head = first xs w' := by
  rcases last_cases (p := Link.head) xs with ⟨rfl, hlast⟩ | ⟨ys, x, rfl, hlast⟩
  · exact ⟨{ l with head := w' }, rfl, ⟨rfl, rfl, fun _ _ => rfl⟩, trivial, rfl⟩
  · have hx : x.1 ∉ addresses ys := (apart_of_nodup (show (addresses (ys ++ x :: [])).Nodup from hn)).1
    refine ⟨{ l with node := Function.update l.node x.1 (some ⟨w', last .head ys, x.2⟩) }, ?_, ?_,
      linked_redirect ys x w' hx hl, ?_⟩
    · rw [hlast, store, alter_eq _ (linked_node hl)]
    · refine ⟨rfl, rfl, fun a ha => Function.update_of_ne ?_ _ _⟩
      rintro rfl
      exact ha (by simp)
    · show l.head = _
      rw [hh, first_append, first_append]
      rfl

theorem alter_first {p : Link ℕ} (p' : Link ℕ) (x : ℕ × Option α) (hl : Linked l.node p (x :: xs) w)
    (hn : (addresses (x :: xs)).Nodup) :
    ∃ l', alter x.1 (fun m => { m with previous := p' }) l = some l' ∧ Relinked (x :: xs) l l' ∧
      Linked l'.node p' (x :: xs) w ∧ l'.head = l.head := by
  have hx : x.1 ∉ addresses xs := (List.nodup_cons.mp hn).1
  refine ⟨_, alter_eq _ hl.1, ?_, linked_rebase p' x xs hx hl, rfl⟩
  refine ⟨rfl, rfl, fun a ha => Function.update_of_ne ?_ _ _⟩
  rintro rfl
  exact ha (by simp)

theorem linked_relinked {p : Link ℕ} (h : Relinked ys l l') (hl : Linked l.node p xs w)
    (hd : ∀ b ∈ addresses xs, b ∉ addresses ys) : Linked l'.node p xs w :=
  linked_congr p xs w (fun b hb => h.others b (hd b hb)) hl

theorem setPrevious_first {p : Link ℕ} (p' : Link ℕ) (hl : Linked l.node p ys none)
    (hn : (addresses ys).Nodup) :
    ∃ l', setPrevious (first ys none) p' l = some l' ∧ Relinked ys l l' ∧
      Linked l'.node p' ys none ∧ l'.head = l.head := by
  cases ys with
  | nil => exact ⟨l, rfl, ⟨rfl, rfl, fun _ _ => rfl⟩, trivial, rfl⟩
  | cons y ys => exact alter_first p' y hl hn

theorem nodup_apart (h : (addresses (xs ++ (a, d) :: ys)).Nodup) :
    (addresses xs).Nodup ∧ (addresses ys).Nodup ∧ ∀ b ∈ addresses xs, b ∉ addresses ys := by
  rw [addresses_append, addresses_cons, List.nodup_append, List.nodup_cons] at h
  obtain ⟨hx, ⟨-, hy⟩, hdis⟩ := h
  exact ⟨hx, hy, fun b hb hb' => hdis b hb b (List.mem_cons_of_mem _ hb') rfl⟩

theorem tail_without (p : Link ℕ) (ha : a ∉ addresses ys) (ht : l.tail = last (.next a) ys) :
    (if l.tail = .next a then { l with tail := p } else l).tail = last p ys := by
  cases ys with
  | nil => simp only [last_nil] at ht ⊢; rw [if_pos ht]
  | cons y ys =>
    rw [if_neg, ht]
    · rfl
    · intro h
      rw [ht] at h
      have hy : y.1 ≠ a := fun hy => ha (by simp [hy])
      exact ha (List.mem_cons_of_mem _ (last_mem ys h (fun hc => hy (Link.next.inj hc))))

theorem listRemove_spec (h : Represents l (xs ++ (a, d) :: ys)) :
    ∃ l', listRemove (some a) l = some (d, l') ∧ Represents l' (xs ++ ys) := by
  obtain ⟨hxa, hya⟩ := apart_of_nodup h.nodup
  obtain ⟨hnx, hny, hxy⟩ := nodup_apart h.nodup
  have ha := node_held h
  have hl := (linked_append .head xs ((a, d) :: ys) none).mp h.linked
  -- the link in front of the node now leads past it
  obtain ⟨l1, hs1, r1, hl1, hh1⟩ := store_last (first ys none) hl.1 hnx
    (h.head.trans (first_append _ _))
  have ha1 : l1.node a = some ⟨first ys none, last .head xs, d⟩ := (r1.others a hxa).trans ha
  have hy1 : Linked l1.node (.next a) ys none :=
    linked_relinked r1 hl.2.2 fun b hb hb' => hxy b hb' hb
  -- and the node behind it leads back to that link
  obtain ⟨l2, hs2, r2, hl2, hh2⟩ := setPrevious_first (last .head xs) hy1 hny
  have ha2 : l2.node a = some ⟨first ys none, last .head xs, d⟩ := (r2.others a hya).trans ha1
  have hx2 : Linked l2.node .head xs (first ys none) := linked_relinked r2 hl1 hxy
  have ht : l2.tail = last (.next a) ys := by
    rw [r2.tail, r1.tail, h.tail, last_append]
    rfl
  have ht3 := tail_without (last .head xs) hya ht
  generalize hl3 : (if l2.tail = .next a then { l2 with tail := last .head xs } else l2) = l3 at ht3
  have hn3 : l3.node = l2.node := by rw [← hl3]; split <;> rfl
  have hh3 : l3.head = l2.head := by rw [← hl3]; split <;> rfl
  have hm3 : l3.made = l2.made := by rw [← hl3]; split <;> rfl
  refine ⟨{ l3 with node := Function.update l3.node a none }, ?_, ?_⟩
  · simp only [listRemove, ha, hs1, ha1, hs2, ha2, hl3, nodeFree, hn3, Option.map_some,
      Option.bind_eq_bind, Option.bind_some]
  · have hframe : ∀ b, b ≠ a → Function.update l3.node a none b = l2.node b := fun b hb => by
      rw [Function.update_of_ne hb, hn3]
    constructor
    · show l3.head = _
      rw [hh3, hh2, hh1, first_append]
    · exact ht3.trans (last_append _ _).symm
    · apply linked_congr _ _ _ _ ((linked_append _ _ _ _).mpr ⟨hx2, hl2⟩)
      intro b hb
      apply hframe
      rintro rfl
      rw [addresses_append, List.mem_append] at hb
      exact hb.elim hxa hya
    · rw [addresses_append, List.nodup_append]
      exact ⟨hnx, hny, fun b hb c hc hbc => hxy b hb (hbc ▸ hc)⟩
    · intro b hb
      rw [addresses_append, List.mem_append, not_or] at hb
      show Function.update l3.node a none b = none
      by_cases hba : b = a
      · rw [hba, Function.update_self]
      · rw [hframe b hba, r2.others b hb.2, r1.others b hb.1, h.only b]
        simp [hb.1, hb.2, hba]
    · have hm := h.made
      show (xs ++ ys).length ≤ l3.made
      rw [hm3, r2.made, r1.made]
      simp only [List.length_append, List.length_cons] at hm ⊢
      omega

theorem represents_insert (xs ys : List (ℕ × Option α)) (h : Represents l (xs ++ ys)) (ha : l.node a = none)
    (hx : Linked l'.node .head xs (some a))
    (hn : l'.node a = some ⟨first ys none, last .head xs, d⟩)
    (hy : Linked l'.node (.next a) ys none) (hh : l'.head = first xs (some a))
    (ht : l'.tail = last (.next a) ys) (hm : l'.made = l.made + 1)
    (hf : ∀ c, c ≠ a → c ∉ addresses xs → c ∉ addresses ys → l'.node c = l.node c) :
    Represents l' (xs ++ (a, d) :: ys) := by
  have hfresh := node_fresh h ha
  constructor
  · rw [hh, first_append]
    rfl
  · rw [ht, last_append]
    rfl
  · exact (linked_append _ _ _ _).mpr ⟨hx, hn, hy⟩
  · rw [addresses_append, addresses_cons, List.nodup_middle, ← addresses_append]
    exact List.nodup_cons.mpr ⟨hfresh, h.nodup⟩
  · intro c hc
    simp only [addresses_append, addresses_cons, List.mem_append, List.mem_cons, not_or] at hc
    rw [hf c hc.2.1 hc.1 hc.2.2]
    apply h.only
    simp [hc.1, hc.2.2]
  · have hmade := h.made
    simp only [List.length_append, List.length_cons] at hmade ⊢
    omega

theorem alter_nodeNew (f : Node ℕ (Option α) → Node ℕ (Option α)) (l : NodeList α) :
    alter a f (nodeNew a l) = some { l with
      node := Function.update l.node a (some (f ⟨none, .null, none⟩)), made := l.made + 1 } := by
  rw [alter_eq f (show (nodeNew a l).node a = some _ from Function.update_self ..)]
  simp only [nodeNew, Function.update_idem]

theorem head_nodeNew (a : ℕ) (l : NodeList α) : (nodeNew a l).head = l.head := rfl

theorem linked_update {p : Link ℕ} {node : ℕ → Option (Node ℕ (Option α))}
    (n : Option (Node ℕ (Option α))) (ha : a ∉ addresses xs) (hl : Linked node p xs w) :
    Linked (Function.update node a n) p xs w := by
  apply linked_congr p xs w _ hl
  intro b hb
  rw [Function.update_of_ne]
  rintro rfl
  exact ha hb

theorem listPushBack_spec (d : Option α) (h : Represents l xs) (ha : l.node a = none) :
    ∃ l', listPushBack a d l = some l' ∧ Represents l' (xs ++ [(a, d)]) := by
  have hxa := node_fresh h ha
  have hl1 := linked_update (some ⟨none, .null, d⟩) hxa h.linked
  obtain ⟨l2, hs2, r2, hl2, hh2⟩ := store_last (l := { l with
    node := Function.update l.node a (some ⟨none, .null, d⟩), made := l.made + 1 })
    (some a) hl1 h.nodup h.head
  have ha2 : l2.node a = some ⟨none, .null, d⟩ := (r2.others a hxa).trans (Function.update_self ..)
  have ht2 : l2.tail = last .head xs := r2.tail.trans h.tail
  refine ⟨{ l2 with node := Function.update l2.node a (some ⟨none, l2.tail, d⟩), tail := .next a },
    ?_, ?_⟩
  · rw [← h.tail] at hs2
    simp only [listPushBack, alter_nodeNew, Option.bind_eq_bind, Option.bind_some, hs2,
      alter_eq _ ha2]
  · apply represents_insert xs [] (by rwa [List.append_nil]) ha
    · exact linked_update _ hxa hl2
    · rw [ht2]
      exact Function.update_self ..
    · trivial
    · exact hh2
    · rfl
    · exact r2.made
    · intro c hca hcx _
      show Function.update l2.node a _ c = _
      rw [Function.update_of_ne hca, r2.others c hcx]
      exact Function.update_of_ne hca _ _

theorem listPushFront_spec (d : Option α) (h : Represents l xs) (ha : l.node a = none) :
    ∃ l', listPushFront a d l = some l' ∧ Represents l' ((a, d) :: xs) := by
  have hxa := node_fresh h ha
  have hl1 := linked_update (some ⟨l.head, .head, d⟩) hxa h.linked
  cases xs with
  | nil =>
    have hh : l.head = none := h.head
    refine ⟨{ l with node := Function.update l.node a (some ⟨l.head, .head, d⟩), head := some a
                     tail := .next a, made := l.made + 1 }, ?_, ?_⟩
    · simp only [listPushFront, alter_nodeNew, head_nodeNew, Option.bind_eq_bind, Option.bind_some,
        hh]
    · apply represents_insert [] [] h ha trivial _ trivial rfl rfl rfl
      · intro c hca _ _
        exact Function.update_of_ne hca _ _
      · rw [hh]
        exact Function.update_self ..
  | cons x xs =>
    have hh : l.head = some x.1 := h.head
    obtain ⟨l2, hs2, r2, hl2, hh2⟩ := alter_first (l := { l with
      node := Function.update l.node a (some ⟨l.head, .head, d⟩), made := l.made + 1 })
      (.next a) x hl1 h.nodup
    have ha2 : l2.node a = some ⟨some x.1, .head, d⟩ := by
      rw [r2.others a hxa, ← hh]
      exact Function.update_self ..
    refine ⟨{ l2 with head := some a }, ?_, ?_⟩
    · rw [hh] at hs2
      simp only [listPushFront, alter_nodeNew, head_nodeNew, Option.bind_eq_bind, Option.bind_some,
        hh, hs2]
    · show Represents { l2 with head := some a } ([] ++ (a, d) :: x :: xs)
      apply represents_insert [] (x :: xs) h ha
      · trivial
      · exact ha2
      · exact hl2
      · rfl
      · show l2.tail = _
        rw [r2.tail]
        exact h.tail
      · exact r2.made
      · intro c hca _ hcx
        exact (r2.others c hcx).trans (Function.update_of_ne hca _ _)

theorem listPushBefore_spec {b : ℕ} {e : Option α} (d : Option α)
    (h : Represents l (xs ++ (b, e) :: ys)) (ha : l.node a = none) :
    ∃ l', listPushBefore (some b) a d l = some l' ∧
      Represents l' (xs ++ (a, d) :: (b, e) :: ys) := by
  have hfresh := node_fresh h ha
  simp only [addresses_append, List.mem_append, not_or] at hfresh
  obtain ⟨hxa, hya⟩ := hfresh
  obtain ⟨hnx, hny, hxy⟩ := nodup_apart h.nodup
  obtain ⟨hbx, hby⟩ := apart_of_nodup h.nodup
  have hba : b ≠ a := fun hba => hya (by simp [hba])
  have hl := (linked_append .head xs ((b, e) :: ys) none).mp h.linked
  have hb := node_held h
  let n : Node ℕ (Option α) := ⟨some b, last .head xs, d⟩
  let l2 : NodeList α := { l with node := Function.update l.node a (some n), made := l.made + 1 }
  have hb2 : ∀ m, Function.update l.node a m b = some ⟨first ys none, last .head xs, e⟩ := fun m =>
    (Function.update_of_ne hba _ _).trans hb
  -- the link in front of `b` now leads to the new node
  obtain ⟨l3, hs3, r3, hl3, hh3⟩ := store_last (l := l2) (some a)
    (linked_update (some n) hxa hl.1) hnx (h.head.trans (first_append _ _))
  have hy3 : Linked l3.node (last .head xs) ((b, e) :: ys) none := by
    apply linked_relinked r3 (linked_update (some n) hya hl.2)
    intro c hc hcx
    rcases List.mem_cons.mp hc with rfl | hc
    · exact hbx hcx
    · exact hxy c hcx hc
  -- and `b` leads back to the new node
  have hnb : (addresses ((b, e) :: ys)).Nodup := List.nodup_cons.mpr ⟨hby, hny⟩
  obtain ⟨l4, hs4, r4, hl4, hh4⟩ := alter_first (.next a) (b, e) hy3 hnb
  have hx4 : Linked l4.node .head xs (some a) := by
    apply linked_relinked r4 hl3
    intro c hc hcy
    rcases List.mem_cons.mp hcy with rfl | hcy
    · exact hbx hc
    · exact hxy c hc hcy
  refine ⟨l4, ?_, ?_⟩
  · simp only [listPushBefore, alter_nodeNew, Option.bind_eq_bind, Option.bind_some, hb2]
    rw [alter_eq (n := ⟨some b, .null, d⟩) _ (Function.update_self ..)]
    simp only [Option.bind_some, Function.update_idem]
    show (store (last .head xs) (some a) l2).bind _ = _
    rw [hs3]
    exact hs4
  · apply represents_insert xs ((b, e) :: ys) h ha hx4 _ hl4 (hh4.trans hh3)
    · rw [r4.tail, r3.tail]
      exact h.tail.trans (last_append _ _)
    · exact r4.made.trans r3.made
    · intro c hca hcx hcy
      rw [r4.others c hcy, r3.others c hcx]
      exact Function.update_of_ne hca _ _
    · rw [r4.others a hya, r3.others a hxa]
      exact Function.update_self ..

/-- An operation; a push names the address of its new node. -/
inductive Op (α : Type*) where
  | pushFront (a : ℕ) (data : Option α)
  | pushBack (a : ℕ) (data : Option α)
  | pushBefore (next : Option ℕ) (a : ℕ) (data : Option α)
  | remove (node : Option ℕ)
  | popFront

/-- The pointer returned, null for a push, and the list afterwards. -/
def perform : Op α → NodeList α → Option (Option α × NodeList α)
  | .pushFront a d, l => (listPushFront a d l).map fun l => (none, l)
  | .pushBack a d, l => (listPushBack a d l).map fun l => (none, l)
  | .pushBefore next a d, l => (listPushBefore next a d l).map fun l => (none, l)
  | .remove node, l => listRemove node l
  | .popFront, l => listPopFront l

def performAll : List (Op α) → NodeList α → Option (List (Option α) × NodeList α)
  | [], l => some ([], l)
  | op :: ops, l =>
    match perform op l with
    | none => none
    | some (r, l) => (performAll ops l).map fun (rs, l) => (r :: rs, l)

def specified : Op α → List (ℕ × Option α) → Option α × List (ℕ × Option α)
  | .pushFront a d, xs => (none, (a, d) :: xs)
  | .pushBack a d, xs => (none, xs ++ [(a, d)])
  | .pushBefore none a d, xs => (none, xs ++ [(a, d)])
  | .pushBefore (some b) a d, xs => (none, insertBefore b (a, d) xs)
  | .remove none, xs => (none, xs)
  | .remove (some a), xs => ((lookup a xs).join, delete a xs)
  | .popFront, [] => (none, [])
  | .popFront, x :: xs => (x.2, xs)

def admitted : Op α → List (ℕ × Option α) → Bool
  | .pushFront a _, xs => a ∉ addresses xs
  | .pushBack a _, xs => a ∉ addresses xs
  | .pushBefore none a _, xs => a ∉ addresses xs
  | .pushBefore (some b) a _, xs => a ∉ addresses xs && b ∈ addresses xs
  | .remove none, _ => true
  | .remove (some a), xs => a ∈ addresses xs
  | .popFront, _ => true

def sequences (α : Type*) : System (List (ℕ × Option α)) (Op α) where
  enabled xs op := admitted op xs = true
  next xs op := (specified op xs).2

instance (xs : List (ℕ × Option α)) (op : Op α) : Decidable ((sequences α).enabled xs op) :=
  inferInstanceAs (Decidable (admitted op xs = true))

/-- The pointers returned along a run. -/
def outcomes : List (Op α) → List (ℕ × Option α) → List (Option α)
  | [], _ => []
  | op :: ops, xs => (specified op xs).1 :: outcomes ops (specified op xs).2

theorem perform_specified (op : Op α) (h : Represents l xs) (ha : admitted op xs = true) :
    ∃ l', perform op l = some ((specified op xs).1, l') ∧ Represents l' (specified op xs).2 := by
  cases op with
  | pushFront a d =>
    obtain ⟨l', hl', hr⟩ := listPushFront_spec d h (h.only a (by simpa [admitted] using ha))
    exact ⟨l', by rw [perform, hl']; rfl, hr⟩
  | pushBack a d =>
    obtain ⟨l', hl', hr⟩ := listPushBack_spec d h (h.only a (by simpa [admitted] using ha))
    exact ⟨l', by rw [perform, hl']; rfl, hr⟩
  | pushBefore next a d =>
    cases next with
    | none =>
      obtain ⟨l', hl', hr⟩ := listPushBack_spec d h (h.only a (by simpa [admitted] using ha))
      exact ⟨l', by rw [perform, listPushBefore, hl']; rfl, hr⟩
    | some b =>
      simp only [admitted, Bool.and_eq_true, decide_eq_true_eq] at ha
      obtain ⟨ys, e, zs, rfl⟩ := split_at ha.2
      obtain ⟨l', hl', hr⟩ := listPushBefore_spec d h (h.only a ha.1)
      refine ⟨l', by rw [perform, hl']; rfl, ?_⟩
      rwa [specified, insertBefore_split _ (apart_of_nodup h.nodup).1]
  | remove node =>
    cases node with
    | none => exact ⟨l, rfl, h⟩
    | some a =>
      obtain ⟨ys, e, zs, rfl⟩ := split_at (by simpa [admitted] using ha)
      obtain ⟨l', hl', hr⟩ := listRemove_spec h
      obtain ⟨hy, hz⟩ := apart_of_nodup h.nodup
      refine ⟨l', ?_, ?_⟩
      · rw [perform, hl', specified, lookup_split hy]
        rfl
      · rwa [specified, delete_split hy hz]
  | popFront =>
    cases xs with
    | nil => exact ⟨l, by rw [perform, listPopFront, h.head]; rfl, h⟩
    | cons x xs =>
      obtain ⟨l', hl', hr⟩ := listRemove_spec (show Represents l ([] ++ (x.1, x.2) :: xs) from h)
      exact ⟨l', by rw [perform, listPopFront, h.head]; exact hl', hr⟩

theorem performAll_specified {C : List (ℕ × Option α) → Op α → Prop} {ops : List (Op α)}
    (hrun : Run (sequences α) C xs ops ys) (h : Represents l xs) :
    ∃ l', performAll ops l = some (outcomes ops xs, l') ∧ Represents l' ys := by
  induction hrun generalizing l with
  | nil xs => exact ⟨l, rfl, h⟩
  | cons ha _ _ ih =>
    obtain ⟨l1, hl1, h1⟩ := perform_specified _ h ha
    obtain ⟨l2, hl2, h2⟩ := ih h1
    refine ⟨l2, ?_, h2⟩
    rw [performAll, hl1]
    simp only
    rw [hl2]
    rfl

theorem listFree_drains (fuel : ℕ) (h : Represents l xs) (hf : xs.length < fuel) :
    ∃ l', listFree fuel l = some l' ∧ Represents l' (undrained xs) := by
  induction fuel generalizing l xs with
  | zero => cases hf
  | succ fuel ih =>
    cases xs with
    | nil =>
      refine ⟨l, ?_, h⟩
      rw [listFree, listPopFront, h.head]
      rfl
    | cons x xs =>
      obtain ⟨a, d⟩ := x
      obtain ⟨l1, hl1, h1⟩ := listRemove_spec (show Represents l ([] ++ (a, d) :: xs) from h)
      rw [listFree, listPopFront, h.head, first_cons, hl1]
      cases d with
      | none => exact ⟨l1, rfl, h1⟩
      | some v =>
        have hrest : Represents l1 xs := h1
        have hlen : xs.length < fuel := Nat.lt_of_succ_lt_succ hf
        obtain ⟨l', hl', h'⟩ := ih hrest hlen
        exact ⟨l', hl', h'⟩

theorem listFree_spec (fuel : ℕ) (h : Represents l xs) (hd : ∀ x ∈ xs, x.2.isSome)
    (hf : xs.length < fuel) : ∃ l', listFree fuel l = some l' ∧ ∀ a, l'.node a = none := by
  obtain ⟨l', hl', hr⟩ := listFree_drains fuel h hf
  rw [undrained_all hd] at hr
  exact ⟨l', hl', fun a => hr.only a List.not_mem_nil⟩

/-- What can be seen of a list that holds the sequence `xs`. -/
structure Shape (l : NodeList α) (xs : List (ℕ × Option α)) : Prop where
  forward : ∀ fuel, xs.length ≤ fuel → listForeach l fuel l.head = some (addresses xs)
  data : ∀ x ∈ xs, (l.node x.1).map Node.data = some x.2
  back : ∀ ys x zs, xs = ys ++ x :: zs →
    (l.node x.1).map Node.previous = some (last .head ys) ∧
      load (last .head ys) l = some (some x.1) ∧
      listPrevious x.1 l = some (ys.getLast?.map Prod.fst) ∧
      listNext x.1 l = some (zs.head?.map Prod.fst)
  tail : l.tail = last .head xs
  final : load l.tail l = some none
  listTail : listTail l = xs.getLast?.map Prod.fst
  nothingElse : ∀ a, a ∉ addresses xs → l.node a = none

theorem listForeach_spec {p : Link ℕ} (fuel : ℕ) (hl : Linked l.node p xs none)
    (hf : xs.length ≤ fuel) : listForeach l fuel (first xs none) = some (addresses xs) := by
  induction xs generalizing p fuel with
  | nil => cases fuel <;> rfl
  | cons x xs ih =>
    cases fuel with
    | zero => cases hf
    | succ fuel =>
      rw [first_cons, listForeach, hl.1]
      simp only
      rw [ih fuel hl.2 (Nat.le_of_succ_le_succ hf)]
      rfl

theorem last_node (xs : List (ℕ × Option α)) :
    (if last .head xs = .head then none else downcast (last .head xs)) =
      xs.getLast?.map Prod.fst := by
  rcases last_cases (p := Link.head) xs with ⟨rfl, h⟩ | ⟨ys, x, rfl, h⟩
  · rfl
  · rw [h]
    simp [downcast]

theorem load_last (h : Represents l (xs ++ ys)) : load (last .head xs) l = some (first ys none) := by
  rcases last_cases (p := Link.head) xs with ⟨rfl, hlast⟩ | ⟨zs, x, rfl, hlast⟩
  · rw [last_nil, load, h.head]
    rfl
  · have hx : l.node x.1 = some ⟨first ys none, last .head zs, x.2⟩ := by
      have hl := h.linked
      rw [List.append_assoc] at hl
      exact linked_node hl
    rw [hlast, load, hx]
    rfl

theorem represents_shape (h : Represents l xs) : Shape l xs := by
  constructor
  · intro fuel hf
    rw [h.head]
    exact listForeach_spec fuel h.linked hf
  · intro x hx
    obtain ⟨ys, zs, rfl⟩ := List.append_of_mem hx
    rw [linked_node h.linked]
    rfl
  · rintro ys x zs rfl
    have hx := linked_node h.linked
    refine ⟨?_, load_last h, ?_, ?_⟩
    · rw [hx]
      rfl
    · rw [listPrevious, hx, Option.map_some, last_node]
    · rw [listNext, hx]
      cases zs <;> rfl
  · exact h.tail
  · have hload := load_last (show Represents l (xs ++ []) by rwa [List.append_nil])
    rwa [← h.tail] at hload
  · rw [listTail, h.tail, last_node]
  · exact h.only

/-- After any sequence of operations the list is the sequence they make. -/
theorem list_refines_sequence {ops : List (Op α)}
    (hrun : Run (sequences α) (fun _ _ => True) [] ops xs) :
    ∃ l, performAll ops listNew = some (outcomes ops [], l) ∧ Shape l xs := by
  obtain ⟨l, hl, hr⟩ := performAll_specified hrun represents_new
  exact ⟨l, hl, represents_shape hr⟩

def middleOut : List (Op ℕ) :=
  [.pushBack 1 (some 10), .pushBack 2 (some 20), .pushBefore (some 2) 3 (some 30),
    .remove (some 3), .remove (some 2), .pushFront 2 (some 40), .popFront, .remove (some 1),
    .pushBefore none 5 (some 50)]

theorem middleOut_refines : ∃ l, performAll middleOut listNew =
    some ([none, none, none, some 30, some 20, none, some 40, some 10, none], l) ∧
      Shape l [(5, some 50)] :=
  list_refines_sequence (run_of_admits [] middleOut (by decide))

end Tigera.DoublyLinkedList
