import TigeraWebservice.CountedReference
import TigeraWebservice.Ledger
import TigeraWebservice.Runs

/-!
# The law of reference counts

One block of `reference_new` with a pointer that is not null, and any sequence
of operations by the holders of its counts. The counts that are held are kept
apart from those in the block; what `free_fn` does to the weak counts while it
runs is part of the operation that calls it.
-/

set_option autoImplicit false

namespace Tigera.ReferenceCounts
open ResourceLedger TransitionRuns Tigera.CountedReference

variable {σ α : Type*}

/-- The read is recorded like a write. -/
def referenceGet (b : Block σ α) (s : σ) : Option α × σ := ((b.get s).ptr, b.set (b.get s) s)

/-- The block, what was done with its memory, and the calls of `free_fn`. -/
structure Memory (α : Type*) where
  ref : Reference α
  life : List (Entry Unit)
  freed : List α

def made (ptr : α) (freeFn : Bool) : Memory α := ⟨referenceNew ptr freeFn, [.alloc ()], []⟩

inductive WeakOp where
  | inc
  | dec
  | get
  deriving DecidableEq, Repr

/-- A strong release names what `free_fn` does if it is called. -/
inductive Op where
  | inc
  | dec (during : List WeakOp)
  | weak (op : WeakOp)
  deriving DecidableEq, Repr

/-- The block in a call that cannot reach `free_fn`. -/
def plainBlock : Block (Memory α) α where
  get m := m.ref
  set r m := { m with ref := r, life := .use () :: m.life }
  free m := { m with life := .free () :: m.life }
  freeFn _ m := m

def performWeak : WeakOp → Memory α → Memory α
  | .inc, m => referenceWeakInc plainBlock m
  | .dec, m => referenceWeakDec plainBlock m
  | .get, m => (referenceGet plainBlock m).2

def block (during : List WeakOp) : Block (Memory α) α :=
  { plainBlock with
    freeFn := fun p m => during.foldl (fun m op => performWeak op m) { m with freed := p :: m.freed } }

def perform : Op → Memory α → Memory α
  | .inc, m => referenceInc plainBlock m
  | .dec during, m => referenceDec (block during) m
  | .weak op, m => performWeak op m

def performAll (ops : List Op) (m : Memory α) : Memory α := ops.foldl (fun m op => perform op m) m

structure Counts where
  strong : ℕ
  weak : ℕ
  deriving DecidableEq, Repr

def WeakOp.counted : WeakOp → ℕ → ℕ
  | .inc, weak => weak + 1
  | .dec, weak => weak - 1
  | .get, weak => weak

def WeakOp.admitted : WeakOp → ℕ → Bool
  | .dec, weak => 0 < weak
  | _, _ => true

def countedAll (during : List WeakOp) (weak : ℕ) : ℕ :=
  during.foldl (fun weak op => op.counted weak) weak

def admittedAll : List WeakOp → ℕ → Bool
  | [], _ => true
  | op :: ops, weak => op.admitted weak && admittedAll ops (op.counted weak)

/-- Some count is held, what is given back was taken, and no strong count is
taken after the last. -/
def admitted (freeFn : Bool) (c : Counts) : Op → Bool
  | .inc => 0 < c.strong
  | .dec during => 0 < c.strong && (c.strong ≠ 1 || !freeFn || admittedAll during c.weak)
  | .weak op => 0 < c.strong + c.weak && op.admitted c.weak

/-- The counts held by the holders of the block. -/
def counts (freeFn : Bool) : System Counts Op where
  enabled c op := admitted freeFn c op = true
  next c op := match op with
    | .inc => { c with strong := c.strong + 1 }
    | .dec during =>
      ⟨c.strong - 1, if c.strong = 1 ∧ freeFn = true then countedAll during c.weak else c.weak⟩
    | .weak op => { c with weak := op.counted c.weak }

instance (freeFn : Bool) (c : Counts) (op : Op) : Decidable ((counts freeFn).enabled c op) :=
  inferInstanceAs (Decidable (admitted freeFn c op = true))

/-- The block between operations, with `c` the counts that are held. -/
structure Agrees (p : α) (freeFn : Bool) (c : Counts) (m : Memory α) : Prop where
  ref : m.ref = ⟨if c.strong = 0 then none else some p, c.strong, c.weak, freeFn⟩
  freed : m.freed = if c.strong = 0 ∧ freeFn = true then [p] else []
  sound : Sound m.life
  status : status m.life () = if c.strong = 0 ∧ c.weak = 0 then .freed else .live

/-- The block while `free_fn` runs: the pointer is still there. -/
structure Running (p : α) (weak : ℕ) (m : Memory α) : Prop where
  ref : m.ref = ⟨some p, 0, weak, true⟩
  freed : m.freed = [p]
  sound : Sound m.life
  status : ResourceLedger.status m.life () = .live

variable {p : α} {freeFn : Bool} {c : Counts} {m : Memory α} {weak : ℕ}

theorem agrees_made (p : α) (freeFn : Bool) : Agrees p freeFn ⟨1, 0⟩ (made p freeFn) :=
  ⟨rfl, rfl, ⟨rfl, trivial⟩, rfl⟩

theorem running_performWeak (op : WeakOp) (h : Running p weak m) (ha : op.admitted weak = true) :
    Running p (op.counted weak) (performWeak op m) := by
  obtain ⟨hr, hf, hs, hl⟩ := h
  cases op with
  | inc => exact ⟨by simp [performWeak, referenceWeakInc, plainBlock, hr, WeakOp.counted], hf, ⟨hl, hs⟩, hl⟩
  | get => exact ⟨hr, hf, ⟨hl, hs⟩, hl⟩
  | dec =>
    have hpos : 0 < weak := by simpa [WeakOp.admitted] using ha
    have hcast : (weak : ℤ) - 1 = ((weak - 1 : ℕ) : ℤ) := by omega
    have hm : performWeak .dec m = plainBlock.set ⟨some p, 0, (weak : ℤ) - 1, true⟩ m := by
      simp only [performWeak, referenceWeakDec, plainBlock, hr]
      split <;> rfl
    rw [hm, hcast]
    exact ⟨rfl, hf, ⟨hl, hs⟩, hl⟩

theorem running_performAll (during : List WeakOp) (h : Running p weak m)
    (ha : admittedAll during weak = true) :
    Running p (countedAll during weak) (during.foldl (fun m op => performWeak op m) m) := by
  induction during generalizing weak m with
  | nil => exact h
  | cons op during ih =>
    rw [admittedAll, Bool.and_eq_true] at ha
    exact ih (running_performWeak op h ha.1) ha.2

theorem agrees_dec_held (during : List WeakOp) (h : Agrees p freeFn c m) (hc : 1 < c.strong) :
    Agrees p freeFn { c with strong := c.strong - 1 } (referenceDec (block during) m) := by
  have hcast : (c.strong : ℤ) - 1 = ((c.strong - 1 : ℕ) : ℤ) := by omega
  have hne : ((c.strong - 1 : ℕ) : ℤ) ≠ 0 := by omega
  have hz : c.strong ≠ 0 := by omega
  have hz1 : c.strong - 1 ≠ 0 := by omega
  have hl : status m.life () = .live := by simpa [hz] using h.status
  have hm : referenceDec (block during) m =
      plainBlock.set ⟨some p, ((c.strong - 1 : ℕ) : ℤ), c.weak, freeFn⟩ m := by
    simp only [referenceDec, block, plainBlock, h.ref, if_neg hz, hcast, if_neg hne]
  rw [hm]
  constructor
  · simp [plainBlock, hz1]
  · simpa [plainBlock, hz, hz1] using h.freed
  · exact ⟨hl, h.sound⟩
  · simpa [plainBlock, hz1] using hl

theorem agrees_cleared (hr : m.ref = ⟨some p, 0, weak, freeFn⟩)
    (hf : m.freed = if freeFn = true then [p] else []) (hs : Sound m.life)
    (hl : status m.life () = .live) : Agrees p freeFn ⟨0, weak⟩
      (if weak = 0 then plainBlock.free (plainBlock.set ⟨none, 0, weak, freeFn⟩ m)
        else plainBlock.set ⟨none, 0, weak, freeFn⟩ m) := by
  by_cases hw : weak = 0
  · subst hw
    rw [if_pos rfl]
    exact ⟨rfl, by simpa [plainBlock] using hf, ⟨hl, hl, hs⟩, rfl⟩
  · rw [if_neg hw]
    exact ⟨rfl, by simpa [plainBlock] using hf, ⟨hl, hs⟩, by simpa [plainBlock, hw] using hl⟩

/-- The last strong release calls `free_fn`, and takes the block with it when no
weak count is left then. -/
theorem agrees_dec_last (during : List WeakOp) (h : Agrees p freeFn ⟨1, weak⟩ m)
    (ha : freeFn = true → admittedAll during weak = true) :
    Agrees p freeFn ⟨0, if freeFn = true then countedAll during weak else weak⟩
      (referenceDec (block during) m) := by
  have hr : m.ref = ⟨some p, 1, weak, freeFn⟩ := h.ref
  have hf : m.freed = [] := h.freed
  have hl : status m.life () = .live := h.status
  cases freeFn with
  | false =>
    have hm : referenceDec (block during) m =
        if weak = 0 then plainBlock.free (plainBlock.set ⟨none, 0, weak, false⟩
          (plainBlock.set ⟨some p, 0, weak, false⟩ m))
        else plainBlock.set ⟨none, 0, weak, false⟩ (plainBlock.set ⟨some p, 0, weak, false⟩ m) := by
      simp [referenceDec, block, plainBlock, hr]
    rw [hm]
    exact agrees_cleared rfl hf ⟨hl, h.sound⟩ hl
  | true =>
    have hrun : Running p weak (⟨⟨some p, 0, weak, true⟩, .use () :: m.life, p :: m.freed⟩) :=
      ⟨rfl, by rw [hf], ⟨hl, h.sound⟩, hl⟩
    have hdone := running_performAll during hrun (ha rfl)
    generalize hn : during.foldl (fun m op => performWeak op m) _ = n at hdone
    have hm : referenceDec (block during) m = if n.ref.weakRefcnt = 0 then
        plainBlock.free (plainBlock.set { n.ref with ptr := none } n)
        else plainBlock.set { n.ref with ptr := none } n := by
      simp [referenceDec, block, plainBlock, hr, hn]
    have hcleared : Agrees p true ⟨0, countedAll during weak⟩ _ :=
      agrees_cleared hdone.ref (by simpa using hdone.freed) hdone.sound hdone.status
    rw [hm]
    simpa [hdone.ref] using hcleared

theorem agrees_weak (op : WeakOp) (h : Agrees p freeFn c m) (hc : 0 < c.strong + c.weak)
    (ha : op.admitted c.weak = true) :
    Agrees p freeFn { c with weak := op.counted c.weak } (performWeak op m) := by
  have hheld : ¬ (c.strong = 0 ∧ c.weak = 0) := by omega
  have hl : status m.life () = .live := by simpa [hheld] using h.status
  have hr := h.ref
  cases op with
  | inc => exact ⟨by simp [performWeak, referenceWeakInc, plainBlock, hr, WeakOp.counted],
      h.freed, ⟨hl, h.sound⟩, by simpa [performWeak, referenceWeakInc, plainBlock, WeakOp.counted] using hl⟩
  | get => exact ⟨hr, h.freed, ⟨hl, h.sound⟩, by simpa [performWeak, referenceGet, plainBlock,
      WeakOp.counted, hheld] using hl⟩
  | dec =>
    have hpos : 0 < c.weak := by simpa [WeakOp.admitted] using ha
    have hcast : (c.weak : ℤ) - 1 = ((c.weak - 1 : ℕ) : ℤ) := by omega
    have hm : performWeak .dec m = if c.strong = 0 ∧ c.weak - 1 = 0 then
        plainBlock.free (plainBlock.set { m.ref with weakRefcnt := ((c.weak - 1 : ℕ) : ℤ) } m)
        else plainBlock.set { m.ref with weakRefcnt := ((c.weak - 1 : ℕ) : ℤ) } m := by
      simp only [performWeak, referenceWeakDec, plainBlock, hr, hcast]
      by_cases hz : c.weak - 1 = 0
      · by_cases hs : c.strong = 0 <;> simp [hz, hs]
      · simp [hz]
    rw [hm]
    by_cases hz : c.strong = 0 ∧ c.weak - 1 = 0
    · rw [if_pos hz]
      exact ⟨by simp [plainBlock, hr, WeakOp.counted], h.freed, ⟨hl, hl, h.sound⟩,
        by simp [plainBlock, WeakOp.counted, hz]⟩
    · rw [if_neg hz]
      exact ⟨by simp [plainBlock, hr, WeakOp.counted], h.freed, ⟨hl, h.sound⟩,
        by simpa [plainBlock, WeakOp.counted, hz] using hl⟩

theorem agrees_inc (h : Agrees p freeFn c m) (hc : 0 < c.strong) :
    Agrees p freeFn { c with strong := c.strong + 1 } (referenceInc plainBlock m) := by
  have hz : c.strong ≠ 0 := by omega
  have hl : status m.life () = .live := by simpa [hz] using h.status
  constructor
  · simp [referenceInc, plainBlock, h.ref, hz]
  · simpa [referenceInc, plainBlock, hz] using h.freed
  · exact ⟨hl, h.sound⟩
  · simpa [referenceInc, plainBlock] using hl

theorem agrees_next (op : Op) (h : Agrees p freeFn c m) (ha : (counts freeFn).enabled c op) :
    Agrees p freeFn ((counts freeFn).next c op) (perform op m) := by
  have ha : admitted freeFn c op = true := ha
  cases op with
  | inc => exact agrees_inc h (by simpa [admitted] using ha)
  | weak op =>
    simp only [admitted, Bool.and_eq_true, decide_eq_true_eq] at ha
    exact agrees_weak op h ha.1 ha.2
  | dec during =>
    obtain ⟨strong, weak⟩ := c
    simp only [admitted, Bool.and_eq_true, decide_eq_true_eq] at ha
    obtain ⟨hpos, hlast⟩ := ha
    by_cases hone : strong = 1
    · subst hone
      have hn : (counts freeFn).next ⟨1, weak⟩ (.dec during) =
          ⟨0, if freeFn = true then countedAll during weak else weak⟩ := by simp [counts]
      rw [hn]
      refine agrees_dec_last during h ?_
      rintro rfl
      simpa using hlast
    · have hn : (counts freeFn).next ⟨strong, weak⟩ (.dec during) = ⟨strong - 1, weak⟩ := by
        simp [counts, hone]
      rw [hn]
      exact agrees_dec_held during h (by show 1 < strong; omega)

/-- What the holders of the counts `c` see: `free_fn` called with the pointer
once the strong counts are gone, the pointer until then and null afterwards, and
the block released once both counts are gone and used only before. -/
structure Law (p : α) (freeFn : Bool) (c : Counts) (m : Memory α) : Prop where
  freed : m.freed = if c.strong = 0 ∧ freeFn = true then [p] else []
  got : 0 < c.strong + c.weak →
    (referenceGet plainBlock m).1 = if c.strong = 0 then none else some p
  released : frees m.life () = if c.strong = 0 ∧ c.weak = 0 then 1 else 0
  used : Sound m.life

theorem law_of_agrees (h : Agrees p freeFn c m) : Law p freeFn c m := by
  refine ⟨h.freed, ?_, ?_, h.sound⟩
  · intro _
    show m.ref.ptr = _
    rw [h.ref]
  · rw [frees_of_sound m.life h.sound, h.status]
    split <;> rfl

theorem agrees_performAll {C : Counts → Op → Prop} {ops : List Op} {c c' : Counts}
    (h : Run (counts freeFn) C c ops c') (hm : Agrees p freeFn c m) :
    Agrees p freeFn c' (performAll ops m) := by
  induction h generalizing m with
  | nil c => exact hm
  | cons admitted condition rest ih => exact ih (agrees_next _ hm admitted)

/-- The law holds after any operations of the holders. -/
theorem reference_counting (p : α) (freeFn : Bool) {ops : List Op} {c : Counts}
    (h : Run (counts freeFn) (fun _ _ => True) ⟨1, 0⟩ ops c) :
    Law p freeFn c (performAll ops (made p freeFn)) :=
  law_of_agrees (agrees_performAll h (agrees_made p freeFn))

/-- `free_fn` gives back the last weak counts while it runs. -/
def reentrant : List Op :=
  [.weak .inc, .inc, .weak .inc, .dec [], .weak .get, .dec [.get, .dec, .dec]]

theorem reference_counting_reentrant : Law 7 true ⟨0, 0⟩ (performAll reentrant (made 7 true)) :=
  reference_counting 7 true (run_of_admits (S := counts true) (C := fun _ _ => True) ⟨1, 0⟩ reentrant
    (by decide))

end Tigera.ReferenceCounts
