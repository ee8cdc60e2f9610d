import Mathlib.Data.Int.Notation
import Mathlib.Data.Nat.Notation

/-!
# Counted references

The functions of `reference.h`, over any memory that holds the block. The
memory supplies reading, writing and releasing the block and the effect of the
`free_fn` stored in it; each function touches the block exactly where the
source does. The null test on the block is the caller's, who names the block.
-/

set_option autoImplicit false

namespace Tigera.CountedReference

variable {σ α : Type*}

structure Reference (α : Type*) where
  ptr : Option α := none
  refcnt : ℤ := 0
  weakRefcnt : ℤ := 0
  freeFn : Bool := false
  deriving Repr

structure Block (σ α : Type*) where
  get : σ → Reference α
  set : Reference α → σ → σ
  free : σ → σ
  freeFn : α → σ → σ

def referenceNew (ptr : α) (freeFn : Bool) : Reference α :=
  { ptr := some ptr, refcnt := 1, freeFn := freeFn }

def referenceInc (b : Block σ α) (s : σ) : σ :=
  b.set { b.get s with refcnt := (b.get s).refcnt + 1 } s

def referenceWeakInc (b : Block σ α) (s : σ) : σ :=
  b.set { b.get s with weakRefcnt := (b.get s).weakRefcnt + 1 } s

/-- The pointer is cleared after `free_fn` returns, and the block goes with it
when no weak count is left. -/
def referenceDec (b : Block σ α) (s : σ) : σ :=
  let s := b.set { b.get s with refcnt := (b.get s).refcnt - 1 } s
  if (b.get s).refcnt = 0 then
    let s := match (b.get s).freeFn, (b.get s).ptr with
      | true, some p => b.freeFn p s
      | _, _ => s
    let s := b.set { b.get s with ptr := none } s
    if (b.get s).weakRefcnt = 0 then b.free s else s
  else s

def referenceWeakDec (b : Block σ α) (s : σ) : σ :=
  let s := b.set { b.get s with weakRefcnt := (b.get s).weakRefcnt - 1 } s
  if (b.get s).weakRefcnt = 0 then
    if (b.get s).ptr.isNone then b.free s else s
  else s

end Tigera.CountedReference
