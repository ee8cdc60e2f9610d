import Mathlib.Algebra.Group.Int.Defs
import Mathlib.Algebra.Group.Nat.Defs

/-!
# Substitution in a joke

`joke_create` of `session.c` in its own arithmetic. Strings are lists of bytes
without their final NUL. The counting pass works in a 32-bit `int`; the size
asked of `malloc` is that number converted to `size_t`; the copying pass then
stores bytes regardless of it. Both passes carry a bound on their turns, and a
pass that has not ended within it is reported as such.
-/

set_option autoImplicit false

namespace Tigera.JokeCreate

abbrev Bytes := List UInt8

/-- The bytes of an ASCII literal. -/
def literal (s : String) : Bytes := s.toList.map fun c => c.toNat.toUInt8

/-- Two's complement wrap-around of a C `int`. -/
def int32 (x : ℤ) : ℤ := x.bmod (2 ^ 32)

/-- Conversion of an `int` to `size_t`. -/
def sizeT (x : ℤ) : ℕ := (x % 2 ^ 64).toNat

theorem int32_add (x y : ℤ) : int32 (int32 x + y) = int32 (x + y) := Int.bmod_add_bmod

theorem int32_eq {x : ℤ} (hlo : -2 ^ 31 ≤ x) (hhi : x < 2 ^ 31) : int32 x = x := by
  apply Int.bmod_eq_of_le_mul_two <;> omega

/-- What lies at and after the first occurrence of the token. -/
def strstr : Bytes → Bytes → Option Bytes
  | [], token => if token.isEmpty then some [] else none
  | c :: s, token => if token.isPrefixOf (c :: s) then some (c :: s) else strstr s token

def countPass (token : Bytes) (tlen sessTlen : ℤ) : ℕ → Bytes → ℤ → Option ℤ
  | 0, _, _ => none
  | fuel + 1, n, len =>
    if n.isEmpty then some len
    else match strstr n token with
      | none => some len
      | some n => countPass token tlen sessTlen fuel (n.drop tlen.toNat)
          (int32 (int32 (len - tlen) + sessTlen))

/-- The bytes stored by the copying loops, without the final NUL. -/
def copyPass (token : Bytes) (tlen : ℤ) (sessToken : Bytes) (sessTlen : ℤ) :
    ℕ → Bytes → Bytes → Option Bytes
  | 0, _, _ => none
  | fuel + 1, p, stored =>
    if p.isEmpty then some stored
    else match strstr p token with
      | none => some (stored ++ p)
      | some n => copyPass token tlen sessToken sessTlen fuel (n.drop tlen.toNat)
          (stored ++ p.take (p.length - n.length) ++ sessToken.take sessTlen.toNat)

inductive JokeResult where
  | diverged
  | outOfMemory
  | created (size : ℕ) (stored : Bytes)
  deriving DecidableEq, Repr

/-- `stored` is the new string; with its NUL it takes one byte more. -/
def jokeCreate (malloc : ℕ → Bool) (sessJoke : Bytes) (sessJokeLen : ℤ) (token : Bytes) (tlen : ℤ)
    (sessToken : Bytes) (sessTlen : ℤ) : JokeResult :=
  match countPass token tlen sessTlen (sessJoke.length + 1) sessJoke sessJokeLen with
  | none => .diverged
  | some len =>
    let size := sizeT (int32 (len + 1))
    if malloc size then
      match copyPass token tlen sessToken sessTlen (sessJoke.length + 1) sessJoke [] with
      | none => .diverged
      | some stored => .created size stored
    else .outOfMemory

theorem strstr_length (token s n : Bytes) (h : strstr s token = some n) : n.length ≤ s.length := by
  induction s with
  | nil =>
    simp only [strstr] at h
    split at h <;> simp_all
  | cons c s ih =>
    simp only [strstr] at h
    split at h
    · simp_all
    · have := ih h
      simp only [List.length_cons]
      omega

theorem strstr_shrinks (token s n : Bytes) (k : ℕ) (hk : 0 < k) (hs : s.isEmpty = false)
    (h : strstr s token = some n) : (n.drop k).length < s.length := by
  have hn := strstr_length token s n h
  have hs' : 0 < s.length := List.length_pos_iff.mpr (by simpa using hs)
  simp only [List.length_drop]
  omega

/-- A token of positive length is passed at every turn, so the counting pass
ends within the length of the string. -/
theorem countPass_ends (token : Bytes) (tlen sessTlen : ℤ) (ht : 0 < tlen) (fuel : ℕ)
    (n : Bytes) (len : ℤ) (hf : n.length < fuel) :
    ∃ r, countPass token tlen sessTlen fuel n len = some r := by
  induction fuel generalizing n len with
  | zero => omega
  | succ fuel ih =>
    simp only [countPass]
    split
    · exact ⟨len, rfl⟩
    · next hn =>
      cases hs : strstr n token with
      | none => exact ⟨len, rfl⟩
      | some m =>
        apply ih
        have := strstr_shrinks token n m tlen.toNat (by omega) (by simpa using hn) hs
        omega

theorem copyPass_ends (token : Bytes) (tlen : ℤ) (sessToken : Bytes) (sessTlen : ℤ) (ht : 0 < tlen)
    (fuel : ℕ) (p stored : Bytes) (hf : p.length < fuel) :
    ∃ r, copyPass token tlen sessToken sessTlen fuel p stored = some r := by
  induction fuel generalizing p stored with
  | zero => omega
  | succ fuel ih =>
    simp only [copyPass]
    split
    · exact ⟨stored, rfl⟩
    · next hp =>
      cases hs : strstr p token with
      | none => exact ⟨stored ++ p, rfl⟩
      | some m =>
        apply ih
        have := strstr_shrinks token p m tlen.toNat (by omega) (by simpa using hp) hs
        omega

theorem jokeCreate_ends (malloc : ℕ → Bool) (sessJoke : Bytes) (sessJokeLen : ℤ) (token : Bytes)
    (tlen : ℤ) (sessToken : Bytes) (sessTlen : ℤ) (ht : 0 < tlen) :
    jokeCreate malloc sessJoke sessJokeLen token tlen sessToken sessTlen ≠ .diverged := by
  obtain ⟨len, hlen⟩ := countPass_ends token tlen sessTlen ht (sessJoke.length + 1) sessJoke
    sessJokeLen (by omega)
  obtain ⟨stored, hstored⟩ := copyPass_ends token tlen sessToken sessTlen ht
    (sessJoke.length + 1) sessJoke [] (by omega)
  simp only [jokeCreate, hlen, hstored]
  split <;> simp

example : jokeCreate (fun _ => true) (literal "Eduardo, meet Eduardo") 21 (literal "Eduardo") 7
    (literal "Ana") 3 = .created 14 (literal "Ana, meet Ana") := by decide

end Tigera.JokeCreate
