import Mathlib.Tactic.Ring
import TigeraWebservice.JokeCreate
import TigeraWebservice.Substitution

/-!
# Both passes substitute

The counting pass and the copying pass of `joke_create` visit the occurrences
of the token that a leftmost scan finds. The size asked of `malloc` is exact
while it fits in an `int`; from there on it is exact modulo the width of one.
-/

set_option autoImplicit false

namespace Tigera.JokeSubstitution
open Substitution Tigera.JokeCreate

/-- The occurrences visited by the counting pass, each as what lies at and
after it. -/
def countVisits (token : Bytes) (tlen : ℤ) : ℕ → Bytes → List Bytes
  | 0, _ => []
  | fuel + 1, n =>
    if n.isEmpty then []
    else match strstr n token with
      | none => []
      | some n => n :: countVisits token tlen fuel (n.drop tlen.toNat)

def copyVisits (token : Bytes) (tlen : ℤ) : ℕ → Bytes → List Bytes
  | 0, _ => []
  | fuel + 1, p =>
    if p.isEmpty then []
    else match strstr p token with
      | none => []
      | some n =>
        n :: copyVisits token tlen fuel ((p.drop (p.length - n.length)).drop tlen.toNat)

/-- The stores of the copying loops from index `i` on, final NUL included,
each as the byte and its index. -/
def copyWrites (token : Bytes) (tlen : ℤ) (sessToken : Bytes) (sessTlen : ℤ) :
    ℕ → Bytes → ℕ → List (UInt8 × ℕ)
  | 0, _, _ => []
  | fuel + 1, p, i =>
    match if p.isEmpty then none else strstr p token with
    | none => p.zipIdx i ++ [(0, i + p.length)]
    | some n =>
      let before := p.take (p.length - n.length)
      let new := sessToken.take sessTlen.toNat
      before.zipIdx i ++ new.zipIdx (i + before.length) ++
        copyWrites token tlen sessToken sessTlen fuel
          ((p.drop (p.length - n.length)).drop tlen.toNat) (i + before.length + new.length)

theorem strstr_none {token : Bytes} (new s : Bytes) (h : strstr s token = none) :
    hits token s = [] ∧ replace token new s = s := by
  induction s with
  | nil => exact ⟨rfl, rfl⟩
  | cons c s ih =>
    rw [strstr] at h
    split at h
    · cases h
    · next hp =>
      have hp : token.isPrefixOf (c :: s) = false := Bool.eq_false_iff.mpr hp
      obtain ⟨h1, h2⟩ := ih h
      rw [hits_cons hp, replace_cons hp, h1, h2]
      exact ⟨rfl, rfl⟩

theorem strstr_some {token : Bytes} (new : Bytes) (ht : 0 < token.length) (s n : Bytes)
    (h : strstr s token = some n) :
    ∃ before after, s = before ++ n ∧ n = token ++ after ∧ hits token s = n :: hits token after ∧
      replace token new s = before ++ new ++ replace token new after := by
  induction s with
  | nil =>
    rw [strstr, if_neg (by simpa using List.length_pos_iff.mp ht)] at h
    cases h
  | cons c s ih =>
    rw [strstr] at h
    split at h
    · next hp =>
      obtain ⟨after, hafter⟩ := List.isPrefixOf_iff_prefix.mp hp
      have hn : c :: s = n := Option.some.inj h
      subst hn
      refine ⟨[], after, rfl, hafter.symm, ?_, ?_⟩
      · rw [← hafter, hits_append ht]
      · rw [← hafter, replace_append ht, List.nil_append]
    · next hp =>
      have hp : token.isPrefixOf (c :: s) = false := Bool.eq_false_iff.mpr hp
      obtain ⟨before, after, h1, h2, h3, h4⟩ := ih h
      refine ⟨c :: before, after, ?_, h2, ?_, ?_⟩
      · rw [h1, List.cons_append]
      · rw [hits_cons hp, h3]
      · rw [replace_cons hp, h4, List.cons_append, List.cons_append]

theorem countVisits_eq (token : Bytes) (ht : 0 < token.length) (fuel : ℕ) (n : Bytes)
    (hf : n.length < fuel) : countVisits token token.length fuel n = hits token n := by
  induction fuel generalizing n with
  | zero => omega
  | succ fuel ih =>
    rw [countVisits]
    split
    · next hn =>
      rw [List.isEmpty_iff.mp hn, hits_nil]
    · cases hs : strstr n token with
      | none =>
        rw [(strstr_none [] n hs).1]
      | some m =>
        obtain ⟨before, after, h1, h2, h3, -⟩ := strstr_some [] ht n m hs
        have hlen : after.length < fuel := by
          rw [h1, h2] at hf
          simp only [List.length_append] at hf
          omega
        simp only [Int.toNat_natCast]
        rw [h3, h2, List.drop_left, ih after hlen]

theorem countPass_visits (token : Bytes) (tlen sessTlen : ℤ) (fuel : ℕ) (n : Bytes) (len r : ℤ)
    (h : countPass token tlen sessTlen fuel n len = some r) :
    r = (countVisits token tlen fuel n).foldl
      (fun len _ => int32 (int32 (len - tlen) + sessTlen)) len := by
  induction fuel generalizing n len with
  | zero => cases h
  | succ fuel ih =>
    rw [countPass] at h
    rw [countVisits]
    split at h
    · next hn =>
      rw [if_pos hn]
      exact (Option.some.inj h).symm
    · next hn =>
      rw [if_neg hn]
      cases hs : strstr n token with
      | none =>
        rw [hs] at h
        exact (Option.some.inj h).symm
      | some m =>
        rw [hs] at h
        exact ih _ _ h

theorem foldl_turns (visits : List Bytes) (tlen sessTlen len x : ℤ) :
    int32 (visits.foldl (fun len _ => int32 (int32 (len - tlen) + sessTlen)) len + x) =
      int32 (len + visits.length * (sessTlen - tlen) + x) := by
  induction visits generalizing len with
  | nil => simp
  | cons v visits ih =>
    rw [List.foldl_cons, ih, List.length_cons, add_assoc, int32_add, add_assoc, int32_add]
    congr 1
    push_cast
    ring

theorem countPass_eq (token : Bytes) (sessTlen : ℤ) (ht : 0 < token.length) (fuel : ℕ) (n : Bytes)
    (len : ℤ) (hf : n.length < fuel) :
    ∃ r, countPass token token.length sessTlen fuel n len = some r ∧
      ∀ x, int32 (r + x) = int32 (len + (hits token n).length * (sessTlen - token.length) + x) := by
  obtain ⟨r, hr⟩ := countPass_ends token token.length sessTlen (by omega) fuel n len hf
  refine ⟨r, hr, fun x => ?_⟩
  rw [countPass_visits token _ sessTlen fuel n len r hr, foldl_turns, countVisits_eq token ht fuel n hf]

theorem strstr_suffix {token : Bytes} (s n : Bytes) (h : strstr s token = some n) : n <:+ s := by
  induction s with
  | nil =>
    rw [strstr] at h
    split at h
    · rw [← Option.some.inj h]
    · cases h
  | cons c s ih =>
    rw [strstr] at h
    split at h
    · rw [← Option.some.inj h]
    · exact (ih h).trans (List.suffix_cons c s)

theorem copyVisits_countVisits (token : Bytes) (tlen : ℤ) (fuel : ℕ) (p : Bytes) :
    copyVisits token tlen fuel p = countVisits token tlen fuel p := by
  induction fuel generalizing p with
  | zero => rfl
  | succ fuel ih =>
    rw [copyVisits, countVisits]
    cases hs : strstr p token with
    | none => rfl
    | some n =>
      have hdrop : n = p.drop (p.length - n.length) :=
        List.suffix_iff_eq_drop.mp (strstr_suffix p n hs)
      simp only
      rw [← hdrop, ih]

theorem copyPass_writes (token : Bytes) (tlen : ℤ) (sessToken : Bytes) (sessTlen : ℤ) (fuel : ℕ)
    (p stored text : Bytes) (i : ℕ)
    (h : copyPass token tlen sessToken sessTlen fuel p stored = some text) :
    stored ++ (copyWrites token tlen sessToken sessTlen fuel p i).map Prod.fst = text ++ [0] := by
  induction fuel generalizing p stored i with
  | zero => cases h
  | succ fuel ih =>
    rw [copyPass] at h
    rw [copyWrites]
    split at h
    · next hp =>
      rw [if_pos hp, List.isEmpty_iff.mp hp, ← Option.some.inj h]
      rfl
    · next hp =>
      rw [if_neg hp]
      cases hs : strstr p token with
      | none =>
        rw [hs] at h
        rw [← Option.some.inj h]
        simp
      | some n =>
        rw [hs] at h
        have hdrop : n = p.drop (p.length - n.length) :=
          List.suffix_iff_eq_drop.mp (strstr_suffix p n hs)
        simp only [List.map_append, List.zipIdx_map_fst, ← hdrop, ← List.append_assoc]
        exact ih _ _ _ h

theorem copyWrites_indices (token : Bytes) (tlen : ℤ) (sessToken : Bytes) (sessTlen : ℤ)
    (fuel : ℕ) (p : Bytes) (i : ℕ) :
    (copyWrites token tlen sessToken sessTlen fuel p i).map Prod.snd =
      List.range' i (copyWrites token tlen sessToken sessTlen fuel p i).length := by
  induction fuel generalizing p i with
  | zero => rfl
  | succ fuel ih =>
    rw [copyWrites]
    split
    · simp [List.zipIdx_map_snd, List.range'_concat]
    · next n hs =>
      simp only [List.map_append, List.zipIdx_map_snd, ih, List.length_append, List.length_zipIdx,
        List.range'_append_1]
      rw [Nat.add_assoc i, List.range'_append_1]

theorem copyPass_eq (token new : Bytes) (ht : 0 < token.length) (fuel : ℕ) (p stored : Bytes)
    (hf : p.length < fuel) :
    copyPass token token.length new new.length fuel p stored =
      some (stored ++ replace token new p) := by
  induction fuel generalizing p stored with
  | zero => omega
  | succ fuel ih =>
    rw [copyPass]
    split
    · next hp =>
      rw [List.isEmpty_iff.mp hp, replace_nil, List.append_nil]
    · cases hs : strstr p token with
      | none =>
        rw [(strstr_none new p hs).2]
      | some n =>
        obtain ⟨before, after, h1, h2, -, h4⟩ := strstr_some new ht p n hs
        have hlen : after.length < fuel := by
          rw [h1, h2] at hf
          simp only [List.length_append] at hf
          omega
        have hb : p.length - n.length = before.length := by
          rw [h1, List.length_append]
          omega
        simp only [Int.toNat_natCast]
        rw [h4, hb, h1, List.take_left, h2, List.drop_left, List.take_length, ih after _ hlen]
        simp only [List.append_assoc]

/-- The bytes the new string takes, its NUL included. -/
def newJokeLength (token new joke : Bytes) : ℤ :=
  joke.length + (hits token joke).length * ((new.length : ℤ) - token.length) + 1

theorem newJokeLength_eq (token new joke : Bytes) (ht : 0 < token.length) :
    newJokeLength token new joke = (replace token new joke).length + 1 := by
  have h : ((replace token new joke).length : ℤ) + (hits token joke).length * token.length =
      joke.length + (hits token joke).length * new.length := by
    exact_mod_cast length_replace ht joke
  rw [newJokeLength, mul_sub]
  omega

/-- What `joke_create` returns for strings whose lengths it is told, at least
as an `int`. -/
theorem jokeCreate_eq (malloc : ℕ → Bool) (token new joke : Bytes) (ht : 0 < token.length)
    (len : ℤ) (hlen : int32 len = int32 joke.length) :
    jokeCreate malloc joke len token token.length new new.length =
      if malloc (sizeT (int32 (newJokeLength token new joke))) then
        .created (sizeT (int32 (newJokeLength token new joke))) (replace token new joke)
      else .outOfMemory := by
  obtain ⟨r, hr, hx⟩ := countPass_eq token new.length ht (joke.length + 1) joke len (by omega)
  have hsize : int32 (r + 1) = int32 (newJokeLength token new joke) := by
    rw [hx, newJokeLength, add_assoc, ← int32_add, hlen, int32_add, add_assoc]
  rw [jokeCreate, hr]
  simp only [hsize, copyPass_eq token new ht (joke.length + 1) joke [] (by omega),
    List.nil_append]

/-- The new string of `joke_create` is the joke with every occurrence of the
token replaced, stored without a gap in exactly the bytes allocated. -/
structure Substitutes (malloc : ℕ → Bool) (token new joke : Bytes) : Prop where
  result : jokeCreate malloc joke joke.length token token.length new new.length =
    .created ((replace token new joke).length + 1) (replace token new joke)
  counted : countVisits token token.length (joke.length + 1) joke = hits token joke
  copied : copyVisits token token.length (joke.length + 1) joke = hits token joke
  indices : (copyWrites token token.length new new.length (joke.length + 1) joke 0).map Prod.snd =
    List.range ((replace token new joke).length + 1)
  bytes : (copyWrites token token.length new new.length (joke.length + 1) joke 0).map Prod.fst =
    replace token new joke ++ [0]
  terminated : 0 ∉ replace token new joke
  unchanged : ¬ token <:+: joke → replace token new joke = joke

/-- As long as the result fits, both passes agree and the string is right. -/
theorem joke_substitutes (malloc : ℕ → Bool) (token new joke : Bytes) (ht : 0 < token.length)
    (hjoke : 0 ∉ joke) (hnew : 0 ∉ new) (hfit : (replace token new joke).length + 1 < 2 ^ 31)
    (hm : malloc ((replace token new joke).length + 1) = true) :
    Substitutes malloc token new joke := by
  have hsize : sizeT (int32 (newJokeLength token new joke)) =
      (replace token new joke).length + 1 := by
    rw [newJokeLength_eq token new joke ht, int32_eq (by omega) (by omega), sizeT]
    omega
  have hcounted := countVisits_eq token ht (joke.length + 1) joke (by omega)
  have hbytes := copyPass_writes token token.length new new.length (joke.length + 1) joke [] _ 0
    (copyPass_eq token new ht (joke.length + 1) joke [] (by omega))
  simp only [List.nil_append] at hbytes
  constructor
  · rw [jokeCreate_eq malloc token new joke ht joke.length rfl, hsize, hm, if_pos rfl]
  · exact hcounted
  · rw [copyVisits_countVisits, hcounted]
  · have hlength := congrArg List.length hbytes
    rw [List.length_map, List.length_append] at hlength
    rw [copyWrites_indices, hlength, List.range_eq_range']
    rfl
  · exact hbytes
  · intro h0
    rcases mem_replace ht joke h0 with h | h
    · exact hjoke h
    · exact hnew h
  · exact replace_of_absent ht joke

theorem joke_substitutes_overlapping :
    Substitutes (fun _ => true) (literal "aa") (literal "b") (literal "aaaab a") :=
  joke_substitutes _ _ _ _ (by decide) (by decide) (by decide) (by decide) rfl

/-- `malloc` fails on a size converted from a negative `int`. -/
def RefusesNegative (malloc : ℕ → Bool) : Prop :=
  ∀ x : ℤ, -2 ^ 31 ≤ x → x < 0 → malloc (sizeT x) = false

/-- Whenever the allocation succeeds the new string stays within it. -/
def StaysWithin (token new joke : Bytes) : Prop :=
  ∀ malloc, RefusesNegative malloc → ∀ size stored,
    jokeCreate malloc joke (int32 joke.length) token token.length new (int32 new.length) =
      .created size stored → stored.length + 1 ≤ size

theorem int32_int32 (x : ℤ) : int32 (int32 x) = int32 x := Int.bmod_bmod

theorem int32_wrapped {x : ℤ} (h : 2 ^ 31 ≤ x % 2 ^ 32) : int32 x = x % 2 ^ 32 - 2 ^ 32 := by
  rw [int32, Int.bmod]
  push_cast
  omega

theorem int32_unwrapped {x : ℤ} (h : x % 2 ^ 32 < 2 ^ 31) : int32 x = x % 2 ^ 32 := by
  rw [int32, Int.bmod]
  push_cast
  omega

/-- The new string stays within its allocation unless its length has wrapped
round to a size that is not negative. -/
theorem stays_within_iff (token new joke : Bytes) (ht : 0 < token.length)
    (hnew : new.length < 2 ^ 31) :
    StaysWithin token new joke ↔
      newJokeLength token new joke < 2 ^ 31 ∨ 2 ^ 31 ≤ newJokeLength token new joke % 2 ^ 32 := by
  have hlen := newJokeLength_eq token new joke ht
  have hcreate : ∀ malloc, jokeCreate malloc joke (int32 joke.length) token token.length new
      (int32 new.length) =
        if malloc (sizeT (int32 (newJokeLength token new joke))) then
          .created (sizeT (int32 (newJokeLength token new joke))) (replace token new joke)
        else .outOfMemory := by
    intro malloc
    rw [int32_eq (x := new.length) (by omega) (by omega)]
    exact jokeCreate_eq malloc token new joke ht (int32 joke.length) (int32_int32 _)
  constructor
  · intro h
    by_contra hno
    rw [not_or, not_lt, not_le] at hno
    obtain ⟨hlong, hwrap⟩ := hno
    have hsize := int32_unwrapped hwrap
    have hpos : RefusesNegative fun k => decide (k < 2 ^ 31) := by
      intro x hlo hhi
      rw [sizeT, decide_eq_false_iff_not]
      omega
    have hin := h _ hpos _ _ ((hcreate _).trans (if_pos (by
      rw [hsize, sizeT, decide_eq_true_iff]
      omega)))
    rw [hsize, sizeT] at hin
    omega
  · intro h malloc hneg size stored hres
    rw [hcreate malloc] at hres
    split at hres
    · next hm =>
      obtain ⟨hs, hst⟩ := JokeResult.created.inj hres
      subst hs hst
      rcases h with h | h
      · rw [int32_eq (by omega) h, sizeT]
        omega
      · rw [int32_wrapped h] at hm
        rw [hneg _ (by omega) (by omega)] at hm
        cases hm
    · cases hres

theorem stays_within_short :
    StaysWithin (literal "Eduardo") (literal "Ana") (literal "Eduardo, meet Eduardo") :=
  (stays_within_iff _ _ _ (by decide) (by decide)).mpr (.inl (by decide))

theorem hits_flatten {token : Bytes} (ht : 0 < token.length) (n : ℕ) :
    (hits token (List.replicate n token).flatten).length = n := by
  induction n with
  | zero => rfl
  | succ n ih => rw [List.replicate_succ, List.flatten_cons, hits_append ht, List.length_cons, ih]

/-- 512 occurrences, each replaced by 8 MiB, make `malloc` be asked for one byte. -/
theorem wrapped_joke_overruns :
    ¬ ∀ token ∈ [literal "Eduardo", literal "Panisset"], ∀ new joke : Bytes,
      joke.length < 2 ^ 24 → new.length < 2 ^ 24 → StaysWithin token new joke := by
  intro h
  have hjoke : (List.replicate 512 (literal "Eduardo")).flatten.length = 512 * 7 := by
    rw [List.length_flatten, List.map_replicate, List.sum_replicate_nat]
    rfl
  have hnew : (List.replicate (2 ^ 23) (97 : UInt8)).length = 2 ^ 23 := List.length_replicate
  have hlen : newJokeLength (literal "Eduardo") (List.replicate (2 ^ 23) 97)
      (List.replicate 512 (literal "Eduardo")).flatten = 2 ^ 32 + 1 := by
    rw [newJokeLength, hjoke, hnew, hits_flatten (by decide)]
    rfl
  have hin := h (literal "Eduardo") List.mem_cons_self (List.replicate (2 ^ 23) 97)
    (List.replicate 512 (literal "Eduardo")).flatten (by omega) (by omega)
  rw [stays_within_iff _ _ _ (by decide) (by omega), hlen] at hin
  omega

end Tigera.JokeSubstitution
