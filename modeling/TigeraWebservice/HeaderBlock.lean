import Mathlib.Data.Nat.Digits.Defs

/-!
# Messages with a header block

Lines end in CR LF, and the first empty one ends the header block. A field is a
name and a value with a colon between them. One field holds in decimal how many
bytes follow the block.
-/

set_option autoImplicit false

namespace HeaderBlock

/-- The lines up to the first empty one, after the beginning `line` of the first
of them, and what follows. -/
def lines : List UInt8 → List UInt8 → Option (List (List UInt8) × List UInt8)
  | _, [] => none
  | line, b :: rest =>
    if b = 10 ∧ line.getLast? = some 13 then
      if line.dropLast = [] then some ([], rest)
      else (lines [] rest).map fun (ls, rest) => (line.dropLast :: ls, rest)
    else lines (line ++ [b]) rest

def field (line : List UInt8) : List UInt8 × List UInt8 :=
  (line.takeWhile (· ≠ 58), ((line.dropWhile (· ≠ 58)).drop 1).dropWhile (· = 32))

def numberFrom : ℕ → List UInt8 → Option ℕ
  | n, [] => some n
  | n, b :: bs => if 48 ≤ b ∧ b ≤ 57 then numberFrom (n * 10 + (b.toNat - 48)) bs else none

def number (bs : List UInt8) : Option ℕ := if bs = [] then none else numberFrom 0 bs

structure Message where
  start : List UInt8
  fields : List (List UInt8 × List UInt8)
  content : List UInt8
  rest : List UInt8
  deriving DecidableEq, Repr

/-- The content is as long as the first field with the given name says. -/
def readMessage (lengthName input : List UInt8) : Option Message :=
  match lines [] input with
  | some (start :: ls, rest) =>
    match ((ls.map field).find? fun f => f.1 = lengthName).bind fun f => number f.2 with
    | some n =>
      if n ≤ rest.length then some ⟨start, ls.map field, rest.take n, rest.drop n⟩ else none
    | none => none
  | _ => none

variable {line l rest : List UInt8}

theorem lines_open (h : 10 ∉ l) : lines line (l ++ rest) = lines (line ++ l) rest := by
  induction l generalizing line with
  | nil => rw [List.append_nil, List.nil_append]
  | cons b l ih =>
    obtain ⟨hb, hl⟩ := not_or.mp (mt List.mem_cons.mpr h)
    rw [List.cons_append, lines, if_neg fun hc => hb hc.1.symm, ih hl, List.append_assoc]
    rfl

theorem lines_line (h : 10 ∉ l) (hl : l ≠ []) :
    lines [] (l ++ 13 :: 10 :: rest) = (lines [] rest).map fun r => (l :: r.1, r.2) := by
  have hcr : ¬ ((13 : UInt8) = 10 ∧ l.getLast? = some 13) := fun hc => absurd hc.1 (by decide)
  rw [lines_open h, List.nil_append, lines, if_neg hcr, lines, List.getLast?_concat,
    if_pos ⟨rfl, rfl⟩, List.dropLast_concat, if_neg hl]

theorem lines_empty : lines [] (13 :: 10 :: rest) = some ([], rest) := rfl

theorem digit_toNat {d : ℕ} (hd : d < 10) : (48 + d).toUInt8.toNat = 48 + d := by
  rw [Nat.toUInt8_eq, UInt8.toNat_ofNat']
  omega

theorem digit_range {d : ℕ} (hd : d < 10) : 48 ≤ (48 + d).toUInt8 ∧ (48 + d).toUInt8 ≤ 57 := by
  rw [UInt8.le_iff_toNat_le, UInt8.le_iff_toNat_le, digit_toNat hd]
  constructor
  · exact Nat.le_add_right 48 d
  · show 48 + d ≤ 57
    omega

theorem numberFrom_digits (n : ℕ) (ds : List ℕ) (hds : ∀ d ∈ ds, d < 10) :
    numberFrom n (ds.map fun d => (48 + d).toUInt8) = some (ds.foldl (fun n d => n * 10 + d) n) := by
  induction ds generalizing n with
  | nil => rfl
  | cons d ds ih =>
    have hd : d < 10 := hds d List.mem_cons_self
    rw [List.map_cons, numberFrom, if_pos (digit_range hd), digit_toNat hd, Nat.add_sub_cancel_left,
      ih _ fun e he => hds e (List.mem_cons_of_mem _ he)]
    rfl

end HeaderBlock
