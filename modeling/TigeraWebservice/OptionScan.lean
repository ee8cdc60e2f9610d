import Mathlib.Data.List.Basic

/-!
# Scanning the words of a command line

Letters behind a dash are options, some of which take an argument: what is left
of their word, or the next word whatever it looks like. Other words are operands
and may stand anywhere; two dashes end the options. A line is scanned without
complaint if and only if it is a rendering of options and operands, and then it
is read as what has been rendered.
-/

set_option autoImplicit false

namespace OptionScan

variable {χ : Type*}

/-- Which letters are options, and whether they take an argument. -/
structure Grammar (χ : Type*) where
  dash : χ
  takes : χ → Option Bool
  dashed : takes dash = none

inductive Item (χ : Type*) where
  | flag (c : χ)
  | option (c : χ) (argument : List χ)
  | unknown (c : χ)
  | missing (c : χ)
  deriving DecidableEq, Repr

/-- The letters of one word, and the one that waits for the next word. -/
def letters (g : Grammar χ) : List χ → List (Item χ) × Option χ
  | [] => ([], none)
  | c :: cs =>
    match g.takes c with
    | none => ((letters g cs).1.cons (.unknown c), (letters g cs).2)
    | some false => ((letters g cs).1.cons (.flag c), (letters g cs).2)
    | some true => if cs.isEmpty then ([], some c) else ([.option c cs], none)

section scan
variable [DecidableEq χ]

def optionWord (g : Grammar χ) : List χ → Option (List χ)
  | d :: c :: cs => if d = g.dash then some (c :: cs) else none
  | _ => none

def scan (g : Grammar χ) : Option χ → List (List χ) → List (Item χ)
  | none, [] => []
  | some c, [] => [.missing c]
  | some c, w :: ws => .option c w :: scan g none ws
  | none, w :: ws =>
    match optionWord g w with
    | none => scan g none ws
    | some cs =>
      if cs = [g.dash] then [] else (letters g cs).1 ++ scan g (letters g cs).2 ws

end scan

inductive Tail (χ : Type*) where
  | none
  | attached (c : χ) (argument : List χ)
  | separate (c : χ) (argument : List χ)
  deriving DecidableEq, Repr

inductive Piece (χ : Type*) where
  | operand (w : List χ)
  | cluster (flags : List χ) (tail : Tail χ)
  deriving DecidableEq, Repr

def Piece.words (g : Grammar χ) : Piece χ → List (List χ)
  | .operand w => [w]
  | .cluster flags .none => [g.dash :: flags]
  | .cluster flags (.attached c argument) => [g.dash :: (flags ++ c :: argument)]
  | .cluster flags (.separate c argument) => [g.dash :: (flags ++ [c]), argument]

def Tail.items : Tail χ → List (Item χ)
  | .none => []
  | .attached c argument | .separate c argument => [.option c argument]

def Piece.items : Piece χ → List (Item χ)
  | .operand _ => []
  | .cluster flags tail => flags.map .flag ++ tail.items

def words (g : Grammar χ) (parts : List (Piece χ)) : List (List χ) := parts.flatMap (Piece.words g)

def items (parts : List (Piece χ)) : List (Item χ) := parts.flatMap Piece.items

/-- What may be rendered as the end of a word behind some flags. -/
def Tail.Fits (g : Grammar χ) (flags : List χ) : Tail χ → Prop
  | .none => flags ≠ []
  | .attached c argument => g.takes c = some true ∧ argument ≠ []
  | .separate c _ => g.takes c = some true

section fits
variable [DecidableEq χ]

def Piece.Fits (g : Grammar χ) : Piece χ → Prop
  | .operand w => optionWord g w = none
  | .cluster flags tail => (∀ c ∈ flags, g.takes c = some false) ∧ tail.Fits g flags

end fits

variable {g : Grammar χ} {flags cs : List χ} {c : χ} {argument : List χ}

theorem letters_flags (h : ∀ c ∈ flags, g.takes c = some false) (cs : List χ) :
    letters g (flags ++ cs) = (flags.map .flag ++ (letters g cs).1, (letters g cs).2) := by
  induction flags with
  | nil => rfl
  | cons c flags ih =>
    have hc := h c List.mem_cons_self
    have hrest := ih fun d hd => h d (List.mem_cons_of_mem _ hd)
    rw [List.cons_append, letters, hc]
    simp only [hrest]
    rfl

theorem letters_attached (hc : g.takes c = some true) (ha : argument ≠ []) :
    letters g (c :: argument) = ([.option c argument], none) := by
  rw [letters, hc]
  simp only [List.isEmpty_iff, ha, if_false]

theorem letters_separate (hc : g.takes c = some true) : letters g [c] = ([], some c) := by
  rw [letters, hc]
  rfl

section scan
variable [DecidableEq χ] {ws rest : List (List χ)} {parts : List (Piece χ)} {p : Piece χ}

theorem optionWord_dash (hcs : cs ≠ []) : optionWord g (g.dash :: cs) = some cs := by
  cases cs with
  | nil => exact absurd rfl hcs
  | cons c cs => exact if_pos rfl

theorem optionWord_some {w : List χ} (h : optionWord g w = some cs) :
    w = g.dash :: cs ∧ cs ≠ [] := by
  unfold optionWord at h
  split at h
  · next d c cs' =>
    split at h
    · next hd =>
      obtain rfl := Option.some.inj h
      exact ⟨by rw [hd], List.cons_ne_nil _ _⟩
    · cases h
  · cases h

theorem scan_word (hcs : cs ≠ []) (hdash : cs ≠ [g.dash]) :
    scan g none ((g.dash :: cs) :: ws) = (letters g cs).1 ++ scan g (letters g cs).2 ws := by
  rw [scan, optionWord_dash hcs]
  simp only [if_neg hdash]

omit [DecidableEq χ] in
theorem ne_dash {b : Bool} (hc : g.takes c = some b) (hm : c ∈ cs) : cs ≠ [g.dash] := by
  rintro rfl
  obtain rfl := List.mem_singleton.mp hm
  rw [g.dashed] at hc
  cases hc

theorem scan_part (h : p.Fits g) (ws : List (List χ)) :
    scan g none (p.words g ++ ws) = p.items ++ scan g none ws := by
  cases p with
  | operand w =>
    show scan g none (w :: ws) = _
    rw [scan, show optionWord g w = none from h]
    rfl
  | cluster flags tail =>
    obtain ⟨hflags, htail⟩ := h
    cases tail with
    | none =>
      obtain ⟨c, hc⟩ := List.exists_mem_of_ne_nil _ htail
      have hletters := letters_flags hflags []
      rw [List.append_nil] at hletters
      refine (scan_word htail (ne_dash (hflags c hc) hc)).trans ?_
      rw [hletters]
      rfl
    | attached c argument =>
      obtain ⟨hc, ha⟩ := htail
      have hmem : c ∈ flags ++ c :: argument := List.mem_append_right _ List.mem_cons_self
      refine (scan_word (List.ne_nil_of_mem hmem) (ne_dash hc hmem)).trans ?_
      rw [letters_flags hflags, letters_attached hc ha]
      rfl
    | separate c argument =>
      have hc : g.takes c = some true := htail
      have hmem : c ∈ flags ++ [c] := List.mem_append_right _ List.mem_cons_self
      refine (scan_word (List.ne_nil_of_mem hmem) (ne_dash hc hmem)).trans ?_
      rw [letters_flags hflags, letters_separate hc]
      show (flags.map .flag ++ []) ++ .option c argument :: scan g none ws =
        (flags.map .flag ++ [.option c argument]) ++ scan g none ws
      rw [List.append_nil, List.append_assoc]
      rfl

theorem scan_words (h : ∀ p ∈ parts, p.Fits g) (ws : List (List χ)) :
    scan g none (words g parts ++ ws) = items parts ++ scan g none ws := by
  induction parts with
  | nil => rfl
  | cons p parts ih =>
    have hrest := ih fun q hq => h q (List.mem_cons_of_mem _ hq)
    rw [words, List.flatMap_cons, List.append_assoc, scan_part (h p List.mem_cons_self), ← words,
      hrest, items, items, List.flatMap_cons, List.append_assoc]

theorem scan_end (rest : List (List χ)) : scan g none ([g.dash, g.dash] :: rest) = [] := by
  rw [scan, optionWord_dash (List.cons_ne_nil _ _)]
  exact if_pos rfl

def Item.Plain : Item χ → Prop
  | .flag _ | .option _ _ => True
  | .unknown _ | .missing _ => False

/-- Nothing, or the end of the options and what follows it. -/
def Ends (g : Grammar χ) (ws : List (List χ)) : Prop := ws = [] ∨ ∃ rest, ws = [g.dash, g.dash] :: rest

/-- A rendering of parts that the scan gives back. -/
def Rendered (g : Grammar χ) (ws : List (List χ)) : Prop :=
  ∃ parts ends, (∀ p ∈ parts, Piece.Fits g p) ∧ Ends g ends ∧ ws = words g parts ++ ends

omit [DecidableEq χ] in
theorem letters_plain (h : ∀ i ∈ (letters g cs).1, i.Plain) :
    ∃ flags, (∀ c ∈ flags, g.takes c = some false) ∧
      (cs = flags ∧ (letters g cs).2 = none ∨
        (∃ c argument, cs = flags ++ c :: argument ∧ g.takes c = some true ∧ argument ≠ [] ∧
          (letters g cs).2 = none) ∨
        ∃ c, cs = flags ++ [c] ∧ g.takes c = some true ∧ (letters g cs).2 = some c) := by
  induction cs with
  | nil => exact ⟨[], fun _ hc => (nomatch hc), .inl ⟨rfl, rfl⟩⟩
  | cons c cs ih =>
    rw [letters] at h ⊢
    cases hc : g.takes c with
    | none =>
      rw [hc] at h
      exact (h _ List.mem_cons_self).elim
    | some b =>
      rw [hc] at h
      cases b with
      | false =>
        obtain ⟨flags, hflags, hcases⟩ := ih fun i hi => h i (List.mem_cons_of_mem _ hi)
        refine ⟨c :: flags, List.forall_mem_cons.mpr ⟨hc, hflags⟩, ?_⟩
        rcases hcases with ⟨rfl, hn⟩ | ⟨d, argument, rfl, hd, ha, hn⟩ | ⟨d, rfl, hd, hn⟩
        · exact .inl ⟨rfl, hn⟩
        · exact .inr (.inl ⟨d, argument, rfl, hd, ha, hn⟩)
        · exact .inr (.inr ⟨d, rfl, hd, hn⟩)
      | true =>
        refine ⟨[], fun _ hc => (nomatch hc), .inr ?_⟩
        cases cs with
        | nil => exact .inr ⟨c, rfl, hc, rfl⟩
        | cons d cs => exact .inl ⟨c, d :: cs, rfl, hc, List.cons_ne_nil _ _, rfl⟩

theorem rendered_cons (h : p.Fits g) (hr : Rendered g ws) : Rendered g (p.words g ++ ws) := by
  obtain ⟨parts, ends, hparts, hends, rfl⟩ := hr
  refine ⟨p :: parts, ends, List.forall_mem_cons.mpr ⟨h, hparts⟩, hends, ?_⟩
  rw [words, words, List.flatMap_cons, List.append_assoc]

theorem scan_plain_cons {w : List χ} (h : ∀ i ∈ scan g none (w :: ws), i.Plain)
    (hnone : (∀ i ∈ scan g none ws, i.Plain) → Rendered g ws)
    (hsome : ∀ c, (∀ i ∈ scan g (some c) ws, i.Plain) → ∃ a rest, ws = a :: rest ∧ Rendered g rest) :
    Rendered g (w :: ws) := by
  rw [scan] at h
  cases hw : optionWord g w with
  | none =>
    rw [hw] at h
    exact rendered_cons (p := .operand w) hw (hnone h)
  | some cs =>
    rw [hw] at h
    obtain ⟨rfl, hne⟩ := optionWord_some hw
    by_cases hdash : cs = [g.dash]
    · subst hdash
      exact ⟨[], _, fun _ hp => (nomatch hp), .inr ⟨ws, rfl⟩, rfl⟩
    · simp only [hdash, if_false, List.mem_append] at h
      obtain ⟨flags, hflags, hcases⟩ := letters_plain fun i hi => h i (.inl hi)
      have hrest := fun i hi => h i (.inr hi)
      rcases hcases with ⟨rfl, hn⟩ | ⟨c, argument, rfl, hc, ha, hn⟩ | ⟨c, rfl, hc, hn⟩
      · rw [hn] at hrest
        exact rendered_cons (p := .cluster cs .none) ⟨hflags, hne⟩ (hnone hrest)
      · rw [hn] at hrest
        exact rendered_cons (p := .cluster flags (.attached c argument)) ⟨hflags, hc, ha⟩
          (hnone hrest)
      · rw [hn] at hrest
        obtain ⟨a, rest, rfl, hr⟩ := hsome c hrest
        exact rendered_cons (p := .cluster flags (.separate c a)) ⟨hflags, hc⟩ hr

theorem rendered_of_plain (h : ∀ i ∈ scan g none ws, i.Plain) : Rendered g ws := by
  suffices hboth : ((∀ i ∈ scan g none ws, i.Plain) → Rendered g ws) ∧
      ∀ c, (∀ i ∈ scan g (some c) ws, i.Plain) → ∃ a rest, ws = a :: rest ∧ Rendered g rest from
    hboth.1 h
  clear h
  induction ws with
  | nil =>
    refine ⟨fun _ => ⟨[], [], fun _ hp => (nomatch hp), .inl rfl, rfl⟩, fun c h => ?_⟩
    exact (h _ List.mem_cons_self).elim
  | cons w ws ih =>
    obtain ⟨hnone, hsome⟩ := ih
    refine ⟨fun h => scan_plain_cons h hnone hsome, fun c h => ⟨w, ws, rfl, hnone fun i hi => ?_⟩⟩
    exact h i (List.mem_cons_of_mem _ hi)

theorem scan_ends {ends : List (List χ)} (h : Ends g ends) : scan g none ends = [] := by
  rcases h with rfl | ⟨rest, rfl⟩
  · rfl
  · exact scan_end rest

end scan

end OptionScan
