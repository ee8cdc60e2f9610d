import Mathlib.Data.Nat.Digits.Lemmas
import TigeraWebservice.HttpReply
import TigeraWebservice.Ledger
import TigeraWebservice.OptionScan

/-!
# The command line

`process_args` of `tigera_webserver.c` over the scan that `getopt` makes of the
words, with `inet_pton` and the conversions of `sscanf`. Which lines are
accepted, that settings are read back from the text they are given in, and what
becomes of the copies of the resolver's name.
-/

set_option autoImplicit false

namespace Tigera.CommandLine
open ResourceLedger OptionScan HeaderBlock Tigera.JokeCreate Tigera.SessionProgram Tigera.HttpReply

def byte (c : Char) : UInt8 := c.toNat.toUInt8

def optstring : Bytes := literal "a:p:n:d:r:h:?"

/-- The letters of `optstring`; a colon behind one asks for an argument. -/
def optionLetter (c : UInt8) : Option Bool :=
  if c = byte ':' ∨ c = byte ';' then none
  else match optstring.dropWhile (· ≠ c) with
    | [] => none
    | [_] => some false
    | _ :: d :: _ => some (d = byte ':')

def grammar : Grammar UInt8 := ⟨byte '-', optionLetter, by decide⟩

/-- A field of an address: up to three digits, no needless zero in front. -/
def octet (field : Bytes) : Option UInt8 :=
  if field.head? = some (byte '0') ∧ field.length ≠ 1 then none
  else match number field with
    | none => none
    | some n => if n ≤ 255 then some n.toUInt8 else none

structure InAddr where
  a : UInt8
  b : UInt8
  c : UInt8
  d : UInt8
  deriving DecidableEq, Repr

def inetPton (src : Bytes) : Option InAddr :=
  match src.splitOn (byte '.') with
  | [a, b, c, d] =>
    match octet a, octet b, octet c, octet d with
    | some a, some b, some c, some d => some ⟨a, b, c, d⟩
    | _, _, _, _ => none
  | _ => none

def isSpace (b : UInt8) : Bool := b = 32 || (9 ≤ b && b ≤ 13)

def isDigit (b : UInt8) : Bool := 48 ≤ b && b ≤ 57

def signOf : Bytes → Bool × Bytes
  | [] => (false, [])
  | b :: bs => if b = byte '-' then (true, bs) else if b = byte '+' then (false, bs)
      else (false, b :: bs)

def numeral (text : Bytes) : Option (Bool × ℕ) :=
  (number ((signOf (text.dropWhile isSpace)).2.takeWhile isDigit)).map fun n =>
    ((signOf (text.dropWhile isSpace)).1, n)

def strtoul (negative : Bool) (n : ℕ) : UInt64 :=
  if 2 ^ 64 ≤ n then (2 ^ 64 - 1).toUInt64
  else if negative then 0 - n.toUInt64 else n.toUInt64

def strtol (negative : Bool) (n : ℕ) : ℤ :=
  if negative then max (-2 ^ 63) (-n) else min (2 ^ 63 - 1) n

/-- `sscanf` with `%hu`: the number is cut down to the type. -/
def sscanfHu (text : Bytes) : Option UInt16 :=
  (numeral text).map fun (negative, n) => (strtoul negative n).toUInt16

def sscanfD (text : Bytes) : Option Int32 :=
  (numeral text).map fun (negative, n) => Int32.ofInt (strtol negative n)

/-- A copy made by `strdup`, told from the others by when it was made. -/
structure Copy where
  id : ℕ
  text : Bytes
  deriving DecidableEq, Repr

/-- The statics of `tigera_webserver.c`, and the copies made so far. -/
structure Settings where
  address : InAddr
  port : UInt16
  nworkers : Int32
  background : Bool
  resolver : Option Copy
  copies : ℕ
  ledger : List (Entry ℕ)

structure State where
  settings : Settings
  stderr : Bytes

def fprintf (text : Bytes) (s : State) : State := { s with stderr := s.stderr ++ text }

def usageText (argv0 : Bytes) : Bytes :=
  literal "Usage: " ++ argv0 ++ literal " [-a <ipv4>] [-p <port>] [-n <# workers>] [-d <makes process a daemon if present>] [-r <dnsserver ip:port>]\n"

def usage (argv0 : Bytes) (s : State) : State := fprintf (usageText argv0) s

/-- `fails` tells which calls of `strdup` do. -/
def strdup (fails : ℕ → Bool) (text : Bytes) (t : Settings) : Settings :=
  if fails t.copies then { t with resolver := none, copies := t.copies + 1 }
  else { t with resolver := some ⟨t.copies, text⟩, copies := t.copies + 1
                ledger := .alloc t.copies :: t.ledger }

def freeResolver (t : Settings) : Settings :=
  match t.resolver with
  | none => t
  | some copy => { t with resolver := none, ledger := .free copy.id :: t.ledger }

def refuse (argv0 text : Bytes) (s : State) : Bool × State :=
  (false, usage argv0 (fprintf text s))

def set (f : Settings → Settings) (s : State) : State := { s with settings := f s.settings }

def processOption (fails : ℕ → Bool) (argv0 : Bytes) (opt : UInt8) (optarg : Bytes) (s : State) :
    Bool × State :=
  if opt = byte 'a' then
    match inetPton optarg with
    | none => refuse argv0 (literal "Invalid ipv4 argument") s
    | some address =>
      (true, fprintf (literal "process_args: ipv4 listening address set " ++ optarg ++ literal "\n")
        (set (fun t => { t with address := address }) s))
  else if opt = byte 'p' then
    match sscanfHu optarg with
    | none => refuse argv0 (literal "Invalid port argument") s
    | some port => (true, set (fun t => { t with port := port }) s)
  else if opt = byte 'n' then
    match sscanfD optarg with
    | none => refuse argv0 (literal "Invalid # workers argument") s
    | some nworkers => (true, set (fun t => { t with nworkers := nworkers }) s)
  else if opt = byte 'd' then (true, set (fun t => { t with background := true }) s)
  else if opt = byte 'r' then (true, set (fun t => strdup fails optarg (freeResolver t)) s)
  else refuse argv0 [] s

/-- What `getopt` returns for an item, with what it complains of itself. -/
def processItem (fails : ℕ → Bool) (argv0 : Bytes) (i : Item UInt8) (s : State) : Bool × State :=
  match i with
  | .flag c => processOption fails argv0 c [] s
  | .option c argument => processOption fails argv0 c argument s
  | .unknown c => processOption fails argv0 (byte '?') []
      (fprintf (argv0 ++ literal ": invalid option -- '" ++ [c] ++ literal "'\n") s)
  | .missing c => processOption fails argv0 (byte '?') []
      (fprintf (argv0 ++ literal ": option requires an argument -- '" ++ [c] ++ literal "'\n") s)

def processItems (fails : ℕ → Bool) (argv0 : Bytes) : List (Item UInt8) → State → ℤ × State
  | [], s => (0, s)
  | i :: is, s =>
    if (processItem fails argv0 i s).1 then processItems fails argv0 is (processItem fails argv0 i s).2
    else (-1, (processItem fails argv0 i s).2)

/-- `argv` is the name of the program and the words. -/
def processArgs (fails : ℕ → Bool) (argv0 : Bytes) (words : List Bytes) (s : State) : ℤ × State :=
  processItems fails argv0 (scan grammar none words) s

/-- The statics as `main` sets them, and its copy of the default resolver. -/
def statics : Settings where
  address := ⟨127, 0, 0, 1⟩
  port := 5000
  nworkers := 4
  background := false
  resolver := none
  copies := 0
  ledger := []

def defaults (fails : ℕ → Bool) : State := ⟨strdup fails (literal "8.8.8.8:53") statics, []⟩

/-- The options that a turn of the loop gets past. -/
def accepts (opt : UInt8) (optarg : Bytes) : Bool :=
  if opt = byte 'a' then (inetPton optarg).isSome
  else if opt = byte 'p' ∨ opt = byte 'n' then (numeral optarg).isSome
  else opt = byte 'd' ∨ opt = byte 'r'

def acceptsItem : Item UInt8 → Bool
  | .flag c => accepts c []
  | .option c argument => accepts c argument
  | .unknown _ | .missing _ => false

def obey (fails : ℕ → Bool) (opt : UInt8) (optarg : Bytes) (t : Settings) : Settings :=
  if opt = byte 'a' then { t with address := (inetPton optarg).getD t.address }
  else if opt = byte 'p' then { t with port := (sscanfHu optarg).getD t.port }
  else if opt = byte 'n' then { t with nworkers := (sscanfD optarg).getD t.nworkers }
  else if opt = byte 'd' then { t with background := true }
  else if opt = byte 'r' then strdup fails optarg (freeResolver t)
  else t

def obeyItem (fails : ℕ → Bool) (t : Settings) : Item UInt8 → Settings
  | .flag c => obey fails c [] t
  | .option c argument => obey fails c argument t
  | .unknown _ | .missing _ => t

variable {fails : ℕ → Bool} {argv0 optarg : Bytes} {opt : UInt8} {s : State} {t : Settings}
  {i : Item UInt8} {is : List (Item UInt8)} {ws : List Bytes}

theorem processOption_accepts (opt : UInt8) (optarg : Bytes) (s : State) :
    (processOption fails argv0 opt optarg s).1 = accepts opt optarg ∧
      (processOption fails argv0 opt optarg s).2.settings = obey fails opt optarg s.settings := by
  unfold processOption accepts obey
  by_cases ha : opt = byte 'a'
  · simp only [ha, if_true]
    cases inetPton optarg <;> exact ⟨rfl, rfl⟩
  by_cases hp : opt = byte 'p'
  · subst hp
    simp only [ha, if_false, if_true, true_or, sscanfHu]
    cases numeral optarg <;> exact ⟨rfl, rfl⟩
  by_cases hn : opt = byte 'n'
  · subst hn
    simp only [ha, hp, if_false, if_true, or_true, sscanfD]
    cases numeral optarg <;> exact ⟨rfl, rfl⟩
  by_cases hd : opt = byte 'd'
  · subst hd
    exact ⟨rfl, rfl⟩
  by_cases hr : opt = byte 'r'
  · subst hr
    exact ⟨rfl, rfl⟩
  · simp only [ha, hp, hn, hd, hr, if_false, or_self, decide_false]
    exact ⟨rfl, rfl⟩

theorem processItem_accepts (i : Item UInt8) (s : State) :
    (processItem fails argv0 i s).1 = acceptsItem i ∧
      (processItem fails argv0 i s).2.settings = obeyItem fails s.settings i := by
  cases i with
  | flag c => exact processOption_accepts c [] s
  | option c argument => exact processOption_accepts c argument s
  | unknown c => exact processOption_accepts (byte '?') [] (fprintf _ s)
  | missing c => exact processOption_accepts (byte '?') [] (fprintf _ s)

theorem obey_refused (h : accepts opt optarg = false) (t : Settings) :
    obey fails opt optarg t = t := by
  unfold accepts at h
  unfold obey
  by_cases ha : opt = byte 'a'
  · simp only [ha, if_true, Option.isSome_eq_false_iff, Option.isNone_iff_eq_none] at h ⊢
    rw [h]
    rfl
  by_cases hp : opt = byte 'p'
  · subst hp
    simp only [ha, if_false, if_true, true_or, Option.isSome_eq_false_iff,
      Option.isNone_iff_eq_none] at h ⊢
    rw [sscanfHu, h]
    rfl
  by_cases hn : opt = byte 'n'
  · subst hn
    simp only [ha, hp, if_false, if_true, or_true, Option.isSome_eq_false_iff,
      Option.isNone_iff_eq_none] at h ⊢
    rw [sscanfD, h]
    rfl
  simp only [ha, hp, hn, if_false, or_self, decide_eq_false_iff_not, not_or] at h ⊢
  simp only [h.1, h.2, if_false]

theorem obeyItem_refused (h : acceptsItem i = false) (t : Settings) : obeyItem fails t i = t := by
  cases i with
  | flag c => exact obey_refused h t
  | option c argument => exact obey_refused h t
  | unknown c => rfl
  | missing c => rfl

theorem processItems_eq (is : List (Item UInt8)) (s : State) :
    ((processItems fails argv0 is s).1 = if is.all acceptsItem then 0 else -1) ∧
      (processItems fails argv0 is s).2.settings =
        (is.takeWhile acceptsItem).foldl (obeyItem fails) s.settings := by
  induction is generalizing s with
  | nil => exact ⟨rfl, rfl⟩
  | cons i is ih =>
    obtain ⟨ha, hs⟩ : (processItem fails argv0 i s).1 = acceptsItem i ∧
        (processItem fails argv0 i s).2.settings = obeyItem fails s.settings i :=
      processItem_accepts i s
    rw [processItems, ha]
    cases h : acceptsItem i with
    | true =>
      obtain ⟨h1, h2⟩ := ih (processItem fails argv0 i s).2
      rw [List.all_cons, List.takeWhile_cons_of_pos h, List.foldl_cons, ← hs, h, Bool.true_and]
      exact ⟨h1, h2⟩
    | false =>
      rw [List.all_cons, List.takeWhile_cons_of_neg (by rw [h]; decide), h, Bool.false_and]
      exact ⟨rfl, hs.trans (obeyItem_refused h s.settings)⟩

theorem processItems_zero : (processItems fails argv0 is s).1 = 0 ↔ ∀ i ∈ is, acceptsItem i = true := by
  rw [(processItems_eq is s).1]
  split
  · next h => exact iff_of_true rfl (List.all_eq_true.mp h)
  · next h => exact iff_of_false (by decide) fun hall => h (List.all_eq_true.mpr hall)

theorem processItems_settings (h : ∀ i ∈ is, acceptsItem i = true) :
    (processItems fails argv0 is s).2.settings = is.foldl (obeyItem fails) s.settings := by
  rw [(processItems_eq is s).2, List.takeWhile_eq_self_iff.mpr h]

/-- A word that is no option, or an option with an argument that is taken. -/
def Given : Piece UInt8 → Prop
  | .operand w => optionWord grammar w = none
  | .cluster flags (.attached c argument) =>
    flags = [] ∧ argument ≠ [] ∧ accepts c argument = true
  | .cluster flags (.separate c argument) => flags = [] ∧ accepts c argument = true
  | .cluster _ .none => False

theorem accepts_letter (h : accepts opt optarg = true) :
    opt = byte 'a' ∨ opt = byte 'p' ∨ opt = byte 'n' ∨ opt = byte 'd' ∨ opt = byte 'r' := by
  unfold accepts at h
  by_cases ha : opt = byte 'a'
  · exact .inl ha
  by_cases hpn : opt = byte 'p' ∨ opt = byte 'n'
  · exact .inr (hpn.imp_right .inl)
  · rw [if_neg ha, if_neg hpn, decide_eq_true_iff] at h
    exact .inr (.inr (.inr h))

theorem accepts_takes (h : accepts opt optarg = true) : grammar.takes opt = some true := by
  rcases accepts_letter h with rfl | rfl | rfl | rfl | rfl <;> decide

theorem given_fits {p : Piece UInt8} (h : Given p) :
    p.Fits grammar ∧ ∀ i ∈ p.items, acceptsItem i = true := by
  cases p with
  | operand w => exact ⟨h, fun _ hi => (nomatch hi)⟩
  | cluster flags tail =>
    cases tail with
    | none => exact h.elim
    | attached c argument =>
      obtain ⟨rfl, hne, ha⟩ := h
      refine ⟨⟨fun _ hc => (nomatch hc), accepts_takes ha, hne⟩, fun i hi => ?_⟩
      obtain rfl := List.mem_singleton.mp hi
      exact ha
    | separate c argument =>
      obtain ⟨rfl, ha⟩ := h
      refine ⟨⟨fun _ hc => (nomatch hc), accepts_takes ha⟩, fun i hi => ?_⟩
      obtain rfl := List.mem_singleton.mp hi
      exact ha

theorem flag_refused {c : UInt8} (h : grammar.takes c = some false) (argument : Bytes) :
    accepts c argument = false := by
  cases ha : accepts c argument with
  | false => rfl
  | true =>
    rw [accepts_takes ha] at h
    cases h

theorem scan_given {parts : List (Piece UInt8)} (h : ∀ p ∈ parts, Given p) (ws : List Bytes) :
    scan grammar none (words grammar parts ++ ws) = items parts ++ scan grammar none ws :=
  scan_words (fun p hp => (given_fits (h p hp)).1) ws

theorem items_accepted {parts : List (Piece UInt8)} (h : ∀ p ∈ parts, Given p) :
    ∀ i ∈ items parts, acceptsItem i = true := by
  intro i hi
  obtain ⟨p, hp, hi⟩ := List.mem_flatMap.mp hi
  exact (given_fits (h p hp)).2 i hi

theorem fits_given {p : Piece UInt8} (h : p.Fits grammar) (ha : ∀ i ∈ p.items, acceptsItem i = true) :
    Given p := by
  cases p with
  | operand w => exact h
  | cluster flags tail =>
    obtain ⟨hflags, htail⟩ := h
    have hnone : flags = [] := by
      cases flags with
      | nil => rfl
      | cons c flags =>
        have hc : accepts c [] = true := ha (.flag c) List.mem_cons_self
        rw [flag_refused (hflags c List.mem_cons_self)] at hc
        cases hc
    subst hnone
    cases tail with
    | none => exact htail rfl
    | attached c argument => exact ⟨rfl, htail.2, ha _ List.mem_cons_self⟩
    | separate c argument => exact ⟨rfl, ha _ List.mem_cons_self⟩

/-- A line is accepted if and only if it is made of operands and of options that
are taken, up to the end or two dashes; it then sets what its options say. -/
theorem accepted_iff (fails : ℕ → Bool) (argv0 : Bytes) (ws : List Bytes) (s : State) :
    (processArgs fails argv0 ws s).1 = 0 ↔ ∃ parts ends, (∀ p ∈ parts, Given p) ∧
      Ends grammar ends ∧ ws = words grammar parts ++ ends ∧
      (processArgs fails argv0 ws s).2.settings =
        (items parts).foldl (obeyItem fails) s.settings := by
  constructor
  · intro h
    have hall := processItems_zero.mp h
    have hplain : ∀ i ∈ scan grammar none ws, i.Plain := by
      intro i hi
      have ha := hall i hi
      cases i with
      | unknown c => cases ha
      | missing c => cases ha
      | _ => trivial
    obtain ⟨parts, ends, hparts, hends, rfl⟩ := rendered_of_plain hplain
    have hscan : scan grammar none (words grammar parts ++ ends) = items parts := by
      rw [scan_words hparts, scan_ends hends, List.append_nil]
    refine ⟨parts, ends, fun p hp => fits_given (hparts p hp) fun i hi => ?_, hends, rfl, ?_⟩
    · apply hall
      rw [hscan]
      exact List.mem_flatMap.mpr ⟨p, hp, hi⟩
    · rw [processArgs, processItems_settings hall, hscan]
  · rintro ⟨parts, ends, hparts, hends, rfl, -⟩
    apply processItems_zero.mpr
    rw [scan_given hparts, scan_ends hends, List.append_nil]
    exact items_accepted hparts

def dotted (x : InAddr) : Bytes :=
  [byte '.'].intercalate [decimal x.a.toNat, decimal x.b.toNat, decimal x.c.toNat, decimal x.d.toNat]

theorem decimal_range {n : ℕ} {b : UInt8} (hb : b ∈ decimal n) : 48 ≤ b ∧ b ≤ 57 := by
  obtain ⟨ds, -, hds, hn, -⟩ := decimal_digits n
  rw [hn] at hb
  obtain ⟨d, hd, rfl⟩ := List.mem_map.mp hb
  exact digit_range (hds d hd)

theorem decimal_ne_nil (n : ℕ) : decimal n ≠ [] := by
  obtain ⟨ds, hne, -, hn, -⟩ := decimal_digits n
  rw [hn]
  exact fun he => hne (List.map_eq_nil_iff.mp he)

theorem decimal_head {n : ℕ} (h : (decimal n).head? = some (byte '0')) : (decimal n).length = 1 := by
  by_cases hn : n = 0
  · rw [decimal, if_pos hn]
    rfl
  · rw [decimal, if_neg hn, List.head?_map, List.head?_reverse] at h
    obtain ⟨d, hd, hzero⟩ := Option.map_eq_some_iff.mp h
    have hne : Nat.digits 10 n ≠ [] := Nat.digits_ne_nil_iff_ne_zero.mpr hn
    rw [List.getLast?_eq_some_getLast hne] at hd
    have hd := Option.some.inj hd
    have hlast := Nat.getLast_digit_ne_zero 10 hn
    have hlt := Nat.digits_lt_base (by decide : 1 < 10) (List.getLast_mem hne)
    rw [hd] at hlast hlt
    have heq : 48 + d = 48 := (digit_toNat hlt).symm.trans (congrArg UInt8.toNat hzero)
    exact absurd (Nat.add_left_cancel heq) hlast

theorem octet_decimal (x : UInt8) : octet (decimal x.toNat) = some x := by
  rw [octet, if_neg fun h => h.2 (decimal_head h.1), number_decimal]
  simp only
  rw [if_pos (Nat.le_of_lt_succ x.toNat_lt)]
  exact congrArg some UInt8.ofNat_toNat

theorem inetPton_dotted (x : InAddr) : inetPton (dotted x) = some x := by
  have hdot : ∀ n, byte '.' ∉ decimal n := fun n hm => absurd (decimal_range hm).1 (by decide)
  have hsplit : (dotted x).splitOn (byte '.') =
      [decimal x.a.toNat, decimal x.b.toNat, decimal x.c.toNat, decimal x.d.toNat] := by
    apply List.splitOn_intercalate
    · intro l hl
      simp only [List.mem_cons, List.not_mem_nil, or_false] at hl
      rcases hl with rfl | rfl | rfl | rfl <;> exact hdot _
    · exact List.cons_ne_nil _ _
  rw [inetPton, hsplit]
  simp only [octet_decimal]

theorem takeWhile_decimal (n : ℕ) : (decimal n).takeWhile isDigit = decimal n := by
  rw [List.takeWhile_eq_self_iff]
  intro b hb
  simpa [isDigit] using decimal_range hb

theorem not_isSpace {b : UInt8} (h : 45 ≤ b) : isSpace b = false := by
  rw [UInt8.le_iff_toNat_le] at h
  have h32 : b ≠ 32 := by
    rintro rfl
    exact absurd h (by decide)
  have h13 : ¬ b ≤ 13 := by
    rw [UInt8.le_iff_toNat_le]
    exact fun hb => absurd (Nat.le_trans h hb) (by decide)
  simp [isSpace, h32, h13]

theorem numeral_decimal (n : ℕ) : numeral (decimal n) = some (false, n) := by
  obtain ⟨b, bs, hbs⟩ := List.exists_cons_of_ne_nil (decimal_ne_nil n)
  have hb : 48 ≤ b := (decimal_range (hbs ▸ List.mem_cons_self)).1
  have hspace : isSpace b = false := not_isSpace (UInt8.le_trans (by decide) hb)
  have hminus : b ≠ byte '-' := by
    rintro rfl
    exact absurd hb (by decide)
  have hplus : b ≠ byte '+' := by
    rintro rfl
    exact absurd hb (by decide)
  have hsign : signOf ((decimal n).dropWhile isSpace) = (false, decimal n) := by
    rw [hbs, List.dropWhile_cons_of_neg (by rw [hspace]; decide), signOf, if_neg hminus, if_neg hplus]
  rw [numeral, hsign, takeWhile_decimal, number_decimal]
  rfl

theorem numeral_signed (x : ℤ) : numeral (signed x) = some (decide (x < 0), x.natAbs) := by
  rw [signed]
  split
  · next h =>
    have hsign : signOf ((literal "-" ++ decimal x.natAbs).dropWhile isSpace) =
        (true, decimal x.natAbs) := rfl
    rw [numeral, hsign, takeWhile_decimal, number_decimal, decide_eq_true h]
    rfl
  · next h => rw [numeral_decimal, decide_eq_false h]

theorem sscanfHu_decimal {n : ℕ} (h : n < 2 ^ 64) : sscanfHu (decimal n) = some n.toUInt16 := by
  rw [sscanfHu, numeral_decimal]
  simp only [Option.map_some, strtoul, if_neg (Nat.not_le.mpr h), Bool.false_eq_true, if_false]
  refine congrArg some (UInt16.toNat_inj.mp ?_)
  simp

theorem strtol_sign {x : ℤ} (h : -2 ^ 63 ≤ x) (h' : x < 2 ^ 63) :
    strtol (decide (x < 0)) x.natAbs = x := by
  rw [strtol]
  split
  · next hneg =>
    have hneg := of_decide_eq_true hneg
    omega
  · next hpos =>
    have hpos : ¬ x < 0 := fun hx => hpos (decide_eq_true hx)
    omega

theorem sscanfD_signed {x : ℤ} (h : -2 ^ 63 ≤ x) (h' : x < 2 ^ 63) :
    sscanfD (signed x) = some (Int32.ofInt x) := by
  rw [sscanfD, numeral_signed]
  exact congrArg (fun y => some (Int32.ofInt y)) (strtol_sign h h')

inductive Setting where
  | address (x : InAddr)
  | port (n : ℕ)
  | workers (n : ℤ)
  | background (word : Bytes)
  | resolver (text : Bytes)

def Setting.letter : Setting → UInt8
  | .address _ => byte 'a'
  | .port _ => byte 'p'
  | .workers _ => byte 'n'
  | .background _ => byte 'd'
  | .resolver _ => byte 'r'

def Setting.argument : Setting → Bytes
  | .address x => dotted x
  | .port n => decimal n
  | .workers n => signed n
  | .background word => word
  | .resolver text => text

/-- A number that the conversions do not clip. -/
def Setting.InRange : Setting → Prop
  | .port n => n < 2 ^ 64
  | .workers n => -2 ^ 63 ≤ n ∧ n < 2 ^ 63
  | _ => True

def Setting.apply (fails : ℕ → Bool) (t : Settings) : Setting → Settings
  | .address x => { t with address := x }
  | .port n => { t with port := n.toUInt16 }
  | .workers n => { t with nworkers := Int32.ofInt n }
  | .background _ => { t with background := true }
  | .resolver text => strdup fails text (freeResolver t)

theorem accepts_setting (x : Setting) : accepts x.letter x.argument = true := by
  cases x with
  | address x =>
    show (inetPton (dotted x)).isSome = true
    rw [inetPton_dotted]
    rfl
  | port n =>
    show (numeral (decimal n)).isSome = true
    rw [numeral_decimal]
    rfl
  | workers n =>
    show (numeral (signed n)).isSome = true
    rw [numeral_signed]
    rfl
  | background word => rfl
  | resolver text => rfl

theorem obey_setting {x : Setting} (h : x.InRange) (t : Settings) :
    obey fails x.letter x.argument t = x.apply fails t := by
  cases x with
  | address x =>
    show { t with address := (inetPton (dotted x)).getD t.address } = _
    rw [inetPton_dotted]
    rfl
  | port n =>
    show { t with port := (sscanfHu (decimal n)).getD t.port } = _
    rw [sscanfHu_decimal h]
    rfl
  | workers n =>
    show { t with nworkers := (sscanfD (signed n)).getD t.nworkers } = _
    rw [sscanfD_signed h.1 h.2]
    rfl
  | background word => rfl
  | resolver text => rfl

/-- A setting in either of its renderings, or some other word. -/
inductive Word where
  | operand (w : Bytes)
  | attached (x : Setting)
  | separate (x : Setting)

def Word.part : Word → Piece UInt8
  | .operand w => .operand w
  | .attached x => .cluster [] (.attached x.letter x.argument)
  | .separate x => .cluster [] (.separate x.letter x.argument)

def Word.setting : Word → Option Setting
  | .operand _ => none
  | .attached x | .separate x => some x

def lineWords (line : List Word) : List Bytes := words grammar (line.map Word.part)

def settings (line : List Word) : List Setting := line.filterMap Word.setting

def Word.Fits : Word → Prop
  | .operand w => optionWord grammar w = none
  | .attached x => x.InRange ∧ x.argument ≠ []
  | .separate x => x.InRange

theorem fits_given_part {w : Word} (h : w.Fits) : Given w.part := by
  cases w with
  | operand w => exact h
  | attached x => exact ⟨rfl, h.2, accepts_setting x⟩
  | separate x => exact ⟨rfl, accepts_setting x⟩

theorem word_items {w : Word} (h : w.Fits) (t : Settings) :
    w.part.items.foldl (obeyItem fails) t = w.setting.toList.foldl (Setting.apply fails) t := by
  cases w with
  | operand w => rfl
  | attached x => exact obey_setting h.1 t
  | separate x => exact obey_setting h t

theorem line_items {line : List Word} (h : ∀ w ∈ line, w.Fits) (t : Settings) :
    (items (line.map Word.part)).foldl (obeyItem fails) t =
      (settings line).foldl (Setting.apply fails) t := by
  induction line generalizing t with
  | nil => rfl
  | cons w line ih =>
    have hw : w.part.items.foldl (obeyItem fails) t = w.setting.toList.foldl (Setting.apply fails) t :=
      word_items (h w List.mem_cons_self) t
    have hrest := ih fun v hv => h v (List.mem_cons_of_mem _ hv)
    have hsettings : settings (w :: line) = w.setting.toList ++ settings line := by
      rw [settings, List.filterMap_cons]
      cases w.setting <;> rfl
    rw [List.map_cons, items, List.flatMap_cons, List.foldl_append, hw, ← items, hrest, hsettings,
      List.foldl_append]

/-- The last of the settings of a kind, or what there is without one. -/
def lastOr {β : Type*} (kind : Setting → Option β) (xs : List Setting) (d : β) : β :=
  (xs.filterMap kind).getLast?.getD d

theorem lastOr_append {β : Type*} (kind : Setting → Option β) (xs ys : List Setting) (d : β) :
    lastOr kind (xs ++ ys) d = lastOr kind ys (lastOr kind xs d) := by
  rw [lastOr, List.filterMap_append, List.getLast?_append, lastOr, lastOr]
  cases (ys.filterMap kind).getLast? <;> rfl

def Setting.address? : Setting → Option InAddr
  | .address x => some x
  | _ => none

def Setting.port? : Setting → Option ℕ
  | .port n => some n
  | _ => none

def Setting.workers? : Setting → Option ℤ
  | .workers n => some n
  | _ => none

def Setting.background? : Setting → Option Bool
  | .background _ => some true
  | _ => none

def Setting.resolver? : Setting → Option Bytes
  | .resolver text => some text
  | _ => none

/-- Each setting is the last one given of its kind. -/
structure LastGiven (fails : ℕ → Bool) (xs : List Setting) (t t' : Settings) : Prop where
  address : t'.address = lastOr Setting.address? xs t.address
  port : t'.port = lastOr (fun x => x.port?.map Nat.toUInt16) xs t.port
  nworkers : t'.nworkers = lastOr (fun x => x.workers?.map Int32.ofInt) xs t.nworkers
  background : t'.background = lastOr Setting.background? xs t.background
  resolver : (∀ k, fails k = false) →
    t'.resolver.map Copy.text = lastOr (fun x => x.resolver?.map some) xs (t.resolver.map Copy.text)

theorem strdup_keeps (fails : ℕ → Bool) (text : Bytes) (t : Settings) :
    (strdup fails text (freeResolver t)).address = t.address ∧
      (strdup fails text (freeResolver t)).port = t.port ∧
      (strdup fails text (freeResolver t)).nworkers = t.nworkers ∧
      (strdup fails text (freeResolver t)).background = t.background := by
  have hfree : (freeResolver t).address = t.address ∧ (freeResolver t).port = t.port ∧
      (freeResolver t).nworkers = t.nworkers ∧ (freeResolver t).background = t.background := by
    rw [freeResolver]
    split <;> exact ⟨rfl, rfl, rfl, rfl⟩
  rw [strdup]
  split <;> exact hfree

theorem apply_one (x : Setting) (t : Settings) : LastGiven fails [x] t (x.apply fails t) := by
  cases x with
  | resolver text =>
    obtain ⟨ha, hp, hn, hb⟩ := strdup_keeps fails text t
    refine ⟨ha, hp, hn, hb, fun hok => ?_⟩
    show (strdup fails text (freeResolver t)).resolver.map Copy.text = some text
    rw [strdup, hok]
    rfl
  | _ => exact ⟨rfl, rfl, rfl, rfl, fun _ => rfl⟩

theorem lastGiven_append {xs ys : List Setting} {t u v : Settings} (h : LastGiven fails xs t u)
    (h' : LastGiven fails ys u v) : LastGiven fails (xs ++ ys) t v := by
  constructor
  · rw [lastOr_append, ← h.address]
    exact h'.address
  · rw [lastOr_append, ← h.port]
    exact h'.port
  · rw [lastOr_append, ← h.nworkers]
    exact h'.nworkers
  · rw [lastOr_append, ← h.background]
    exact h'.background
  · intro hok
    rw [lastOr_append, ← h.resolver hok]
    exact h'.resolver hok

theorem apply_lastGiven (xs : List Setting) (t : Settings) :
    LastGiven fails xs t (xs.foldl (Setting.apply fails) t) := by
  induction xs generalizing t with
  | nil => exact ⟨rfl, rfl, rfl, rfl, fun _ => rfl⟩
  | cons x xs ih => exact lastGiven_append (apply_one x t) (ih (x.apply fails t))

theorem given_line {line : List Word} (h : ∀ w ∈ line, w.Fits) :
    ∀ p ∈ line.map Word.part, Given p := by
  intro p hp
  obtain ⟨w, hw, rfl⟩ := List.mem_map.mp hp
  exact fits_given_part (h w hw)

/-- Settings given in any order and in either form, with other words anywhere
between them and anything behind two dashes, are read back; the last one counts. -/
theorem settings_read_back (fails : ℕ → Bool) (argv0 : Bytes) {line : List Word} {ends : List Bytes}
    (h : ∀ w ∈ line, w.Fits) (hends : Ends grammar ends) (s : State) :
    (processArgs fails argv0 (lineWords line ++ ends) s).1 = 0 ∧
      LastGiven fails (settings line) s.settings
        (processArgs fails argv0 (lineWords line ++ ends) s).2.settings := by
  have hgiven := given_line h
  have hall := items_accepted hgiven
  rw [processArgs, lineWords, scan_given hgiven, scan_ends hends, List.append_nil]
  refine ⟨processItems_zero.mpr hall, ?_⟩
  rw [processItems_settings hall, line_items h]
  exact apply_lastGiven _ _

theorem processOption_refused (h : accepts opt optarg = false) (s : State) :
    ∃ text, processOption fails argv0 opt optarg s = refuse argv0 text s := by
  unfold accepts at h
  unfold processOption
  by_cases ha : opt = byte 'a'
  · simp only [ha, if_true, Option.isSome_eq_false_iff, Option.isNone_iff_eq_none] at h ⊢
    rw [h]
    exact ⟨_, rfl⟩
  by_cases hp : opt = byte 'p'
  · subst hp
    simp only [ha, if_false, if_true, true_or, Option.isSome_eq_false_iff,
      Option.isNone_iff_eq_none, sscanfHu] at h ⊢
    rw [h]
    exact ⟨_, rfl⟩
  by_cases hn : opt = byte 'n'
  · subst hn
    simp only [ha, hp, if_false, if_true, or_true, Option.isSome_eq_false_iff,
      Option.isNone_iff_eq_none, sscanfD] at h ⊢
    rw [h]
    exact ⟨_, rfl⟩
  simp only [ha, hp, hn, if_false, or_self, decide_eq_false_iff_not, not_or] at h ⊢
  simp only [h.1, h.2, if_false]
  exact ⟨_, rfl⟩

theorem processItem_usage (h : acceptsItem i = false) (s : State) :
    ∃ text, (processItem fails argv0 i s).2.stderr = text ++ usageText argv0 := by
  have hoption : ∀ opt optarg (s : State), accepts opt optarg = false →
      ∃ text, (processOption fails argv0 opt optarg s).2.stderr = text ++ usageText argv0 := by
    intro opt optarg s ha
    obtain ⟨text, htext⟩ : ∃ text, processOption fails argv0 opt optarg s = refuse argv0 text s :=
      processOption_refused ha s
    rw [htext]
    exact ⟨_, rfl⟩
  cases i with
  | flag c => exact hoption c [] s h
  | option c argument => exact hoption c argument s h
  | unknown c => exact hoption _ _ _ (by decide)
  | missing c => exact hoption _ _ _ (by decide)

theorem processItems_usage (h : (processItems fails argv0 is s).1 ≠ 0) :
    ∃ text, (processItems fails argv0 is s).2.stderr = text ++ usageText argv0 := by
  induction is generalizing s with
  | nil => exact absurd rfl h
  | cons i is ih =>
    rw [processItems, (processItem_accepts i s).1] at h ⊢
    cases ha : acceptsItem i with
    | true =>
      rw [ha] at h
      exact ih h
    | false => exact processItem_usage ha s

theorem refused_usage (h : (processArgs fails argv0 ws s).1 ≠ 0) :
    (processArgs fails argv0 ws s).1 = -1 ∧
      ∃ text, (processArgs fails argv0 ws s).2.stderr = text ++ usageText argv0 := by
  refine ⟨?_, processItems_usage h⟩
  have hresult : (processArgs fails argv0 ws s).1 = if (scan grammar none ws).all acceptsItem
      then 0 else -1 := (processItems_eq (scan grammar none ws) s).1
  rw [hresult] at h ⊢
  split at h
  · exact absurd rfl h
  · next hno => rw [if_neg hno]

theorem processItems_same {j : Item UInt8} (h : ∀ s, processItem fails argv0 i s = processItem fails argv0 j s)
    (is js : List (Item UInt8)) (s : State) :
    processItems fails argv0 (is ++ i :: js) s = processItems fails argv0 (is ++ j :: js) s := by
  induction is generalizing s with
  | nil => rw [List.nil_append, List.nil_append, processItems, processItems, h]
  | cons k is ih =>
    rw [List.cons_append, List.cons_append, processItems, processItems]
    simp only [ih]

theorem scan_background (w : Bytes) (ws : List Bytes) :
    scan grammar none (literal "-d" :: w :: ws) = .option (byte 'd') w :: scan grammar none ws :=
  rfl

/-- The usage shows `-d` by itself, but behind anything that is accepted it takes
the next word whatever that is, and the last word of a line it cannot be. -/
theorem background_takes_word (fails : ℕ → Bool) (argv0 : Bytes) {parts : List (Piece UInt8)}
    (h : ∀ p ∈ parts, Given p) (w w' : Bytes) (ws : List Bytes) (s : State) :
    processArgs fails argv0 (words grammar parts ++ literal "-d" :: w :: ws) s =
        processArgs fails argv0 (words grammar parts ++ literal "-d" :: w' :: ws) s ∧
      (processArgs fails argv0 (words grammar parts ++ [literal "-d"]) s).1 = -1 := by
  constructor
  · rw [processArgs, processArgs, scan_given h, scan_given h, scan_background, scan_background]
    have hsame : ∀ s, processItem fails argv0 (.option (byte 'd') w) s =
        processItem fails argv0 (.option (byte 'd') w') s := fun _ => rfl
    exact processItems_same hsame _ _ s
  · refine (refused_usage fun hzero => ?_).1
    have hall := processItems_zero.mp hzero
    rw [scan_given h] at hall
    have hmissing := hall (.missing (byte 'd')) (List.mem_append_right _ List.mem_cons_self)
    cases hmissing

structure Copies (fails : ℕ → Bool) (t : Settings) : Prop where
  sound : Sound t.ledger
  made : ∀ k, status t.ledger k = .fresh ↔ t.copies ≤ k ∨ fails k = true
  live : ∀ k, status t.ledger k = .live ↔ t.resolver.map Copy.id = some k

theorem no_copy (k : ℕ) : (none : Option Copy).map Copy.id ≠ some k :=
  fun he => Option.some_ne_none k he.symm

theorem strdup_copies {t : Settings} (h : Copies fails t) (hnone : t.resolver = none) (text : Bytes) :
    Copies fails (strdup fails text t) := by
  rw [strdup]
  split
  · next hfails =>
    refine ⟨h.sound, fun k => ?_, fun k => ?_⟩
    · rw [h.made k]
      constructor
      · rintro (hk | hk)
        · rcases Nat.eq_or_lt_of_le hk with rfl | hk
          · exact .inr hfails
          · exact .inl hk
        · exact .inr hk
      · exact Or.imp_left Nat.le_of_succ_le
    · rw [h.live k, hnone]
  · next hok =>
    have hfresh : status t.ledger t.copies = .fresh := (h.made t.copies).mpr (.inl (Nat.le_refl _))
    refine ⟨⟨hfresh, h.sound⟩, fun k => ?_, fun k => ?_⟩
    · rw [status_alloc]
      split
      · next hk =>
        subst hk
        exact iff_of_false (by decide) (not_or.mpr ⟨Nat.not_succ_le_self _, hok⟩)
      · next hk =>
        rw [h.made k]
        exact or_congr_left ⟨fun hle => Nat.lt_of_le_of_ne hle (Ne.symm hk), Nat.le_of_succ_le⟩
    · rw [status_alloc]
      split
      · next hk => exact iff_of_true rfl (congrArg some hk.symm)
      · next hk =>
        rw [h.live k, hnone]
        exact iff_of_false (no_copy k) fun he => hk (Option.some.inj he).symm

theorem freeResolver_copies {t : Settings} (h : Copies fails t) :
    Copies fails (freeResolver t) ∧ (freeResolver t).resolver = none := by
  rw [freeResolver]
  split
  · next hnone => exact ⟨h, hnone⟩
  · next copy hcopy =>
    have hlive := fun k => h.live k
    rw [hcopy] at hlive
    refine ⟨⟨⟨(hlive copy.id).mpr rfl, h.sound⟩, fun k => ?_, fun k => ?_⟩, rfl⟩
    · rw [status_free]
      split
      · next hk =>
        subst hk
        have hnot := mt (h.made copy.id).mpr fun he => by
          rw [(hlive copy.id).mpr rfl] at he
          cases he
        exact iff_of_false (by decide) hnot
      · exact h.made k
    · rw [status_free]
      split
      · exact iff_of_false (by decide) (no_copy k)
      · next hk =>
        rw [hlive k]
        exact iff_of_false (fun he => hk (Option.some.inj he).symm) (no_copy k)

theorem obeyItem_copies {t : Settings} (h : Copies fails t) (i : Item UInt8) :
    Copies fails (obeyItem fails t i) := by
  have hobey : ∀ opt optarg, Copies fails (obey fails opt optarg t) := by
    intro opt optarg
    unfold obey
    split
    · exact ⟨h.sound, h.made, h.live⟩
    split
    · exact ⟨h.sound, h.made, h.live⟩
    split
    · exact ⟨h.sound, h.made, h.live⟩
    split
    · exact ⟨h.sound, h.made, h.live⟩
    split
    · exact strdup_copies (freeResolver_copies h).1 (freeResolver_copies h).2 optarg
    · exact h
  cases i with
  | flag c => exact hobey c []
  | option c argument => exact hobey c argument
  | unknown c => exact h
  | missing c => exact h

theorem processArgs_copies (h : Copies fails s.settings) :
    Copies fails (processArgs fails argv0 ws s).2.settings := by
  have hsettings : (processArgs fails argv0 ws s).2.settings = _ :=
    (processItems_eq (scan grammar none ws) s).2
  rw [hsettings]
  generalize (scan grammar none ws).takeWhile acceptsItem = is
  generalize s.settings = t at h
  induction is generalizing t with
  | nil => exact h
  | cons i is ih => exact ih _ (obeyItem_copies h i)

theorem statics_copies : Copies fails statics :=
  ⟨trivial, fun _ => iff_of_true rfl (.inl (Nat.zero_le _)),
    fun k => iff_of_false (show Status.fresh ≠ .live by decide) (no_copy k)⟩

theorem copies_frees {t : Settings} (h : Copies fails t) {k : ℕ} (hk : k < t.copies)
    (hok : fails k = false) :
    frees t.ledger k = if t.resolver.map Copy.id = some k then 0 else 1 := by
  have hmade : status t.ledger k ≠ .fresh := by
    rw [ne_eq, h.made k, hok]
    simpa using hk
  rw [frees_of_sound _ h.sound]
  simp only [← h.live k]
  cases hs : status t.ledger k with
  | fresh => exact absurd hs hmade
  | live => rfl
  | freed => rfl

/-- What `main` leaves of the copies once it has freed the last of them. -/
structure AllFreed (fails : ℕ → Bool) (t : Settings) : Prop where
  sound : Sound (freeResolver t).ledger
  once : ∀ k < t.copies, fails k = false → frees (freeResolver t).ledger k = 1

theorem copies_allFreed {t : Settings} (h : Copies fails t) : AllFreed fails t := by
  obtain ⟨h', hnone⟩ := freeResolver_copies h
  refine ⟨h'.sound, fun k hk hok => ?_⟩
  have hcopies : (freeResolver t).copies = t.copies := by
    rw [freeResolver]
    split <;> rfl
  rw [copies_frees h' (hcopies ▸ hk) hok, hnone]
  rfl

/-- Whatever the words are and however the loop ends, each copy of a resolver's
name has been freed once, but for the one that is kept. Only behind an accepted
line does `main` come to free that one. -/
theorem resolver_copies (fails : ℕ → Bool) (argv0 : Bytes) (ws : List Bytes) :
    let r := processArgs fails argv0 ws (defaults fails)
    let t := r.2.settings
    Sound t.ledger ∧
      (∀ k < t.copies, fails k = false →
        frees t.ledger k = if t.resolver.map Copy.id = some k then 0 else 1) ∧
      (r.1 = 0 → t.resolver ≠ none → AllFreed fails t) := by
  intro r t
  have h : Copies fails t := processArgs_copies (strdup_copies statics_copies rfl _)
  exact ⟨h.sound, fun k hk hok => copies_frees h hk hok, fun _ _ => copies_allFreed h⟩

def exampleLine : List Word :=
  [.separate (.port 70000), .operand (literal "fast"), .attached (.workers (-3)),
    .separate (.background (literal "-p")), .separate (.resolver (literal "1.1.1.1:53")),
    .attached (.address ⟨10, 0, 0, 1⟩)]

instance (x : Setting) : Decidable x.InRange :=
  match x with
  | .port n => inferInstanceAs (Decidable (n < 2 ^ 64))
  | .workers n => inferInstanceAs (Decidable (-2 ^ 63 ≤ n ∧ n < 2 ^ 63))
  | .address _ | .background _ | .resolver _ => inferInstanceAs (Decidable True)

instance (w : Word) : Decidable w.Fits :=
  match w with
  | .operand w => inferInstanceAs (Decidable (optionWord grammar w = none))
  | .attached x => inferInstanceAs (Decidable (x.InRange ∧ x.argument ≠ []))
  | .separate x => inferInstanceAs (Decidable x.InRange)

def noneFails : ℕ → Bool := fun _ => false

theorem settings_read_back_exampleLine :
    (processArgs noneFails (literal "tigera") (lineWords exampleLine ++ [literal "--", literal "-x"])
        (defaults noneFails)).1 = 0 ∧
      LastGiven noneFails (settings exampleLine) (defaults noneFails).settings
        (processArgs noneFails (literal "tigera")
          (lineWords exampleLine ++ [literal "--", literal "-x"]) (defaults noneFails)).2.settings :=
  settings_read_back noneFails (literal "tigera") (by decide +kernel) (.inr ⟨_, rfl⟩) _

def loosePieces : List (Piece UInt8) :=
  [.cluster [] (.separate (byte 'p') (literal "007")),
    .cluster [] (.attached (byte 'p') (literal "80abc")), .operand (literal "fast"),
    .cluster [] (.separate (byte 'n') (literal " +5"))]

instance (p : Piece UInt8) : Decidable (Given p) :=
  match p with
  | .operand w => inferInstanceAs (Decidable (optionWord grammar w = none))
  | .cluster flags (.attached c argument) =>
    inferInstanceAs (Decidable (flags = [] ∧ argument ≠ [] ∧ accepts c argument = true))
  | .cluster flags (.separate c argument) =>
    inferInstanceAs (Decidable (flags = [] ∧ accepts c argument = true))
  | .cluster _ .none => inferInstanceAs (Decidable False)

theorem background_takes_word_loosePieces :
    processArgs noneFails (literal "tigera")
        (words grammar loosePieces ++ literal "-d" :: literal "-p" :: [literal "80"])
        (defaults noneFails) =
      processArgs noneFails (literal "tigera")
        (words grammar loosePieces ++ literal "-d" :: literal "--" :: [literal "80"])
        (defaults noneFails) ∧
      (processArgs noneFails (literal "tigera") (words grammar loosePieces ++ [literal "-d"])
        (defaults noneFails)).1 = -1 :=
  background_takes_word noneFails (literal "tigera") (by decide +kernel) _ _ _ _

end Tigera.CommandLine
