import Mathlib.Data.List.TakeWhile
import PropStories.Proofs.Contract.Lowering
import PropStories.Proofs.Lists
import PropStories.Proofs.Synth.Expressions
import PropStories.Proofs.Tsx.Substitution
import PropStories.Story.Region

/-!
# The names that keys stand for

A key is a name or a string literal, and what it stands for is a sequence of UTF-16 code units. The
name of a property is its key as it is written, only without quotes at the ends, and is written as a
key again. Main statement: the new key stands for the same as the declared one just if that has no
escapes, no quotes at the ends, and what is written without quotes is a name.
-/

namespace PropStories

namespace Key

open Synth
open Tsx.Syntax (isQuote)

/-! ## Reading a key -/

def pointUnits (n : Nat) : List Nat :=
  if n < 0x10000 then [n] else [0xD800 + (n - 0x10000) / 0x400, 0xDC00 + (n - 0x10000) % 0x400]

def unitsOf (cs : List Char) : List Nat := cs.flatMap fun c => pointUnits c.toNat

def hexValue? (c : Char) : Option Nat :=
  if c.isDigit then some (c.toNat - 48)
  else if 'a' ≤ c ∧ c ≤ 'f' then some (c.toNat - 87)
  else if 'A' ≤ c ∧ c ≤ 'F' then some (c.toNat - 55)
  else none

inductive Mode where
  | plain
  /-- Behind a backslash. -/
  | escape
  /-- Behind an escaped zero, which no digit may follow. -/
  | zero
  /-- Behind an escaped carriage return, to which a line feed belongs. -/
  | feed
  /-- In a code unit of which one digit and `more` others are missing. -/
  | digits (more value : Nat)
  /-- Behind the letter that begins a code unit or a code point in braces. -/
  | letter
  /-- Between braces. -/
  | braces (value? : Option Nat)

def letterEscapes : List (Char × Nat) :=
  [('b', 8), ('t', 9), ('n', 10), ('v', 11), ('f', 12), ('r', 13)]

def plainStep (delimiter : Option Char) (c : Char) : Option (List Nat × Mode) :=
  if c = '\\' then some ([], .escape)
  else if some c = delimiter ∨ c = '\n' ∨ c = '\r' then none
  else some (pointUnits c.toNat, .plain)

/-- The character behind a backslash. In a name it begins a code unit or a code point; the end of a
line is left out, and most characters stand for themselves. -/
def escapeStep (delimiter : Option Char) (c : Char) : Option (List Nat × Mode) :=
  if c = 'u' then some ([], .letter)
  else if delimiter = none then none
  else if c = 'x' then some ([], .digits 1 0)
  else if c = '0' then some ([0], .zero)
  else if c.isDigit then none
  else if c = '\r' then some ([], .feed)
  else if c = '\n' ∨ c = '\u2028' ∨ c = '\u2029' then some ([], .plain)
  else match letterEscapes.lookup c with
    | some u => some ([u], .plain)
    | none => some (pointUnits c.toNat, .plain)

def digitStep (more value : Nat) (c : Char) : Option (List Nat × Mode) :=
  (hexValue? c).map fun h =>
    match more with
    | 0 => ([16 * value + h], .plain)
    | more + 1 => ([], .digits more (16 * value + h))

def step (delimiter : Option Char) (c : Char) : Mode → Option (List Nat × Mode)
  | .plain => plainStep delimiter c
  | .escape => escapeStep delimiter c
  | .zero => if c.isDigit then none else plainStep delimiter c
  | .feed => if c = '\n' then some ([], .plain) else plainStep delimiter c
  | .digits more value => digitStep more value c
  | .letter => if c = '\x7b' then some ([], .braces none) else digitStep 3 0 c
  | .braces value? =>
      if c = '\x7d' then value?.map fun n => (pointUnits n, .plain)
      else (hexValue? c).bind fun h =>
        let n := 16 * value?.getD 0 + h
        if n ≤ 0x10FFFF then some ([], .braces (some n)) else none

def Mode.isClosed : Mode → Bool
  | plain | zero | feed => true
  | _ => false

def spelled? (delimiter : Option Char) : Mode → List Char → Option (List Nat)
  | m, [] => if m.isClosed then some [] else none
  | m, c :: cs => (step delimiter c m).bind fun (us, m') => (spelled? delimiter m' cs).map (us ++ ·)

def isDelimiter (c : Char) : Bool := c == '\x27' || c == '\x22'

/-- What a key stands for; `isName` decides what is a name. -/
def name? (isName : List Nat → Bool) : List Char → Option (List Nat)
  | [] => none
  | q :: rest =>
      if isDelimiter q then
        if rest.getLast? = some q then spelled? (some q) .plain rest.dropLast else none
      else (spelled? none .plain (q :: rest)).filter isName

def inside : List Char → List Char
  | [] => []
  | q :: rest => if isDelimiter q then rest.dropLast else q :: rest

/-! ## One step -/

variable {delimiter : Option Char} {m m' : Mode} {c : Char} {cs : List Char} {us v : List Nat}

def isQuoteUnit (u : Nat) : Bool := u == 39 || u == 34 || u == 96

theorem isQuoteUnit_toNat (c : Char) : isQuoteUnit c.toNat = isQuote c := by
  have same (d : Char) : (c.toNat == d.toNat) = (c == d) := by
    rw [Bool.eq_iff_iff, beq_iff_eq, beq_iff_eq, Char.toNat_inj]
  rw [isQuoteUnit, isQuote, ← same, ← same, ← same]
  rfl

theorem countP_pointUnits (c : Char) :
    (pointUnits c.toNat).countP isQuoteUnit = [c].countP isQuote := by
  rw [List.countP_singleton, ← isQuoteUnit_toNat]
  unfold pointUnits
  split
  next => rw [List.countP_singleton]
  next large =>
    have plain {u : Nat} (h : 96 < u) : isQuoteUnit u = false := by
      simp only [isQuoteUnit, Bool.or_eq_false_iff, beq_eq_false_iff_ne]
      omega
    rw [plain (by omega), List.countP_cons, plain (by omega), List.countP_singleton,
      plain (by omega)]
    rfl

/-- The number of code units that a character stands for by itself, carriage returns apart. -/
def width (c : Char) : Nat := if c = '\r' then 0 else (pointUnits c.toNat).length

/-- The number of code units that an escape can still give with nothing behind them. -/
def Mode.slack : Mode → Nat
  | braces (some _) => 1
  | _ => 0

theorem pointUnits_length (n : Nat) :
    0 < (pointUnits n).length ∧ (pointUnits n).length ≤ 2 := by
  unfold pointUnits
  split <;> simp

theorem width_pos (h : c ≠ '\r') : 0 < width c := by
  rw [width, if_neg h]
  exact (pointUnits_length _).1

theorem width_eq (h : c ≠ '\r') : width c = (pointUnits c.toNat).length := if_neg h

/-- A step keeps the quotes and gives no more code units than the character has, as far as the mode
before and after it leaves open. -/
structure Bounded (c : Char) (m : Mode) (us : List Nat) (m' : Mode) : Prop where
  quotes : [c].countP isQuote ≤ us.countP isQuoteUnit
  length : us.length + m'.slack ≤ width c + m.slack

theorem Bounded.of_self (m : Mode) (h : c ≠ '\r') : Bounded c m (pointUnits c.toNat) .plain :=
  ⟨Nat.le_of_eq (countP_pointUnits c).symm, by rw [width_eq h]; exact Nat.le_add_right _ _⟩

theorem Bounded.of_silent (quote : isQuote c = false) (slack : m'.slack ≤ width c + m.slack) :
    Bounded c m [] m' :=
  ⟨by rw [List.countP_singleton, quote]; exact Nat.zero_le _,
    by rwa [List.length_nil, Nat.zero_add]⟩

theorem plainStep_bounded (h : plainStep delimiter c = some (us, m')) : Bounded c m us m' := by
  unfold plainStep at h
  split at h
  next escape =>
    cases h
    exact .of_silent (by rw [escape]; decide) (Nat.zero_le _)
  next =>
    split at h
    next => cases h
    next allowed =>
      cases h
      exact .of_self m fun eq => allowed (.inr (.inr eq))

theorem Bounded.of_single {u : Nat} (quote : isQuote c = false) (noReturn : c ≠ '\r')
    (slack : m'.slack = 0) : Bounded c m [u] m' := by
  refine ⟨by rw [List.countP_singleton, quote]; exact Nat.zero_le _, ?_⟩
  rw [slack]
  exact Nat.le_trans (width_pos noReturn) (Nat.le_add_right _ _)

theorem letterEscapes_plain : ∀ x ∈ letterEscapes, isQuote x.1 = false ∧ x.1 ≠ '\r' := by decide

theorem escapeStep_bounded (h : escapeStep delimiter c = some (us, m')) :
    Bounded c .escape us m' := by
  unfold escapeStep at h
  split at h
  next letter =>
    cases h
    exact .of_silent (by rw [letter]; decide) (Nat.zero_le _)
  split at h
  next => cases h
  split at h
  next unit =>
    cases h
    exact .of_silent (by rw [unit]; decide) (Nat.zero_le _)
  split at h
  next zero =>
    cases h
    subst zero
    exact .of_single (by decide) (by decide) rfl
  split at h
  next => cases h
  split at h
  next feed =>
    cases h
    exact .of_silent (by rw [feed]; decide) (Nat.zero_le _)
  next noReturn =>
    split at h
    next lineEnd =>
      cases h
      refine .of_silent ?_ (Nat.zero_le _)
      obtain rfl | rfl | rfl := lineEnd <;> decide
    next =>
      split at h
      next u found =>
        cases h
        obtain ⟨front, back, split, -⟩ := List.lookup_eq_some_iff.1 found
        have member : (c, u) ∈ letterEscapes :=
          split ▸ List.mem_append_right front List.mem_cons_self
        exact .of_single (letterEscapes_plain _ member).1 noReturn rfl
      next =>
        cases h
        exact .of_self _ noReturn

/-- The characters that are refused or read in a way of their own. -/
def marks : List Char := ['\\', '\x27', '\x22', '\x60', '\n', '\r']

theorem plain_of_not_mem_marks (h : c ∉ marks) :
    c ≠ '\\' ∧ isQuote c = false ∧ c ≠ '\n' ∧ c ≠ '\r' := by
  simp only [marks, List.mem_cons, List.not_mem_nil, or_false, not_or] at h
  simp [isQuote, h]

theorem not_mem_marks_of_hexValue? {h : Nat} (hex : hexValue? c = some h) : c ∉ marks := by
  have refused : ∀ d ∈ marks, hexValue? d = none := by decide
  intro member
  rw [refused c member] at hex
  cases hex

theorem digitStep_bounded {more value : Nat} (h : digitStep more value c = some (us, m')) :
    Bounded c m us m' := by
  obtain ⟨d, hex, eq⟩ := Option.map_eq_some_iff.1 h
  obtain ⟨-, quote, -, noReturn⟩ := plain_of_not_mem_marks (not_mem_marks_of_hexValue? hex)
  cases more with
  | zero =>
      cases eq
      exact .of_single quote noReturn rfl
  | succ more =>
      cases eq
      exact .of_silent quote (Nat.zero_le _)

theorem step_bounded (h : step delimiter c m = some (us, m')) : Bounded c m us m' := by
  cases m with
  | plain => exact plainStep_bounded h
  | escape => exact escapeStep_bounded h
  | zero =>
      rw [step] at h
      split at h
      next => cases h
      next => exact plainStep_bounded h
  | feed =>
      rw [step] at h
      split at h
      next feed =>
        cases h
        exact .of_silent (by rw [feed]; decide) (Nat.zero_le _)
      next => exact plainStep_bounded h
  | digits more value => exact digitStep_bounded h
  | letter =>
      rw [step] at h
      split at h
      next brace =>
        cases h
        exact .of_silent (by rw [brace]; decide) (Nat.zero_le _)
      next => exact digitStep_bounded h
  | braces value? =>
      rw [step] at h
      split at h
      next brace =>
        obtain ⟨n, rfl, eq⟩ := Option.map_eq_some_iff.1 h
        cases eq
        subst brace
        exact ⟨Nat.zero_le _, (pointUnits_length n).2⟩
      next =>
        obtain ⟨d, hex, h⟩ := Option.bind_eq_some_iff.1 h
        obtain ⟨-, quote, -, noReturn⟩ := plain_of_not_mem_marks (not_mem_marks_of_hexValue? hex)
        simp only at h
        split at h
        next =>
          cases h
          exact .of_silent quote (Nat.le_trans (width_pos noReturn) (Nat.le_add_right _ _))
        next => cases h

/-! ## A whole key -/

theorem spelled?_cons_eq_some : spelled? delimiter m (c :: cs) = some v ↔
    ∃ us m' w, step delimiter c m = some (us, m') ∧ spelled? delimiter m' cs = some w ∧
      v = us ++ w := by
  rw [spelled?, Option.bind_eq_some_iff]
  constructor
  · rintro ⟨⟨us, m'⟩, stepped, rest⟩
    obtain ⟨w, spelled, rfl⟩ := Option.map_eq_some_iff.1 rest
    exact ⟨us, m', w, stepped, spelled, rfl⟩
  · rintro ⟨us, m', w, stepped, spelled, rfl⟩
    exact ⟨(us, m'), stepped, Option.map_eq_some_iff.2 ⟨w, spelled, rfl⟩⟩

def widthOf : List Char → Nat
  | [] => 0
  | c :: cs => width c + widthOf cs

theorem spelled?_bounded (h : spelled? delimiter m cs = some v) :
    cs.countP isQuote ≤ v.countP isQuoteUnit ∧ v.length ≤ widthOf cs + m.slack := by
  induction cs generalizing m v with
  | nil =>
      rw [spelled?] at h
      split at h
      · cases h
        exact ⟨Nat.le.refl, Nat.zero_le _⟩
      · cases h
  | cons c cs ih =>
      obtain ⟨us, m', w, stepped, spelled, rfl⟩ := spelled?_cons_eq_some.1 h
      obtain ⟨quotes, length⟩ := step_bounded stepped
      obtain ⟨quotes', length'⟩ := ih spelled
      have count : (c :: cs).countP isQuote = [c].countP isQuote + cs.countP isQuote := by
        rw [← List.countP_append, List.singleton_append]
      rw [count, List.countP_append, List.length_append, widthOf]
      omega

/-- Without escapes the characters stand for themselves. -/
theorem spelled?_plain (plain : '\\' ∉ cs) (h : spelled? delimiter .plain cs = some v) :
    v = unitsOf cs ∧ '\r' ∉ cs := by
  induction cs generalizing v with
  | nil => exact ⟨(Option.some.inj h).symm, List.not_mem_nil⟩
  | cons c cs ih =>
      obtain ⟨us, m', w, stepped, spelled, rfl⟩ := spelled?_cons_eq_some.1 h
      rw [List.mem_cons, not_or] at plain
      rw [step, plainStep, if_neg (Ne.symm plain.1)] at stepped
      split at stepped
      next => cases stepped
      next allowed =>
        cases stepped
        obtain ⟨rfl, noReturn⟩ := ih plain.2 spelled
        refine ⟨rfl, fun member => ?_⟩
        obtain eq | member := List.mem_cons.1 member
        · exact allowed (.inr (.inr eq.symm))
        · exact noReturn member

/-- An escape gives fewer code units than it has characters. -/
theorem length_lt_widthOf (escaped : '\\' ∈ cs) (h : spelled? delimiter .plain cs = some v) :
    v.length < widthOf cs := by
  induction cs generalizing v with
  | nil => cases escaped
  | cons c cs ih =>
      obtain ⟨us, m', w, stepped, spelled, rfl⟩ := spelled?_cons_eq_some.1 h
      rw [widthOf, List.length_append]
      rw [step, plainStep] at stepped
      split at stepped
      next backslash =>
        cases stepped
        have rest := (spelled?_bounded spelled).2
        have own : 0 < width c := width_pos (by rw [backslash]; decide)
        rw [List.length_nil]
        rw [show Mode.slack .escape = 0 from rfl] at rest
        omega
      next other =>
        split at stepped
        next => cases stepped
        next allowed =>
          cases stepped
          have rest := ih ((List.mem_cons.1 escaped).resolve_left (Ne.symm other)) spelled
          rw [width_eq fun eq => allowed (.inr (.inr eq))]
          omega

/-! ## Written keys -/

theorem spelled?_of_allowed (allowed : ∀ c ∈ cs,
      c ≠ '\\' ∧ some c ≠ delimiter ∧ c ≠ '\n' ∧ c ≠ '\r') :
    spelled? delimiter .plain cs = some (unitsOf cs) := by
  induction cs with
  | nil => rfl
  | cons c cs ih =>
      obtain ⟨escape, delimiter, feed, noReturn⟩ := allowed c List.mem_cons_self
      have rest := ih fun d hd => allowed d (List.mem_cons_of_mem _ hd)
      refine spelled?_cons_eq_some.2 ⟨_, _, _, ?_, rest, rfl⟩
      rw [step, plainStep, if_neg escape, if_neg]
      rintro (eq | eq | eq)
      · exact delimiter eq
      · exact feed eq
      · exact noReturn eq

/-- A text between single quotes stands for itself, but for its carriage returns. -/
theorem spelled?_encode (cs : List Char) :
    spelled? (some '\x27') .plain (Text.Quoted.encode cs) =
      some (unitsOf (cs.filter (· ≠ '\r'))) := by
  induction cs with
  | nil => rfl
  | cons c cs ih =>
      have escaped {e : Char}
          (stands : step (some '\x27') e .escape = some (pointUnits c.toNat, .plain)) :
          spelled? (some '\x27') .plain ('\\' :: e :: Text.Quoted.encode cs) =
            some (pointUnits c.toNat ++ unitsOf (cs.filter (· ≠ '\r'))) :=
        spelled?_cons_eq_some.2 ⟨[], .escape, _, rfl,
          spelled?_cons_eq_some.2 ⟨_, .plain, _, stands, ih, rfl⟩, rfl⟩
      rw [Text.Quoted.encode]
      split
      next h =>
        subst h
        exact escaped rfl
      next backslash =>
        split
        next h =>
          subst h
          exact escaped rfl
        next quote =>
          split
          next h =>
            subst h
            exact escaped rfl
          next feed =>
            split
            next h =>
              subst h
              exact ih
            next noReturn =>
              rw [List.filter_cons_of_pos (by simpa using noReturn)]
              refine spelled?_cons_eq_some.2 ⟨_, .plain, _, ?_, ih, rfl⟩
              rw [step, plainStep, if_neg backslash, if_neg]
              rintro (eq | eq | eq)
              · exact quote (Option.some.inj eq)
              · exact feed eq
              · exact noReturn eq

theorem name?_quote (isName : List Nat → Bool) (s : String) :
    name? isName (Text.Quoted.quote s).toList = some (unitsOf (s.toList.filter (· ≠ '\r'))) := by
  rw [Text.Quoted.quote_eq, toList_single, String.toList_ofList, name?, if_pos (by decide),
    if_pos List.getLast?_concat, List.dropLast_concat, spelled?_encode]

theorem plain_of_isIdentifierPart (h : Text.isIdentifierPart c = true) :
    c ≠ '\\' ∧ isQuote c = false ∧ c ≠ '\n' ∧ c ≠ '\r' := by
  have refused : ∀ d ∈ marks, Text.isIdentifierPart d = false := by decide
  refine plain_of_not_mem_marks fun member => ?_
  rw [refused c member] at h
  cases h

theorem name?_of_name {isName : List Nat → Bool} {cs : List Char}
    (first : ∀ c, cs.head? = some c → isDelimiter c = false) (some_ : cs ≠ []) :
    name? isName cs = (spelled? none .plain cs).filter isName := by
  cases cs with
  | nil => exact absurd rfl some_
  | cons c cs => rw [name?, if_neg (by rw [first c rfl]; decide)]

theorem countP_unitsOf (cs : List Char) :
    (unitsOf cs).countP isQuoteUnit = cs.countP isQuote := by
  induction cs with
  | nil => rfl
  | cons c cs ih =>
      rw [unitsOf, List.flatMap_cons, ← unitsOf, List.countP_append, ih, countP_pointUnits,
        ← List.countP_append, List.singleton_append]

theorem length_unitsOf (cs : List Char) :
    (unitsOf (cs.filter (· ≠ '\r'))).length = widthOf cs := by
  induction cs with
  | nil => rfl
  | cons c cs ih =>
      rw [widthOf, ← ih, List.filter_cons]
      split
      next noReturn =>
        rw [width_eq (by simpa using noReturn), unitsOf, List.flatMap_cons, ← unitsOf,
          List.length_append]
      next return_ =>
        rw [width, if_pos (by simpa using return_), Nat.zero_add]

theorem isDelimiter_of_isQuote (h : isQuote c = false) : isDelimiter c = false := by
  rw [isQuote, Bool.or_eq_false_iff] at h
  exact h.1

theorem name?_identifier (isName : List Nat → Bool) {s : String}
    (identifier : Text.isIdentifier s = true) :
    name? isName s.toList = (some (unitsOf s.toList)).filter isName := by
  have plain {c : Char} (hc : c ∈ s.toList) :=
    plain_of_isIdentifierPart (Text.isIdentifierPart_of_mem identifier hc)
  rw [name?_of_name, spelled?_of_allowed]
  · exact fun c hc => ⟨(plain hc).1, nofun, (plain hc).2.2⟩
  · exact fun c first => isDelimiter_of_isQuote (plain (List.mem_of_mem_head? first)).2.1
  · intro empty
    rw [Text.isIdentifier, empty] at identifier
    cases identifier

theorem name?_objectKey (isName : List Nat → Bool) (s : String) :
    name? isName (Text.objectKey s).toList =
      if Text.isIdentifier s then (some (unitsOf s.toList)).filter isName
      else some (unitsOf (s.toList.filter (· ≠ '\r'))) := by
  unfold Text.objectKey
  split
  next identifier => exact name?_identifier isName identifier
  next => exact name?_quote isName s

/-! ## Ends of a key -/

def trimmed (cs : List Char) : List Char := Text.dropEndWhile isQuote (cs.dropWhile isQuote)

def QuoteAtEnd (cs : List Char) : Prop :=
  ∃ c, (cs.head? = some c ∨ cs.getLast? = some c) ∧ isQuote c = true

theorem trimmed_cons (h : isQuote c = true) : trimmed (c :: cs) = trimmed cs := by
  rw [trimmed, List.dropWhile_cons_of_pos h, trimmed]

theorem trimmed_concat (h : isQuote c = true) : trimmed (cs ++ [c]) = trimmed cs := by
  rw [trimmed, trimmed, List.dropWhile_append]
  split
  next none =>
    rw [List.isEmpty_iff.1 none, List.dropWhile_cons_of_pos h]
    rfl
  next =>
    rw [Text.dropEndWhile, List.reverse_append, List.reverse_singleton, List.singleton_append,
      List.dropWhile_cons_of_pos h, Text.dropEndWhile]

theorem exists_trimmed (cs : List Char) : ∃ front back, cs = front ++ trimmed cs ++ back ∧
    (∀ c ∈ front, isQuote c = true) ∧ ∀ c ∈ back, isQuote c = true := by
  refine ⟨cs.takeWhile isQuote, ((cs.dropWhile isQuote).reverse.takeWhile isQuote).reverse, ?_,
    fun c hc => List.mem_takeWhile_imp hc, fun c hc => ?_⟩
  · rw [trimmed, Text.dropEndWhile, List.append_assoc, ← List.reverse_append,
      List.takeWhile_append_dropWhile, List.reverse_reverse, List.takeWhile_append_dropWhile]
  · exact List.mem_takeWhile_imp (List.mem_reverse.1 hc)

theorem trimmed_eq_self_of_countP (h : cs.countP isQuote ≤ (trimmed cs).countP isQuote) :
    trimmed cs = cs := by
  obtain ⟨front, back, split, hfront, hback⟩ := exists_trimmed cs
  have count : cs.countP isQuote = front.length + (trimmed cs).countP isQuote + back.length := by
    rw [← List.countP_eq_length.2 hfront, ← List.countP_eq_length.2 hback, ← List.countP_append,
      ← List.countP_append, ← split]
  have front_ : front = [] := List.length_eq_zero_iff.1 (by omega)
  have back_ : back = [] := List.length_eq_zero_iff.1 (by omega)
  rw [front_, back_, List.nil_append, List.append_nil] at split
  exact split.symm

theorem length_trimmed_le (cs : List Char) : (trimmed cs).length ≤ cs.length := by
  obtain ⟨front, back, split, -⟩ := exists_trimmed cs
  have length := congrArg List.length split
  rw [List.length_append, List.length_append] at length
  omega

theorem trimmed_eq_self_iff : trimmed cs = cs ↔ ¬ QuoteAtEnd cs := by
  constructor
  · rintro same ⟨c, first | last, quote⟩
    · obtain ⟨rest, rfl⟩ := List.head?_eq_some_iff.1 first
      have shorter := length_trimmed_le rest
      rw [← trimmed_cons quote, same, List.length_cons] at shorter
      omega
    · obtain ⟨rest, rfl⟩ := List.getLast?_eq_some_iff.1 last
      have shorter := length_trimmed_le rest
      rw [← trimmed_concat quote, same, List.length_append, List.length_singleton] at shorter
      omega
  · intro plain
    obtain ⟨front, back, split, hfront, hback⟩ := exists_trimmed cs
    cases front with
    | cons c front =>
        refine absurd ⟨c, .inl ?_, hfront c List.mem_cons_self⟩ plain
        rw [split]
        rfl
    | nil =>
        obtain rfl | ⟨back, c, rfl⟩ := List.eq_nil_or_concat back
        · rw [List.nil_append, List.append_nil] at split
          exact split.symm
        · refine absurd ⟨c, .inr ?_, hback c (by simp)⟩ plain
          rw [split, List.concat_eq_append, ← List.append_assoc, List.getLast?_concat]

theorem inside_eq {isName : List Nat → Bool} {key : List Char} (h : name? isName key = some v) :
    (∃ delimiter, spelled? delimiter .plain (inside key) = some v) ∧
      trimmed key = trimmed (inside key) := by
  cases key with
  | nil => cases h
  | cons q rest =>
      rw [name?] at h
      rw [inside]
      split at h
      next quote =>
        rw [if_pos quote]
        split at h
        next last =>
          obtain ⟨rest, rfl⟩ := List.getLast?_eq_some_iff.1 last
          have isQuote : isQuote q = true := by
            rw [Tsx.Syntax.isQuote, ← isDelimiter, quote]
            rfl
          refine ⟨⟨_, h⟩, ?_⟩
          rw [trimmed_cons isQuote, trimmed_concat isQuote, List.dropLast_concat]
        next => cases h
      next name =>
        rw [if_neg name]
        exact ⟨⟨none, (Option.filter_eq_some_iff.1 h).1⟩, rfl⟩

/-- The written key stands for the same as the declared one just if that has no escapes and no
quotes at its ends, and what is written without quotes is a name. -/
theorem name?_objectKey_eq_iff {isName : List Nat → Bool} {key : List Char} {name : String}
    (h : name? isName key = some v) (trimmed_ : name.toList = trimmed key) :
    name? isName (Text.objectKey name).toList = some v ↔
      '\\' ∉ inside key ∧ ¬ QuoteAtEnd (inside key) ∧
        (Text.isIdentifier name = true → isName (unitsOf name.toList) = true) := by
  obtain ⟨⟨delimiter, spelled⟩, ends⟩ := inside_eq h
  rw [ends] at trimmed_
  have noReturn {c : Char} (identifier : Text.isIdentifier name = true) (hc : c ∈ name.toList) :=
    (plain_of_isIdentifierPart (Text.isIdentifierPart_of_mem identifier hc)).2.2.2
  rw [name?_objectKey, ← trimmed_eq_self_iff]
  constructor
  · intro same
    have written : v = unitsOf (name.toList.filter (· ≠ '\r')) ∧
        (Text.isIdentifier name = true → isName (unitsOf name.toList) = true) := by
      split at same
      next identifier =>
        obtain ⟨eq, isName⟩ := Option.filter_eq_some_iff.1 same
        obtain rfl := Option.some.inj eq
        rw [List.filter_eq_self.2 fun c hc => by simpa using noReturn identifier hc]
        exact ⟨rfl, fun _ => isName⟩
      next other =>
        exact ⟨(Option.some.inj same).symm, fun identifier => absurd identifier other⟩
    obtain ⟨rfl, isName⟩ := written
    -- No quote gets lost in reading, so none can have been taken away from the ends.
    have quotes : (inside key).countP isQuote ≤ (trimmed (inside key)).countP isQuote := by
      have kept := (spelled?_bounded spelled).1
      rw [countP_unitsOf, trimmed_] at kept
      exact Nat.le_trans kept (List.filter_sublist.countP_le)
    have whole := trimmed_eq_self_of_countP quotes
    refine ⟨fun escaped => ?_, whole, isName⟩
    -- The written key has as many code units as the declared one has without its escapes.
    have shorter := length_lt_widthOf escaped spelled
    rw [length_unitsOf, trimmed_, whole] at shorter
    exact absurd shorter (Nat.lt_irrefl _)
  · rintro ⟨plain, whole, isName⟩
    obtain ⟨rfl, noReturn⟩ := spelled?_plain plain spelled
    rw [whole] at trimmed_
    rw [← trimmed_] at noReturn ⊢
    split
    next identifier => rw [Option.filter_some, if_pos (isName identifier)]
    next =>
      rw [List.filter_eq_self.2 fun c hc => ?_]
      simp only [ne_eq, decide_eq_true_eq]
      rintro rfl
      exact noReturn hc

end Key

/-! ## Where keys are written -/

open Synth Tsx

theorem key_infix_value {options : Options} {service : TypeService} {depth : Nat} {name : String}
    {type : TypeRef} {ps : List Property} {p : Property}
    (object : service.classify type = .object ps) (member : p ∈ ps) :
    (Text.objectKey p.name ++ ": " ++ value options service depth p.name p.type).toList <:+:
      (value options service (depth + 1) name type).toList := by
  obtain ⟨q, qs, rfl⟩ := List.exists_cons_of_ne_nil (List.ne_nil_of_mem member)
  let written (p : Property) : String :=
    Text.objectKey p.name ++ ": " ++ value options service depth p.name p.type
  have inner : (written p).toList <:+: (", ".intercalate ((q :: qs).map written)).toList := by
    rw [String.toList_intercalate, List.map_map]
    exact Lists.infix_intercalate (List.mem_map.2 ⟨p, member, rfl⟩)
  rw [value, object]
  simp only
  refine inner.trans ?_
  rw [String.toList_append, String.toList_append]
  exact ⟨_, _, rfl⟩

theorem entry_begins (r : Region) (indent : String) (d : PropDescriptor) :
    (r.entry indent d).text = "" ∨
      ∃ rest, (r.entry indent d).text = indent ++ Text.objectKey d.name ++ ": " ++ rest := by
  unfold Region.entry
  cases r with
  | argTypes =>
      simp only
      split
      next => exact .inr ⟨_, by rw [String.append_assoc]⟩
      next => exact .inl rfl
  | args =>
      simp only
      split
      next => exact .inr ⟨_, by rw [String.append_assoc]⟩
      next => exact .inr ⟨_, by rw [String.append_assoc, String.append_assoc]⟩

/-- A declared property is written under one key, in both regions and in the default values of
objects. The key stands for the same as the declared one just if that is written without escapes,
without quotes at its ends, and what is written without quotes is a name. -/
theorem keys_survive {x : Syntax} {m : Tree × Option String} {p : Property} {t : Tree}
    {isName : List Nat → Bool} {v : List Nat} (declared : Lower.property? x m = some p)
    (key : m.1.child? .name = some t) (named : Key.name? isName (x.textOf t) = some v) :
    (Key.name? isName (Text.objectKey p.name).toList = some v ↔
      '\\' ∉ Key.inside (x.textOf t) ∧ ¬ Key.QuoteAtEnd (Key.inside (x.textOf t)) ∧
        (Text.isIdentifier p.name = true → isName (Key.unitsOf p.name.toList) = true)) ∧
    (∀ options service r indent, (Region.entry indent (describe options service p) r).text = "" ∨
      ∃ rest, (Region.entry indent (describe options service p) r).text =
        indent ++ Text.objectKey p.name ++ ": " ++ rest) ∧
    ∀ options service depth name type ps, TypeService.classify service type = .object ps → p ∈ ps →
      (Text.objectKey p.name ++ ": " ++ value options service depth p.name p.type).toList <:+:
        (value options service (depth + 1) name type).toList := by
  have name : p.name = x.keyName t := by
    rw [Lower.property?, key, Option.map_some, Option.bind_some] at declared
    obtain ⟨type, -, rfl⟩ := Option.map_eq_some_iff.1 declared
    rfl
  refine ⟨Key.name?_objectKey_eq_iff named ?_, fun options service r indent => ?_,
    fun _ _ _ _ _ _ object member => key_infix_value object member⟩
  · rw [name, Syntax.keyName, String.toList_ofList]
    rfl
  · exact entry_begins r indent (describe options service p)

/-! ## A key with a mark and a key with an escape -/

def markedMember : Tree :=
  .node .propertySignature none 12 18
    [.node .string (some .name) 12 17 [], .node (.token "?") none 17 18 []]

def escapedMember : Tree :=
  .node .propertySignature none 19 26
    [.node .string (some .name) 19 25 [], .node (.token "?") none 25 26 []]

def keySyntax : Syntax where
  source := "interface I\x7b'a-b'?;'c\\'d'?\x7d".toList
  root := .node .program none 0 27
    [.node .interfaceDeclaration none 0 27
      [.node (.token "interface") none 0 9 [], .node .typeIdentifier (some .name) 10 11 [],
        .node .interfaceBody (some .body) 11 27
          [.node (.token "\x7b") none 11 12 [], markedMember, .node (.token ";") none 18 19 [],
            escapedMember, .node (.token "\x7d") none 26 27 []]]]

def isSmallName (us : List Nat) : Bool := !us.isEmpty && us.all fun u => 97 ≤ u && u ≤ 122

theorem keys_survive_of_marked_not_escaped :
    parse keySyntax.source = keySyntax ∧
      (∃ p, Lower.property? keySyntax (markedMember, none) = some p ∧ p.name = "a-b" ∧
        Key.name? isSmallName (Text.objectKey p.name).toList =
          some (Key.unitsOf "a-b".toList)) ∧
      ∃ p, Lower.property? keySyntax (escapedMember, none) = some p ∧ p.name = "c\\'d" ∧
        Key.name? isSmallName (Text.objectKey p.name).toList ≠
          some (Key.unitsOf "c'd".toList) := by
  have marked : Lower.property? keySyntax (markedMember, none) =
      some (.mk "a-b" Lower.anyType true none) := rfl
  have escaped : Lower.property? keySyntax (escapedMember, none) =
      some (.mk "c\\'d" Lower.anyType true none) := rfl
  have markedName : Key.name? isSmallName
      (keySyntax.textOf (.node .string (some .name) 12 17 [])) =
        some (Key.unitsOf "a-b".toList) := by decide +kernel
  have escapedName : Key.name? isSmallName
      (keySyntax.textOf (.node .string (some .name) 19 25 [])) =
        some (Key.unitsOf "c'd".toList) := by decide +kernel
  have survives := (keys_survive marked rfl markedName).1
  have lost := (keys_survive escaped rfl escapedName).1
  refine ⟨parse_eq (by decide +kernel), ⟨_, marked, rfl, survives.2 ⟨?_, ?_, ?_⟩⟩, _, escaped, rfl,
    fun same => (lost.1 same).1 ?_⟩
  · decide +kernel
  · exact Key.trimmed_eq_self_iff.1 (by decide +kernel)
  · exact fun identifier => absurd identifier (by decide +kernel)
  · decide +kernel

end PropStories
