import Mathlib
import PropStories.Proofs.Identity.Names
import PropStories.Text.Quoted

/-!
# Names as identifiers

The name of a component begins with a capital and goes into code as it is, so it should be an
identifier. Two things stand against that: numerals beyond ASCII stay in front, and the upper case
of some accented letters sets the accent apart. Main statement: all other names are identifiers.
-/

namespace PropStories

namespace Text

open Identity

/-! ## Letters and their upper case -/

theorem isIdentifierStart_of_alphabetic {c : Char} (h : isAlphabetic c = true) :
    isIdentifierStart c = true := by
  rw [isIdentifierStart, h]
  rfl

theorem isWordPart_of_start {c : Char} (h : isIdentifierStart c = true) : isWordPart c = true :=
  isIdentifierPart_of_start h

def CaseRun.target (r : CaseRun) (n : Nat) : Nat := ((n : Int) + r.shift).toNat

theorem upperCase_cases (c : Char) :
    c.toNat < 128 ∧ upperCase c = [c.toUpper] ∨
      128 ≤ c.toNat ∧ (∃ us, (c.toNat, us) ∈ longUpperCases ∧ upperCase c = us.map Char.ofNat) ∨
      128 ≤ c.toNat ∧ longUpperCases.lookup c.toNat = none ∧ (upperCase c = [c] ∨
        ∃ r ∈ caseRuns, r.covers c.toNat = true ∧
          upperCase c = [Char.ofNat (r.target c.toNat)]) := by
  unfold upperCase
  simp only
  split
  next ascii => exact .inl ⟨ascii, rfl⟩
  next beyond =>
    refine .inr ?_
    split
    next us found => exact .inl ⟨Nat.not_lt.1 beyond, us, mem_of_lookup found, rfl⟩
    next single =>
      refine .inr ⟨Nat.not_lt.1 beyond, single, ?_⟩
      split
      next r found =>
        exact .inr ⟨r, List.mem_of_find?_eq_some found, by simpa using List.find?_some found, rfl⟩
      next => exact .inl rfl

theorem upperCase_of_apart {c : Char} (beyond : 128 ≤ c.toNat)
    (single : ∀ x ∈ longUpperCases, x.1 ≠ c.toNat)
    (apart : ∀ r ∈ caseRuns, r.covers c.toNat = false) : upperCase c = [c] := by
  obtain ⟨ascii, -⟩ | ⟨-, us, found, -⟩ | ⟨-, -, self | ⟨r, hr, covers, -⟩⟩ := upperCase_cases c
  · omega
  · exact absurd rfl (single _ found)
  · exact self
  · rw [apart r hr] at covers
    cases covers

theorem upperCase_of_isUpper {c : Char} (h : c.isUpper = true) : upperCase c = [c] := by
  have bounds := bounds_of_isUpper h
  have all : ∀ n < 128, (Char.ofNat n).isUpper = true →
      upperCase (Char.ofNat n) = [Char.ofNat n] := by decide +kernel
  simpa using all c.toNat (by show c.val.toNat < 128; omega) (by simpa using h)

/-! ## What the tables say

The comparisons are those of numerals, so that the tables are checked quickly. -/

def areLetters (low high : Nat) : Bool :=
  alphabeticRanges.any fun q => Nat.ble q.1 low && Nat.ble high q.2

/-- What the first run leads to is not covered by the second one, which lies elsewhere or covers
every other code point only. -/
def CaseRun.isApart (r s : CaseRun) : Bool :=
  Nat.blt s.last (r.target r.first) || Nat.blt (r.target r.last) s.first ||
    (Nat.beq r.step 2 || Nat.beq r.first r.last) && Nat.beq s.step 2 &&
      Nat.beq ((r.target r.first + s.first) % 2) 1

/-- The letters whose upper case is a letter with accents that follow it. -/
def accented : List Nat :=
  [496, 912, 944, 7830, 7831, 7832, 7833, 8016, 8018, 8020, 8022, 8118, 8119, 8134, 8135, 8146,
    8147, 8150, 8151, 8162, 8163, 8164, 8166, 8167, 8182, 8183]

structure TablesFit : Prop where
  letters : ∀ r ∈ caseRuns, areLetters r.first r.last = true
  capitals : ∀ r ∈ caseRuns, areLetters (r.target r.first) (r.target r.last) = true ∨
    ∀ k ≤ r.last - r.first, r.covers (r.first + k) = true →
      areLetters (r.target (r.first + k)) (r.target (r.first + k)) = true
  apart : ∀ r ∈ caseRuns, caseRuns.all r.isApart = true
  apartLong : ∀ r ∈ caseRuns, (longUpperCases.all fun x =>
    Nat.blt x.1 (r.target r.first) || Nat.blt (r.target r.last) x.1) = true
  longLetters : ∀ x ∈ longUpperCases, areLetters x.1 x.1 = true
  /-- The first of several capitals is one for itself. -/
  longCapitals : ∀ x ∈ longUpperCases, ∃ u ∈ x.2.head?, areLetters u u = true ∧
    ((Char.ofNat u).isUpper = true ∨ 128 ≤ u ∧ u < 0xD800 ∧
      (caseRuns.all fun r => Nat.blt u r.first || Nat.blt r.last u) = true ∧
      (longUpperCases.all fun x => !Nat.beq x.1 u) = true)
  longAccented : ∀ x ∈ longUpperCases,
    (x.2.all fun u => isWordPart (Char.ofNat u)) = !accented.contains x.1
  accentedLong : ∀ n ∈ accented, (longUpperCases.lookup n).isSome = true

theorem tablesFit : TablesFit where
  letters := by decide +kernel
  capitals := by decide +kernel
  apart := by decide +kernel
  apartLong := by decide +kernel
  longLetters := by decide +kernel
  longCapitals := by decide +kernel
  longAccented := by decide +kernel
  accentedLong := by decide +kernel

/-! ## Capitals -/

theorem isAlphabetic_of_areLetters {c : Char} {low high : Nat}
    (letters : areLetters low high = true) (first : low ≤ c.toNat) (last : c.toNat ≤ high)
    (beyond : 128 ≤ c.toNat) :
    isAlphabetic c = true := by
  obtain ⟨q, hq, within⟩ := List.any_eq_true.1 letters
  rw [Bool.and_eq_true, Nat.ble_eq, Nat.ble_eq] at within
  rw [isAlphabetic, if_neg (Nat.not_lt.2 beyond)]
  refine List.any_eq_true.2 ⟨q, hq, ?_⟩
  rw [CodeRange.covers, Bool.and_eq_true, decide_eq_true_eq, decide_eq_true_eq]
  omega

/-- What upper case makes of a character of a name: a character that is its own upper case and
begins an identifier if the first one does, and nothing that cannot stand in a name, unless the
character is accented. -/
structure IsCapital (c d : Char) (ds : List Char) : Prop where
  upperCase : upperCase c = d :: ds
  capital : Text.upperCase d = [d]
  start : isIdentifierStart d = isIdentifierStart c
  parts : (d :: ds).all isWordPart = true ↔ c.toNat ∉ accented

theorem not_accented_of_single {n : Nat} (single : longUpperCases.lookup n = none) :
    n ∉ accented := by
  intro member
  have several := tablesFit.accentedLong n member
  rw [single] at several
  cases several

theorem isCapital_ascii {c : Char} (part : isWordPart c = true) (ascii : c.toNat < 128) :
    IsCapital c c.toUpper [] := by
  have all : ∀ n < 128, isWordPart (Char.ofNat n) = true →
      upperCase (Char.ofNat n) = [(Char.ofNat n).toUpper] ∧
      upperCase (Char.ofNat n).toUpper = [(Char.ofNat n).toUpper] ∧
      isIdentifierStart (Char.ofNat n).toUpper = isIdentifierStart (Char.ofNat n) ∧
      isWordPart (Char.ofNat n).toUpper = true ∧ n ∉ accented := by decide +kernel
  obtain ⟨upper, capital, start, parts, plain⟩ := all c.toNat ascii (by simpa using part)
  rw [Char.ofNat_toNat] at upper capital start parts
  exact ⟨upper, capital, start, iff_of_true (by rw [List.all_cons, parts]; rfl) plain⟩

theorem isAlphabetic_of_isUpper {c : Char} (h : c.isUpper = true) : isAlphabetic c = true := by
  have bounds := bounds_of_isUpper h
  refine isAlphabetic_of_isAlpha ?_ (by show c.val.toNat < 128; omega)
  show (c.isUpper || c.isLower) = true
  rw [h, Bool.true_or]

theorem isCapital_long {c : Char} {us : List Nat} (found : (c.toNat, us) ∈ longUpperCases)
    (beyond : 128 ≤ c.toNat) (upper : upperCase c = us.map Char.ofNat) :
    ∃ d ds, IsCapital c d ds := by
  obtain ⟨u, first, letter, fixed⟩ := tablesFit.longCapitals _ found
  obtain ⟨rest, rfl⟩ : ∃ rest, us = u :: rest := by
    cases us with
    | nil => cases first
    | cons v rest => exact ⟨rest, by rw [Option.some.inj first]⟩
  have from_ : isAlphabetic c = true :=
    isAlphabetic_of_areLetters (tablesFit.longLetters _ found) Nat.le.refl Nat.le.refl beyond
  have parts := tablesFit.longAccented _ found
  have capital : upperCase (Char.ofNat u) = [Char.ofNat u] ∧
      isAlphabetic (Char.ofNat u) = true := by
    obtain capital | ⟨high, low, apart, single⟩ := fixed
    · exact ⟨upperCase_of_isUpper capital, isAlphabetic_of_isUpper capital⟩
    · have same : (Char.ofNat u).toNat = u := by
        rw [Char.toNat_ofNat, if_pos (.inl low)]
      refine ⟨upperCase_of_apart (by omega) (fun x hx eq => ?_) (fun r hr => ?_), ?_⟩
      · have := List.all_eq_true.1 single x hx
        rw [eq, same, Nat.beq_refl] at this
        cases this
      · have := List.all_eq_true.1 apart r hr
        rw [Bool.or_eq_true, Nat.blt_eq, Nat.blt_eq] at this
        rw [same, CaseRun.covers]
        simp only [Bool.and_eq_false_iff, decide_eq_false_iff_not]
        omega
      · exact isAlphabetic_of_areLetters letter (by omega) (by omega) (by omega)
  refine ⟨_, _, upper, capital.1, ?_, ?_⟩
  · rw [isIdentifierStart_of_alphabetic from_, isIdentifierStart_of_alphabetic capital.2]
  · rw [← List.map_cons, List.all_map, Function.comp_def, parts, Bool.not_eq_true',
      List.contains_eq_mem, decide_eq_false_iff_not]

theorem CaseRun.covers_iff {r : CaseRun} {n : Nat} : r.covers n = true ↔
    (r.first ≤ n ∧ n ≤ r.last) ∧ (n - r.first) % r.step = 0 := by
  rw [CaseRun.covers, Bool.and_eq_true, Bool.and_eq_true, decide_eq_true_eq, decide_eq_true_eq,
    beq_iff_eq]

theorem CaseRun.covers_target {r s : CaseRun} {n : Nat} (apart : r.isApart s = true)
    (covers : r.covers n = true) (low : 0 ≤ r.first + r.shift) : s.covers (r.target n) = false := by
  rw [Bool.eq_false_iff]
  intro both
  obtain ⟨within, step⟩ := covers_iff.1 covers
  obtain ⟨within', step'⟩ := covers_iff.1 both
  simp only [isApart, target, Bool.or_eq_true, Bool.and_eq_true, Nat.blt_eq, Nat.beq_eq] at *
  obtain (before | after) | ⟨⟨every, other⟩, odd⟩ := apart
  · omega
  · omega
  · rw [other] at step'
    obtain two | single := every
    · rw [two] at step
      omega
    · omega

theorem isCapital_run {c : Char} {r : CaseRun} (hr : r ∈ caseRuns)
    (covers : r.covers c.toNat = true) (beyond : 128 ≤ c.toNat)
    (single : longUpperCases.lookup c.toNat = none)
    (upper : upperCase c = [Char.ofNat (r.target c.toNat)]) :
    IsCapital c (Char.ofNat (r.target c.toNat)) [] := by
  obtain ⟨within, step⟩ := CaseRun.covers_iff.1 covers
  have from_ : isAlphabetic c = true :=
    isAlphabetic_of_areLetters (tablesFit.letters r hr) within.1 within.2 beyond
  have capital : upperCase (Char.ofNat (r.target c.toNat)) = [Char.ofNat (r.target c.toNat)] ∧
      isAlphabetic (Char.ofNat (r.target c.toNat)) = true := by
    obtain small | ⟨only, capital⟩ | ⟨far, valid⟩ := caseRuns_lead r hr
    · omega
    · have capital : (Char.ofNat (r.target c.toNat)).isUpper = true := by
        rwa [show c.toNat = r.first by omega]
      exact ⟨upperCase_of_isUpper capital, isAlphabetic_of_isUpper capital⟩
    · have target : r.target c.toNat = ((c.toNat : Int) + r.shift).toNat := rfl
      have same : (Char.ofNat (r.target c.toNat)).toNat = r.target c.toNat := by
        rw [Char.toNat_ofNat, if_pos (by rw [Nat.isValidChar]; omega)]
      refine ⟨upperCase_of_apart (by omega) (fun x hx eq => ?_) (fun s hs => ?_), ?_⟩
      · have := List.all_eq_true.1 (tablesFit.apartLong r hr) x hx
        rw [Bool.or_eq_true, Nat.blt_eq, Nat.blt_eq] at this
        simp only [CaseRun.target] at *
        omega
      · rw [same]
        exact CaseRun.covers_target (List.all_eq_true.1 (tablesFit.apart r hr) s hs) covers
          (by omega)
      · obtain whole | each := tablesFit.capitals r hr
        · simp only [CaseRun.target] at *
          exact isAlphabetic_of_areLetters whole (by omega) (by omega) (by omega)
        · have place : r.first + (c.toNat - r.first) = c.toNat := by omega
          have letter := each (c.toNat - r.first) (by omega) (by rwa [place])
          rw [place] at letter
          exact isAlphabetic_of_areLetters letter (by omega) (by omega) (by omega)
  have start := isIdentifierStart_of_alphabetic capital.2
  refine ⟨upper, capital.1, ?_, iff_of_true ?_ (not_accented_of_single single)⟩
  · rw [start, isIdentifierStart_of_alphabetic from_]
  · rw [List.all_cons, isWordPart_of_start start]
    rfl

theorem exists_isCapital {c : Char} (part : isWordPart c = true) : ∃ d ds, IsCapital c d ds := by
  obtain ⟨ascii, -⟩ | ⟨beyond, us, found, upper⟩ |
    ⟨beyond, single, self | ⟨r, hr, covers, upper⟩⟩ := upperCase_cases c
  · exact ⟨_, _, isCapital_ascii part ascii⟩
  · exact isCapital_long found beyond upper
  · refine ⟨c, [], self, self, rfl, iff_of_true ?_ (not_accented_of_single single)⟩
    rw [List.all_cons, part]
    rfl
  · exact ⟨_, _, isCapital_run hr covers beyond single upper⟩

theorem ascii_of_isDigit {c : Char} (h : c.isDigit = true) : c.toNat < 128 := by
  simp only [Char.isDigit, Bool.and_eq_true, decide_eq_true_eq, UInt32.le_iff_toNat_le] at h
  have nine : '9'.val.toNat = 57 := rfl
  show c.val.toNat < 128
  omega

theorem upperCase_of_isDigit {c : Char} (h : c.isDigit = true) : upperCase c = [c] := by
  have all : ∀ n < 128, (Char.ofNat n).isDigit = true →
      upperCase (Char.ofNat n) = [Char.ofNat n] := by decide +kernel
  simpa using all c.toNat (ascii_of_isDigit h) (by simpa using h)

theorem IsCapital.isDigit {c d : Char} {ds : List Char} (h : IsCapital c d ds)
    (noDigit : c.isDigit = false) : d.isDigit = false := by
  rw [Bool.eq_false_iff]
  intro digit
  obtain upper | ⟨rfl, -⟩ :=
    of_mem_upperCase (h.upperCase ▸ List.mem_cons_self) (ascii_of_isDigit digit)
  · rw [isDigit_of_isUpper upper] at digit
    cases digit
  · rw [noDigit] at digit
    cases digit

end Text

namespace Identity

open Text

/-! ## Words -/

def rawName (component root : Path) : List Char :=
  let stem := withoutStructuralEnding ((component.fileStem?).getD "").toList
  match (located component root).parent?.bind Path.fileName? with
  | some directory =>
      if isIndex stem || sameIgnoringCase stem directory.toList then directory.toList else stem
  | none => stem

def named : List Char → DisplayName
  | [] => .fallback
  | c :: cs => .derived (String.ofList (c :: cs))

theorem displayName_eq (component root : Path) :
    displayName component root = named (toIdentifier (rawName component root)) := by
  unfold displayName rawName
  cases (located component root).parent?.bind Path.fileName? with
  | none =>
      simp only
      cases toIdentifier _ <;> rfl
  | some directory =>
      simp only
      cases toIdentifier _ <;> rfl

def nameWords (raw : List Char) : List (List Char) := splitWhere (fun c => !isWordPart c) raw

/-- The first character of a name that can stand in front: the first one of a word, digits apart. -/
def leading? (raw : List Char) : Option Char := raw.find? fun c => isWordPart c && !c.isDigit

def joinedWords (raw : List Char) : List Char := ((nameWords raw).map capitalize).flatten

theorem toIdentifier_eq (raw : List Char) :
    toIdentifier raw = capitalize ((joinedWords raw).dropWhile Char.isDigit) := rfl

theorem flatten_splitWhere (p : Char → Bool) (cs : List Char) :
    (splitWhere p cs).flatten = cs.filter fun c => !p c := by
  induction cs with
  | nil => rfl
  | cons c cs ih =>
      rw [splitWhere, List.filter_cons]
      split
      next gap =>
        rw [gap, List.flatten_cons, List.nil_append, ih]
        rfl
      next part =>
        rw [Bool.not_eq_true] at part
        rw [part]
        split
        next none => exact absurd none (splitWhere_ne_nil p cs)
        next piece pieces split_ =>
          rw [split_] at ih
          rw [List.flatten_cons, List.cons_append, ← List.flatten_cons, ih]
          rfl

theorem isWordPart_of_mem {raw w : List Char} (hw : w ∈ nameWords raw) :
    ∀ c ∈ w, isWordPart c = true := fun c hc => by
  simpa using Text.of_mem_splitWhere hw c hc

theorem isWordPart_of_leading? {raw : List Char} {c : Char} (h : leading? raw = some c) :
    isWordPart c = true := by
  have both := List.find?_some h
  simp only [Bool.and_eq_true] at both
  exact both.1

theorem leading?_eq (raw : List Char) :
    leading? raw = (nameWords raw).findSome? (·.find? fun c => !c.isDigit) := by
  rw [← List.find?_flatten, nameWords, flatten_splitWhere, leading?]
  simp only [Bool.not_not, List.find?_filter]
  refine congrArg (List.find? · raw) (funext fun c => ?_)
  rw [Bool.decide_and, Bool.decide_eq_true, Bool.decide_eq_true]

theorem find?_joinedWords (raw : List Char) : (joinedWords raw).find? (fun c => !c.isDigit) =
    (nameWords raw).findSome? fun w => (capitalize w).find? fun c => !c.isDigit := by
  rw [joinedWords, List.find?_flatten, List.findSome?_map]
  rfl

/-- The first character of a word in capitals, digits apart, is that of the word, unless it is the
capital at the front of it. -/
theorem find?_capitalize {w : List Char} (parts : ∀ c ∈ w, isWordPart c = true) :
    w.find? (fun c => !c.isDigit) = none ∧ (capitalize w).find? (fun c => !c.isDigit) = none ∨
      ∃ c d, w.find? (fun c => !c.isDigit) = some c ∧
        (capitalize w).find? (fun c => !c.isDigit) = some d ∧
        (d = c ∨ w.head? = some c ∧ ∃ ds, IsCapital c d ds) := by
  cases w with
  | nil => exact .inl ⟨rfl, rfl⟩
  | cons c cs =>
      rw [capitalize]
      by_cases digit : c.isDigit = true
      · rw [upperCase_of_isDigit digit, List.singleton_append]
        cases found : (c :: cs).find? fun c => !c.isDigit with
        | none => exact .inl ⟨rfl, rfl⟩
        | some d => exact .inr ⟨d, d, rfl, rfl, .inl rfl⟩
      · rw [Bool.not_eq_true] at digit
        obtain ⟨d, ds, capital⟩ := exists_isCapital (parts c List.mem_cons_self)
        refine .inr ⟨c, d, ?_, ?_, .inr ⟨rfl, ds, capital⟩⟩
        · exact List.find?_cons_of_pos (by rw [digit]; rfl)
        · rw [capital.upperCase, List.cons_append]
          exact List.find?_cons_of_pos (by rw [capital.isDigit digit]; rfl)

theorem findSome?_capitalize {ws : List (List Char)}
    (parts : ∀ w ∈ ws, ∀ c ∈ w, isWordPart c = true) :
    ws.findSome? (·.find? fun c => !c.isDigit) = none ∧
        (ws.findSome? fun w => (capitalize w).find? fun c => !c.isDigit) = none ∨
      ∃ c d, ws.findSome? (·.find? fun c => !c.isDigit) = some c ∧
        (ws.findSome? fun w => (capitalize w).find? fun c => !c.isDigit) = some d ∧
        (d = c ∨ ∃ w ∈ ws, w.head? = some c ∧ ∃ ds, IsCapital c d ds) := by
  induction ws with
  | nil => exact .inl ⟨rfl, rfl⟩
  | cons w ws ih =>
      rw [List.findSome?_cons, List.findSome?_cons]
      obtain ⟨none, none'⟩ | ⟨c, d, found, found', related⟩ :=
        find?_capitalize (parts w List.mem_cons_self)
      · rw [none, none']
        obtain both | ⟨c, d, found, found', related⟩ :=
          ih fun v hv => parts v (List.mem_cons_of_mem _ hv)
        · exact .inl both
        · refine .inr ⟨c, d, found, found', related.imp_right ?_⟩
          rintro ⟨v, hv, capital⟩
          exact ⟨v, List.mem_cons_of_mem _ hv, capital⟩
      · rw [found, found']
        exact .inr ⟨c, d, rfl, rfl, related.imp_right fun capital =>
          ⟨w, List.mem_cons_self, capital⟩⟩

def HasPlainWords (raw : List Char) : Prop :=
  ∀ w ∈ nameWords raw, ∀ c, w.head? = some c → c.toNat ∉ accented

theorem all_joinedWords (raw : List Char) :
    (joinedWords raw).all isWordPart = true ↔ HasPlainWords raw := by
  rw [joinedWords, List.all_flatten, List.all_map, List.all_eq_true]
  refine forall_congr' fun w => forall_congr' fun hw => ?_
  have parts := isWordPart_of_mem hw
  cases w with
  | nil => exact iff_of_true rfl nofun
  | cons c cs =>
      obtain ⟨d, ds, capital⟩ := exists_isCapital (parts c List.mem_cons_self)
      have rest : cs.all isWordPart = true :=
        List.all_eq_true.2 fun e he => parts e (List.mem_cons_of_mem _ he)
      rw [Function.comp_apply, capitalize, capital.upperCase, List.all_append, rest, Bool.and_true,
        capital.parts, List.head?_cons]
      exact ⟨fun plain e he => Option.some.inj he ▸ plain, fun plain => plain c rfl⟩

theorem dropWhile_joinedWords (raw : List Char) :
    leading? raw = none ∧ (joinedWords raw).dropWhile Char.isDigit = [] ∨
      ∃ c d ds, leading? raw = some c ∧ (joinedWords raw).dropWhile Char.isDigit = d :: ds ∧
        (d = c ∨ ∃ w ∈ nameWords raw, w.head? = some c ∧ ∃ ds, IsCapital c d ds) := by
  have head : ((joinedWords raw).dropWhile Char.isDigit).head? =
      (joinedWords raw).find? fun c => !c.isDigit :=
    (List.find?_not_eq_head?_dropWhile _ _).symm
  rw [find?_joinedWords] at head
  rw [leading?_eq]
  obtain ⟨none, none'⟩ | ⟨c, d, found, found', related⟩ :=
    findSome?_capitalize fun _ (hw : _ ∈ nameWords raw) => isWordPart_of_mem hw
  · exact .inl ⟨none, List.head?_eq_none_iff.1 (head.trans none')⟩
  · obtain ⟨ds, eq⟩ := List.head?_eq_some_iff.1 (head.trans found')
    exact .inr ⟨c, d, ds, found, eq, related⟩

theorem isWordPart_of_isDigit {c : Char} (h : c.isDigit = true) : isWordPart c = true := by
  rw [isWordPart, isAlphanumeric, isNumeric, if_pos (ascii_of_isDigit h), h]
  simp

theorem all_dropWhile_joinedWords (raw : List Char) :
    ((joinedWords raw).dropWhile Char.isDigit).all isWordPart = true ↔ HasPlainWords raw := by
  have digits : ((joinedWords raw).takeWhile Char.isDigit).all isWordPart = true :=
    List.all_eq_true.2 fun c hc => isWordPart_of_isDigit (List.mem_takeWhile_imp hc)
  have split : (joinedWords raw).all isWordPart =
      ((joinedWords raw).dropWhile Char.isDigit).all isWordPart := by
    rw [← Bool.true_and (((joinedWords raw).dropWhile _).all _), ← digits, ← List.all_append,
      List.takeWhile_append_dropWhile]
  rw [← all_joinedWords, split]

theorem isIdentifier_ofList (c : Char) (cs : List Char) :
    isIdentifier (String.ofList (c :: cs)) = true ↔
      isIdentifierStart c = true ∧ cs.all isWordPart = true := by
  rw [isIdentifier, String.toList_ofList, Bool.and_eq_true]
  rfl

/-- A name that is not empty begins with a capital, and is an identifier if its leading character
can begin one and nothing in it is accented. -/
theorem toIdentifier_cases (raw : List Char) :
    leading? raw = none ∧ toIdentifier raw = [] ∧ HasPlainWords raw ∨
      ∃ c e es, leading? raw = some c ∧ toIdentifier raw = e :: es ∧ upperCase e = [e] ∧
        (isIdentifier (String.ofList (e :: es)) = true ↔
          (isIdentifierStart c = true ∧ c.toNat ∉ accented) ∧ HasPlainWords raw) := by
  have plain := all_dropWhile_joinedWords raw
  rw [toIdentifier_eq]
  obtain ⟨none, rest⟩ | ⟨c, d, ds, found, rest, related⟩ := dropWhile_joinedWords raw
  · rw [rest] at plain ⊢
    exact .inl ⟨none, rfl, plain.1 rfl⟩
  rw [rest, List.all_cons, Bool.and_eq_true] at plain
  have part : isWordPart c = true := isWordPart_of_leading? found
  obtain rfl | ⟨w, hw, first, ds', capital⟩ := related
  -- The leading character stands within a word or becomes a capital only now.
  · obtain ⟨e, es, capital⟩ := exists_isCapital part
    refine .inr ⟨d, e, es ++ ds, found, ?_, capital.capital, ?_⟩
    · rw [rest, capitalize, capital.upperCase, List.cons_append]
    · rw [isIdentifier_ofList, List.all_append, Bool.and_eq_true, capital.start, and_assoc,
        ← capital.parts, List.all_cons, Bool.and_eq_true, ← plain]
      refine and_congr_right fun start => ?_
      have part' : isWordPart e = true := isWordPart_of_start (capital.start.trans start)
      constructor
      · rintro ⟨own, others⟩
        exact ⟨⟨part', own⟩, part, others⟩
      · rintro ⟨⟨-, own⟩, -, others⟩
        exact ⟨own, others⟩
  · refine .inr ⟨c, d, ds, found, ?_, capital.capital, ?_⟩
    · rw [rest, capitalize, capital.capital, List.singleton_append]
    · rw [isIdentifier_ofList, capital.start, and_assoc]
      refine and_congr_right fun start => ?_
      have part' : isWordPart d = true := isWordPart_of_start (capital.start.trans start)
      constructor
      · intro others
        have words := plain.1 ⟨part', others⟩
        exact ⟨words w hw c first, words⟩
      · rintro ⟨-, words⟩
        exact (plain.2 words).2

/-! ## Names of components -/

/-- The name of a component is not empty and begins with a character that is its own upper case. It
is an identifier just if the first character besides digits of what it is made from can begin one,
and neither that character nor the first one of a word is an accented letter whose upper case sets
the accents apart. -/
theorem displayName_isIdentifier (component root : Path) :
    (displayName component root).text ≠ "" ∧
      (∀ d, (displayName component root).text.toList.head? = some d → upperCase d = [d]) ∧
      (isIdentifier (displayName component root).text = true ↔
        (∀ c, leading? (rawName component root) = some c →
          isIdentifierStart c = true ∧ c.toNat ∉ accented) ∧
        HasPlainWords (rawName component root)) := by
  rw [displayName_eq]
  obtain ⟨none, empty, words⟩ | ⟨c, e, es, found, name, capital, identifier⟩ :=
    toIdentifier_cases (rawName component root)
  · rw [empty, named, none]
    refine ⟨by decide, fun d first => ?_, iff_of_true (by decide +kernel) ⟨nofun, words⟩⟩
    obtain rfl := Option.some.inj first
    decide +kernel
  · rw [name, named, found]
    refine ⟨fun eq => ?_, fun d first => ?_, ?_⟩
    · have := congrArg String.toList eq
      rw [DisplayName.text, String.toList_ofList] at this
      cases this
    · rw [DisplayName.text, String.toList_ofList] at first
      obtain rfl := Option.some.inj first
      exact capital
    · rw [DisplayName.text, identifier]
      exact and_congr_left fun _ => ⟨fun h d eq => Option.some.inj eq ▸ h, fun h => h c rfl⟩

example : (displayName ⟨"c/2①.tsx"⟩ ⟨"c"⟩).text = "①" := by decide +kernel

end Identity

end PropStories
