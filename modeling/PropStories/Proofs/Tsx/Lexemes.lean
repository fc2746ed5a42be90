import PropStories.Proofs.Tsx.Refusal
import PropStories.Text.Quoted

/-!
# Lexemes that stand alone

A literal that was read in one text is read again in another one: the end of a string shows in the
string itself, and a number ends wherever no letter, digit, point or underscore follows. So the
literals of a source can be written elsewhere.
-/

namespace PropStories.Tsx

open Lexeme

/-! ## Strings -/

structure IsString (w : List Char) : Prop where
  start : ∃ q cs, w = q :: cs ∧ (q = '\x27' ∨ q = '\x22')
  reads : ∀ rest, string? (w ++ rest) = some w.length

/-- The code of an escape shows in its own text. -/
theorem codeTail?_take {cs : List Char} {n : Nat} (h : codeTail? cs = some n) :
    n ≤ cs.length ∧ ∀ more, codeTail? (cs.take n ++ more) = some n := by
  unfold codeTail? at h
  split at h
  next cs =>
    simp only at h
    split at h
    next closed =>
      obtain rfl := Option.some.inj h
      simp only [Bool.and_eq_true, decide_eq_true_eq, beq_iff_eq] at closed
      obtain ⟨positive, brace⟩ := closed
      generalize digits : cs.takeWhile isHexDigit = ds at positive brace
      have inside : ∀ d ∈ ds, isHexDigit d = true := by
        rw [← digits]
        exact List.all_eq_true.1 List.all_takeWhile
      have split := List.takeWhile_append_dropWhile (p := isHexDigit) (l := cs)
      rw [digits] at split
      generalize cs.dropWhile isHexDigit = tail at split
      subst split
      rw [List.drop_left] at brace
      obtain ⟨rest, rfl⟩ := List.head?_eq_some_iff.1 brace
      refine ⟨by simp, fun more => ?_⟩
      have text : ('\x7b' :: (ds ++ '\x7d' :: rest)).take (ds.length + 2) ++ more =
          '\x7b' :: (ds ++ '\x7d' :: more) := by
        rw [List.take_succ_cons, List.take_append, List.take_of_length_le (by omega)]
        simp [show ds.length + 1 - ds.length = 1 by omega]
      rw [text, codeTail?]
      have run : (ds ++ '\x7d' :: more).takeWhile isHexDigit = ds := by
        rw [List.takeWhile_append_of_pos inside, List.takeWhile_cons_of_neg (by decide),
          List.append_nil]
      simp [run, positive]
    next => cases h
  next a b c d rest other =>
    split at h
    next digits =>
      obtain rfl := Option.some.inj h
      refine ⟨by simp, fun more => ?_⟩
      show codeTail? (a :: b :: c :: d :: ([] ++ more)) = some 4
      rw [codeTail?, if_pos digits]
      exact other
    next => cases h
  next => cases h

theorem escapeTail?_take {cs : List Char} {n : Nat} (h : escapeTail? cs = some n) :
    1 ≤ n ∧ n ≤ cs.length ∧ ∀ j more, n < j → j ≤ cs.length →
      escapeTail? (cs.take j ++ more) = some n := by
  unfold escapeTail? at h
  split at h
  next a b rest =>
    split at h
    next digits =>
      obtain rfl := Option.some.inj h
      refine ⟨by omega, by simp, fun j more long _ => ?_⟩
      obtain ⟨j, rfl⟩ : ∃ i, j = i + 3 := ⟨j - 3, by omega⟩
      show escapeTail? ('x' :: a :: b :: (rest.take j ++ more)) = some 3
      rw [escapeTail?, if_pos digits]
    next => cases h
  next => cases h
  next cs =>
    obtain ⟨m, hm, rfl⟩ := Option.map_eq_some_iff.1 h
    obtain ⟨short, code⟩ := codeTail?_take hm
    refine ⟨by omega, by simpa using short, fun j more long fits => ?_⟩
    obtain ⟨j, rfl⟩ : ∃ i, j = i + 1 := ⟨j - 1, by omega⟩
    have whole : cs.take j = cs.take m ++ (cs.drop m).take (j - m) := by
      rw [← List.take_add]
      congr 1
      omega
    rw [List.take_succ_cons, List.cons_append, escapeTail?, whole, List.append_assoc, code]
    rfl
  next rest =>
    obtain rfl := Option.some.inj h
    refine ⟨by omega, by simp, fun j more long _ => ?_⟩
    obtain ⟨j, rfl⟩ : ∃ i, j = i + 2 := ⟨j - 2, by omega⟩
    rfl
  next c rest noHex noX noCode noPair =>
    obtain rfl := Option.some.inj h
    refine ⟨by omega, by simp, fun j more long fits => ?_⟩
    obtain ⟨j, rfl⟩ : ∃ i, j = i + 2 := ⟨j - 2, by omega⟩
    cases rest with
    | nil => simp at fits
    | cons d rest =>
        rw [List.take_succ_cons, List.take_succ_cons, List.cons_append, List.cons_append]
        unfold escapeTail?
        split <;> simp_all
  next => cases h

theorem stringTail?_take {q : Char} {fuel : Nat} {cs : List Char} {n : Nat}
    (h : stringTail? q fuel cs = some n) : 1 ≤ n ∧ n ≤ cs.length ∧
      ∀ fuel' more, n ≤ fuel' → stringTail? q fuel' (cs.take n ++ more) = some n := by
  induction fuel generalizing cs n with
  | zero => cases h
  | succ fuel ih =>
      cases cs with
      | nil => cases h
      | cons c cs =>
          rw [stringTail?] at h
          have step {m k : Nat} (hm : stringTail? q fuel (cs.drop k) = some m) :
              1 ≤ m ∧ m ≤ (cs.drop k).length := ⟨(ih hm).1, (ih hm).2.1⟩
          split at h
          next closes =>
            obtain rfl := Option.some.inj h
            refine ⟨by omega, by simp, fun fuel' more enough => ?_⟩
            obtain ⟨fuel', rfl⟩ : ∃ f, fuel' = f + 1 := ⟨fuel' - 1, by omega⟩
            rw [List.take_succ_cons, List.cons_append, stringTail?, if_pos closes]
          next inside =>
            split at h
            next => cases h
            next sameLine =>
              split at h
              next escape =>
                split at h
                next k hk =>
                  obtain ⟨m, hm, rfl⟩ := Option.map_eq_some_iff.1 h
                  obtain ⟨positive, short, goes⟩ := ih hm
                  obtain ⟨-, within, code⟩ := escapeTail?_take hk
                  rw [List.length_drop] at short
                  refine ⟨by omega, by simp; omega, fun fuel' more enough => ?_⟩
                  obtain ⟨fuel', rfl⟩ : ∃ f, fuel' = f + 1 := ⟨fuel' - 1, by omega⟩
                  have rest : (cs.take (m + k) ++ more).drop k = (cs.drop k).take m ++ more := by
                    rw [List.drop_append_of_le_length (by rw [List.length_take]; omega),
                      List.drop_take, Nat.add_sub_cancel]
                  rw [← Nat.add_assoc, List.take_succ_cons, List.cons_append, stringTail?,
                    if_neg inside, if_neg sameLine, if_pos escape, code (m + k) more (by omega)
                    (by omega)]
                  simp only [rest, goes fuel' more (by omega), Option.map_some, Nat.add_assoc]
                next => cases h
              next plain =>
                obtain ⟨m, hm, rfl⟩ := Option.map_eq_some_iff.1 h
                obtain ⟨positive, short, goes⟩ := ih hm
                refine ⟨by omega, by simpa using short, fun fuel' more enough => ?_⟩
                obtain ⟨fuel', rfl⟩ : ∃ f, fuel' = f + 1 := ⟨fuel' - 1, by omega⟩
                rw [List.take_succ_cons, List.cons_append, stringTail?, if_neg inside,
                  if_neg sameLine, if_neg plain, goes fuel' more (by omega)]
                rfl

theorem isString_take {cs : List Char} {n : Nat} (h : string? cs = some n) :
    IsString (cs.take n) := by
  unfold string? at h
  split at h
  next q cs =>
    split at h
    next quote =>
      obtain ⟨m, hm, rfl⟩ := Option.map_eq_some_iff.1 h
      obtain ⟨-, short, goes⟩ := stringTail?_take hm
      rw [Bool.or_eq_true, beq_iff_eq, beq_iff_eq] at quote
      refine ⟨⟨q, cs.take m, List.take_succ_cons, quote⟩, fun rest => ?_⟩
      rw [List.take_succ_cons, List.cons_append, string?, if_pos (by simpa using quote),
        goes _ rest (by rw [List.length_append, List.length_take]; omega), List.length_cons,
        List.length_take_of_le short]
      rfl
    next => cases h
  next => cases h

/-- The inside of a string between quotes `q`, whose escapes are of one character each. -/
inductive IsInside (q : Char) : List Char → Prop
  | nil : IsInside q []
  | plain {c : Char} {cs : List Char} (plain : c ≠ q ∧ c ≠ '\\' ∧ c ≠ '\n' ∧ c ≠ '\r')
      (rest : IsInside q cs) : IsInside q (c :: cs)
  | escape {c : Char} {cs : List Char} (single : c ∉ ['x', 'u', '\r']) (rest : IsInside q cs) :
      IsInside q ('\\' :: c :: cs)

theorem escapeTail?_single {c : Char} (single : c ∉ ['x', 'u', '\r']) (cs : List Char) :
    escapeTail? (c :: cs) = some 1 := by
  unfold escapeTail?
  split <;> simp_all

theorem IsInside.stringTail? {q : Char} {cs : List Char} (h : IsInside q cs) (quote : q ≠ '\\')
    (rest : List Char) {fuel : Nat} (enough : cs.length < fuel) :
    Lexeme.stringTail? q fuel (cs ++ q :: rest) = some (cs.length + 1) := by
  induction h generalizing fuel with
  | nil =>
      obtain ⟨fuel, rfl⟩ : ∃ f, fuel = f + 1 := ⟨fuel - 1, by omega⟩
      rw [List.nil_append, Lexeme.stringTail?, if_pos (beq_self_eq_true q)]
      rfl
  | plain plain _ ih =>
      obtain ⟨fuel, rfl⟩ : ∃ f, fuel = f + 1 := ⟨fuel - 1, by omega⟩
      obtain ⟨noQuote, noEscape, noFeed, noReturn⟩ := plain
      rw [List.cons_append, Lexeme.stringTail?, if_neg (by simpa using noQuote),
        if_neg (by simp [noFeed, noReturn]), if_neg (by simpa using noEscape),
        ih (by simpa using enough)]
      rfl
  | @escape c cs single _ ih =>
      obtain ⟨fuel, rfl⟩ : ∃ f, fuel = f + 1 := ⟨fuel - 1, by omega⟩
      rw [List.cons_append, Lexeme.stringTail?, if_neg (by simpa using quote.symm),
        if_neg (by decide), if_pos (by decide), List.cons_append, escapeTail?_single single]
      show (Lexeme.stringTail? q fuel (cs ++ q :: rest)).map (· + 2) = _
      rw [ih (by simp only [List.length_cons] at enough; omega)]
      rfl

theorem IsInside.isString {q : Char} {cs : List Char} (h : IsInside q cs)
    (quote : q = '\x27' ∨ q = '\x22') : IsString (q :: (cs ++ [q])) where
  start := ⟨_, _, rfl, quote⟩
  reads rest := by
    have proper : q ≠ '\\' := by
      obtain rfl | rfl := quote <;> decide
    rw [List.cons_append, List.append_assoc, string?, if_pos (by simpa using quote)]
    simp only [List.singleton_append]
    rw [h.stringTail? proper rest (by rw [List.length_append]; omega)]
    simp

/-- What is written between single quotes is the inside of a string. -/
theorem isInside_encode (cs : List Char) : IsInside '\x27' (Text.Quoted.encode cs) := by
  induction cs with
  | nil => exact .nil
  | cons c cs ih =>
      rw [Text.Quoted.encode]
      split
      next => exact .escape (by decide) ih
      next backslash =>
        split
        next => exact .escape (by decide) ih
        next quote =>
          split
          next => exact .escape (by decide) ih
          next feed =>
            split
            next => exact ih
            next carriage => exact .plain ⟨quote, backslash, feed, carriage⟩ ih

theorem isString_encode (cs : List Char) :
    IsString ('\x27' :: (Text.Quoted.encode cs ++ ['\x27'])) :=
  (isInside_encode cs).isString (.inl rfl)

theorem isString_quote (s : String) : IsString (Text.Quoted.quote s).toList := by
  have text : (Text.Quoted.quote s).toList =
      '\x27' :: (Text.Quoted.encode s.toList ++ ['\x27']) := by
    simp [Text.Quoted.quote_eq]
  rw [text]
  exact isString_encode s.toList

theorem encode_of_plain {cs : List Char}
    (h : ∀ c ∈ cs, c ≠ '\\' ∧ c ≠ '\x27' ∧ c ≠ '\n' ∧ c ≠ '\r') :
    Text.Quoted.encode cs = cs := by
  induction cs with
  | nil => rfl
  | cons c cs ih =>
      obtain ⟨backslash, quote, feed, carriage⟩ := h c List.mem_cons_self
      rw [Text.Quoted.encode, if_neg backslash, if_neg quote, if_neg feed, if_neg carriage,
        ih fun d hd => h d (List.mem_cons_of_mem _ hd)]

/-! ## Numbers -/

/-- Nothing with which a number goes on stands in front of the text. -/
def EndsNumber (cs : List Char) : Prop :=
  ∀ c rest, cs = c :: rest → c.isAlphanum = false ∧ c ≠ '_' ∧ c ≠ '.'

structure IsNumber (w : List Char) : Prop where
  start : ∃ c cs, w = c :: cs ∧ (c.isDigit = true ∨ c = '.')
  reads : ∀ rest, EndsNumber rest → number? (w ++ rest) = some w.length

section

variable {p : Char → Bool} {c : Char} {cs more : List Char}

theorem digits_of_digit (h : p c = true) : digits p (c :: cs) = digits p cs + 1 := by
  cases cs <;> simp [digits, h]

theorem digits_of_score {d : Char} (h : p '_' = false) (next : p d = true) :
    digits p ('_' :: d :: cs) = digits p (d :: cs) + 1 := by
  cases cs <;> simp [digits, h, next]

theorem digits_of_end (h : p c = false) (score : c ≠ '_') : digits p (c :: cs) = 0 := by
  cases cs <;> simp [digits, h, score]

theorem digits_take (ends : ∀ c rest, more = c :: rest → p c = false ∧ c ≠ '_') :
    digits p (cs.take (digits p cs) ++ more) = digits p cs := by
  have none : digits p more = 0 := by
    cases more with
    | nil => rfl
    | cons c rest => exact digits_of_end (ends c rest rfl).1 (ends c rest rfl).2
  induction cs with
  | nil => exact none
  | cons c cs ih =>
      by_cases digit : p c = true
      · rw [digits_of_digit digit, List.take_succ_cons, List.cons_append, digits_of_digit digit, ih]
      · rw [Bool.not_eq_true] at digit
        by_cases score : c = '_'
        · subst score
          cases cs with
          | nil => simpa [digits, digit] using none
          | cons d ds =>
              by_cases next : p d = true
              · rw [digits_of_score digit next, List.take_succ_cons, List.cons_append]
                rw [digits_of_digit next] at ih ⊢
                rw [List.take_succ_cons, List.cons_append, digits_of_score digit next]
                rw [List.take_succ_cons, List.cons_append] at ih
                rw [ih]
              · rw [Bool.not_eq_true] at next
                have zero : digits p ('_' :: d :: ds) = 0 := by
                  cases ds <;> simp [digits, digit, next]
                rw [zero]
                exact none
        · rw [digits_of_end digit score]
          exact none

theorem digitRun_take (ends : ∀ c rest, more = c :: rest → p c = false ∧ c ≠ '_') :
    digitRun p (cs.take (digitRun p cs) ++ more) = digitRun p cs := by
  have none : digitRun p more = 0 := by
    cases more with
    | nil => rfl
    | cons c rest => simp [digitRun, (ends c rest rfl).1]
  cases cs with
  | nil => exact none
  | cons c cs =>
      by_cases digit : p c = true
      · have whole : digitRun p (c :: cs) = digits p (c :: cs) := by rw [digitRun, if_pos digit]
        have same := @digits_take _ (c :: cs) _ ends
        rw [whole]
        rw [digits_of_digit digit, List.take_succ_cons, List.cons_append] at same ⊢
        rw [digitRun, if_pos digit]
        exact same
      · have zero : digitRun p (c :: cs) = 0 := by rw [digitRun, if_neg digit]
        rw [zero]
        exact none

theorem digits_le : digits p cs ≤ cs.length := by
  induction cs with
  | nil => exact Nat.le_refl _
  | cons c cs ih =>
      rw [digits.eq_def]
      simp only [List.length_cons]
      split
      · omega
      · split
        · split
          · omega
          · omega
        · omega

theorem digitRun_le : digitRun p cs ≤ cs.length := by
  cases cs with
  | nil => exact Nat.le_refl _
  | cons c cs =>
      rw [digitRun]
      split
      · exact digits_le
      · omega

def Stops (p : Char → Bool) (more : List Char) : Prop :=
  ∀ c rest, more = c :: rest → p c = false ∧ c ≠ '_'

theorem EndsNumber.stops (h : EndsNumber more) (letters : ∀ c, p c = true → c.isAlphanum = true) :
    Stops p more := by
  rintro c rest rfl
  obtain ⟨noLetter, noScore, -⟩ := h c rest rfl
  refine ⟨?_, noScore⟩
  rw [← Bool.not_eq_true]
  exact fun digit => by simp [letters c digit] at noLetter

theorem exponent_of_noLetter {e : Char} (h : ¬ (e == 'e' || e == 'E') = true) :
    exponent (e :: cs) = 0 := by
  unfold exponent
  simp only
  rw [if_neg h]

theorem exponent_of_sign {e s : Char} (letter : (e == 'e' || e == 'E') = true)
    (sign : (s == '+' || s == '-') = true) : exponent (e :: s :: cs) =
      if digitRun Char.isDigit cs = 0 then 0 else digitRun Char.isDigit cs + 2 := by
  unfold exponent
  simp only [letter, sign, if_true]
  split
  next none => rw [none, if_pos rfl]
  next some => rw [if_neg some]

theorem exponent_of_noSign {e s : Char} (letter : (e == 'e' || e == 'E') = true)
    (sign : ¬ (s == '+' || s == '-') = true) : exponent (e :: s :: cs) =
      if digitRun Char.isDigit (s :: cs) = 0 then 0
      else digitRun Char.isDigit (s :: cs) + 1 := by
  unfold exponent
  simp only [letter, sign, if_true]
  split
  next none => exact (if_pos none).symm
  next some => exact (if_neg some).symm

theorem exponent_eq_zero (h : EndsNumber more) : exponent more = 0 := by
  cases more with
  | nil => rfl
  | cons c rest =>
      obtain ⟨noLetter, -⟩ := h c rest rfl
      refine exponent_of_noLetter ?_
      rw [Bool.or_eq_true, beq_iff_eq, beq_iff_eq]
      rintro (rfl | rfl) <;> exact absurd noLetter (by decide)

theorem isAlphanum_of_isDigit (c : Char) (h : c.isDigit = true) : c.isAlphanum = true := by
  rw [Char.isAlphanum, h, Bool.or_true]

theorem exponent_take (h : EndsNumber more) :
    exponent cs ≤ cs.length ∧ exponent (cs.take (exponent cs) ++ more) = exponent cs := by
  have stops := h.stops isAlphanum_of_isDigit
  have zero (none : exponent cs = 0) : exponent cs ≤ cs.length ∧
      exponent (cs.take (exponent cs) ++ more) = exponent cs := by
    rw [none]
    exact ⟨Nat.zero_le _, exponent_eq_zero h⟩
  cases cs with
  | nil => exact zero rfl
  | cons e rest =>
      by_cases letter : (e == 'e' || e == 'E') = true
      · cases rest with
        | nil =>
            refine zero ?_
            unfold exponent
            simp only [letter, if_true]
            rfl
        | cons s ds =>
            by_cases sign : (s == '+' || s == '-') = true
            · have whole := @exponent_of_sign ds _ _ letter sign
              by_cases none : digitRun Char.isDigit ds = 0
              · exact zero (by rw [whole, if_pos none])
              · rw [if_neg none] at whole
                have short := @digitRun_le Char.isDigit ds
                have same := @digitRun_take _ ds _ stops
                refine ⟨by rw [whole, List.length_cons, List.length_cons]; omega, ?_⟩
                rw [whole, List.take_succ_cons, List.take_succ_cons, List.cons_append,
                  List.cons_append, exponent_of_sign letter sign, same, if_neg none]
            · have whole := @exponent_of_noSign ds _ _ letter sign
              by_cases none : digitRun Char.isDigit (s :: ds) = 0
              · exact zero (by rw [whole, if_pos none])
              · rw [if_neg none] at whole
                have short := @digitRun_le Char.isDigit (s :: ds)
                have same := @digitRun_take _ (s :: ds) _ stops
                obtain ⟨k, run⟩ := Nat.exists_eq_succ_of_ne_zero none
                rw [run] at short whole same
                rw [List.take_succ_cons, List.cons_append] at same
                refine ⟨by rw [whole, List.length_cons]; omega, ?_⟩
                rw [whole, List.take_succ_cons, List.take_succ_cons, List.cons_append,
                  List.cons_append, exponent_of_noSign letter sign, same, if_neg (by omega)]
      · exact zero (exponent_of_noLetter letter)

theorem stops_cons {c : Char} {rest : List Char} (noDigit : p c = false) (noScore : c ≠ '_') :
    Stops p (c :: rest) := by
  rintro d tail eq
  obtain ⟨rfl, -⟩ := List.cons.inj eq
  exact ⟨noDigit, noScore⟩

/-- What is left of an exponent in front of a text begins with its letter, or is nothing. -/
theorem exponent_cases (cs more : List Char) : cs.take (exponent cs) ++ more = more ∨
    ∃ e rest, cs.take (exponent cs) ++ more = e :: rest ∧ (e = 'e' ∨ e = 'E') := by
  cases cs with
  | nil => exact .inl rfl
  | cons e rest =>
      by_cases letter : (e == 'e' || e == 'E') = true
      · cases exponent (e :: rest) with
        | zero => exact .inl rfl
        | succ k => exact .inr ⟨e, _, rfl, by simpa using letter⟩
      · rw [exponent_of_noLetter letter]
        exact .inl rfl

theorem stops_exponent (h : EndsNumber more) :
    Stops Char.isDigit (cs.take (exponent cs) ++ more) := by
  obtain same | ⟨e, rest, whole, rfl | rfl⟩ := exponent_cases cs more
  · rw [same]
    exact h.stops isAlphanum_of_isDigit
  all_goals
    rw [whole]
    exact stops_cons (by decide) (by decide)

theorem bigSuffix_eq_zero (h : EndsNumber more) : bigSuffix more = 0 := by
  rw [bigSuffix, if_neg]
  rw [beq_iff_eq]
  intro head
  obtain ⟨rest, rfl⟩ := List.head?_eq_some_iff.1 head
  exact absurd (h 'n' rest rfl).1 (by decide)

theorem bigSuffix_take (h : EndsNumber more) (letters : ∀ c, p c = true → c.isAlphanum = true)
    (noSuffix : p 'n' = false) :
    let n := digitRun p cs
    let suffix := bigSuffix (cs.drop n)
    n + suffix ≤ cs.length ∧ digitRun p (cs.take (n + suffix) ++ more) = n ∧
      bigSuffix ((cs.take (n + suffix) ++ more).drop n) = suffix := by
  intro n suffix
  have short : n ≤ cs.length := digitRun_le
  have taken : (cs.take n).length = n := List.length_take_of_le short
  by_cases big : (cs.drop n).head? = some 'n'
  · obtain ⟨tail, rest⟩ := List.head?_eq_some_iff.1 big
    have one : suffix = 1 := by simp only [suffix, bigSuffix, big, beq_self_eq_true, if_true]
    have text : cs.take (n + suffix) ++ more = cs.take n ++ 'n' :: more := by
      rw [one, List.take_add, rest]
      simp
    have stops : Stops p ('n' :: more) := stops_cons noSuffix (by decide)
    refine ⟨?_, ?_, ?_⟩
    · have := congrArg List.length rest
      rw [List.length_drop, List.length_cons] at this
      omega
    · rw [text]
      exact digitRun_take stops
    · rw [text, List.drop_left' taken, one]
      rfl
  · have none : suffix = 0 := by
      simp only [suffix, bigSuffix]
      rw [if_neg (by simpa using big)]
    rw [none]
    refine ⟨short, digitRun_take (h.stops letters), ?_⟩
    rw [Nat.add_zero, List.drop_left' taken]
    exact bigSuffix_eq_zero h

theorem radixNumber?_take {letter : Char} {n : Nat}
    (letters : ∀ c, p c = true → c.isAlphanum = true) (noSuffix : p 'n' = false)
    (h : EndsNumber more) (number : radixNumber? letter p cs = some n) :
    (∃ x ds, cs = '0' :: x :: ds ∧ x.toLower = letter) ∧ 2 ≤ n ∧ n ≤ cs.length ∧
      radixNumber? letter p (cs.take n ++ more) = some n := by
  unfold radixNumber? at number
  split at number
  next x ds =>
    split at number
    next isLetter =>
      split at number
      next => cases number
      next k run nonzero =>
        obtain rfl := Option.some.inj number
        obtain ⟨short, same, suffix⟩ := @bigSuffix_take _ ds _ h letters noSuffix
        refine ⟨⟨x, ds, rfl, by simpa using isLetter⟩, by omega, by simp; omega, ?_⟩
        have text : ('0' :: x :: ds).take (2 + digitRun p ds + bigSuffix (ds.drop (digitRun p ds))) ++
            more = '0' :: x :: (ds.take (digitRun p ds + bigSuffix (ds.drop (digitRun p ds))) ++
              more) := by
          rw [Nat.add_assoc, Nat.add_comm 2, List.take_succ_cons, List.take_succ_cons]
          rfl
        rw [text, radixNumber?, if_pos isLetter, same]
        split
        next none => exact absurd none nonzero
        next => rw [suffix]
    next => cases number
  next => cases number

theorem decimal?_of_noPoint {front tail : List Char}
    (run : digitRun Char.isDigit (front ++ tail) = front.length) (nonempty : front.length ≠ 0)
    (noPoint : ∀ rest, tail ≠ '.' :: rest) : decimal? (front ++ tail) =
      if bigSuffix tail == 1 then some (front.length + 1) else some (front.length + exponent tail) := by
  unfold decimal?
  simp only
  rw [run, List.drop_left]
  split
  next => exact absurd rfl (noPoint _)
  next => rw [if_neg (by simpa using nonempty)]

theorem decimal?_take {n : Nat} (h : EndsNumber more) (number : decimal? cs = some n) :
    1 ≤ n ∧ n ≤ cs.length ∧ decimal? (cs.take n ++ more) = some n := by
  have short := @digitRun_le Char.isDigit cs
  have taken := List.length_take_of_le short
  unfold decimal? at number
  simp only at number
  generalize run : digitRun Char.isDigit cs = whole at number short taken
  have whole_of {tail : List Char} (stops : Stops Char.isDigit tail) :
      digitRun Char.isDigit (cs.take whole ++ tail) = whole := by
    rw [← run]
    exact digitRun_take stops
  have text (m : Nat) : cs.take (whole + m) = cs.take whole ++ (cs.drop whole).take m :=
    List.take_add
  have dropped := List.length_drop (i := whole) (l := cs)
  split at number
  next rest point =>
    split at number
    next => cases number
    next some =>
      obtain rfl := Option.some.inj number
      have within := @digitRun_le Char.isDigit rest
      obtain ⟨fits, power⟩ := @exponent_take (rest.drop (digitRun Char.isDigit rest)) _ h
      have stops := @stops_exponent (rest.drop (digitRun Char.isDigit rest)) _ h
      generalize part : digitRun Char.isDigit rest = k at *
      generalize exponent (rest.drop k) = e at *
      rw [point, List.length_cons] at dropped
      rw [List.length_drop] at fits
      have again : digitRun Char.isDigit (rest.take (k + e) ++ more) = k := by
        rw [List.take_add, List.append_assoc, ← part]
        exact digitRun_take (part ▸ stops)
      refine ⟨by omega, by omega, ?_⟩
      rw [Nat.add_assoc, Nat.add_assoc, text, point, Nat.add_comm 1, List.take_succ_cons,
        List.append_assoc, List.cons_append]
      rw [decimal?]
      simp only
      rw [whole_of (stops_cons (by decide) (by decide)), List.drop_left' taken]
      simp only [again]
      rw [if_neg some, List.take_add, List.append_assoc,
        List.drop_left' (by rw [List.length_take_of_le within]), power, Nat.add_assoc, Nat.add_assoc, Nat.add_comm 1, Nat.add_assoc]
  next rest noPoint =>
    split at number
    next => cases number
    next nonzero =>
      have nonzero : whole ≠ 0 := by simpa using nonzero
      split at number
      next big =>
        obtain rfl := Option.some.inj number
        have one : bigSuffix (cs.drop whole) = 1 := by simpa using big
        obtain ⟨tail, rest⟩ : ∃ tail, cs.drop whole = 'n' :: tail := by
          rw [bigSuffix] at one
          split at one
          next head => exact List.head?_eq_some_iff.1 (by simpa using head)
          next => cases one
        rw [rest, List.length_cons] at dropped
        refine ⟨by omega, by omega, ?_⟩
        have stops : Stops Char.isDigit ('n' :: more) := stops_cons (by decide) (by decide)
        rw [text, rest, List.take_succ_cons, List.append_assoc, List.take_zero, List.cons_append,
          List.nil_append, decimal?_of_noPoint (by rw [whole_of stops, taken]) (by rw [taken]; omega)
          (by simp), if_pos (by rfl), taken]
      next noBig =>
        obtain rfl := Option.some.inj number
        obtain ⟨fits, power⟩ := @exponent_take (cs.drop whole) _ h
        have noPoint : ∀ rest, (cs.drop whole).take (exponent (cs.drop whole)) ++ more ≠
            '.' :: rest := by
          intro rest eq
          obtain same | ⟨e, tail, text, letter⟩ := exponent_cases (cs.drop whole) more
          · exact (h '.' rest (same ▸ eq)).2.2 rfl
          · rw [text] at eq
            obtain ⟨rfl, -⟩ := List.cons.inj eq
            exact absurd letter (by decide)
        have noSuffix : bigSuffix ((cs.drop whole).take (exponent (cs.drop whole)) ++ more) = 0 := by
          obtain same | ⟨e, tail, text, rfl | rfl⟩ := exponent_cases (cs.drop whole) more
          · rw [same, bigSuffix_eq_zero h]
          all_goals
            rw [text]
            rfl
        refine ⟨by omega, by omega, ?_⟩
        rw [text, List.append_assoc, decimal?_of_noPoint (by rw [whole_of (stops_exponent h), taken])
          (by rw [taken]; omega) noPoint, noSuffix, if_neg (by decide), power, taken]

theorem mem_of_toLower {y : Char} (h : y.toLower ∈ ['x', 'o', 'b']) :
    y ∈ ['x', 'X', 'o', 'O', 'b', 'B'] := by
  by_cases ascii : y.toNat < 128
  · have all : ∀ n < 128, (Char.ofNat n).toLower ∈ ['x', 'o', 'b'] →
        Char.ofNat n ∈ ['x', 'X', 'o', 'O', 'b', 'B'] := by decide +kernel
    simpa using all y.toNat ascii (by simpa using h)
  · have same : y.toLower = y := dif_neg fun capital =>
      ascii (Nat.lt_of_le_of_lt (UInt32.le_iff_toNat_le.1 capital.2) (by decide))
    rw [same] at h
    simp only [List.mem_cons, List.not_mem_nil, or_false] at h ⊢
    obtain rfl | rfl | rfl := h <;> simp

theorem decimal?_of_radix {y : Char} (h : y.toLower ∈ ['x', 'o', 'b']) (ds : List Char) :
    decimal? ('0' :: y :: ds) = some 1 := by
  have known := mem_of_toLower h
  have facts : ∀ y ∈ ['x', 'X', 'o', 'O', 'b', 'B'], y.isDigit = false ∧ y ≠ '_' ∧ y ≠ '.' ∧
      y ≠ 'n' ∧ ¬ (y == 'e' || y == 'E') = true := by decide
  obtain ⟨noDigit, noScore, noPoint, noSuffix, noLetter⟩ := facts y known
  have run : digitRun Char.isDigit (['0'] ++ y :: ds) = 1 := by
    show digits Char.isDigit ('0' :: y :: ds) = 1
    rw [digits_of_digit (by decide), digits_of_end noDigit noScore]
  rw [show '0' :: y :: ds = ['0'] ++ y :: ds from rfl, decimal?_of_noPoint run (by decide)
    (by rintro rest eq; exact noPoint (List.cons.inj eq).1), exponent_of_noLetter noLetter]
  rw [if_neg]
  · rfl
  · simp [bigSuffix, noSuffix]

theorem radixNumber?_of_second {letter y : Char} (ds : List Char) (h : y.toLower ≠ letter) :
    radixNumber? letter p ('0' :: y :: ds) = none := by
  rw [radixNumber?, if_neg (by simpa using h)]

theorem isAlphanum_of_isHexDigit (c : Char) (h : isHexDigit c = true) : c.isAlphanum = true := by
  simp only [isHexDigit, Bool.or_eq_true, Bool.and_eq_true, decide_eq_true_eq] at h
  obtain (digit | small) | capital := h
  · exact isAlphanum_of_isDigit c digit
  · have lower : c.isLower = true := Bool.and_eq_true_iff.2
      ⟨decide_eq_true small.1, decide_eq_true (UInt32.le_trans small.2 (by decide))⟩
    show ((c.isUpper || c.isLower) || c.isDigit) = true
    rw [lower, Bool.or_true, Bool.true_or]
  · have upper : c.isUpper = true :=
      decide_eq_true ⟨capital.1, UInt32.le_trans capital.2 (by decide)⟩
    show ((c.isUpper || c.isLower) || c.isDigit) = true
    rw [upper, Bool.true_or, Bool.true_or]

/-- The parts of `number?` that begin with a radix, in order, and the decimal numbers. -/
theorem number?_eq (cs : List Char) : number? cs =
    (radixNumber? 'x' isHexDigit cs).or ((radixNumber? 'o' (fun c => '0' ≤ c && c ≤ '7') cs).or
      ((radixNumber? 'b' (fun c => c == '0' || c == '1') cs).or (decimal? cs))) := by
  unfold number?
  cases radixNumber? 'x' isHexDigit cs <;>
    cases radixNumber? 'o' (fun c => '0' ≤ c && c ≤ '7') cs <;>
    cases radixNumber? 'b' (fun c => c == '0' || c == '1') cs <;> rfl

theorem isAlphanum_of_octal (c : Char) (h : (decide ('0' ≤ c) && decide (c ≤ '7')) = true) :
    c.isAlphanum = true := by
  rw [Bool.and_eq_true, decide_eq_true_eq, decide_eq_true_eq] at h
  refine isAlphanum_of_isDigit c ?_
  rw [Char.isDigit, Bool.and_eq_true, decide_eq_true_eq, decide_eq_true_eq]
  exact ⟨h.1, UInt32.le_trans h.2 (by decide)⟩

theorem isAlphanum_of_binary (c : Char) (h : (c == '0' || c == '1') = true) :
    c.isAlphanum = true := by
  rw [Bool.or_eq_true, beq_iff_eq, beq_iff_eq] at h
  obtain rfl | rfl := h <;> decide

/-- In front of a text that ends numbers, a decimal number does not become one with a radix. -/
theorem radixNumber?_of_decimal {letter : Char} {n : Nat} (radix : letter ∈ ['x', 'o', 'b'])
    (letters : ∀ c, p c = true → c.isAlphanum = true) (noSuffix : p 'n' = false)
    (h : EndsNumber more) (number : decimal? cs = some n) :
    radixNumber? letter p (cs.take n ++ more) = none := by
  cases found : radixNumber? letter p (cs.take n ++ more) with
  | none => rfl
  | some m =>
      obtain ⟨⟨y, ds, text, isLetter⟩, -⟩ :=
        @radixNumber?_take _ _ [] _ _ letters noSuffix nofun found
      obtain ⟨positive, short, same⟩ := decimal?_take h number
      rw [text, decimal?_of_radix (isLetter ▸ radix)] at same
      obtain rfl := Option.some.inj same
      cases cs with
      | nil => simp at short
      | cons c cs =>
          rw [List.take_succ_cons, List.take_zero, List.singleton_append] at text
          obtain ⟨-, rfl⟩ := List.cons.inj text
          have facts : ∀ y ∈ ['x', 'X', 'o', 'O', 'b', 'B'], y.isAlphanum = true := by decide
          have := facts y (mem_of_toLower (isLetter ▸ radix))
          simp [(h y ds rfl).1] at this

theorem number?_take {n : Nat} (h : EndsNumber more) (number : number? cs = some n) :
    1 ≤ n ∧ n ≤ cs.length ∧ number? (cs.take n ++ more) = some n := by
  -- The second character tells the radixes apart, and it stays.
  have second {letter other : Char} {p q : Char → Bool} {m : Nat}
      (letters : ∀ c, p c = true → c.isAlphanum = true) (noSuffix : p 'n' = false)
      (found : radixNumber? letter p cs = some m) (ne : letter ≠ other) :
      radixNumber? other q (cs.take m ++ more) = none := by
    obtain ⟨⟨x, ds, rfl, isLetter⟩, long, -⟩ := radixNumber?_take letters noSuffix h found
    obtain ⟨k, rfl⟩ : ∃ k, m = k + 2 := ⟨m - 2, by omega⟩
    exact radixNumber?_of_second _ (isLetter ▸ ne)
  have known {letter : Char} {p : Char → Bool} {m : Nat}
      (letters : ∀ c, p c = true → c.isAlphanum = true) (noSuffix : p 'n' = false)
      (found : radixNumber? letter p cs = some m) : 1 ≤ m ∧ m ≤ cs.length ∧
        radixNumber? letter p (cs.take m ++ more) = some m := by
    obtain ⟨-, long, short, same⟩ := radixNumber?_take letters noSuffix h found
    exact ⟨by omega, short, same⟩
  rw [number?_eq] at number ⊢
  cases hex : radixNumber? 'x' isHexDigit cs with
  | some m =>
      rw [hex] at number
      obtain rfl := Option.some.inj number
      obtain ⟨positive, short, same⟩ := known isAlphanum_of_isHexDigit (by decide) hex
      exact ⟨positive, short, by rw [same]; rfl⟩
  | none =>
      rw [hex, Option.none_or] at number
      cases oct : radixNumber? 'o' (fun c => '0' ≤ c && c ≤ '7') cs with
      | some m =>
          rw [oct] at number
          obtain rfl := Option.some.inj number
          obtain ⟨positive, short, same⟩ := known isAlphanum_of_octal (by decide) oct
          refine ⟨positive, short, ?_⟩
          rw [same, second isAlphanum_of_octal (by decide) oct (by decide)]
          rfl
      | none =>
          rw [oct, Option.none_or] at number
          cases bin : radixNumber? 'b' (fun c => c == '0' || c == '1') cs with
          | some m =>
              rw [bin] at number
              obtain rfl := Option.some.inj number
              obtain ⟨positive, short, same⟩ := known isAlphanum_of_binary (by decide) bin
              refine ⟨positive, short, ?_⟩
              rw [same, second isAlphanum_of_binary (by decide) bin (by decide),
                second isAlphanum_of_binary (by decide) bin (by decide)]
              rfl
          | none =>
              rw [bin, Option.none_or] at number
              obtain ⟨positive, short, same⟩ := decimal?_take h number
              refine ⟨positive, short, ?_⟩
              rw [same, radixNumber?_of_decimal (by decide) isAlphanum_of_isHexDigit (by decide) h
                  number,
                radixNumber?_of_decimal (by decide) isAlphanum_of_octal (by decide) h number,
                radixNumber?_of_decimal (by decide) isAlphanum_of_binary (by decide) h number]
              rfl

end

theorem number?_start {cs : List Char} {n : Nat} (h : number? cs = some n) :
    ∃ c rest, cs = c :: rest ∧ (c.isDigit = true ∨ c = '.') := by
  cases cs with
  | nil => cases h
  | cons c rest =>
      refine ⟨c, rest, rfl, ?_⟩
      by_cases digit : c.isDigit = true
      · exact .inl digit
      · right
        rw [Bool.not_eq_true] at digit
        refine Decidable.byContradiction fun noPoint => ?_
        rw [Sight.number?_of_char digit noPoint] at h
        cases h

theorem isNumber_take {cs : List Char} {n : Nat} (h : number? cs = some n) :
    IsNumber (cs.take n) := by
  have fixed {more : List Char} (ends : EndsNumber more) := number?_take ends h
  obtain ⟨positive, short, -⟩ := @fixed [] nofun
  obtain ⟨c, rest, rfl, start⟩ := number?_start h
  obtain ⟨n, rfl⟩ : ∃ k, n = k + 1 := ⟨n - 1, by omega⟩
  refine ⟨⟨c, rest.take n, rfl, start⟩, fun more ends => ?_⟩
  rw [(fixed ends).2.2, List.length_take_of_le short]

/-! ## Names -/

def gapCodes : List Nat :=
  [0x85, 0xA0, 0x1680, 0x2028, 0x2029, 0x202F, 0x205F, 0x3000, 0xFEFF, 0x2060, 0x200B] ++
    (List.range 11).map (0x2000 + ·)

theorem mem_gapCodes {c : Char} (h : isGap c = true) (beyond : 128 ≤ c.toNat) :
    c.toNat ∈ gapCodes := by
  simp only [isGap, Text.isBlank, Bool.or_eq_true, Bool.and_eq_true, beq_iff_eq,
    decide_eq_true_eq] at h
  simp only [gapCodes, List.mem_append, List.mem_cons, List.not_mem_nil, or_false, List.mem_map,
    List.mem_range]
  by_cases range : 0x2000 ≤ c.toNat ∧ c.toNat ≤ 0x200A
  · exact .inr ⟨c.toNat - 0x2000, by omega, by omega⟩
  · left
    omega

theorem gapCodes_outside : ∀ g ∈ gapCodes, (Text.alphabeticRanges.any (·.covers g)) = false ∧
    (Text.numericRanges.any (·.covers g)) = false := by decide +kernel

theorem isNamePart_of_isIdentifierPart {c : Char} (h : Text.isIdentifierPart c = true) :
    isNamePart c = true := by
  by_cases ascii : c.toNat < 128
  · have all : ∀ n < 128, Text.isIdentifierPart (Char.ofNat n) = true →
        isNamePart (Char.ofNat n) = true := by decide +kernel
    simpa using all c.toNat ascii (by simpa using h)
  · have noGap : isGap c = false := by
      rw [← Bool.not_eq_true]
      intro gap
      obtain ⟨noLetter, noNumeral⟩ := gapCodes_outside _ (mem_gapCodes gap (by omega))
      simp only [Text.isIdentifierPart, Text.isAlphanumeric, Text.isAlphabetic, Text.isNumeric,
        if_neg ascii, noLetter, noNumeral, Bool.false_or, Bool.or_eq_true, beq_iff_eq] at h
      obtain rfl | rfl := h <;> exact ascii (by decide)
    have noMark : ":;`\"'@#.,|^&<=>+-*/\\%?!~()[]\x7b\x7d".toList.contains c = false := by
      rw [← Bool.not_eq_true]
      intro mark
      have all : ∀ d ∈ ":;`\"'@#.,|^&<=>+-*/\\%?!~()[]\x7b\x7d".toList, d.toNat < 128 := by
        decide +kernel
      exact ascii (all c (by simpa using mark))
    rw [isNamePart, noGap, noMark]
    simp only [Bool.not_false, Bool.and_true, decide_eq_true_eq]
    omega

theorem isName_of_isIdentifier {s : String} (h : Text.isIdentifier s = true) :
    IsName s.toList := by
  refine ⟨?_, fun d hd => isNamePart_of_isIdentifierPart (Text.isIdentifierPart_of_mem h hd)⟩
  unfold Text.isIdentifier at h
  split at h
  next => cases h
  next c cs text =>
    have start := (Bool.and_eq_true_iff.1 h).1
    refine ⟨c, cs, text, ?_⟩
    rw [isNameStart, isNamePart_of_isIdentifierPart (Text.isIdentifierPart_of_start start),
      Bool.true_and, Bool.not_eq_true', ← Bool.not_eq_true]
    intro digit
    have ascii : c.toNat < 128 := by
      rw [Char.isDigit, Bool.and_eq_true, decide_eq_true_eq, decide_eq_true_eq] at digit
      exact Nat.lt_of_le_of_lt (UInt32.le_iff_toNat_le.1 digit.2) (by decide)
    have all : ∀ n < 128, Text.isIdentifierStart (Char.ofNat n) = true →
        (Char.ofNat n).isDigit = false := by decide +kernel
    have := all c.toNat ascii (by simpa using start)
    simp [digit] at this

end PropStories.Tsx
