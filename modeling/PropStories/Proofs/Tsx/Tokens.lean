import PropStories.Proofs.Tsx.Accepting
import PropStories.Proofs.Tsx.Lexemes

/-!
# Accepted tokens

Each kind of token is accepted behind any gap, if what follows does not go on with it. What begins
behind the gap is a sight, and the rules that a sight refuses give nothing there.
-/

namespace PropStories.Tsx

open Cursor (behind)

/-! ## The first character behind a gap -/

theorem firm_of_isNameStart {c : Char} {cs : List Char} (h : Lexeme.isNameStart c = true) :
    Firm (c :: cs) := by
  have ne := (Sight.charMisses_of_start h).2
  refine firm_cons ?_ (ne '/' (by decide))
  have part := isNamePart_of_isNameStart h
  simp only [Lexeme.isNamePart, Bool.and_eq_true, Bool.not_eq_true'] at part
  exact part.1.2

theorem IsName.firm {w : List Char} (h : IsName w) (rest : List Char) : Firm (w ++ rest) := by
  obtain ⟨c, cs, rfl, start⟩ := h.start
  exact firm_of_isNameStart start

theorem IsName.ne_nil {w : List Char} (h : IsName w) : w ≠ [] := by
  obtain ⟨c, cs, rfl, -⟩ := h.start
  nofun

theorem IsString.firm {w : List Char} (h : IsString w) (rest : List Char) : Firm (w ++ rest) := by
  obtain ⟨q, cs, rfl, rfl | rfl⟩ := h.start <;> exact firm_cons (by decide) (by decide)

theorem IsString.ne_nil {w : List Char} (h : IsString w) : w ≠ [] := by
  obtain ⟨q, cs, rfl, -⟩ := h.start
  nofun

def numberStarts : List Char := '.' :: "0123456789".toList

theorem mem_numberStarts {c : Char} (h : c.isDigit = true ∨ c = '.') : c ∈ numberStarts := by
  obtain digit | rfl := h
  · have bound : c.toNat < 128 := by
      rw [Char.isDigit, Bool.and_eq_true, decide_eq_true_eq, decide_eq_true_eq] at digit
      exact Nat.lt_of_le_of_lt (UInt32.le_iff_toNat_le.1 digit.2) (by decide)
    have all : ∀ n < 128, (Char.ofNat n).isDigit = true → Char.ofNat n ∈ numberStarts := by
      decide +kernel
    simpa using all c.toNat bound (by simpa using digit)
  · exact List.mem_cons_self

theorem IsNumber.starts {w : List Char} (h : IsNumber w) :
    ∃ c cs, w = c :: cs ∧ c ∈ numberStarts := by
  obtain ⟨c, cs, rfl, start⟩ := h.start
  exact ⟨c, cs, rfl, mem_numberStarts start⟩

theorem IsNumber.firm {w : List Char} (h : IsNumber w) (rest : List Char) : Firm (w ++ rest) := by
  obtain ⟨c, cs, rfl, start⟩ := h.starts
  have facts : ∀ c ∈ numberStarts, Lexeme.isGap c = false ∧ c ≠ '/' := by decide
  exact firm_cons (facts c start).1 (facts c start).2

theorem IsNumber.ne_nil {w : List Char} (h : IsNumber w) : w ≠ [] := by
  obtain ⟨c, cs, rfl, -⟩ := h.start
  nofun

theorem IsGap.append {g h : List Char} (hg : IsGap g) (hh : IsGap h) : IsGap (g ++ h) := by
  induction hg with
  | nil => exact hh
  | blank blank more ih => exact .blank blank ih
  | @block body cs closed more ih =>
      rw [List.cons_append, List.cons_append, List.append_assoc]
      exact .block closed ih
  | @line body cs e inside ends more ih =>
      rw [List.cons_append, List.cons_append, List.append_assoc]
      exact .line inside ends ih

/-! ## Refusals behind a gap -/

def Begins (s : Sight) (cs : List Char) : Prop :=
  ∃ g more, cs = g ++ more ∧ IsGap g ∧ Firm more ∧ s.Shows more

abbrev Sight.bars (s : Sight) (r : Rule) : Bool := r.refuses s (Rule.refused s sightDepth)

section

variable {limit fuel n : Nat} {r : Rule} {s : Sight} {cs g rest : List Char}

theorem Begins.refused (h : Begins s cs) (bars : s.bars r = true) :
    (running limit fuel r (behind n cs)).result = none := by
  obtain ⟨g, more, rfl, gap, firm, shows⟩ := h
  refine refuses_of_sight rfl ?_ bars limit fuel
  rw [Cursor.ahead_behind gap firm]
  exact shows

theorem Begins.gap (h : Begins s cs) (gap : IsGap g) : Begins s (g ++ cs) := by
  obtain ⟨g', more, rfl, gap', firm, shows⟩ := h
  exact ⟨g ++ g', more, (List.append_assoc ..).symm, gap.append gap', firm, shows⟩

theorem begins_char {c : Char} (gap : Lexeme.isGap c = false) (slash : c ≠ '/')
    (rest : List Char) : Begins (.char c) (c :: rest) :=
  ⟨[], c :: rest, rfl, .nil, firm_cons gap slash, rest, rfl⟩

theorem begins_word {w : String} (name : IsName w.toList) (ends : EndsName rest) :
    Begins (.word w) (w.toList ++ rest) :=
  ⟨[], w.toList ++ rest, rfl, .nil, name.firm rest, rest, rfl, name, ends⟩

theorem begins_nothing (gap : IsGap g) : Begins .nothing g :=
  ⟨g, [], (List.append_nil g).symm, gap, firm_nil, rfl⟩

/-! ## Words, marks and literals -/

theorem accepts_word {w : String} (k : Kind) (kind : k.isExtra = false) (gap : IsGap g)
    (name : IsName w.toList) (ends : EndsName rest) :
    Accepts limit fuel (.token (.word w) k) n (g ++ w.toList) rest
      [.node k none (n + g.length) (n + (g ++ w.toList).length) []] := by
  refine accepts_token gap (name.firm rest) kind name.ne_nil fun c ahead => ?_
  have found : Lexeme.word? w (w.toList ++ rest) = some w.length := by
    rw [Lexeme.word?, Text.afterStart?_eq_some_iff.2 rfl]
    simp only
    rw [EndsName] at ends
    rw [ends]
    rfl
  have some_ : (w.length == 0) = false := by
    have := List.length_pos_iff.2 name.ne_nil
    simp only [String.length_toList] at this
    simpa using Nat.pos_iff_ne_zero.1 this
  rw [Cursor.find, ahead, found, Cursor.ofLength?, some_, String.length_toList]
  rfl

theorem accepts_markNot {m stops : String} {c : Char} {ds : List Char} (gap : IsGap g)
    (text : m.toList = c :: ds) (proper : Lexeme.isGap c = false ∧ c ≠ '/')
    (free : ∀ d more, rest = d :: more → d ∉ stops.toList) :
    Accepts limit fuel (.token (.mark m stops) (.token m)) n (g ++ m.toList) rest
      [.node (.token m) none (n + g.length) (n + (g ++ m.toList).length) []] := by
  refine accepts_token gap (text ▸ firm_cons proper.1 proper.2) rfl (by simp [text])
    fun cursor ahead => ?_
  have found : Lexeme.mark? m stops (m.toList ++ rest) = some m.length := by
    rw [Lexeme.mark?, Text.afterStart?_eq_some_iff.2 rfl]
    cases rest with
    | nil => rfl
    | cons d more =>
        simp only
        rw [if_neg (by simpa using free d more rfl)]
  have some_ : (m.length == 0) = false := by
    rw [← String.length_toList, text]
    rfl
  rw [Cursor.find, ahead, found, Cursor.ofLength?, some_, String.length_toList]
  rfl

theorem accepts_mark {m : String} {c : Char} {ds : List Char} (gap : IsGap g)
    (text : m.toList = c :: ds) (proper : Lexeme.isGap c = false ∧ c ≠ '/') :
    Accepts limit fuel (Grammar.mark m) n (g ++ m.toList) rest
      [.node (.token m) none (n + g.length) (n + (g ++ m.toList).length) []] :=
  accepts_markNot gap text proper fun _ _ _ => List.not_mem_nil

theorem accepts_single {m : String} {c : Char} (text : m.toList = [c])
    (proper : Lexeme.isGap c = false ∧ c ≠ '/') :
    Accepts limit fuel (Grammar.mark m) n [c] rest [.node (.token m) none n (n + 1) []] := by
  have accepted := @accepts_mark limit fuel n [] rest m c [] .nil text proper
  rwa [text] at accepted

theorem accepts_name {reserved : List String} {k : Kind} {w : List Char}
    (kind : k.isExtra = false) (gap : IsGap g) (name : IsName w) (ends : EndsName rest)
    (free : String.ofList w ∉ reserved) :
    Accepts limit fuel (.token (.name reserved) k) n (g ++ w) rest
      [.node k none (n + g.length) (n + (g ++ w).length) []] := by
  refine accepts_token gap (name.firm rest) kind name.ne_nil fun c ahead => ?_
  have some_ : (w.length == 0) = false := by simpa using name.ne_nil
  rw [Cursor.find, ahead, Lexeme.nameExcept?, name?_append name ends]
  simp only [List.take_left]
  rw [if_neg (by simpa using free), Cursor.ofLength?, some_]
  rfl

theorem accepts_string {w : List Char} (gap : IsGap g) (string : IsString w) :
    Accepts limit fuel Grammar.stringLiteral n (g ++ w) rest
      [.node .string none (n + g.length) (n + (g ++ w).length) []] := by
  refine accepts_token gap (string.firm rest) rfl string.ne_nil fun c ahead => ?_
  have some_ : (w.length == 0) = false := by simpa using string.ne_nil
  rw [Cursor.find, ahead, string.reads rest, Cursor.ofLength?, some_]
  rfl

theorem accepts_number {w : List Char} (gap : IsGap g) (number : IsNumber w)
    (ends : EndsNumber rest) :
    Accepts limit fuel Grammar.numberLiteral n (g ++ w) rest
      [.node .number none (n + g.length) (n + (g ++ w).length) []] := by
  refine accepts_token gap (number.firm rest) rfl number.ne_nil fun c ahead => ?_
  have some_ : (w.length == 0) = false := by simpa using number.ne_nil
  rw [Cursor.find, ahead, number.reads rest ends, Cursor.ofLength?, some_]
  rfl

end

/-! ## Where nothing goes on -/

def closers : List Char := [',', ']', '\x7d', ')', ';']

def Closed (marks : List Char) (rest : List Char) : Prop :=
  ∃ c ∈ marks, Begins (.char c) rest

theorem closers_proper : ∀ c ∈ closers, Lexeme.isGap c = false ∧ c ≠ '/' := by decide

theorem closed_of_gap {g rest : List Char} {c : Char} (gap : IsGap g) (h : c ∈ closers) :
    Closed closers (g ++ c :: rest) :=
  ⟨c, h, (begins_char (closers_proper c h).1 (closers_proper c h).2 rest).gap gap⟩

theorem Closed.first {marks rest : List Char} (h : Closed marks rest) :
    ∃ c more, rest = c :: more ∧
      (Lexeme.isGap c = true ∨ c = '/' ∨ c ∈ marks) := by
  obtain ⟨c, hc, g, more, rfl, gap, -, tail, rfl⟩ := h
  cases gap with
  | nil => exact ⟨c, tail, rfl, .inr (.inr hc)⟩
  | @blank d ds blank _ => exact ⟨d, _, rfl, .inl blank⟩
  | block => exact ⟨'/', _, rfl, .inr (.inl rfl)⟩
  | line => exact ⟨'/', _, rfl, .inr (.inl rfl)⟩

theorem Closed.endsName_of {marks rest : List Char} (h : Closed marks rest)
    (apart : ∀ c ∈ marks, Lexeme.isNamePart c = false ∧ c ≠ '\\') : EndsName rest := by
  obtain ⟨c, more, rfl, gap | rfl | mark⟩ := h.first
  · refine endsName_of_char (by simp [Lexeme.isNamePart, gap]) ?_
    rintro rfl
    exact absurd gap (by decide)
  · exact endsName_of_char (by decide) (by decide)
  · exact endsName_of_char (apart c mark).1 (apart c mark).2

theorem Closed.endsName {rest : List Char} (h : Closed closers rest) : EndsName rest :=
  h.endsName_of (by decide)

theorem toNat_lt_of_isAlphanum {c : Char} (h : c.isAlphanum = true) : c.toNat < 128 := by
  have below {d : Char} (high : c.val ≤ d.val) (ascii : d.toNat < 128) : c.toNat < 128 :=
    Nat.lt_of_le_of_lt (UInt32.le_iff_toNat_le.1 high) ascii
  obtain letter | digit := Bool.or_eq_true_iff.1 h
  · obtain capital | small := Bool.or_eq_true_iff.1 letter
    · exact below (d := 'Z') (of_decide_eq_true capital).2 (by decide)
    · exact below (d := 'z') (of_decide_eq_true (Bool.and_eq_true_iff.1 small).2) (by decide)
  · exact below (d := '9') (of_decide_eq_true (Bool.and_eq_true_iff.1 digit).2) (by decide)

theorem Closed.endsNumber {rest : List Char} (h : Closed closers rest) : EndsNumber rest := by
  obtain ⟨c, more, rfl, start⟩ := h.first
  rintro d rest eq
  obtain ⟨rfl, -⟩ := List.cons.inj eq
  obtain gap | rfl | closer := start
  · by_cases ascii : c.toNat < 128
    · have all : ∀ n < 128, Lexeme.isGap (Char.ofNat n) = true →
          (Char.ofNat n).isAlphanum = false ∧ Char.ofNat n ≠ '_' ∧ Char.ofNat n ≠ '.' := by
        decide +kernel
      simpa using all c.toNat ascii (by simpa using gap)
    · have beyond (d : Char) (h : d.toNat < 128) : c ≠ d := by
        rintro rfl
        exact ascii h
      refine ⟨?_, beyond '_' (by decide), beyond '.' (by decide)⟩
      rw [← Bool.not_eq_true]
      intro letter
      exact ascii (toNat_lt_of_isAlphanum letter)
  · decide
  · have facts : ∀ c ∈ closers, c.isAlphanum = false ∧ c ≠ '_' ∧ c ≠ '.' := by decide
    exact facts c closer

theorem Closed.refused {marks rest : List Char} (h : Closed marks rest) {limit fuel n : Nat}
    {r : Rule} (bars : ∀ c ∈ marks, (Sight.char c).bars r = true) :
    (running limit fuel r (behind n rest)).result = none := by
  obtain ⟨c, hc, begins⟩ := h
  exact begins.refused (bars c hc)

end PropStories.Tsx
