import PropStories.Proofs.Tsx.Patterns
import PropStories.Story.Locate

/-!
# Programs of declared values

A program is read statement by statement. Here the statements are declarations of variables whose
values are accepted expressions; the declared name and the value are found in the tree. Main
statement: a value is one expression, and if it is an object literal, that literal is found in the
declaration that is put around it.
-/

namespace PropStories.Tsx

open Cursor (behind)
open Grammar

section

variable {limit fuel n : Nat} {rest gap : List Char}

/-! ## Parentheses -/

theorem IsValue.parenthesized {v lead tail : List Char} (h : IsValue v) (hgap : IsGap gap)
    (hlead : IsGap lead) (htail : IsGap tail) (ends : Begins (.char ';') rest) {t : Tree}
    (inner : Accepts limit fuel (.ref .expression) (n + (gap ++ ['(']).length) (lead ++ v)
      (tail ++ [')'] ++ rest) [t]) :
    ∃ p, Accepts limit (fuel + 3) (.ref .expression) n
      (gap ++ '(' :: (lead ++ v ++ (tail ++ [')']))) rest [p] := by
  have close : Begins (.char ')') (tail ++ [')'] ++ rest) := by
    rw [List.append_assoc]
    exact (begins_char (by decide) (by decide) _).gap htail
  have opening : Accepts limit fuel (mark "(") n (gap ++ ['('])
      (lead ++ v ++ (tail ++ [')'] ++ rest)) _ := accepts_mark hgap rfl (by decide)
  have closing {n : Nat} : Accepts limit fuel (mark ")") n (tail ++ [')']) rest _ :=
    accepts_mark htail rfl (by decide)
  have sequence : Accepts limit fuel sequence _ (lead ++ v) (tail ++ [')'] ++ rest) [t] :=
    inner.grow (close.refused (by decide))
  have typed := (opening.seq sequence.passes).before_nothing (b := .opt typeAscription)
    (opt_of_none (close.refused (by decide)))
  obtain ⟨all, frames, accepts⟩ := (typed.seq closing.passes).node (k := .parenthesized) rfl
  have text : gap ++ ['('] ++ (lead ++ v) ++ (tail ++ [')']) =
      gap ++ '(' :: (lead ++ v ++ (tail ++ [')'])) := by simp
  rw [text] at accepts
  have paren : Begins (.char '(') (gap ++ '(' :: (lead ++ v ++ (tail ++ [')'])) ++ rest) := by
    rw [List.append_assoc]
    exact (begins_char (by decide) (by decide) _).gap hgap
  exact ⟨_, accepts_of_primary ⟨.char '(', by simp [openings], paren⟩
    ⟨';', by decide, ends⟩ (h.noArrow hgap hlead htail ends)
    (.or_right (paren.refused (by decide)) (.or_right (paren.refused (by decide))
      (.or_right (paren.refused (by decide)) (.or_right (paren.refused (by decide))
        accepts.or_left))))⟩

/-! ## Declarations -/

structure Declares (d : Tree) (start stop : Nat) (value : Tree) : Prop where
  kind : d.kind = .variableDeclarator
  name : ∃ name, d.child? .name = some name ∧ name.start = start ∧ name.stop = stop
  value : d.child? .value = some (value.withLabel (some .value))

theorem accepts_declarator {name type value : List Char} {us : List Tree} {v : Tree}
    (isName : IsName name) (ends : EndsName (type ++ ([' ', '='] ++ ' ' :: value ++ rest)))
    (ascribed : Passes limit fuel annotated (n + (' ' :: name).length) type
      ([' ', '='] ++ ' ' :: value ++ rest) us)
    (labels : ∀ u ∈ us, u.label? = some .type)
    (begins : Opens [.char ':', .char '='] (type ++ ([' ', '='] ++ ' ' :: value ++ rest)))
    (accepted : Accepts limit fuel (.ref .expression)
      (n + (' ' :: name ++ type ++ [' ', '=']).length) (' ' :: value) rest [v]) :
    ∃ d, Declares d (n + 1) (n + (' ' :: name).length) v ∧
      Accepts limit fuel variableDeclarator n
        (' ' :: name ++ type ++ ([' ', '='] ++ ' ' :: value)) rest [d] := by
  have named : Accepts limit fuel declaredName n (' ' :: name)
      (type ++ ([' ', '='] ++ ' ' :: value ++ rest)) _ :=
    (accepts_name (k := .identifier) rfl isGap_blank isName ends List.not_mem_nil).or_left
  have equals : Accepts limit fuel (markNot "=" "=>") (n + (' ' :: name ++ type).length) [' ', '=']
      (' ' :: value ++ rest) _ :=
    accepts_markNot isGap_blank rfl (by decide) fun d more eq => by
      obtain ⟨rfl, -⟩ := List.cons.inj eq
      decide
  have initial := @Reaches.seq _ _ _ _ (.label .value (.ref .expression)) _ _ rest _ _ equals
    (by
      rw [List.length_append, ← Nat.add_assoc] at accepted
      exact (accepted.label .value).passes)
  have typed := ((named.label .name).before_nothing (b := .opt (mark "!"))
    (opt_of_none (begins.refused (by decide)))).seq ascribed
  have whole := typed.seq initial.opt.passes
  obtain ⟨all, frames, accepts⟩ := whole.node (k := .variableDeclarator) rfl
  refine ⟨_, ⟨rfl, ?_, ?_⟩, accepts⟩
  · refine ⟨.node .identifier (some .name) (n + 1) (n + (' ' :: name).length) [], ?_, rfl, rfl⟩
    rw [Tree.child?, Tree.children, frames.find?_label]
    rfl
  · rw [Tree.child?, Tree.children, frames.find?_label, List.find?_append, List.find?_append]
    have none : us.find? (·.label? == some .value) = none := by
      rw [List.find?_eq_none]
      intro u hu
      rw [labels u hu]
      decide
    rw [none]
    cases v
    rfl

theorem isName_const : IsName "const".toList := ⟨⟨_, _, rfl, by decide⟩, by decide⟩

theorem accepts_lexicalDeclaration {declarator : List Char} {d : Tree} (hgap : IsGap gap)
    (blank : EndsName (declarator ++ ([';'] ++ rest)))
    (kind : d.kind = .variableDeclarator)
    (accepted : Accepts limit fuel variableDeclarator (n + (gap ++ "const".toList).length) declarator
      ([';'] ++ rest) [d]) :
    ∃ s, s.kind = .lexicalDeclaration ∧
      s.namedChildren.filter (·.kind == .variableDeclarator) = [d] ∧
      Accepts limit fuel lexicalDeclaration n
        (gap ++ "const".toList ++ declarator ++ [';']) rest [s] := by
  have semicolon : Begins (.char ';') ([';'] ++ rest) := begins_char (by decide) (by decide) rest
  have keyword : Accepts limit fuel (word "const" <|> word "let") n (gap ++ "const".toList)
      (declarator ++ ([';'] ++ rest)) _ :=
    .or_left (accepts_word (.token "const") rfl hgap isName_const blank)
  have list : Accepts limit fuel (listOf variableDeclarator) _ declarator ([';'] ++ rest) [d] :=
    accepted.before_nothing (b := .many (mark "," ++ variableDeclarator))
      (many_of_none (semicolon.refused (by decide)))
  have ending {n : Nat} : Accepts limit fuel statementEnd n [';'] rest _ :=
    .or_left (accepts_single rfl (by decide))
  obtain ⟨all, frames, accepts⟩ := ((keyword.seq list.passes).seq ending.passes).node
    (k := .lexicalDeclaration) rfl
  refine ⟨_, rfl, ?_, accepts⟩
  have alone : [d].filter (fun u => u.kind.isNamed && (u.kind == .variableDeclarator)) = [d] :=
    List.filter_cons_of_pos (by rw [kind]; rfl)
  rw [Tree.namedChildren, Tree.children, List.filter_filter]
  have swap : (fun u : Tree => u.kind == Kind.variableDeclarator && u.kind.isNamed) =
      fun u => u.kind.isNamed && (u.kind == .variableDeclarator) :=
    funext fun u => Bool.and_comm ..
  rw [swap, frames.filter fun u comment _ => by rw [comment]; rfl, List.filter_append,
    List.filter_append, alone]
  rfl

theorem declarators_of_lexical {s : Tree} (kind : s.kind = .lexicalDeclaration) :
    Story.declarators s = s.namedChildren.filter (·.kind == .variableDeclarator) := by
  rw [Story.declarators, kind, if_neg (by decide)]
  simp only
  rw [kind, if_pos (by decide)]

abbrev NoEnum (limit fuel n : Nat) (text : List Char) : Prop :=
  (running limit fuel (.opt (word "const") ++ word "enum" ++ .label .name identifier)
    (behind n text)).result = none

theorem accepts_optConst {declarator : List Char} (hgap : IsGap gap) (blank : EndsName declarator) :
    Accepts limit fuel (.opt (word "const")) n (gap ++ "const".toList) declarator
      [.node (.token "const") none (n + gap.length) (n + (gap ++ "const".toList).length) []] :=
  (accepts_word (.token "const") rfl hgap isName_const blank).opt

theorem noEnum_of_begins {declarator : List Char} (hgap : IsGap gap) (blank : EndsName declarator)
    (begins : Begins (.name ["enum"]) declarator) :
    NoEnum limit fuel n (gap ++ "const".toList ++ declarator) :=
  run_seq_of_none (refused_seq (accepts_optConst hgap blank) (begins.refused (by decide)))

theorem accepts_constDeclaration {declarator : List Char} {ts : List Tree} (hgap : IsGap gap)
    (blank : EndsName (declarator ++ rest))
    (noEnum : NoEnum limit fuel n (gap ++ "const".toList ++ (declarator ++ rest)))
    (accepted : Accepts limit fuel lexicalDeclaration n
      (gap ++ "const".toList ++ declarator) rest ts) :
    Accepts limit fuel declaration n (gap ++ "const".toList ++ declarator) rest ts := by
  have begins : Begins (.word "const") (gap ++ "const".toList ++ declarator ++ rest) := by
    rw [List.append_assoc, List.append_assoc]
    exact (begins_word isName_const blank).gap hgap
  have noEnum : (running limit fuel enumDeclaration
      (behind n (gap ++ "const".toList ++ declarator ++ rest))).result = none := by
    rw [List.append_assoc (gap ++ "const".toList)]
    exact node_of_none (run_seq_of_none (run_seq_of_none (run_seq_of_none noEnum))) _
  exact .or_right (begins.refused (by decide)) (.or_right (begins.refused (by decide))
    (.or_right (begins.refused (by decide)) (.or_right noEnum accepted.or_left)))

theorem accepts_constStatement {declarator : List Char} {ts : List Tree} (hgap : IsGap gap)
    (blank : EndsName (declarator ++ rest))
    (accepted : Accepts limit fuel declaration n (gap ++ "const".toList ++ declarator) rest ts) :
    Accepts limit (fuel + 1) (.ref .statement) n (gap ++ "const".toList ++ declarator) rest ts := by
  have begins : Begins (.word "const") (gap ++ "const".toList ++ declarator ++ rest) := by
    rw [List.append_assoc, List.append_assoc]
    exact (begins_word isName_const blank).gap hgap
  exact .ref (.or_right (begins.refused (by decide)) (.or_right (begins.refused (by decide))
    accepted.or_left))

/-! ## Programs -/

theorem Series.count_le {r : Rule} {text : List Char} {ts : List Tree} {count : Nat}
    (h : Series limit fuel r rest n text ts count) : count ≤ text.length := by
  induction h with
  | stop => exact Nat.zero_le _
  | step some_ _ _ ih =>
      have := List.length_pos_iff.2 some_
      rw [List.length_append]
      omega

end

def statementFuel (length : Nat) : Nat := nestingPerCharacter * (length + 1) - 1

theorem run_endOfInput {limit fuel n : Nat} : ∃ c,
    (running limit fuel (.token .endOfInput .missing) (behind n ['\n'])).result = some ([], c) := by
  have ahead : (behind n ['\n']).ahead = [] := rfl
  have gap : (behind n ['\n']).gap = [] := rfl
  refine ⟨Cursor.after [] false (n + 1 + 0) [], ?_⟩
  rw [running, Rule.run, Cursor.read, Cursor.find, ahead]
  simp only [List.isEmpty_nil, if_true, Cursor.consume, gap]
  rfl

theorem run_program {limit fuel count : Nat} {text : List Char} {ts : List Tree}
    (some_ : text ≠ []) (firm : Firm (text ++ ['\n'])) (noBang : ∀ c cs, text = c :: cs → c ≠ '#')
    (h : Series limit fuel (.ref .statement) ['\n'] 0 text ts count) (enough : count ≤ limit) :
    ∃ all c, Frames all ts 0 text.length ∧
      (running limit fuel program (behind 0 (text ++ ['\n']))).result = some (all, c) := by
  obtain ⟨rfl, -, -⟩ | ⟨all, run, frames⟩ := h.many enough
  · exact absurd rfl some_
  · have gap : (behind 0 (text ++ ['\n'])).gap = [] := Cursor.gap_behind firm 0
    have next : (behind 0 (text ++ ['\n'])).next = 0 := Cursor.next_behind .nil firm 0
    rw [gap, List.nil_append] at run
    rw [next, Nat.zero_add] at frames
    have noHash : (running limit fuel (.opt (.token .hashBang .hashBang))
        (behind 0 (text ++ ['\n']))).result = some ([], behind 0 (text ++ ['\n'])) := by
      obtain ⟨c, cs, rfl⟩ := List.exists_cons_of_ne_nil some_
      have begins : Begins (.char c) (c :: cs ++ ['\n']) :=
        ⟨[], c :: cs ++ ['\n'], rfl, .nil, firm, cs ++ ['\n'], rfl⟩
      have bars : (Sight.char c).bars (.token .hashBang .hashBang) = true := by
        show (c != '#') = true
        simpa using noBang c cs rfl
      exact opt_of_none (begins.refused bars)
    obtain ⟨stop, ends⟩ := @run_endOfInput limit fuel (0 + text.length)
    have statements := run_seq_of_some (b := .many (.ref .statement)) noHash
    rw [run, Option.map_some] at statements
    simp only [List.nil_append] at statements
    have program := run_seq_of_some (b := .token .endOfInput .missing) statements
    rw [ends, Option.map_some] at program
    simp only [List.append_nil] at program
    exact ⟨all, stop, frames, program⟩

theorem parseStrict?_of_series {count : Nat} {text : List Char} {ts : List Tree}
    (some_ : text ≠ []) (firm : Firm (text ++ ['\n'])) (noBang : ∀ c cs, text = c :: cs → c ≠ '#')
    (h : Series ((text ++ ['\n']).length + 1) (statementFuel (text ++ ['\n']).length)
      (.ref .statement) ['\n'] 0 text ts count) :
    ∃ all, Frames all ts 0 text.length ∧ parseStrict? (text ++ ['\n']) =
      some ⟨text ++ ['\n'], .node .program none 0 (text ++ ['\n']).length all⟩ := by
  have count_le := h.count_le
  have length : (text ++ ['\n']).length = text.length + 1 := List.length_append
  obtain ⟨all, c, frames, run⟩ := run_program some_ firm noBang h (by omega)
  refine ⟨all, frames, ?_⟩
  have enough : nestingPerCharacter * ((text ++ ['\n']).length + 1) =
      statementFuel (text ++ ['\n']).length + 1 := by
    rw [statementFuel, nestingPerCharacter]
    omega
  have read : (readProgram (text ++ ['\n']) []).result = some (all, c) := by
    show (Rule.read grammar _ (nestingPerCharacter * _) .program _).result = _
    rw [enough]
    exact run
  rw [parseStrict?, wholeTree?, read]
  rfl

theorem parseStrict?_of_statement {text : List Char} {s : Tree} (some_ : text ≠ [])
    (firm : Firm (text ++ ['\n'])) (noBang : ∀ c cs, text = c :: cs → c ≠ '#')
    (isNamed : s.kind.isNamed = true)
    (h : Accepts ((text ++ ['\n']).length + 1) (statementFuel (text ++ ['\n']).length)
      (.ref .statement) 0 text ['\n'] [s]) :
    ∃ x, parseStrict? (text ++ ['\n']) = some x ∧ x.source = text ++ ['\n'] ∧
      x.root.namedChildren = [s] := by
  have ends {n : Nat} : (running ((text ++ ['\n']).length + 1)
      (statementFuel (text ++ ['\n']).length) (.ref .statement) (behind n ['\n'])).result = none :=
    (begins_nothing (.blank (by decide) .nil)).refused (by decide)
  have series := @Series.step _ _ _ ['\n'] _ _ _ _ _ _ some_ h (.stop ends)
  rw [List.append_nil, List.append_nil] at series
  obtain ⟨all, frames, parsed⟩ := parseStrict?_of_series some_ firm noBang series
  obtain ⟨rfl, -, -⟩ := frames.single
  exact ⟨_, parsed, rfl, List.filter_cons_of_pos isNamed⟩

/-! ## Declared values -/

def constText (name value : List Char) : List Char :=
  "const".toList ++ (' ' :: name ++ ([' ', '='] ++ ' ' :: value) ++ [';'])

section

variable {limit fuel : Nat} {name value : List Char} {t : Tree}

theorem accepts_constText (isName : IsName name) (noEnum : String.ofList name ∉ ["enum"])
    (accepted : Accepts limit fuel (.ref .expression) ("const".toList.length + (name.length + 3))
      (' ' :: value) ([';'] ++ ['\n']) [t]) :
    ∃ s d, Accepts limit (fuel + 1) (.ref .statement) 0 (constText name value) ['\n'] [s] ∧
      s.kind = .lexicalDeclaration ∧
      s.namedChildren.filter (·.kind == .variableDeclarator) = [d] ∧
      Declares d 6 (6 + name.length) t := by
  have blank {cs : List Char} : EndsName (' ' :: cs) := endsName_of_char (by decide) (by decide)
  have equals {cs : List Char} : Begins (.char '=') ([' ', '='] ++ cs) :=
    (begins_char (by decide) (by decide) _).gap isGap_blank
  have place : "const".toList.length + (' ' :: name ++ [] ++ [' ', '=']).length =
      "const".toList.length + (name.length + 3) := by
    rw [List.append_nil, List.length_append]
    rfl
  obtain ⟨d, declares, declarator⟩ := @accepts_declarator _ _ "const".toList.length _ _ [] value [] t
    isName blank (passes_opt (equals.refused (by decide))) nofun
    ⟨.char '=', by simp, equals⟩ (place ▸ accepted)
  rw [List.append_nil] at declarator
  obtain ⟨s, lexical, declared, lexicalDeclaration⟩ := @accepts_lexicalDeclaration _ _ 0
    _ [] _ _ .nil blank declares.kind declarator
  have noEnum {cs : List Char} : Begins (.name ["enum"]) (' ' :: name ++ (' ' :: cs)) :=
    ⟨[' '], name ++ (' ' :: cs), rfl, isGap_blank, isName.firm _, _, _, rfl, isName, blank, noEnum⟩
  rw [List.append_assoc] at lexicalDeclaration
  have statement := accepts_constStatement .nil blank (accepts_constDeclaration .nil blank
    (noEnum_of_begins .nil blank (by rw [List.append_assoc, List.append_assoc]; exact noEnum))
    lexicalDeclaration)
  refine ⟨s, d, statement, lexical, declared, ?_⟩
  have start : "const".toList.length + 1 = 6 := rfl
  have stop : "const".toList.length + (' ' :: name).length = 6 + name.length := by
    rw [List.length_cons, Nat.add_comm name.length, ← Nat.add_assoc, start]
  exact start ▸ stop ▸ declares

theorem parseStrict?_constText (isName : IsName name) (noEnum : String.ofList name ∉ ["enum"])
    (enough : statementFuel (constText name value ++ ['\n']).length = fuel + 1)
    (accepted : Accepts ((constText name value ++ ['\n']).length + 1) fuel (.ref .expression)
      ("const".toList.length + (name.length + 3)) (' ' :: value) ([';'] ++ ['\n']) [t]) :
    ∃ x d, parseStrict? (constText name value ++ ['\n']) = some x ∧
      x.source = constText name value ++ ['\n'] ∧ x.root.namedChildren.length = 1 ∧
      x.root.namedChildren.flatMap Story.declarators = [d] ∧
      (d.child? .name).map x.stringOf = some (String.ofList name) ∧
      (d.child? .value).bind Story.bare? = Story.bare? (t.withLabel (some .value)) := by
  obtain ⟨s, d, statement, lexical, declared, declares⟩ := accepts_constText isName noEnum accepted
  rw [← enough] at statement
  obtain ⟨x, parsed, source, named⟩ := @parseStrict?_of_statement (constText name value) _
    (List.append_ne_nil_of_left_ne_nil isName_const.ne_nil _)
    (by rw [constText, List.append_assoc]; exact isName_const.firm _)
    (fun c cs eq => by obtain ⟨rfl, -⟩ := List.cons.inj eq; decide)
    (by rw [lexical]; rfl) statement
  refine ⟨x, d, parsed, source, by rw [named]; rfl, ?_, ?_, ?_⟩
  · rw [named, List.flatMap_singleton, declarators_of_lexical lexical, declared]
  · obtain ⟨name_, found, start, stop⟩ := declares.name
    rw [found, Option.map_some, Syntax.stringOf, Syntax.textOf, start, stop, source,
      Nat.add_sub_cancel_left]
    have front : constText name value ++ ['\n'] = "const ".toList ++
        (name ++ ([' ', '='] ++ ' ' :: value ++ [';'] ++ ['\n'])) := by
      simp [constText]
    rw [front, show 6 = "const ".toList.length from rfl, List.drop_left, List.take_left]
  · rw [declares.value, Option.bind_some]

end

/-! ## Texts as values -/

theorem asValue_front : "const __value = (\n".toList =
    "const".toList ++ (' ' :: "__value".toList) ++ [' ', '=', ' ', '(', '\n'] := by simp

theorem asValue_back : "\n);\n".toList = ['\n', ')', ';', '\n'] := by simp

theorem asValue_eq (v tail : List Char) : asValue (v ++ tail) =
    constText "__value".toList ('(' :: (['\n'] ++ v ++ (tail ++ ['\n'] ++ [')']))) ++ ['\n'] := by
  unfold asValue constText
  rw [asValue_front, asValue_back]
  generalize "const".toList = const
  generalize "__value".toList = name
  simp

section

variable {limit fuel : Nat} {v tail : List Char} {t : Tree}

theorem isName_value : IsName "__value".toList := ⟨⟨_, _, rfl, by decide⟩, by decide⟩

/-- A value in parentheses is the only statement. -/
theorem IsValue.parses (h : IsValue v) (htail : IsGap tail)
    (enough : statementFuel (asValue (v ++ tail)).length = fuel + 4)
    (inner : Accepts ((asValue (v ++ tail)).length + 1) fuel (.ref .expression)
      "const __value = (".length (['\n'] ++ v) (tail ++ ['\n'] ++ [')'] ++ ([';'] ++ ['\n'])) [t]) :
    ∃ x, parseStrict? (asValue (v ++ tail)) = some x ∧ x.root.namedChildren.length = 1 := by
  have line : IsGap ['\n'] := .blank (by decide) .nil
  have semicolon : Begins (.char ';') ([';'] ++ ['\n']) := begins_char (by decide) (by decide) _
  obtain ⟨p, parenthesized⟩ := h.parenthesized isGap_blank line (htail.append line)
    semicolon (n := ("const __value =".toList).length) inner
  rw [asValue_eq] at *
  obtain ⟨x, d, parsed, -, one, -⟩ := parseStrict?_constText isName_value (by decide) enough
    parenthesized
  exact ⟨x, parsed, one⟩

theorem length_asValue (v tail : List Char) :
    (asValue (v ++ tail)).length = v.length + tail.length + 22 := by
  have front : "const __value = (\n".toList.length = 18 := rfl
  have back : "\n);\n".toList.length = 4 := rfl
  unfold asValue
  simp only [List.length_append, front, back]
  omega

theorem IsValue.notBlank (h : IsValue v) (tail : List Char) : Text.allBlank (v ++ tail) = false := by
  have head {c : Char} {cs : List Char} (proper : Text.isBlank c = false) :
      Text.allBlank (c :: cs ++ tail) = false := by
    rw [Text.allBlank, List.cons_append, List.all_cons, proper, Bool.false_and]
  cases h with
  | string h =>
      obtain ⟨q, cs, rfl, rfl | rfl⟩ := h.start <;> exact head (by decide)
  | number h =>
      obtain ⟨c, cs, rfl, start⟩ := h.starts
      have proper : ∀ c ∈ numberStarts, Text.isBlank c = false := by decide
      exact head (proper c start)
  | signed sign =>
      have proper : ∀ c ∈ ['-', '+'], Text.isBlank c = false := by decide
      exact head (proper _ sign)
  | constant h =>
      simp only [constants, List.mem_cons, List.not_mem_nil, or_false] at h
      obtain rfl | rfl | rfl := h
      all_goals exact head (by decide)
  | function => exact head (by decide)
  | action => exact head (by decide)
  | array => exact head (by decide)
  | object => exact head (by decide)

theorem closed_paren {rest : List Char} (htail : IsGap tail) :
    Closed closers (tail ++ ['\n'] ++ [')'] ++ rest) := by
  rw [List.append_assoc]
  have line : IsGap ['\n'] := .blank (by decide) .nil
  exact closed_of_gap (htail.append line) (by decide)

/-- A value is one expression, also with a comment behind it. -/
theorem IsValue.isExpression (h : IsValue v) (htail : IsGap tail) :
    Tsx.isExpression (String.ofList (v ++ tail)) = true := by
  have length := length_asValue v tail
  obtain ⟨fuel, enough⟩ : ∃ fuel, statementFuel (asValue (v ++ tail)).length = fuel + 4 :=
    ⟨statementFuel (asValue (v ++ tail)).length - 4, by
      rw [statementFuel, nestingPerCharacter]
      omega⟩
  have room : nestingPerCharacter * v.length ≤ fuel := by
    rw [statementFuel, nestingPerCharacter] at enough
    rw [nestingPerCharacter]
    omega
  have line : IsGap ['\n'] := .blank (by decide) .nil
  have limit : v.length ≤ (asValue (v ++ tail)).length + 1 := by omega
  obtain ⟨t, -, inner⟩ := @IsValue.standalone _ h _ _ room limit _ _
    "const __value = (".length line (@closed_paren _ ([';'] ++ ['\n']) htail)
  obtain ⟨x, parsed, one⟩ := h.parses htail enough inner
  rw [Tsx.isExpression, String.toList_ofList, h.notBlank, parsed, Option.map_some, one]
  rfl

end

/-! ## Object literals -/

/-- The text is one object literal: set to it, a variable has no fault and has this literal. The
members of the literal are pairs with these keys and values, in order. -/
def IsLiteral (text : List Char) (members : List (List Char × List Char)) : Prop :=
  ∃ x object, parseStrict? (constText "value".toList text ++ ['\n']) = some x ∧
    Story.objectOf? x "value" = some object ∧ x.textOf object = text ∧
    object.parts.map (pairText? x.source) = members.map fun m => some (m.1, m.1 ++ [':', ' '] ++ m.2)

theorem drop_constText (name value : List Char) :
    (constText name value ++ ['\n']).drop ("const".toList.length + (name.length + 3)) =
      ' ' :: value ++ ([';'] ++ ['\n']) := by
  have front : constText name value ++ ['\n'] = ("const".toList ++ (' ' :: name ++ [' ', '='])) ++
      (' ' :: value ++ ([';'] ++ ['\n'])) := by
    rw [constText]
    generalize "const".toList = const
    simp
  have length : ("const".toList ++ (' ' :: name ++ [' ', '='])).length =
      "const".toList.length + (name.length + 3) := by
    rw [List.length_append, List.length_append]
    rfl
  rw [front, ← length, List.drop_left]

theorem isLiteral_object {s : Slot} {ss : List Slot} {v : List Char}
    (slots : ∀ t ∈ s :: ss, t.Fits Keyed)
    (values : ∀ t ∈ s :: ss, ∀ c, t.core? = some c → Standalone c)
    (text : v = '\x7b' :: (Slot.body s ss ++ ['\x7d'])) {members : List (List Char × List Char)}
    (pairs : ((s :: ss).filter Slot.isItem).map Slot.pair? =
      members.map fun m => some (m.1, m.1 ++ [':', ' '] ++ m.2)) : IsLiteral v members := by
  have isName : IsName "value".toList := ⟨⟨_, _, rfl, by decide⟩, by decide⟩
  have brace {rest : List Char} : Begins (.char '\x7b') ([' '] ++ v ++ rest) := by
    rw [text, List.append_assoc]
    exact (begins_char (by decide) (by decide) _).gap isGap_blank
  have place := drop_constText "value".toList v
  have long : v.length ≤ (constText "value".toList v ++ ['\n']).length := by
    simp only [constText, List.length_append, List.length_cons]
    omega
  obtain ⟨fuel, enough⟩ : ∃ fuel,
      statementFuel (constText "value".toList v ++ ['\n']).length = fuel + 1 :=
    ⟨statementFuel (constText "value".toList v ++ ['\n']).length - 1, by
      rw [statementFuel, nestingPerCharacter]
      omega⟩
  have room : nestingPerCharacter * v.length ≤ fuel := by
    rw [statementFuel, nestingPerCharacter] at enough
    rw [nestingPerCharacter]
    omega
  obtain ⟨fuel, rfl, count, inside⟩ := inside_brackets (text ▸ room)
    (text ▸ (show v.length ≤ (constText "value".toList v ++ ['\n']).length + 1 by omega)) values
  obtain ⟨t, kind, -, said, literal⟩ := accepts_object slots inside count isGap_blank (text ▸ place)
  rw [← text] at literal said
  have accepted := @accepts_of_inert _ fuel _ _ _ _ ⟨.char '\x7b', by simp [inertOpenings], brace⟩
    ⟨';', by decide, begins_char (by decide) (by decide) _⟩ (accepts_primary_object brace literal)
  obtain ⟨start, stop⟩ := accepted.place isGap_blank
    (by rw [text]; exact firm_cons (by decide) (by decide))
  obtain ⟨x, d, parsed, source, -, declared, name, value⟩ :=
    parseStrict?_constText isName (by decide) enough accepted
  have bare : Story.bare? (t.withLabel (some .value)) = some (t.withLabel (some .value)) := by
    cases t
    cases kind
    rfl
  refine ⟨x, t.withLabel (some .value), parsed, ?_, ?_, ?_⟩
  · rw [Story.objectOf?, declared, List.find?_cons_of_pos (by rw [name, String.ofList_toList]; rfl)]
    obtain ⟨w, found, bare'⟩ := Option.bind_eq_some_iff.1 (value.trans bare)
    simp only [Option.bind_eq_bind, Option.bind_some, found, bare']
    cases t
    cases kind
    rfl
  · have first : x.textOf (t.withLabel (some .value)) = x.textOf t := by cases t; rfl
    have size : "const".toList.length + ("value".toList.length + 3) + ([' '] ++ v).length -
        ("const".toList.length + ("value".toList.length + 3) + [' '].length) = v.length := by
      rw [List.length_append]
      omega
    rw [first, Syntax.textOf, source, start, stop, size, ← List.drop_drop, place]
    exact List.take_left
  · have parts : (t.withLabel (some .value)).parts = t.parts := by cases t; rfl
    rw [parts, source, said, pairs]

end PropStories.Tsx
