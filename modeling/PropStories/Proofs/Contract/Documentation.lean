import PropStories.Contract.Service
import PropStories.Proofs.Contract.Bodies
import PropStories.Proofs.Path
import PropStories.Proofs.Synth.Expressions
import PropStories.Proofs.Text.Occurrences

/-!
# Documentation read back

A documentation block has one decorated line for each line of its text. Main statement: a property
directly behind a block is documented with exactly these lines, whatever the indentation and the
line ends, and a property whose nearest comment is no documentation has none.
-/

namespace PropStories

/-! ## Trimming and lines -/

namespace Text

variable {front cs back rest : List Char} {c : Char}

theorem trim_blank (h : ∀ c ∈ cs, isBlank c = true) : trim cs = [] := by
  rw [trim, trimStart, ← List.append_nil cs, List.dropWhile_append_of_pos h]
  rfl

theorem trimStart_around (blank : ∀ c ∈ front, isBlank c = true)
    (head : ∃ c, cs.head? = some c ∧ isBlank c = false) : trimStart (front ++ cs) = cs := by
  obtain ⟨c, first, bare⟩ := head
  obtain ⟨cs, rfl⟩ := List.head?_eq_some_iff.1 first
  rw [trimStart, List.dropWhile_append_of_pos blank, List.dropWhile_cons_of_neg (by simp [bare])]

theorem trimEnd_around (blank : ∀ c ∈ back, isBlank c = true)
    (last : ∃ c, cs.getLast? = some c ∧ isBlank c = false) : trimEnd (cs ++ back) = cs := by
  have reversed : trimStart (back.reverse ++ cs.reverse) = cs.reverse :=
    trimStart_around (fun c hc => blank c (List.mem_reverse.1 hc)) (by rwa [List.head?_reverse])
  rw [trimEnd, dropEndWhile, List.reverse_append]
  rw [trimStart] at reversed
  rw [reversed, List.reverse_reverse]

structure Bare (cs : List Char) : Prop where
  head : ∃ c, cs.head? = some c ∧ isBlank c = false
  last : ∃ c, cs.getLast? = some c ∧ isBlank c = false

theorem Bare.trim (bare : Bare cs) (before : ∀ c ∈ front, isBlank c = true)
    (behind : ∀ c ∈ back, isBlank c = true) : trim (front ++ cs ++ back) = cs := by
  obtain ⟨c, first, other⟩ := bare.head
  have head : ∃ c, (cs ++ back).head? = some c ∧ isBlank c = false := by
    obtain ⟨cs, rfl⟩ := List.head?_eq_some_iff.1 first
    exact ⟨c, rfl, other⟩
  rw [Text.trim, List.append_assoc, trimStart_around before head, trimEnd_around behind bare.last]

def lineEnd (returns : Bool) : List Char := if returns then ['\r', '\n'] else ['\n']

theorem lines_append (feeds : '\n' ∉ cs) :
    lines (cs ++ '\n' :: rest) = lines (cs ++ ['\n']) ++ lines rest := by
  obtain ⟨first, pieces, cut⟩ := List.exists_cons_of_ne_nil (splitWhere_ne_nil (· == '\n') rest)
  have alone := splitWhere_of_none (beq_of_notMem feeds)
  rw [lines, lines, lines, splitWhere_append rfl, splitWhere_append rfl, alone, cut]
  simp only [List.singleton_append, List.dropLast_cons_cons, List.map_cons,
    List.getLast?_cons_cons]
  split <;> rfl

theorem lines_lineEnd (feeds : '\n' ∉ cs) (returns : cs.getLast? ≠ some '\r') (ending : Bool) :
    lines (cs ++ (lineEnd ending ++ rest)) = cs :: lines rest := by
  cases ending with
  | false =>
      have line : lines (cs ++ ['\n']) = [cs] := by
        rw [lines, splitWhere_append rfl, splitWhere_of_none (beq_of_notMem feeds)]
        show [_] = [cs]
        congr 1
        dsimp only
        split
        -- A carriage return at the end would go with the line feed.
        next more reversed =>
          rw [← List.head?_reverse, reversed] at returns
          exact absurd rfl returns
        next => rfl
      rw [lineEnd, if_neg (by decide), List.singleton_append, lines_append feeds, line,
        List.singleton_append]
  | true =>
      have feeds' : '\n' ∉ cs ++ ['\r'] := by simpa using feeds
      have line : lines (cs ++ ['\r'] ++ ['\n']) = [cs] := by
        rw [lines, splitWhere_append rfl, splitWhere_of_none (beq_of_notMem feeds')]
        simp [splitWhere]
      rw [lineEnd, if_pos rfl, List.cons_append, List.singleton_append, ← List.singleton_append,
        ← List.append_assoc, lines_append feeds', line, List.singleton_append]

theorem lines_last (feeds : '\n' ∉ cs) (nonempty : cs ≠ []) : lines cs = [cs] := by
  obtain ⟨c, rest, rfl⟩ := List.exists_cons_of_ne_nil nonempty
  rw [lines, splitWhere_of_none (beq_of_notMem feeds)]
  rfl

end Text

/-! ## Blocks -/

namespace Documentation

open Text

structure Line where
  indent : List Char
  text : List Char
  returns : Bool

namespace Line

def decorated (l : Line) : List Char :=
  l.indent ++ ' ' :: '*' :: (if l.text = [] then [] else ' ' :: l.text)

def written (l : Line) : List Char := l.decorated ++ lineEnd l.returns

structure Fits (l : Line) : Prop where
  indent : ∀ c ∈ l.indent, isBlank c = true ∧ c ≠ '\n'
  feeds : '\n' ∉ l.text
  open_ : ¬ ['*', '/'] <:+: l.text
  trimmed : ∀ c, l.text.getLast? = some c → isBlank c = false

end Line

structure Block where
  returns : Bool
  lines : List Line
  indent : List Char

namespace Block

def body (b : Block) : List Char :=
  lineEnd b.returns ++ (b.lines.flatMap Line.written ++ (b.indent ++ [' ']))

def comment (b : Block) : List Char := "/**".toList ++ (b.body ++ "*/".toList)

def text (b : Block) : List Char := ['\n'].intercalate (b.lines.map (·.text))

structure Fits (b : Block) : Prop where
  indent : ∀ c ∈ b.indent, isBlank c = true ∧ c ≠ '\n'
  lines : ∀ l ∈ b.lines, l.Fits
  first : ∃ l c, b.lines.head? = some l ∧ l.text.head? = some c ∧ isBlank c = false
  last : ∃ l, b.lines.getLast? = some l ∧ l.text ≠ []

end Block

/-! ## One line -/

namespace Line

variable {l : Line}

theorem core_bare (h : l.Fits) : Bare ('*' :: (if l.text = [] then [] else ' ' :: l.text)) where
  head := ⟨'*', rfl, by decide⟩
  last := by
    split
    next => exact ⟨'*', rfl, by decide⟩
    next some_ =>
      have last := List.getLast?_eq_some_getLast some_
      refine ⟨l.text.getLast some_, ?_, h.trimmed _ last⟩
      rw [List.getLast?_cons_cons, ← List.singleton_append, List.getLast?_append, last]
      rfl

theorem undecorated_decorated (h : l.Fits) : undecorated l.decorated = l.text := by
  have before : ∀ c ∈ l.indent ++ [' '], isBlank c = true := fun c hc => by
    obtain member | member := List.mem_append.1 hc
    · exact (h.indent c member).1
    · rw [List.mem_singleton.1 member]
      decide
  have core : trim l.decorated = '*' :: (if l.text = [] then [] else ' ' :: l.text) := by
    rw [← (core_bare h).trim before (show ∀ c ∈ ([] : List Char), isBlank c = true by simp),
      decorated]
    simp
  have ends : trimEnd l.text = l.text := by
    by_cases empty : l.text = []
    · rw [empty]
      rfl
    · have last := List.getLast?_eq_some_getLast empty
      rw [← List.append_nil l.text, trimEnd_around (by simp) ⟨_, last, h.trimmed _ last⟩,
        List.append_nil]
  rw [undecorated, core]
  simp only [afterStart?, beq_self_eq_true, if_true, Option.getD_some]
  split
  next empty => rw [empty]; rfl
  next some_ =>
    simp only [afterStart?, beq_self_eq_true, if_true, Option.getD_some]
    exact ends

theorem lines_written (h : l.Fits) (rest : List Char) :
    lines (l.written ++ rest) = l.decorated :: lines rest := by
  rw [written, List.append_assoc]
  refine lines_lineEnd ?_ ?_ _
  · rw [decorated, List.mem_append, not_or]
    refine ⟨fun feed => (h.indent _ feed).2 rfl, ?_⟩
    split
    next => decide
    next => simpa using h.feeds
  · obtain ⟨c, last, bare⟩ := (core_bare h).last
    rw [decorated, List.getLast?_append, List.getLast?_cons_cons, last]
    rintro ⟨⟩
    cases bare

end Line

/-! ## A whole block -/

theorem dropAllStarts_once {start rest : List Char} (other : afterStart? start rest = none) :
    dropAllStarts start (start ++ rest) = rest := by
  have done (fuel : Nat) : dropStarts start fuel rest = rest := by
    cases fuel with
    | zero => rfl
    | succ fuel => rw [dropStarts, other]
  cases start with
  | nil => exact absurd other (by simp [afterStart?])
  | cons s ss =>
      rw [dropAllStarts, List.cons_append, List.length_cons, dropStarts,
        ← List.cons_append, afterStart?_eq_some_iff.2 rfl]
      exact done _

theorem dropAllEnds_once {ending rest : List Char}
    (other : afterStart? ending.reverse rest.reverse = none) :
    dropAllEnds ending (rest ++ ending) = rest := by
  rw [dropAllEnds, List.reverse_append, dropAllStarts_once other, List.reverse_reverse]

theorem head?_intercalate {t : List Char} {ts : List (List Char)} {c : Char}
    (first : t.head? = some c) : (['\n'].intercalate (t :: ts)).head? = some c := by
  obtain ⟨t, rfl⟩ := List.head?_eq_some_iff.1 first
  cases ts with
  | nil => rw [List.intercalate_singleton, List.head?_cons]
  | cons u ts => rfl

theorem intercalate_concat {sep : List Char} {ts : List (List Char)} (some_ : ts ≠ [])
    (t : List Char) : sep.intercalate (ts ++ [t]) = sep.intercalate ts ++ sep ++ t := by
  induction ts with
  | nil => exact absurd rfl some_
  | cons u ts ih =>
      cases ts with
      | nil => rw [List.singleton_append, List.intercalate_cons_cons, List.intercalate_singleton,
          List.intercalate_singleton]
      | cons v ts =>
          rw [List.cons_append, List.intercalate_cons_of_ne_nil (by simp),
            ih (List.cons_ne_nil _ _), List.intercalate_cons_cons]
          simp only [List.append_assoc]

theorem getLast?_intercalate {t : List Char} {ts : List (List Char)}
    (last : ts.getLast? = some t) (some_ : t ≠ []) :
    (['\n'].intercalate ts).getLast? = t.getLast? := by
  obtain ⟨before, rfl⟩ := List.getLast?_eq_some_iff.1 last
  have ends := List.getLast?_eq_some_getLast some_
  by_cases none_ : before = []
  · rw [none_, List.nil_append, List.intercalate_singleton]
  · rw [intercalate_concat none_, List.getLast?_append, ends]
    rfl

namespace Block

variable {b : Block}

theorem text_bare (h : b.Fits) : Bare b.text where
  head := by
    obtain ⟨l, c, first, head, bare⟩ := h.first
    obtain ⟨ls, eq⟩ := List.head?_eq_some_iff.1 first
    refine ⟨c, ?_, bare⟩
    rw [text, eq, List.map_cons, head?_intercalate head]
  last := by
    obtain ⟨l, last, some_⟩ := h.last
    have ends := List.getLast?_eq_some_getLast some_
    refine ⟨_, ?_, (h.lines l (List.mem_of_getLast? last)).trimmed _ ends⟩
    rw [text, getLast?_intercalate (by rw [List.getLast?_map, last]; rfl) some_, ends]

theorem lines_flatMap {ls : List Line} (h : ∀ l ∈ ls, l.Fits) (rest : List Char) :
    Text.lines (ls.flatMap Line.written ++ rest) = ls.map Line.decorated ++ Text.lines rest := by
  induction ls with
  | nil => rfl
  | cons l ls ih =>
      rw [List.flatMap_cons, List.append_assoc, Line.lines_written (h l List.mem_cons_self),
        ih fun k hk => h k (List.mem_cons_of_mem _ hk), List.map_cons, List.cons_append]

theorem lines_body (h : b.Fits) :
    Text.lines b.body = [] :: (b.lines.map Line.decorated ++ [b.indent ++ [' ']]) := by
  rw [body, ← List.nil_append (lineEnd _ ++ _), lines_lineEnd List.not_mem_nil nofun,
    lines_flatMap h.lines, lines_last]
  · rw [List.mem_append, not_or]
    exact ⟨fun feed => (h.indent _ feed).2 rfl, by decide⟩
  · simp

/-- The decoration goes, and nothing else. -/
theorem clean_comment (h : b.Fits) : clean b.comment = b.text := by
  have bare : Bare b.comment :=
    ⟨⟨'/', rfl, by decide⟩, ⟨'/', by rw [comment, List.getLast?_append, List.getLast?_append]; rfl,
      by decide⟩⟩
  have trimmed : trim b.comment = b.comment := by
    have around := bare.trim (show ∀ c ∈ ([] : List Char), isBlank c = true by simp)
      (show ∀ c ∈ ([] : List Char), isBlank c = true by simp)
    rwa [List.nil_append, List.append_nil] at around
  have inside : dropAllEnds "*/".toList (dropAllStarts "/**".toList b.comment) = b.body := by
    rw [comment, dropAllStarts_once, dropAllEnds_once]
    · rw [body, ← List.append_assoc, ← List.append_assoc, List.reverse_append]
      rfl
    · rw [body]
      cases b.returns <;> rfl
  have blank : undecorated (b.indent ++ [' ']) = [] := by
    rw [undecorated, trim_blank]
    · rfl
    · intro c hc
      obtain member | member := List.mem_append.1 hc
      · exact (h.indent c member).1
      · rw [List.mem_singleton.1 member]
        decide
  have texts : (b.lines.map Line.decorated).map undecorated = b.lines.map (·.text) := by
    rw [List.map_map]
    exact List.map_congr_left fun l hl => Line.undecorated_decorated (h.lines l hl)
  have around : ['\n'].intercalate ([] :: (b.lines.map (·.text) ++ [[]])) =
      ['\n'] ++ b.text ++ ['\n'] := by
    obtain ⟨l, -, first, -⟩ := h.first
    obtain ⟨ls, eq⟩ := List.head?_eq_some_iff.1 first
    rw [List.intercalate_cons_of_ne_nil (by simp), intercalate_concat (by simp [eq]), text]
    simp only [List.nil_append, List.append_nil, List.append_assoc]
  -- The lines at both ends are empty, so trimming takes away their line feeds and no more.
  rw [clean, trimmed, inside, lines_body h, List.map_cons, List.map_append, texts,
    List.map_singleton, blank]
  show trim (['\n'].intercalate ([] :: (b.lines.map (·.text) ++ [[]]))) = b.text
  rw [around]
  exact (text_bare h).trim (by decide) (by decide)

/-! The end of a comment does not occur in front of the end of the block. -/

theorem closes_lineEnd {cs rest : List Char} (ending : Bool) :
    ['*', '/'] <:+: cs ++ (lineEnd ending ++ rest) ↔ ['*', '/'] <:+: cs ∨ ['*', '/'] <:+: rest := by
  cases ending with
  | false => exact infix_append_cons (by decide)
  | true =>
      rw [lineEnd, if_pos rfl, List.cons_append, infix_append_cons (by decide),
        List.singleton_append, infix_cons_of_apart (by decide) (by decide)]

theorem apart_of_isBlank {c : Char} (h : isBlank c = true) : c ∉ ['*', '/'] := by
  have others : ∀ d ∈ ['*', '/'], isBlank d = false := by decide
  intro member
  rw [others c member] at h
  cases h

theorem closes_written {l : Line} (h : l.Fits) (rest : List Char) :
    ['*', '/'] <:+: l.written ++ rest ↔ ['*', '/'] <:+: rest := by
  rw [Line.written, Line.decorated, List.append_assoc, List.append_assoc,
    infix_append_of_apart (by decide) fun c hc => apart_of_isBlank (h.indent c hc).1,
    List.cons_append, infix_cons_of_apart (by decide) (by decide), closes_lineEnd]
  refine or_iff_right ?_
  split
  next => decide
  next =>
    show ¬ ['*', '/'] <:+: ['*'] ++ ' ' :: l.text
    rw [infix_append_cons (by decide), not_or]
    exact ⟨by decide, h.open_⟩

theorem closes_flatMap {ls : List Line} (h : ∀ l ∈ ls, l.Fits) (rest : List Char) :
    ['*', '/'] <:+: ls.flatMap Line.written ++ rest ↔ ['*', '/'] <:+: rest := by
  induction ls with
  | nil => rfl
  | cons l ls ih =>
      rw [List.flatMap_cons, List.append_assoc, closes_written (h l List.mem_cons_self),
        ih fun k hk => h k (List.mem_cons_of_mem _ hk)]

theorem comment?_comment (h : b.Fits) (rest : List Char) :
    Tsx.Lexeme.comment? (b.comment ++ rest) = some b.comment.length := by
  have closed : ¬ ['*', '/'] <:+: '*' :: b.body := by
    show ¬ ['*', '/'] <:+: ['*'] ++ b.body
    rw [body, closes_lineEnd, closes_flatMap h.lines,
      infix_append_of_apart (by decide) fun c hc => apart_of_isBlank (h.indent c hc).1]
    decide
  have eq : b.comment ++ rest = '/' :: '*' :: ('*' :: b.body ++ ['*', '/'] ++ rest) := by
    simp [comment]
  rw [eq, Tsx.Lexeme.comment?, Tsx.blockCommentTail?_append (Synth.blockCommentTail?_closed closed)]
  simp [comment]

theorem documentation?_comment {name : String} {t : TypeRef} {isOptional : Bool} (h : b.Fits) :
    (Property.mk name t isOptional (some (String.ofList b.comment))).documentation? =
      some (String.ofList b.text) := by
  rw [Property.documentation?]
  simp only [Property.comment, String.toList_ofList, clean_comment h]
  obtain ⟨c, first, -⟩ := (text_bare h).head
  obtain ⟨cs, eq⟩ := List.head?_eq_some_iff.1 first
  rw [eq]

end Block

end Documentation

/-! ## The comment in front of a member -/

namespace Lower

open Tsx

variable {x : Syntax}

/-- What a child of a body says about the member behind it. -/
def announced? (x : Syntax) (t : Tree) : Option String :=
  if t.kind == .comment && Documentation.isDocumentation (x.textOf t) then some (x.stringOf t)
  else none

theorem documented_cons (pending : Option String) (t : Tree) (ts : List Tree) :
    documented x pending (t :: ts) =
      (if t.kind == .comment then [] else [(t, pending)]) ++ documented x (announced? x t) ts := by
  rw [documented, announced?]
  by_cases comment : (t.kind == .comment) = true
  · rw [if_pos comment, if_pos comment, comment, Bool.true_and]
    rfl
  · rw [if_neg comment, if_neg comment, if_neg (by simp [comment])]
    rfl

theorem documented_append (pending : Option String) (before after : List Tree) :
    documented x pending (before ++ after) = documented x pending before ++
      documented x ((before.getLast?.map (announced? x)).getD pending) after := by
  induction before generalizing pending with
  | nil => rfl
  | cons t ts ih =>
      have last : ((t :: ts).getLast?.map (announced? x)).getD pending =
          (ts.getLast?.map (announced? x)).getD (announced? x t) := by
        cases ts with
        | nil => rfl
        | cons u ts =>
            rw [List.getLast?_cons_cons]
            cases h : (u :: ts).getLast? with
            | none => exact absurd (List.getLast?_eq_none_iff.1 h) (List.cons_ne_nil _ _)
            | some v => rfl
      rw [List.cons_append, documented_cons, documented_cons, ih, last, List.append_assoc]

theorem property?_comment (m : Tree) (comment : Option String) :
    property? x (m, comment) =
      (property? x (m, none)).map fun q => .mk q.name q.type q.isOptional comment := by
  unfold property?
  cases (m.child? .name).map x.keyName with
  | none => rfl
  | some name =>
      cases memberType? x m with
      | none => rfl
      | some t => rfl

/-- A member of which no earlier one has the name gives a property, with the comment that is its
neighbour. -/
theorem mem_members {body m : Tree} {before after : List Tree} {q : Property}
    (children : body.namedChildren = before ++ m :: after)
    (declared : property? x (m, none) = some q)
    (first : ∀ m' ∈ before, (property? x (m', none)).map Property.name ≠ some q.name) :
    Property.mk q.name q.type q.isOptional (before.getLast?.bind (announced? x)) ∈
      members x body := by
  have kind : m.kind ≠ .comment := by
    intro comment
    rw [property?, memberType?, comment] at declared
    simp at declared
  have neighbour : (before.getLast?.map (announced? x)).getD none =
      before.getLast?.bind (announced? x) := by
    cases before.getLast? <;> rfl
  have earlier : ∀ r ∈ (documented x none before).filterMap (property? x),
      ¬ (r.name == (Property.mk q.name q.type q.isOptional
        (before.getLast?.bind (announced? x))).name) = true := by
    intro r hr same
    obtain ⟨⟨m', comment⟩, member, declared'⟩ := List.mem_filterMap.1 hr
    rw [property?_comment] at declared'
    obtain ⟨q', found, rfl⟩ := Option.map_eq_some_iff.1 declared'
    refine first m' (mem_of_mem_documented member) ?_
    rw [found]
    exact congrArg some (beq_iff_eq.1 same)
  have own : property? x (m, before.getLast?.bind (announced? x)) =
      some (.mk q.name q.type q.isOptional (before.getLast?.bind (announced? x))) := by
    rw [property?_comment, declared]
    rfl
  rw [members_eq, Property.mem_firstOfEachName, listed, children, documented_append, neighbour,
    documented_cons, if_neg (by simpa using kind), List.filterMap_append, List.singleton_append,
    List.filterMap_cons_some own, List.find?_append,
    List.find?_eq_none.2 earlier, Option.none_or]
  exact List.find?_cons_of_pos (beq_self_eq_true _)

end Lower

open Lower in
/-- A property directly behind a block is documented with the lines of the block, which is one
comment whatever follows; it has no documentation if the comment nearest before it, if any, is none
that documents. Of members with one name the first counts. -/
theorem documentation_recovered {x : Tsx.Syntax} {body m : Tsx.Tree} {before after : List Tsx.Tree}
    {q : Property} (children : body.namedChildren = before ++ m :: after)
    (declared : property? x (m, none) = some q)
    (first : ∀ m' ∈ before, (property? x (m', none)).map Property.name ≠ some q.name) :
    ∃ p ∈ members x body, p.uncommented = q.uncommented ∧
      (∀ b : Documentation.Block, b.Fits →
        (∀ rest, Tsx.Lexeme.comment? (b.comment ++ rest) = some b.comment.length) ∧
        ((∃ c, before.getLast? = some c ∧ c.kind = .comment ∧ x.textOf c = b.comment) →
          p.documentation? = some (String.ofList (['\n'].intercalate (b.lines.map (·.text)))))) ∧
      ((∀ c, (before.filter (·.kind == .comment)).getLast? = some c →
          Documentation.isDocumentation (x.textOf c) = false) →
        p.documentation? = none) := by
  refine ⟨_, mem_members children declared first, rfl, fun b fits => ⟨b.comment?_comment fits, ?_⟩,
    fun other => ?_⟩
  · rintro ⟨c, last, comment, text⟩
    have announced : announced? x c = some (String.ofList b.comment) := by
      rw [announced?, comment, text, Tsx.Syntax.stringOf, text]
      rfl
    rw [last, Option.bind_some, announced]
    exact b.documentation?_comment fits
  · have none_ : before.getLast?.bind (announced? x) = none := by
      refine Option.bind_eq_none_iff.2 fun c last => ?_
      rw [announced?, if_neg]
      rw [Bool.and_eq_true, not_and, Bool.not_eq_true]
      intro comment
      obtain ⟨front, rfl⟩ := List.getLast?_eq_some_iff.1 last
      have single : [c].filter (·.kind == .comment) = [c] :=
        List.filter_eq_self.2 fun d hd => List.mem_singleton.1 hd ▸ comment
      refine other c ?_
      rw [List.filter_append, single]
      exact List.getLast?_concat
    rw [none_]
    rfl

/-! ## A block and a plain comment -/

def remarkBlock : Documentation.Block where
  returns := true
  lines := [⟨['\t'], "a".toList, false⟩, ⟨[], [], true⟩, ⟨[], " - * b".toList, false⟩]
  indent := []

def remarkMember : Tsx.Tree :=
  .node .propertySignature none 40 41 [.node .propertyIdentifier (some .name) 40 41 []]

def plainMember : Tsx.Tree :=
  .node .propertySignature none 46 47 [.node .propertyIdentifier (some .name) 46 47 []]

def remarkBody : Tsx.Tree :=
  .node .interfaceBody (some .body) 11 48
    [.node (.token "\x7b") none 11 12 [], .node .comment none 12 40 [], remarkMember,
      .node (.token ";") none 41 42 [], .node .comment none 42 45 [], plainMember,
      .node (.token "\x7d") none 47 48 []]

def remarkSyntax : Tsx.Syntax where
  source := "interface I\x7b".toList ++ (remarkBlock.comment ++ "x;//c\ny\x7d".toList)
  root := .node .program none 0 48
    [.node .interfaceDeclaration none 0 48
      [.node (.token "interface") none 0 9 [], .node .typeIdentifier (some .name) 10 11 [],
        remarkBody]]

theorem remarkBlock_fits : remarkBlock.Fits where
  indent := by decide
  lines := by
    have line : ∀ l ∈ remarkBlock.lines, (∀ c ∈ l.indent, Text.isBlank c = true ∧ c ≠ '\n') ∧
        '\n' ∉ l.text ∧ '/' ∉ l.text ∧ l.text.getLast?.any Text.isBlank = false := by
      decide
    intro l hl
    obtain ⟨indent, feeds, slashes, trimmed⟩ := line l hl
    refine ⟨indent, feeds, fun inside => slashes (inside.subset (by decide)), fun c last => ?_⟩
    rwa [last] at trimmed
  first := ⟨_, _, rfl, rfl, by decide⟩
  last := ⟨_, rfl, by decide⟩

theorem documentation_recovered_of_remark :
    Tsx.parse remarkSyntax.source = remarkSyntax ∧
    (∃ p ∈ Lower.members remarkSyntax remarkBody, p.name = "x" ∧
      p.documentation? = some "a\n\n - * b") ∧
    ∃ p ∈ Lower.members remarkSyntax remarkBody, p.name = "y" ∧ p.documentation? = none := by
  have first : remarkBody.namedChildren = [.node .comment none 12 40 []] ++ remarkMember ::
      [.node .comment none 42 45 [], plainMember] := rfl
  have second : remarkBody.namedChildren =
      [.node .comment none 12 40 [], remarkMember, .node .comment none 42 45 []] ++
        plainMember :: [] := rfl
  obtain ⟨p, member, same, documented, -⟩ :=
    documentation_recovered (x := remarkSyntax) first rfl (by decide)
  obtain ⟨q, member', same', -, plain⟩ :=
    documentation_recovered (x := remarkSyntax) second rfl (by decide)
  refine ⟨Tsx.parse_eq (by decide +kernel), ⟨p, member, ?_, ?_⟩, q, member', ?_, plain ?_⟩
  · exact congrArg Property.name same
  · exact (documented remarkBlock remarkBlock_fits).2 ⟨_, rfl, rfl, by decide +kernel⟩
  · exact congrArg Property.name same'
  · rintro c ⟨⟩
    decide +kernel

end PropStories
