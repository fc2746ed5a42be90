import Mathlib.Data.List.Forall2
import PropStories.Proofs.Tsx.Imports
import PropStories.Proofs.Tsx.Programs
import PropStories.Proofs.Tsx.Types

/-!
# Statements of a module

Imports of names, exports, and the names of types, each up to its semicolon. Main statements: they
are accepted behind any gap, and what they bind can be read off their nodes.
-/

namespace PropStories.Tsx

open Cursor (behind)
open Grammar

/-! ## Bound names -/

theorem declarators_of_isExtra {t : Tree} (h : t.isExtra = true) : Story.declarators t = [] := by
  rw [Tree.isExtra] at h
  rw [Story.declarators, if_neg (by rw [beq_iff_eq]; rintro kind; rw [kind] at h; cases h)]
  refine if_neg ?_
  rw [Bool.or_eq_true, beq_iff_eq, beq_iff_eq]
  rintro (kind | kind) <;> rw [kind] at h <;> cases h

namespace Syntax

/-- The names that a statement binds: those that it imports, and the variables that it declares. -/
def bound (x : Syntax) (s : Tree) : List String :=
  (if s.kind = .importStatement then
    ((importNames s).filter (!·.2)).map fun name => x.stringOf name.1
  else []) ++
    (Story.declarators s).filterMap fun d => (d.child? .name).map x.stringOf

def boundNames (x : Syntax) : List String := x.root.namedChildren.flatMap x.bound

variable {x y : Syntax} {n : Nat} {g w rest : List Char} {t : Tree}

theorem bound_congr (h : x.source = y.source) : x.bound = y.bound := by
  cases x
  cases y
  cases h
  rfl

theorem bound_of_isExtra (h : t.isExtra = true) : x.bound t = [] := by
  rw [bound, if_neg (by rintro kind; rw [Tree.isExtra, kind] at h; cases h),
    declarators_of_isExtra h]
  rfl

theorem bound_import (kind : t.kind = .importStatement) :
    x.bound t = ((importNames t).filter (!·.2)).map fun name => x.stringOf name.1 := by
  have none : Story.declarators t = [] := by
    rw [Story.declarators, kind, if_neg (by decide)]
    simp only
    rw [kind]
    rfl
  rw [bound, if_pos kind, none]
  exact List.append_nil _

theorem textOf_of_drop (start : t.start = n + g.length) (stop : t.stop = n + (g ++ w).length)
    (place : x.source.drop n = g ++ (w ++ rest)) : x.textOf t = w := by
  have size : n + (g ++ w).length - (n + g.length) = w.length := by
    rw [List.length_append]
    omega
  rw [textOf, start, stop, size, ← List.drop_drop, place, List.drop_left, List.take_left]

end Syntax

structure Tells (x : Syntax) (bound : List (List Char)) (declared : List Tree) (s : Tree) : Prop where
  isNamed : s.kind.isNamed = true
  bound : x.bound s = bound.map String.ofList
  declarators : Story.declarators s = declared

structure Variable where
  name : List Char
  object : List Char
  pairs : List (Option (List Char × List Char))

structure Declared (x : Syntax) (v : Variable) (d : Tree) : Prop where
  name : (d.child? .name).map x.stringOf = some (String.ofList v.name)
  value : ∃ t, d.child? .value = some t ∧ t.kind = .object ∧ x.textOf t = v.object ∧
    t.parts.map (pairText? x.source) = v.pairs

section

variable {x : Syntax} {s d : Tree} {v : Variable}

theorem tells_of_none (isNamed : s.kind.isNamed = true) (other : s.kind ≠ .importStatement)
    (none : Story.declarators s = []) : Tells x [] [] s := by
  refine ⟨isNamed, ?_, none⟩
  rw [Syntax.bound, if_neg other, none]
  rfl

theorem Declared.tells (h : Declared x v d) (isNamed : s.kind.isNamed = true)
    (other : s.kind ≠ .importStatement) (one : Story.declarators s = [d]) :
    Tells x [v.name] [d] s := by
  refine ⟨isNamed, ?_, one⟩
  rw [Syntax.bound, if_neg other, one, List.nil_append, List.filterMap_cons]
  simp only [h.name]
  rfl

theorem Declared.of_source {y : Syntax} (h : Declared x v d) (source : y.source = x.source) :
    Declared y v d := by
  cases x
  cases y
  cases source
  exact ⟨h.name, h.value⟩

end

structure Statement where
  text : List Char
  names : List (List Char)
  declared : List Variable

/-- Wherever the text stands in the source, a statement is read that binds and declares as much. -/
structure Statement.Reads (x : Syntax) (e : Statement) : Prop where
  some_ : e.text ≠ []
  accepts : ∀ ⦃limit fuel : Nat⦄, nestingPerCharacter * e.text.length ≤ fuel →
    e.text.length ≤ limit → ∀ {n : Nat} {rest : List Char}, x.source.drop n = e.text ++ rest →
      ∃ s ds, Tells x e.names ds s ∧
        List.Forall₂ (Declared x) e.declared ds ∧
          Accepts limit fuel (.ref .statement) n e.text rest [s]

/-! ## Names in clauses -/

theorem isRenamed_filter (ts : List Tree) :
    isRenamed (ts.filter (!·.isExtra)) = isRenamed ts := by
  rw [isRenamed, isRenamed, List.find?_filter]
  simp only [and_self, Bool.decide_eq_true]

theorem names_cons_of_ne {t : Tree} (h : t.kind ≠ .identifier) (ts : List Tree) :
    names (t :: ts) = names ts := by
  rw [names, if_neg (by simpa using h)]

theorem names_cons_of_token {t : Tree} {m : String} (h : t.kind = .token m) (ts : List Tree) :
    names (t :: ts) = names ts :=
  names_cons_of_ne (fun eq => by cases h.symm.trans eq) ts

theorem names_cons_of_eq {t : Tree} (h : t.kind = .identifier) (ts : List Tree) :
    names (t :: ts) = (t, isRenamed ts) :: names ts := by
  rw [names, if_pos (by simp [h])]

theorem names_append_of_nil {ts : List Tree} (h : names ts = []) (us : List Tree) :
    names (ts ++ us) = names us := by
  induction ts with
  | nil => rfl
  | cons t ts ih =>
      by_cases kind : t.kind = .identifier
      · rw [names_cons_of_eq kind] at h
        cases h
      · rw [names_cons_of_ne kind] at h
        rw [List.cons_append, names_cons_of_ne kind, ih h]

theorem names_filter (ts : List Tree) : names (ts.filter (!·.isExtra)) = names ts := by
  induction ts with
  | nil => rfl
  | cons t ts ih =>
      cases extra : t.isExtra with
      | true =>
          have other : t.kind ≠ .identifier := by
            intro kind
            rw [Tree.isExtra, kind] at extra
            cases extra
          rw [List.filter_cons_of_neg (by simp [extra]), ih, names_cons_of_ne other]
      | false =>
          rw [List.filter_cons_of_pos (by simp [extra]), names, names, ih, isRenamed_filter]

/-- What named nodes give is all there is if comments give nothing. -/
theorem Frames.flatMap_named {all ts : List Tree} {start stop : Nat} {α : Type} {f : Tree → List α}
    (h : Frames all ts start stop) (isNamed : ∀ t ∈ ts, t.kind.isNamed = true)
    (none : ∀ t, t.isExtra = true → f t = []) :
    (all.filter (·.kind.isNamed)).flatMap f = ts.flatMap f := by
  have drop (us : List Tree) : us.flatMap f = (us.filter (!·.isExtra)).flatMap f := by
    induction us with
    | nil => rfl
    | cons u us ih =>
        cases extra : u.isExtra with
        | true =>
            rw [List.flatMap_cons, none u extra, List.filter_cons_of_neg (by simp [extra]), ih]
            rfl
        | false => rw [List.filter_cons_of_pos (by simp [extra]), List.flatMap_cons,
            List.flatMap_cons, ih]
  have swap : (fun t : Tree => !t.isExtra && t.kind.isNamed) =
      fun t => t.kind.isNamed && !t.isExtra := funext fun t => Bool.and_comm ..
  rw [drop, List.filter_filter, swap, ← List.filter_filter, h.nodes,
    List.filter_eq_self.2 isNamed]

theorem Frames.names {all ts : List Tree} {start stop : Nat} (h : Frames all ts start stop) :
    names all = names ts := by
  rw [← names_filter all, h.nodes]

section

variable {x : Syntax} {limit fuel n : Nat} {gap rest text w : List Char} {ws : List (List Char)}
  {ts : List Tree}

/-! ## Marks and nodes -/

def leaf (k : Kind) (start stop : Nat) : Tree := .node k none start stop []

theorem accepts_sign {m : String} {c : Char} (hgap : IsGap gap) (single : m.toList = [c])
    (proper : Lexeme.isGap c = false ∧ c ≠ '/') :
    Accepts limit fuel (mark m) n (gap ++ [c]) rest
      [leaf (.token m) (n + gap.length) (n + (gap ++ [c]).length)] :=
  single ▸ accepts_mark hgap single proper

theorem accepts_node {r a : Rule} {k : Kind} (rule : r = .node k a) (kind : k.isExtra = false)
    (h : Accepts limit fuel a n text rest ts) :
    ∃ all, Frames all ts (behind n (text ++ rest)).next (n + text.length) ∧
      Accepts limit fuel r n text rest
        [.node k none (behind n (text ++ rest)).next (n + text.length) all] :=
  rule ▸ h.node kind

/-! ## Import clauses -/

/-- The names of the clause are these, and none of them is renamed. -/
structure IsClause (x : Syntax) (bound : List (List Char)) (c : Tree) : Prop where
  kind : c.kind = .importClause
  names : (names c.children).map (fun name => (x.textOf name.1, name.2)) =
    bound.map fun w => (w, false)

theorem IsClause.imported {bound : List (List Char)} {c : Tree} (h : IsClause x bound c) :
    ((Tsx.names c.children).filter (!·.2)).map (fun name => x.stringOf name.1) =
      bound.map String.ofList := by
  have said := congrArg (fun l => (l.filter (!·.2)).map fun p => String.ofList p.1) h.names
  simp only [List.filter_map, List.map_map] at said
  refine said.trans ?_
  rw [List.filter_eq_self.2 fun _ _ => by rfl]
  rfl

def listed (ws : List (List Char)) : List Char := ws.flatMap fun w => ',' :: ' ' :: w

theorem listed_cons (w : List Char) (ws : List (List Char)) :
    listed (w :: ws) = ',' :: ' ' :: w ++ listed ws := List.flatMap_cons

def listedNodes : Nat → List (List Char) → List Tree
  | _, [] => []
  | n, w :: ws =>
      let stop := n + (',' :: ' ' :: w).length
      leaf (.token ",") n (n + 1) :: leaf .identifier (n + 2) stop :: listedNodes stop ws

theorem isRenamed_listedNodes (n i j : Nat) (ws : List (List Char)) :
    isRenamed (listedNodes n ws ++ [leaf (.token "\x7d") i j]) = false := by
  cases ws <;> rfl

theorem names_listedNodes {i j : Nat} (place : x.source.drop n = listed ws ++ rest) :
    (names (listedNodes n ws ++ [leaf (.token "\x7d") i j])).map
      (fun name => (x.textOf name.1, name.2)) = ws.map fun w => (w, false) := by
  induction ws generalizing n with
  | nil => rfl
  | cons w ws ih =>
      have whole : x.source.drop n = [',', ' '] ++ (w ++ (listed ws ++ rest)) := by
        rw [place, listed_cons]
        simp
      have text : x.textOf (leaf .identifier (n + 2) (n + (',' :: ' ' :: w).length)) = w :=
        Syntax.textOf_of_drop rfl rfl whole
      have next : x.source.drop (n + (',' :: ' ' :: w).length) = listed ws ++ rest :=
        drop_of_append (whole.trans (by simp))
      rw [listedNodes, List.cons_append, List.cons_append, names_cons_of_token rfl,
        names_cons_of_eq rfl, isRenamed_listedNodes, List.map_cons, List.map_cons, ih next, text]

theorem accepts_specifier (h : IsPlainName w) (hgap : IsGap gap)
    (closed : Closed [',', '\x7d'] rest) :
    Accepts limit fuel importSpecifier n (gap ++ w) rest
      [leaf .identifier (n + gap.length) (n + (gap ++ w).length)] := by
  have ends := closed.endsName_of (by decide)
  have begins : Begins (.name languageWords) (gap ++ w ++ rest) := by
    rw [List.append_assoc]
    exact h.begins hgap ends
  have name : Accepts limit fuel moduleName n (gap ++ w) rest _ :=
    .or_left (accepts_name rfl hgap h.name ends List.not_mem_nil)
  exact .or_right (begins.refused (by decide))
    (name.before_nothing (opt_of_none (closed.refused (by decide))))

theorem closed_listed (rest : List Char) (ws : List (List Char)) :
    Closed [',', '\x7d'] (listed ws ++ ([' ', '\x7d'] ++ rest)) := by
  cases ws with
  | nil =>
      exact ⟨'\x7d', by simp, (begins_char (by decide) (by decide) _).gap isGap_blank⟩
  | cons w ws =>
      rw [listed_cons]
      exact ⟨',', by simp, begins_char (by decide) (by decide) _⟩

theorem series_listed (h : ∀ w ∈ ws, IsPlainName w) :
    Series limit fuel (mark "," ++ importSpecifier) ([' ', '\x7d'] ++ rest) n (listed ws)
      (listedNodes n ws) ws.length := by
  induction ws generalizing n with
  | nil =>
      have brace : Begins (.char '\x7d') ([' ', '\x7d'] ++ rest) :=
        (begins_char (by decide) (by decide) _).gap isGap_blank
      exact .stop (brace.refused (by decide))
  | cons w ws ih =>
      have comma := @accepts_sign limit fuel n [] (' ' :: w ++ (listed ws ++ ([' ', '\x7d'] ++ rest)))
        "," ',' .nil rfl (by decide)
      have name := @accepts_specifier limit fuel (n + [','].length) [' '] _ w
        (h w List.mem_cons_self) isGap_blank (closed_listed rest ws)
      have stop : n + [','].length + ([' '] ++ w).length = n + (',' :: ' ' :: w).length := by
        simp only [List.length_append, List.length_cons, List.length_nil]
        omega
      have first := comma.seq name.passes
      rw [stop] at first
      rw [listed_cons]
      exact .step (List.cons_ne_nil _ _) first (ih fun v hv => h v (List.mem_cons_of_mem _ hv))

def braced (w : List Char) (ws : List (List Char)) : List Char :=
  '\x7b' :: (' ' :: w ++ listed ws ++ [' ', '\x7d'])

theorem length_le_braced (w : List Char) (ws : List (List Char)) :
    ws.length ≤ (braced w ws).length := by
  have more : ws.length ≤ (listed ws).length := by
    induction ws with
    | nil => exact Nat.zero_le _
    | cons v vs ih =>
        rw [listed_cons]
        simp only [List.length_append, List.length_cons]
        omega
  simp only [braced, List.length_append, List.length_cons]
  omega

theorem accepts_braced (h : ∀ v ∈ w :: ws, IsPlainName v) (hgap : IsGap gap)
    (count : ws.length ≤ limit) (place : x.source.drop n = gap ++ braced w ws ++ rest) :
    ∃ c, IsClause x (w :: ws) c ∧
      Accepts limit fuel importClause n (gap ++ braced w ws) rest [c] := by
  have brace : Begins (.char '\x7b') (gap ++ braced w ws ++ rest) := by
    rw [List.append_assoc]
    exact (begins_char (by decide) (by decide) _).gap hgap
  have close : Begins (.char '\x7d') ([' ', '\x7d'] ++ rest) :=
    (begins_char (by decide) (by decide) _).gap isGap_blank
  have opening := @accepts_sign limit fuel n gap
    (' ' :: w ++ listed ws ++ ([' ', '\x7d'] ++ rest)) "\x7b" '\x7b' hgap rfl (by decide)
  have first := @accepts_specifier limit fuel (n + (gap ++ ['\x7b']).length) [' '] _ w
    (h w List.mem_cons_self) isGap_blank (closed_listed rest ws)
  have series := @series_listed limit fuel (n + (gap ++ ['\x7b']).length + ([' '] ++ w).length)
    rest ws fun v hv => h v (List.mem_cons_of_mem _ hv)
  have list := first.seq (series.many count)
  have more := (opening.seq list.opt.passes).before_nothing (b := .opt (mark ","))
    (opt_of_none (close.refused (by decide)))
  have closing {n : Nat} := @accepts_sign limit fuel n [' '] rest "\x7d" '\x7d' isGap_blank rfl
    (by decide)
  have whole := more.seq closing.passes
  have text : gap ++ ['\x7b'] ++ (' ' :: w ++ listed ws) ++ [' ', '\x7d'] =
      gap ++ braced w ws := by simp [braced]
  rw [text] at whole
  obtain ⟨all, frames, clause⟩ := accepts_node (r := importClause) rfl rfl
    (.or_right (brace.refused (by decide)) whole.or_left)
  refine ⟨_, ⟨rfl, ?_⟩, clause⟩
  have whole : x.source.drop (n + (gap ++ ['\x7b']).length) =
      [' '] ++ (w ++ (listed ws ++ ([' ', '\x7d'] ++ rest))) := by
    refine drop_of_append (place.trans ?_)
    simp [braced]
  have next : x.source.drop (n + (gap ++ ['\x7b']).length + ([' '] ++ w).length) =
      listed ws ++ ([' ', '\x7d'] ++ rest) := drop_of_append (whole.trans (by simp))
  rw [Tree.children, frames.names, List.append_assoc, List.append_assoc, List.singleton_append,
    names_cons_of_token rfl, List.singleton_append, names_cons_of_eq rfl,
    isRenamed_listedNodes, List.map_cons, List.map_cons, names_listedNodes next,
    Syntax.textOf_of_drop rfl rfl whole]

theorem accepts_defaultName (h : IsPlainName w) (hgap : IsGap gap) (module : Begins (.word "from") rest)
    (ends : EndsName rest) (place : x.source.drop n = gap ++ w ++ rest) :
    ∃ c, IsClause x [w] c ∧ Accepts limit fuel importClause n (gap ++ w) rest [c] := by
  have begins : Begins (.name languageWords) (gap ++ w ++ rest) := by
    rw [List.append_assoc]
    exact h.begins hgap ends
  have name := @accepts_identifier limit fuel n rest gap w h hgap ends
  obtain ⟨all, frames, clause⟩ := accepts_node (r := importClause) rfl rfl
    (.or_right (begins.refused (by decide)) (.or_right (begins.refused (by decide))
      (name.before_nothing (opt_of_none (module.refused (by decide))))))
  refine ⟨_, ⟨rfl, ?_⟩, clause⟩
  rw [List.append_assoc] at place
  rw [Tree.children, frames.names, names_cons_of_eq rfl, List.map_cons,
    Syntax.textOf_of_drop rfl rfl place]
  rfl

/-! ## Imports -/

def fromText (module : List Char) : List Char := [' '] ++ "from".toList ++ ([' '] ++ module)

theorem isName_from : IsName "from".toList := ⟨⟨_, _, rfl, by decide⟩, by decide⟩

theorem isName_import : IsName "import".toList := ⟨⟨_, _, rfl, by decide⟩, by decide⟩

theorem isName_type : IsName "type".toList := ⟨⟨_, _, rfl, by decide⟩, by decide⟩

theorem endsName_blank {cs : List Char} : EndsName (' ' :: cs) :=
  endsName_of_char (by decide) (by decide)

structure Imported (x : Syntax) (bound : List (List Char)) (ts : List Tree) : Prop where
  clause : ∃ c, IsClause x bound c ∧ ts.filter (·.kind == .importClause) = [c]
  alone : names ts = []

theorem Imported.behind {bound : List (List Char)} (h : Imported x bound ts) (t : Tree) {m : String}
    (kind : t.kind = .token m) : Imported x bound (t :: ts) := by
  refine ⟨?_, ?_⟩
  · rw [List.filter_cons_of_neg (by rw [kind]; exact Bool.false_ne_true)]
    exact h.clause
  · rw [names_cons_of_token kind, h.alone]

theorem accepts_source {clause module : List Char} {bound : List (List Char)} {c : Tree}
    (h : IsString module) (isClause : IsClause x bound c)
    (accepted : Accepts limit fuel importClause n clause (fromText module ++ rest) [c]) :
    ∃ ts, Imported x bound ts ∧
      Accepts limit fuel (importClause ++ fromClause) n (clause ++ fromText module) rest ts := by
  have keyword := @accepts_word limit fuel (n + clause.length) [' '] ([' '] ++ module ++ rest) "from"
    (.token "from") rfl isGap_blank isName_from endsName_blank
  have string := @accepts_string limit fuel (n + clause.length + ([' '] ++ "from".toList).length)
    [' '] rest module isGap_blank h
  refine ⟨_, ⟨⟨c, isClause, ?_⟩, ?_⟩, accepted.seq (keyword.seq string.passes).passes⟩
  · rw [List.singleton_append, List.filter_cons_of_pos (by simp [isClause.kind])]
    rfl
  · rw [List.singleton_append, names_cons_of_ne (by rw [isClause.kind]; decide)]
    rfl

theorem accepts_importStatement {body : List Char} {bound : List (List Char)} (hgap : IsGap gap)
    (blank : EndsName (body ++ ([';'] ++ rest))) (imported : Imported x bound ts) {source : Rule}
    (rule : importStatement = .node .importStatement (word "import" ++ source ++
      .opt ((word "with" <|> word "assert") ++ objectLiteral) ++ statementEnd))
    (accepted : Accepts limit fuel source (n + (gap ++ "import".toList).length) body
      ([';'] ++ rest) ts) :
    ∃ s, Tells x bound [] s ∧
      Accepts limit (fuel + 1) (.ref .statement) n (gap ++ "import".toList ++ body ++ [';']) rest
        [s] := by
  have semicolon : Begins (.char ';') ([';'] ++ rest) := begins_char (by decide) (by decide) rest
  have keyword := @accepts_word limit fuel n gap (body ++ ([';'] ++ rest)) "import"
    (.token "import") rfl hgap isName_import blank
  have ending {n : Nat} : Accepts limit fuel statementEnd n [';'] rest _ :=
    .or_left (accepts_single rfl (by decide))
  have inner := (keyword.seq accepted.passes).before_nothing
    (b := .opt ((word "with" <|> word "assert") ++ objectLiteral))
    (opt_of_none (semicolon.refused (by decide)))
  obtain ⟨all, frames, statement⟩ := accepts_node rule rfl (inner.seq ending.passes)
  have begins : Begins (.word "import") (gap ++ "import".toList ++ body ++ [';'] ++ rest) := by
    simp only [List.append_assoc]
    exact (begins_word isName_import blank).gap hgap
  obtain ⟨c, clause, only⟩ := imported.clause
  have one : all.filter (·.kind == .importClause) = [c] := by
    rw [frames.filter fun u comment _ => by rw [comment]; rfl, List.filter_append,
      List.filter_append, only]
    rfl
  have none : names all = [] := by
    rw [frames.names, List.append_assoc, List.singleton_append, names_cons_of_token rfl,
      names_append_of_nil imported.alone]
    rfl
  refine ⟨_, ⟨rfl, ?_, rfl⟩, .ref (.or_right (begins.refused (by decide)) statement.or_left)⟩
  rw [Syntax.bound_import rfl, importNames, Tree.children, none, one, List.nil_append,
    List.flatMap_singleton, clause.imported]

theorem reads_typeImport {module : List Char} (hgap : IsGap gap)
    (h : ∀ v ∈ w :: ws, IsPlainName v) (string : IsString module) :
    Statement.Reads x ⟨gap ++ "import".toList ++
      ([' '] ++ "type".toList ++ ([' '] ++ braced w ws ++ fromText module)) ++ [';'], w :: ws, []⟩ := by
  refine ⟨by simp, fun limit fuel enough room n rest place => ?_⟩
  simp only [nestingPerCharacter, List.length_append, List.length_singleton] at enough room
  obtain ⟨fuel, rfl⟩ : ∃ f, fuel = f + 1 := ⟨fuel - 1, by omega⟩
  have count := length_le_braced w ws
  have keyword := @accepts_word limit fuel (n + (gap ++ "import".toList).length) [' ']
    ([' '] ++ braced w ws ++ fromText module ++ ([';'] ++ rest)) "type" (.token "type") rfl
    isGap_blank isName_type endsName_blank
  have clause : x.source.drop (n + (gap ++ "import".toList).length +
      ([' '] ++ "type".toList).length) =
        [' '] ++ braced w ws ++ (fromText module ++ ([';'] ++ rest)) := by
    refine drop_of_append (drop_of_append ?_)
    rw [place]
    simp only [List.append_assoc]
  obtain ⟨c, isClause, accepted⟩ := @accepts_braced x limit fuel _ _ _ _ _ h isGap_blank
    (by omega) clause
  obtain ⟨ts, imported, source⟩ := accepts_source string isClause accepted
  obtain ⟨s, tells, statement⟩ := accepts_importStatement hgap endsName_blank
    (imported.behind (leaf (.token "type") _ _) rfl) rfl
    (.or_left ((keyword.or_left).seq source.or_left.passes))
  exact ⟨s, [], tells, .nil, statement⟩

theorem accepts_import {clause module : List Char} {bound : List (List Char)} {c : Tree}
    (hgap : IsGap gap) (h : IsString module) (isClause : IsClause x bound c)
    (noType : (running limit fuel (word "type" <|> word "typeof")
      (behind (n + (gap ++ "import".toList).length)
        (clause ++ fromText module ++ ([';'] ++ rest)))).result = none)
    (blank : EndsName (clause ++ fromText module ++ ([';'] ++ rest)))
    (accepted : Accepts limit fuel importClause (n + (gap ++ "import".toList).length) clause
      (fromText module ++ ([';'] ++ rest)) [c]) :
    ∃ s, Tells x bound [] s ∧ Accepts limit (fuel + 1) (.ref .statement) n
      (gap ++ "import".toList ++ (clause ++ fromText module) ++ [';']) rest [s] := by
  obtain ⟨ts, imported, source⟩ := accepts_source h isClause accepted
  exact accepts_importStatement hgap blank imported rfl
    (.or_right (run_seq_of_none noType) source.or_left)

theorem reads_import {module : List Char} (hgap : IsGap gap)
    (h : ∀ v ∈ w :: ws, IsPlainName v) (string : IsString module) :
    Statement.Reads x
      ⟨gap ++ "import".toList ++ ([' '] ++ braced w ws ++ fromText module) ++ [';'], w :: ws, []⟩ := by
  refine ⟨by simp, fun limit fuel enough room n rest place => ?_⟩
  simp only [nestingPerCharacter, List.length_append, List.length_singleton] at enough room
  obtain ⟨fuel, rfl⟩ : ∃ f, fuel = f + 1 := ⟨fuel - 1, by omega⟩
  have count := length_le_braced w ws
  have clause : x.source.drop (n + (gap ++ "import".toList).length) =
      [' '] ++ braced w ws ++ (fromText module ++ ([';'] ++ rest)) := by
    refine drop_of_append ?_
    rw [place]
    simp only [List.append_assoc]
  have brace : Begins (.char '\x7b') ([' '] ++ braced w ws ++ fromText module ++ ([';'] ++ rest)) := by
    simp only [List.append_assoc]
    exact (begins_char (by decide) (by decide) _).gap isGap_blank
  obtain ⟨c, isClause, accepted⟩ := @accepts_braced x limit fuel _ _ _ _ _ h isGap_blank
    (by omega) clause
  obtain ⟨s, tells, statement⟩ := accepts_import hgap string isClause (brace.refused (by decide))
    endsName_blank accepted
  exact ⟨s, [], tells, .nil, statement⟩

theorem reads_defaultImport {module : List Char} (hgap : IsGap gap) (h : IsPlainName w)
    (string : IsString module) : Statement.Reads x
      ⟨gap ++ "import".toList ++ ([' '] ++ w ++ fromText module) ++ [';'], [w], []⟩ := by
  refine ⟨by simp, fun limit fuel enough room n rest place => ?_⟩
  simp only [nestingPerCharacter, List.length_append, List.length_singleton] at enough
  obtain ⟨fuel, rfl⟩ : ∃ f, fuel = f + 1 := ⟨fuel - 1, by omega⟩
  have clause : x.source.drop (n + (gap ++ "import".toList).length) =
      [' '] ++ w ++ (fromText module ++ ([';'] ++ rest)) := by
    refine drop_of_append ?_
    rw [place]
    simp only [List.append_assoc]
  have begins : Begins (.name languageWords) ([' '] ++ w ++ fromText module ++ ([';'] ++ rest)) := by
    simp only [List.append_assoc]
    exact h.begins isGap_blank endsName_blank
  have from_ : Begins (.word "from") (fromText module ++ ([';'] ++ rest)) := by
    simp only [fromText, List.append_assoc]
    exact (begins_word isName_from endsName_blank).gap isGap_blank
  obtain ⟨c, isClause, accepted⟩ := @accepts_defaultName x limit fuel _ _ _ _ h isGap_blank
    from_ endsName_blank clause
  obtain ⟨s, tells, statement⟩ := accepts_import hgap string isClause
    (begins.refused (by decide)) endsName_blank accepted
  exact ⟨s, [], tells, .nil, statement⟩

/-! ## Exports -/

theorem isName_export : IsName "export".toList := ⟨⟨_, _, rfl, by decide⟩, by decide⟩

theorem isName_default : IsName "default".toList := ⟨⟨_, _, rfl, by decide⟩, by decide⟩

theorem accepts_export {body : List Char} (hgap : IsGap gap) (blank : EndsName (body ++ rest))
    {exported : Rule}
    (rule : exportStatement = .node .exportStatement (.many decorator ++ word "export" ++ exported))
    (accepted : Accepts limit fuel exported (n + (gap ++ "export".toList).length) body rest ts) :
    ∃ s, s.kind = .exportStatement ∧ (∀ l, s.child? l = ts.find? (·.label? == some l)) ∧
      Accepts limit (fuel + 1) (.ref .statement) n (gap ++ "export".toList ++ body) rest [s] := by
  have begins : Begins (.word "export") (gap ++ "export".toList ++ (body ++ rest)) := by
    rw [List.append_assoc]
    exact (begins_word isName_export blank).gap hgap
  have keyword := @accepts_word limit fuel n gap (body ++ rest) "export" (.token "export") rfl hgap
    isName_export blank
  have opening := Reaches.after_nothing (a := .many decorator)
    (many_of_none (begins.refused (by decide))) keyword
  obtain ⟨all, frames, statement⟩ := accepts_node rule rfl (opening.seq accepted.passes)
  refine ⟨_, rfl, fun l => ?_, .ref statement.or_left⟩
  rw [Tree.child?, Tree.children, frames.find?_label, List.singleton_append,
    List.find?_cons_of_neg Bool.false_ne_true]

theorem declarators_of_export {s : Tree} (kind : s.kind = .exportStatement)
    (none : s.child? .declaration = none) : Story.declarators s = [] := by
  rw [Story.declarators, kind, if_pos (by decide), none]

theorem reads_exportDefault (h : IsPlainName w) (hgap : IsGap gap) : Statement.Reads x
    ⟨gap ++ "export".toList ++ ([' '] ++ "default".toList ++ ([' '] ++ w ++ [';'])), [], []⟩ := by
  refine ⟨by simp, fun limit fuel enough room n rest place => ?_⟩
  simp only [nestingPerCharacter, List.length_append, List.length_singleton] at enough
  obtain ⟨fuel, rfl⟩ : ∃ f, fuel = f + 4 := ⟨fuel - 4, by omega⟩
  have semicolon : Begins (.char ';') ([';'] ++ rest) := begins_char (by decide) (by decide) rest
  have closed : Closed closers ([';'] ++ rest) := ⟨';', by decide, semicolon⟩
  have begins : Begins (.word "default")
      ([' '] ++ "default".toList ++ ([' '] ++ w ++ [';']) ++ rest) := by
    simp only [List.append_assoc]
    exact (begins_word isName_default endsName_blank).gap isGap_blank
  have keyword := @accepts_word limit (fuel + 3) (n + (gap ++ "export".toList).length) [' ']
    ([' '] ++ w ++ [';'] ++ rest) "default" (.token "default") rfl isGap_blank isName_default
    endsName_blank
  obtain ⟨v, -, value⟩ := @valued_name limit fuel w h [' '] ([';'] ++ rest)
    (n + (gap ++ "export".toList).length + ([' '] ++ "default".toList).length) isGap_blank closed
  have ending {n : Nat} := @accepts_sign limit (fuel + 3) n [] rest ";" ';' .nil rfl (by decide)
  have name : Begins (.name languageWords) ([' '] ++ w ++ [';'] ++ rest) := by
    rw [List.append_assoc, List.append_assoc]
    exact h.begins isGap_blank closed.endsName
  have exported := keyword.seq (Reaches.or_right (a := .label .declaration declaration)
    (name.refused (by decide))
    ((value.label .value).seq (b := statementEnd) ending.or_left.passes)).passes
  obtain ⟨s, kind, labels, statement⟩ := accepts_export hgap endsName_blank rfl
    (.or_right (begins.refused (by decide)) (.or_right (begins.refused (by decide))
      (.or_right (begins.refused (by decide)) (.or_right (begins.refused (by decide))
        (.or_right (begins.refused (by decide)) exported.or_left)))))
  exact ⟨s, [], tells_of_none (by rw [kind]; rfl) (by rw [kind]; decide)
    (declarators_of_export kind ((labels .declaration).trans (by cases v; rfl))), .nil, statement⟩

theorem accepts_exportConst {body : List Char} {d : Tree} (hgap : IsGap gap)
    (begins : Begins (.word "const") (body ++ rest)) (blank : EndsName (body ++ rest))
    (kind : d.kind = .lexicalDeclaration)
    (accepted : Accepts limit fuel declaration (n + (gap ++ "export".toList).length) body rest [d]) :
    ∃ s, s.kind = .exportStatement ∧ Story.declarators s = Story.declarators d ∧
      Accepts limit (fuel + 1) (.ref .statement) n (gap ++ "export".toList ++ body) rest [s] := by
  obtain ⟨s, exported, labels, statement⟩ := accepts_export hgap blank rfl
    (.or_right (begins.refused (by decide)) (.or_right (begins.refused (by decide))
      (.or_right (begins.refused (by decide)) (.or_right (begins.refused (by decide))
        (.or_right (begins.refused (by decide)) (.or_right (begins.refused (by decide))
          (accepted.label .declaration)))))))
  refine ⟨s, exported, ?_, statement⟩
  have declared : s.child? .declaration = some (d.withLabel (some .declaration)) :=
    (labels .declaration).trans (by cases d; rfl)
  have same : (d.withLabel (some .declaration)).kind = .lexicalDeclaration := by
    rw [← kind]
    cases d
    rfl
  rw [declarators_of_lexical kind, Story.declarators, exported, if_pos (by decide), declared]
  simp only
  rw [same, if_pos (by decide)]
  cases d
  rfl

/-! ## Names of types -/

theorem reads_typeAlias {type : List Char} (h : IsPlainName w) (hgap : IsGap gap)
    (isType : IsType type) : Statement.Reads x ⟨gap ++ "type".toList ++ ([' '] ++ w) ++
      ([' '] ++ ['=']) ++ ([' '] ++ type) ++ [';'], [], []⟩ := by
  refine ⟨by simp, fun limit fuel enough room n rest place => ?_⟩
  simp only [nestingPerCharacter, List.length_append, List.length_singleton] at enough room
  obtain ⟨fuel, rfl⟩ : ∃ f, fuel = f + 1 := ⟨fuel - 1, by omega⟩
  have semicolon : Begins (.char ';') ([';'] ++ rest) := begins_char (by decide) (by decide) rest
  obtain ⟨t, accepted⟩ := @isType limit fuel (by rw [nestingPerCharacter]; omega) (by omega) [' '] _
    (n + (gap ++ "type".toList ++ ([' '] ++ w) ++ ([' '] ++ ['='])).length) isGap_blank
    ⟨';', by decide, semicolon⟩
  have equals : Begins (.char '=') ([' '] ++ ['='] ++ ([' '] ++ type ++ ([';'] ++ rest))) :=
    (begins_char (by decide) (by decide) _).gap isGap_blank
  have keyword := @accepts_word limit fuel n gap
    ([' '] ++ w ++ ([' '] ++ ['='] ++ ([' '] ++ type ++ ([';'] ++ rest)))) "type" (.token "type") rfl
    hgap isName_type endsName_blank
  have free : String.ofList w ∉ reservedTypeWords := fun reserved =>
    h.plain (List.mem_append_left _ (List.mem_append_right _ reserved))
  have name := @accepts_name limit fuel (n + (gap ++ "type".toList).length) [' ']
    ([' '] ++ ['='] ++ ([' '] ++ type ++ ([';'] ++ rest))) reservedTypeWords .typeIdentifier w rfl
    isGap_blank h.name endsName_blank free
  have sign := @accepts_sign limit fuel (n + (gap ++ "type".toList ++ ([' '] ++ w)).length) [' ']
    ([' '] ++ type ++ ([';'] ++ rest)) "=" '=' isGap_blank rfl (by decide)
  have ending {n : Nat} := @accepts_sign limit fuel n [] rest ";" ';' .nil rfl (by decide)
  have named := (keyword.seq (name.label .name).passes).before_nothing (b := .opt typeParameters)
    (opt_of_none (equals.refused (by decide)))
  have value := (named.seq sign.passes).seq (accepted.label .value).passes
  obtain ⟨all, -, defined⟩ := accepts_node (r := typeAliasDeclaration) rfl rfl
    (value.seq (Reaches.or_left ending).passes)
  have begins : Begins (.word "type") (gap ++ "type".toList ++ ([' '] ++ w) ++ ([' '] ++ ['=']) ++
      ([' '] ++ type) ++ [';'] ++ rest) := by
    simp only [List.append_assoc]
    exact (begins_word isName_type endsName_blank).gap hgap
  have declared : Accepts limit fuel declaration n _ rest _ :=
    .or_right (begins.refused (by decide)) (.or_right (begins.refused (by decide))
      (.or_right (begins.refused (by decide)) (.or_right (begins.refused (by decide))
        (.or_right (begins.refused (by decide)) (.or_right (begins.refused (by decide))
          (.or_right (begins.refused (by decide)) defined.or_left))))))
  exact ⟨_, [], tells_of_none rfl (by rw [Tree.kind]; decide) rfl, .nil,
    .ref (.or_right (begins.refused (by decide)) (.or_right (begins.refused (by decide))
      declared.or_left))⟩

/-! ## Variables with a type -/

def typedConst (name type value : List Char) : List Char :=
  "const".toList ++ (' ' :: name ++ (':' :: ' ' :: type) ++ ([' ', '='] ++ ' ' :: value) ++ [';'])

theorem accepts_annotation {type : List Char} {t : Tree}
    (accepted : Accepts limit fuel (.ref .type) (n + 1) (' ' :: type) rest [t]) :
    ∃ u, u.label? = some .type ∧ Accepts limit fuel annotated n (':' :: ' ' :: type) rest [u] := by
  have colon := @accepts_sign limit fuel n [] (' ' :: type ++ rest) ":" ':' .nil rfl (by decide)
  obtain ⟨all, -, ascription⟩ := accepts_node (r := typeAscription) rfl rfl
    (colon.seq accepted.passes)
  exact ⟨_, rfl, (ascription.label .type).opt⟩

/-- A typed variable is no enumeration, even if it is called `enum`. -/
theorem noEnum_of_typed {name : List Char} (hgap : IsGap gap) (isName : IsName name) :
    NoEnum limit fuel n (gap ++ "const".toList ++ (' ' :: name ++ (':' :: rest))) := by
  have ends : EndsName (':' :: rest) := endsName_of_char (by decide) (by decide)
  by_cases enum : name = "enum".toList
  · subst enum
    have colon : Begins (.char ':') (':' :: rest) := begins_char (by decide) (by decide) _
    have const := @accepts_optConst limit fuel n gap (' ' :: "enum".toList ++ (':' :: rest)) hgap
      endsName_blank
    have word := @accepts_word limit fuel (n + (gap ++ "const".toList).length) [' '] (':' :: rest)
      "enum" (.token "enum") rfl isGap_blank isName ends
    rw [NoEnum, ← List.append_assoc (gap ++ "const".toList)]
    exact refused_seq (const.seq word.passes) (colon.refused (by decide))
  · have other : String.ofList name ∉ ["enum"] := by
      rw [List.mem_singleton]
      rintro eq
      exact enum (by rw [← eq, String.toList_ofList])
    exact noEnum_of_begins hgap endsName_blank
      ⟨[' '], name ++ (':' :: rest), rfl, isGap_blank, isName.firm _, _, _, rfl, isName, ends, other⟩

theorem Declares.declared {start stop : Nat} {value : Tree} (h : Declares d start stop value)
    (name : ∀ t : Tree, t.start = start → t.stop = stop → x.textOf t = v.name)
    (object : value.kind = .object) (text : x.textOf value = v.object)
    (pairs : value.parts.map (pairText? x.source) = v.pairs) : Declared x v d where
  name := by
    obtain ⟨node, found, first, last⟩ := h.name
    rw [found, Option.map_some, Syntax.stringOf, name node first last]
  value := by
    cases value
    exact ⟨_, h.value, object, text, pairs⟩

theorem accepts_typedConst {name type value inside : List Char}
    {pairs : List (Option (List Char × List Char))} (hgap : IsGap gap)
    (isName : IsName name) (isType : IsType type) (isObject : IsObject value pairs)
    (brace : value = '\x7b' :: inside)
    (enough : nestingPerCharacter * (typedConst name type value).length ≤ fuel + 1)
    (room : (typedConst name type value).length ≤ limit)
    (place : x.source.drop n = gap ++ typedConst name type value ++ rest) :
    ∃ s d, s.kind = .lexicalDeclaration ∧ Story.declarators s = [d] ∧
      Declared x ⟨name, value, pairs⟩ d ∧
      Accepts limit fuel declaration n (gap ++ typedConst name type value) rest [s] := by
  have sizes : type.length < (typedConst name type value).length ∧
      value.length < (typedConst name type value).length := by
    simp only [typedConst, List.length_append, List.length_cons]
    omega
  rw [nestingPerCharacter] at enough
  have equals : Begins (.char '=') ([' ', '='] ++ ' ' :: value ++ ([';'] ++ rest)) :=
    (begins_char (by decide) (by decide) _).gap isGap_blank
  have semicolon : Begins (.char ';') ([';'] ++ rest) := begins_char (by decide) (by decide) _
  obtain ⟨t, typed⟩ := @isType limit fuel (by rw [nestingPerCharacter]; omega) (by omega) [' '] _
    (n + (gap ++ "const".toList).length + (' ' :: name).length + 1) isGap_blank
    ⟨'=', by decide, equals⟩
  have behind_const : x.source.drop (n + (gap ++ "const".toList).length) = [' '] ++ (name ++
      (':' :: ' ' :: type ++ ([' ', '='] ++ ' ' :: value) ++ [';'] ++ rest)) := by
    refine drop_of_append (place.trans ?_)
    rw [typedConst]
    generalize "const".toList = const
    simp
  have behind_sign : x.source.drop (n + (gap ++ "const".toList).length +
      (' ' :: name ++ (':' :: ' ' :: type) ++ [' ', '=']).length) =
        [' '] ++ (value ++ ([';'] ++ rest)) := by
    refine drop_of_append (behind_const.trans ?_)
    simp
  obtain ⟨v, object, parts, valued⟩ := @isObject limit fuel (by rw [nestingPerCharacter]; omega)
    (by omega) _ _ _ _ isGap_blank ⟨';', by decide, semicolon⟩
    (behind_sign.trans (List.append_assoc ..).symm)
  obtain ⟨u, label, annotation⟩ := accepts_annotation typed
  have colon : Begins (.char ':')
      (':' :: ' ' :: type ++ ([' ', '='] ++ ' ' :: value ++ ([';'] ++ rest))) :=
    begins_char (by decide) (by decide) _
  obtain ⟨d, declares, declarator⟩ := accepts_declarator isName
    (endsName_of_char (by decide) (by decide)) annotation.passes
    (List.forall_mem_singleton.2 label) ⟨_, by simp, colon⟩ valued
  obtain ⟨s, lexical, one, accepted⟩ := accepts_lexicalDeclaration hgap endsName_blank declares.kind
    declarator
  rw [List.append_assoc (gap ++ "const".toList)] at accepted
  have noEnum := @noEnum_of_typed limit fuel n gap
    (' ' :: type ++ ([' ', '='] ++ ' ' :: value) ++ [';'] ++ rest) name hgap isName
  have text : ' ' :: name ++ (':' :: (' ' :: type ++ ([' ', '='] ++ ' ' :: value) ++ [';'] ++ rest)) =
      ' ' :: name ++ (':' :: ' ' :: type) ++ ([' ', '='] ++ ' ' :: value) ++ [';'] ++ rest := by simp
  have declaration := accepts_constDeclaration hgap endsName_blank (text ▸ noEnum) accepted
  rw [List.append_assoc gap] at declaration
  obtain ⟨start, stop⟩ := valued.place isGap_blank
    (by rw [brace]; exact firm_cons (by decide) (by decide))
  have declared := declares.declared (v := ⟨name, value, pairs⟩)
    (fun t first last => Syntax.textOf_of_drop first last behind_const) object
    (Syntax.textOf_of_drop start stop behind_sign) parts
  exact ⟨s, d, lexical, (declarators_of_lexical lexical).trans one, declared, declaration⟩

theorem reads_typedConst {name type value inside : List Char}
    {pairs : List (Option (List Char × List Char))} (hgap : IsGap gap)
    (isName : IsName name) (isType : IsType type) (isObject : IsObject value pairs)
    (brace : value = '\x7b' :: inside) :
    Statement.Reads x ⟨gap ++ typedConst name type value, [name],
      [⟨name, value, pairs⟩]⟩ := by
  refine ⟨by simp [typedConst], fun limit fuel enough room n rest place => ?_⟩
  simp only [nestingPerCharacter, List.length_append] at enough room
  obtain ⟨fuel, rfl⟩ : ∃ f, fuel = f + 1 :=
    ⟨fuel - 1, by simp only [typedConst, List.length_append, List.length_singleton] at enough; omega⟩
  obtain ⟨s, d, lexical, one, declared, accepted⟩ :=
    @accepts_typedConst x limit fuel _ _ _ _ _ _ _ _ hgap isName isType isObject brace
      (by rw [nestingPerCharacter]; omega) (by omega) place
  refine ⟨s, [d], declared.tells (by rw [lexical]; rfl) (by rw [lexical]; decide) one,
    .cons declared .nil, ?_⟩
  rw [typedConst, ← List.append_assoc] at accepted ⊢
  exact accepts_constStatement hgap endsName_blank accepted

theorem reads_typedExport {name type value inside : List Char}
    {pairs : List (Option (List Char × List Char))} (hgap : IsGap gap)
    (isName : IsName name) (isType : IsType type) (isObject : IsObject value pairs)
    (brace : value = '\x7b' :: inside) : Statement.Reads x
      ⟨gap ++ "export".toList ++ ([' '] ++ typedConst name type value), [name],
        [⟨name, value, pairs⟩]⟩ := by
  refine ⟨by simp, fun limit fuel enough room n rest place => ?_⟩
  simp only [nestingPerCharacter, List.length_append, List.length_singleton] at enough room
  obtain ⟨fuel, rfl⟩ : ∃ f, fuel = f + 1 := ⟨fuel - 1, by omega⟩
  rw [List.append_assoc (gap ++ "export".toList)] at place
  obtain ⟨e, d, lexical, one, declared, accepted⟩ :=
    @accepts_typedConst x limit fuel _ _ _ _ _ _ _ _ isGap_blank isName isType isObject brace
      (by rw [nestingPerCharacter]; omega) (by omega) (drop_of_append place)
  have begins : Begins (.word "const") ([' '] ++ typedConst name type value ++ rest) := by
    rw [List.append_assoc, typedConst, List.append_assoc]
    exact (begins_word isName_const endsName_blank).gap isGap_blank
  obtain ⟨s, exported, same, statement⟩ :=
    accepts_exportConst hgap begins endsName_blank lexical accepted
  exact ⟨s, [d], declared.tells (by rw [exported]; rfl) (by rw [exported]; decide) (same.trans one),
    .cons declared .nil, statement⟩

/-! ## Modules -/

theorem series_statements {es : List Statement} (h : ∀ e ∈ es, e.Reads x)
    (enough : nestingPerCharacter * (es.flatMap Statement.text).length ≤ fuel)
    (room : (es.flatMap Statement.text).length ≤ limit)
    (place : x.source.drop n = es.flatMap Statement.text ++ ['\n']) :
    ∃ ts, Series limit fuel (.ref .statement) ['\n'] n (es.flatMap Statement.text) ts es.length ∧
      (∀ t ∈ ts, t.kind.isNamed = true) ∧
      ts.flatMap x.bound = (es.flatMap Statement.names).map String.ofList ∧
      List.Forall₂ (Declared x) (es.flatMap Statement.declared) (ts.flatMap Story.declarators) := by
  induction es generalizing n with
  | nil =>
      exact ⟨[], .stop ((begins_nothing (.blank (by decide) .nil)).refused (by decide)),
        List.forall_mem_nil _, rfl, .nil⟩
  | cons e es ih =>
      have first := h e List.mem_cons_self
      rw [List.flatMap_cons] at enough room place ⊢
      simp only [nestingPerCharacter, List.length_append] at enough room
      rw [List.append_assoc] at place
      obtain ⟨s, ds, tells, declared, accepted⟩ :=
        @first.accepts limit fuel (by rw [nestingPerCharacter]; omega) (by omega) n _ place
      obtain ⟨ts, series, isNamed, bound, objects⟩ :=
        ih (fun d hd => h d (List.mem_cons_of_mem _ hd)) (by rw [nestingPerCharacter]; omega)
          (by omega) (drop_of_append place)
      refine ⟨s :: ts, .step first.some_ accepted series,
        List.forall_mem_cons.2 ⟨tells.isNamed, isNamed⟩, ?_, ?_⟩
      · rw [List.flatMap_cons, List.flatMap_cons, List.map_append, tells.bound, bound]
      · rw [List.flatMap_cons, List.flatMap_cons, tells.declarators]
        exact List.rel_append declared objects

/-- A source that is made of statements has no fault, and its top level is what they tell. -/
theorem parseStrict?_statements {es : List Statement} (h : ∀ e ∈ es, e.Reads x)
    (source : x.source = es.flatMap Statement.text ++ ['\n'])
    (first : ∃ w more, es.flatMap Statement.text = w ++ more ∧ IsName w) :
    ∃ y, parseStrict? x.source = some y ∧ y.source = x.source ∧
      y.boundNames = (es.flatMap Statement.names).map String.ofList ∧
      List.Forall₂ (Declared y) (es.flatMap Statement.declared)
        (y.root.namedChildren.flatMap Story.declarators) := by
  obtain ⟨ts, series, isNamed, bound, objects⟩ := @series_statements x
    (x.source.length + 1) (statementFuel x.source.length) 0 es h
    (by
      rw [source, List.length_append, statementFuel, nestingPerCharacter, List.length_singleton]
      omega)
    (by
      rw [source, List.length_append]
      omega) source
  obtain ⟨w, more, text, isName⟩ := first
  rw [source] at series ⊢
  obtain ⟨all, frames, parsed⟩ := parseStrict?_of_series
    (by rw [text]; exact List.append_ne_nil_of_left_ne_nil isName.ne_nil _)
    (by rw [text, List.append_assoc]; exact isName.firm _)
    (fun c cs eq => by
      obtain ⟨d, ds, rfl, start⟩ := isName.start
      rw [text] at eq
      obtain ⟨rfl, -⟩ := List.cons.inj eq
      exact (Sight.charMisses_of_start start).2 '#' (by decide)) series
  have same (root : Tree) :
      Syntax.source ⟨es.flatMap Statement.text ++ ['\n'], root⟩ = x.source := source.symm
  refine ⟨_, parsed, rfl, ?_, ?_⟩
  · rw [Syntax.boundNames, Syntax.bound_congr (same _), ← bound]
    exact frames.flatMap_named isNamed fun _ extra => Syntax.bound_of_isExtra extra
  · rw [Tree.namedChildren, Tree.children,
      frames.flatMap_named isNamed fun _ extra => declarators_of_isExtra extra]
    exact objects.imp fun _ _ declared => declared.of_source (same _)

/-- The literal of a name is that of the first variable that is called so. -/
theorem objectOf?_of_find? {vs : List Variable} {v : Variable} {name : String}
    (declared : List.Forall₂ (Declared x) vs (x.root.namedChildren.flatMap Story.declarators))
    (found : vs.find? (String.ofList ·.name == name) = some v) :
    ∃ object, Story.objectOf? x name = some object ∧ x.textOf object = v.object ∧
      object.parts.map (pairText? x.source) = v.pairs := by
  have first : ∃ d, (x.root.namedChildren.flatMap Story.declarators).find?
      (fun d => ((d.child? .name).map x.stringOf) == some name) = some d ∧ Declared x v d := by
    generalize x.root.namedChildren.flatMap Story.declarators = ds at declared
    induction declared with
    | nil => cases found
    | @cons w d ws ds h _ ih =>
        have same : ((d.child? .name).map x.stringOf == some name) =
            (String.ofList w.name == name) := by
          rw [h.name]
          rfl
        rw [List.find?_cons] at found
        simp only [List.find?_cons, same]
        cases here : String.ofList w.name == name with
        | true =>
            rw [here] at found
            obtain rfl := Option.some.inj found
            exact ⟨d, rfl, h⟩
        | false =>
            rw [here] at found
            exact ih found
  obtain ⟨d, found, declared⟩ := first
  obtain ⟨object, value, kind, describes⟩ := declared.value
  have bare : Story.bare? object = some object := by
    cases object
    cases kind
    rfl
  refine ⟨object, ?_, describes⟩
  rw [Story.objectOf?, found]
  simp only [Option.bind_eq_bind, Option.bind_some, value, bare]
  rw [kind]
  rfl

end

end PropStories.Tsx
