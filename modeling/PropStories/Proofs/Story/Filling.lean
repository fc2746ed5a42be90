import PropStories.Proofs.Story.Entries
import PropStories.Proofs.Story.Sheets
import PropStories.Proofs.Tsx.Reading
import PropStories.Proofs.Tsx.Substitution

/-!
# Filling in a new story

Reconciling a new story with some props writes the regions of its sheet and nothing else, whether
the regions are still empty or have been filled in before.
-/

namespace PropStories

/-! ## Edits of a part -/

namespace Edit

open Text (slice_middle slice_zero)

/-- An edit that turns a text, which begins at the given place, into another one. -/
inductive Turns (place : Nat) : List Char → List Char → Edit → Prop where
  | intro (front old new behind : List Char) :
      Turns place (front ++ (old ++ behind)) (front ++ (new ++ behind))
        ⟨place + front.length, place + front.length + old.length, new⟩

variable {place : Nat} {a b c d : List Char} {e f : Edit}

theorem Turns.within (before : List Char) (h : Turns (place + before.length) a b e)
    (after : List Char) : Turns place (before ++ (a ++ after)) (before ++ (b ++ after)) e := by
  obtain ⟨front, old, new, behind⟩ := h
  have turns : Turns place _ _ _ := .intro (before ++ front) old new (behind ++ after)
  simpa [Nat.add_assoc] using turns

theorem Turns.behind {before : List Char} (h : Turns before.length a b e) :
    Turns 0 (before ++ a) (before ++ b) e := by
  rw [← Nat.zero_add before.length] at h
  simpa using h.within before []

theorem Turns.range (h : Turns place a b e) : place ≤ e.start ∧ e.stop ≤ place + a.length := by
  obtain ⟨front, old, new, behind⟩ := h
  simp
  omega

theorem make?_one (h : Turns 0 a b e) : make? [e] a = some b := by
  obtain ⟨front, old, new, behind⟩ := h
  rw [make?_eq_some (.refl _) _ (List.pairwise_singleton _ _)]
  · simp only [spliceFrom, Nat.zero_add, slice_zero, List.take_left, ← List.length_append]
    rw [← List.append_assoc front old, List.drop_left, List.append_assoc]
  · refine ⟨Nat.zero_le _, Nat.le_add_right _ _, ?_⟩
    simp only [InOrder, List.length_append]
    omega

theorem make?_two (first : Turns 0 a b e) (second : Turns a.length c d f)
    (order : e.start < f.start) : make? [e, f] (a ++ c) = some (b ++ d) := by
  obtain ⟨front, old, new, behind⟩ := first
  obtain ⟨front', old', new', behind'⟩ := second
  rw [make?_eq_some (.refl _) _ (List.pairwise_pair.2 order)]
  · have between := slice_middle (front ++ old) (behind ++ front') (old' ++ behind')
    have rest := @List.drop_left _ (front ++ (old ++ behind) ++ front' ++ old') behind'
    simp only [List.append_assoc, List.length_append, Nat.add_assoc] at between rest
    simp only [spliceFrom, Nat.zero_add, slice_zero, List.append_assoc, List.take_left,
      List.length_append, Nat.add_assoc, between, rest]
  · refine ⟨Nat.zero_le _, Nat.le_add_right _ _, ?_, Nat.le_add_right _ _, ?_⟩
    · simp only [List.length_append]
      omega
    · simp only [InOrder, List.length_append]
      omega

end Edit

namespace StoryTemplate

open Story Tsx
open Reconciliation (isEntry isEntry_eq_true rendered upsert)
open Text (slice slice_middle)

variable {x : Syntax} {pre post : List Char} {e : Entry} {es front behind : List Entry}
  {values : List Tree} {v : Tree} {n : Nat} {r : Region} {props : List Synth.PropDescriptor}

/-! ## Keys -/

theorem Key.text_injective {k k' : Key} (h : k.text = k'.text) : k = k' := by
  have differ : k ≠ k' → k.text ≠ k'.text := by
    cases k <;> cases k' <;> (try rename Region => r; cases r) <;>
      (try rename Region => r; cases r) <;> decide
  exact Classical.not_not.1 fun other => differ other h

theorem Key.toList_text (k : Key) :
    ∃ c rest, k.text.toList = c :: rest ∧ isIndent c = false := by
  cases k with
  | title => exact ⟨_, _, rfl, by decide⟩
  | component => exact ⟨_, _, rfl, by decide⟩
  | tags => exact ⟨_, _, rfl, by decide⟩
  | parameters => exact ⟨_, _, rfl, by decide⟩
  | region r => cases r <;> exact ⟨_, _, rfl, by decide⟩

/-! ## Entries -/

theorem Entry.text_pos (e : Entry) : 0 < e.text.length := by
  simp only [Entry.text, List.length_append, List.length_singleton]
  omega

section

variable (source : x.source = pre ++ (e.text ++ post))

include source

theorem isEntry_pair (key : String) : isEntry x key (e.pair pre.length v) = (e.key.text == key) := by
  have name := e.key.unquoted_text
  have split : x.source = (pre ++ ['\n', ' ', ' ']) ++
      (e.key.text.toList ++ ([':', ' '] ++ (e.value ++ (',' :: post)))) := by
    simp [source, Entry.text, Entry.lead]
  have text := slice_middle (pre ++ ['\n', ' ', ' ']) e.key.text.toList
    ([':', ' '] ++ (e.value ++ (',' :: post)))
  rw [← split, List.length_append, String.length_toList] at text
  have found : (e.pair pre.length v).child? .key =
    some (.node .propertyIdentifier (some .key) (pre.length + 3)
      (pre.length + 3 + e.key.text.length) []) := rfl
  rw [isEntry, found, Option.map_some, Syntax.keyName, Syntax.textOf]
  rw [slice] at text
  simp [Tree.start, Tree.stop, Entry.pair, Tree.kind] at text ⊢
  rw [text, name]

theorem lineIndent_pair : lineIndent x.source (e.pair pre.length v).start =
    String.ofList [' ', ' '] := by
  obtain ⟨c, rest, key, stops⟩ := e.key.toList_text
  have line : slice x.source pre.length (pre.length + 4) = '\n' :: ([' ', ' '] ++ [c]) := by
    have whole := slice_middle pre ['\n', ' ', ' ', c]
      (rest ++ ([':', ' '] ++ (e.value ++ (',' :: post))))
    simpa [source, Entry.text, Entry.lead, key] using whole
  have blank : ∀ d ∈ [' ', ' '], isIndent d = true := by simp [isIndent]
  exact lineIndent_of_slice line blank stops

end

def pairs : Nat → List Entry → List Tree → List Tree
  | n, e :: es, v :: vs => e.pair n v :: pairs (n + e.text.length) es vs
  | _, _, _ => []

theorem filter_entryTrees : (entryTrees n es values).filter (·.kind.isNamed) = pairs n es values := by
  induction es generalizing n values with
  | nil => cases values <;> rfl
  | cons e es ih =>
      cases values with
      | nil => rfl
      | cons v values =>
          rw [entryTrees, pairs, ← ih]
          simp [Entry.pair, comma, Tree.kind, Kind.isNamed]

theorem kind_of_mem_pairs {m : Tree} (h : m ∈ pairs n es values) : m.kind = .pair := by
  induction es generalizing n values with
  | nil => cases values <;> cases h
  | cons e es ih =>
      cases values with
      | nil => cases h
      | cons v values =>
          obtain rfl | h := List.mem_cons.1 h
          · rfl
          · exact ih h

theorem namedChildren_literalTree :
    (literalTree n es values).namedChildren = pairs (n + 1) es values := by
  rw [← filter_entryTrees]
  simp [Tree.namedChildren, literalTree, Tree.children, Tree.kind, Kind.isNamed]

theorem parts_literalTree : (literalTree n es values).parts = pairs (n + 1) es values := by
  rw [Tree.parts, namedChildren_literalTree, List.filter_eq_self]
  intro m h
  rw [kind_of_mem_pairs h]
  decide

theorem ValuesFit.append (h : ValuesFit n (front ++ behind) values) :
    ∃ us vs, values = us ++ vs ∧ ValuesFit n front us ∧
      ValuesFit (n + (textOf front).length) behind vs := by
  induction front generalizing n values with
  | nil => exact ⟨[], values, rfl, trivial, h⟩
  | cons e front ih =>
      cases values with
      | nil => exact h.elim
      | cons v values =>
          obtain ⟨first, rest⟩ := h
          obtain ⟨us, vs, rfl, fit, later⟩ := ih rest
          refine ⟨v :: us, vs, rfl, ⟨first, fit⟩, ?_⟩
          rwa [Nat.add_assoc, ← List.length_append] at later

theorem ValuesFit.entryTrees_append {us vs : List Tree} (h : ValuesFit n front us) :
    entryTrees n (front ++ behind) (us ++ vs) =
      entryTrees n front us ++ entryTrees (n + (textOf front).length) behind vs := by
  induction front generalizing n us with
  | nil =>
      cases us with
      | nil => rfl
      | cons u us => exact h.elim
  | cons e front ih =>
      cases us with
      | nil => exact h.elim
      | cons u us =>
          simp [entryTrees, ih h.2, textOf, Nat.add_assoc]

theorem ValuesFit.pairs_append {us vs : List Tree} (h : ValuesFit n front us) :
    pairs n (front ++ behind) (us ++ vs) =
      pairs n front us ++ pairs (n + (textOf front).length) behind vs := by
  rw [← filter_entryTrees, h.entryTrees_append, List.filter_append, filter_entryTrees,
    filter_entryTrees]

theorem isEntry_of_mem_pairs (values : List Tree) (source : x.source = pre ++ (textOf es ++ post))
    (others : ∀ e ∈ es, e.key ≠ .region r) :
    ∀ m ∈ pairs pre.length es values, isEntry x r.key m = false := by
  induction es generalizing pre values with
  | nil => cases values <;> simp [pairs]
  | cons e es ih =>
      cases values with
      | nil => simp [pairs]
      | cons v values =>
          have first : x.source = pre ++ (e.text ++ (textOf es ++ post)) := by
            simp [source, textOf]
          have rest : x.source = (pre ++ e.text) ++ (textOf es ++ post) := by simp [first]
          have other : e.key.text ≠ r.key := fun same =>
            others e List.mem_cons_self (Key.text_injective same)
          have later := ih values rest fun e h => others e (List.mem_cons_of_mem _ h)
          rw [List.length_append] at later
          rw [pairs, List.forall_mem_cons, isEntry_pair first]
          exact ⟨beq_eq_false_iff_ne.2 other, later⟩

theorem pairOf?_eq_none (values : List Tree) (source : x.source = pre ++ (literal es ++ post))
    (others : ∀ e ∈ es, e.key ≠ .region r) :
    pairOf? x (literalTree pre.length es values) r.key = none := by
  have inside : x.source = (pre ++ ['\x7b']) ++ (textOf es ++ (['\n', '\x7d'] ++ post)) := by
    simp [source, literal]
  have plain := isEntry_of_mem_pairs values inside others
  rw [List.length_append, List.length_singleton] at plain
  rw [Reconciliation.pairOf?_eq, namedChildren_literalTree, List.find?_eq_none]
  exact fun m h => Bool.eq_false_iff.1 (plain m h)

theorem start_of_comma {m : Tree} (h : m ∈ entryTrees n es values) (kind : m.kind = .token ",") :
    m.start < n + (textOf es).length := by
  induction es generalizing n values with
  | nil => cases values <;> cases h
  | cons e es ih =>
      cases values with
      | nil => cases h
      | cons v values =>
          have proper := e.text_pos
          simp only [textOf, List.flatMap_cons, List.length_append]
          obtain rfl | rfl | h := by simpa [entryTrees] using h
          · cases kind
          · simp only [comma, Tree.start]
            omega
          · have := ih h
            rw [textOf] at this
            omega

theorem commaBehind?_last {us : List Tree} (fit : ValuesFit (n + 1) front us) :
    commaBehind? (literalTree n (front ++ [e]) (us ++ [v]))
        (e.pair (n + 1 + (textOf front).length) v).stop =
      some (comma (n + 1 + (textOf (front ++ [e])).length)) := by
  have before : ∀ m ∈ entryTrees (n + 1) front us, (m.kind == .token "," &&
      decide ((e.pair (n + 1 + (textOf front).length) v).stop ≤ m.start)) = false := by
    intro m h
    by_cases kind : m.kind = .token ","
    · have proper := e.text_pos
      have start := start_of_comma h kind
      simp [kind, Entry.pair, Tree.stop]
      omega
    · simp [kind]
  have first := List.find?_eq_none.2 fun m h => Bool.eq_false_iff.1 (before m h)
  -- the commas before lie too far to the front, so the one behind the entry is found
  simp only [commaBehind?, literalTree, Tree.children, fit.entryTrees_append, entryTrees]
  rw [List.find?_cons_of_neg (by simp [Tree.kind]), List.append_assoc, List.find?_append, first]
  have proper := e.text_pos
  have behind : (e.pair (n + 1 + (textOf front).length) v).stop ≤
      (comma (n + 1 + (textOf front).length + e.text.length)).start := Nat.le_refl _
  have place : n + 1 + (textOf front).length + e.text.length =
      n + 1 + (textOf (front ++ [e])).length := by simp [textOf, Nat.add_assoc]
  have isComma (stop : Nat) : (comma stop).kind = .token "," := rfl
  rw [Option.none_or, List.cons_append, List.find?_cons_of_neg (by simp [Entry.pair, Tree.kind]),
    List.cons_append, List.find?_cons_of_pos (by simp [isComma, behind]), place]

/-! ## One region -/

theorem textOf_append : textOf (front ++ behind) = textOf front ++ textOf behind :=
  List.flatMap_append

theorem length_inside (pre : List Char) (es : List Entry) :
    (pre ++ '\x7b' :: textOf es).length = pre.length + 1 + (textOf es).length := by
  simp only [List.length_append, List.length_cons]
  omega

theorem key_of_mem_slot {value? : Option (List Char)} (h : e ∈ slot r value?) :
    e.key = .region r := by
  obtain ⟨v, -, rfl⟩ : ∃ v, value? = some v ∧ ⟨.region r, v⟩ = e := by simpa [slot] using h
  rfl

theorem child?_pair (label : v.label? = some .value) : (e.pair n v).child? .value = some v := by
  rw [Tree.child?, Entry.pair, Tree.children, List.find?_cons_of_neg (by simp [Tree.label?]),
    List.find?_cons_of_neg (by simp [Tree.label?]), List.find?_cons_of_pos (by simp [label])]

theorem upsert_entry (source : x.source = pre ++ (literal (front ++ e :: behind) ++ post))
    (fit : ValuesFit (pre.length + 1) (front ++ e :: behind) values)
    (others : ∀ e ∈ front, e.key ≠ .region r) (key : e.key = .region r)
    (braced : e.value.head? = some '\x7b') :
    let start := pre.length + 1 + (textOf front).length + e.lead.length
    (upsert x props r (literalTree pre.length (front ++ e :: behind) values)).edit =
      some (.replaced, ⟨start, start + e.value.length, written r props⟩) := by
  obtain ⟨us, vs, rfl, fitFront, fitBehind⟩ := fit.append
  cases vs with
  | nil => exact fitBehind.elim
  | cons v vs =>
      obtain ⟨⟨label, start, stop, object⟩, -⟩ := fitBehind
      have inside : x.source = (pre ++ ['\x7b']) ++
          (textOf front ++ (textOf (e :: behind) ++ (['\n', '\x7d'] ++ post))) := by
        simp [source, literal, textOf_append]
      have entry : x.source = (pre ++ '\x7b' :: textOf front) ++
          (e.text ++ (textOf behind ++ (['\n', '\x7d'] ++ post))) := by
        simp [inside, textOf]
      have earlier := isEntry_of_mem_pairs us inside others
      have isFirst := isEntry_pair (v := v) entry r.key
      have line := lineIndent_pair (v := v) entry
      rw [List.length_append, List.length_singleton] at earlier
      rw [length_inside, key] at isFirst
      rw [length_inside] at line
      have first : pairOf? x (literalTree pre.length (front ++ e :: behind) (us ++ v :: vs)) r.key =
          some (e.pair (pre.length + 1 + (textOf front).length) v) := by
        rw [Reconciliation.pairOf?_eq, namedChildren_literalTree, fitFront.pairs_append,
          List.find?_append, List.find?_eq_none.2 fun m h => Bool.eq_false_iff.1 (earlier m h),
          Option.none_or, pairs, List.find?_cons_of_pos (isFirst.trans (beq_self_eq_true r.key))]
      simp only [upsert, first, Reconciliation.replaceEntry, child?_pair label, object braced,
        beq_self_eq_true, if_pos, line, start, stop, written, rendered]

theorem upsert_end (source : x.source = pre ++ (literal front ++ post))
    (fit : ValuesFit (pre.length + 1) front values)
    (others : ∀ e ∈ front, e.key ≠ .region r) (room : front ≠ []) :
    let place := pre.length + 1 + (textOf front).length
    (upsert x props r (literalTree pre.length front values)).edit =
      some (.inserted, ⟨place, place, (Entry.mk (.region r) (written r props)).text⟩) := by
  have fresh := pairOf?_eq_none values source others
  obtain rfl | ⟨before, e, rfl⟩ := List.eq_nil_or_concat front
  · contradiction
  rw [List.concat_eq_append] at *
  obtain ⟨us, vs, rfl, fitFront, fitLast⟩ := fit.append
  match vs, fitLast with
  | [v], _ =>
      have entry : x.source = (pre ++ '\x7b' :: textOf before) ++
          (e.text ++ (['\n', '\x7d'] ++ post)) := by
        simp [source, literal, textOf]
      -- a new entry is indented like the last one
      have line := lineIndent_pair (v := v) entry
      rw [length_inside] at line
      have last : (literalTree pre.length (before ++ [e]) (us ++ [v])).parts.getLast? =
          some (e.pair (pre.length + 1 + (textOf before).length) v) := by
        rw [parts_literalTree, fitFront.pairs_append]
        simp [pairs]
      simp only [upsert, fresh, last, Reconciliation.insertBehind, commaBehind?_last fitFront, line]
      simp [Edit.insert, comma, Tree.stop, Entry.text, Entry.lead, written, rendered, Key.text]

theorem upsert_slot (props : List Synth.PropDescriptor) {value? : Option (List Char)}
    (source : x.source = pre ++ (literal (front ++ (slot r value? ++ behind)) ++ post))
    (fit : ValuesFit (pre.length + 1) (front ++ (slot r value? ++ behind)) values)
    (others : ∀ e ∈ front, e.key ≠ .region r)
    (room : value? = none → front ≠ [] ∧ behind = [])
    (braced : ∀ v ∈ value?, v.head? = some '\x7b') :
    ∃ change e, (upsert x props r
        (literalTree pre.length (front ++ (slot r value? ++ behind)) values)).edit =
          some (change, e) ∧
      Edit.Turns (pre.length + 1 + (textOf front).length) (textOf (slot r value?))
        (textOf (slot r (some (written r props)))) e ∧
      (value? ≠ none → e.start < pre.length + 1 + (textOf front).length +
        (textOf (slot r value?)).length) := by
  cases value? with
  | some old =>
      refine ⟨.replaced, _, upsert_entry source fit others rfl (braced old rfl), ?_, fun _ => ?_⟩
      · have turns : Edit.Turns (pre.length + 1 + (textOf front).length) _ _ _ :=
          .intro (Entry.mk (.region r) old).lead old (written r props) [',']
        simpa [slot, textOf, Entry.text, Entry.lead] using turns
      · simp [slot, textOf, Entry.text]
  | none =>
      obtain ⟨occupied, rfl⟩ := room rfl
      simp only [slot, Option.map_none, Option.toList_none, List.append_nil] at source fit ⊢
      refine ⟨.inserted, _, upsert_end source fit others occupied, ?_, fun other => absurd rfl other⟩
      have turns : Edit.Turns (pre.length + 1 + (textOf front).length) _ _ _ :=
        .intro [] [] (Entry.mk (.region r) (written r props)).text []
      simpa [textOf] using turns

/-! ## The two literals -/

section

variable {t : StoryTemplate} {s : Sheet} {d : Details} {name type : String} {inner : List Tree}
  {object : Tree}

variable (t s) in
def behindAbout : List Char :=
  (middle ++ lead t.story "Story").toList ++ (literal (slot .args (some s.args)) ++ [';', '\n'])

theorem stringOf_name (inner : List Tree) (object : Tree)
    (source : x.source = pre ++ ((lead name type).toList ++ post)) :
    ((declarator pre.length name type inner object).child? .name).map x.stringOf = some name := by
  have split : x.source = (pre ++ "const ".toList) ++
      (name.toList ++ (": ".toList ++ (type.toList ++ (" = ".toList ++ post)))) := by
    simp [source, lead]
  have text := slice_middle (pre ++ "const ".toList) name.toList
    (": ".toList ++ (type.toList ++ (" = ".toList ++ post)))
  have found : (declarator pre.length name type inner object).child? .name =
    some (.node .identifier (some .name) (pre.length + "const ".length)
      (pre.length + "const ".length + name.length) []) := rfl
  rw [← split, List.length_append, String.length_toList, String.length_toList, slice] at text
  rw [found, Option.map_some, Syntax.stringOf, Syntax.textOf, Tree.start, Tree.stop, text,
    String.ofList_toList]

theorem declarators_declaration (label : Option Label) (n : Nat) :
    declarators (declaration label n name type inner object) =
      [declarator n name type inner object] := by
  simp [declarators, declaration, declarator, Tree.kind, Tree.namedChildren, Tree.children,
    Kind.isNamed]

theorem declarators_exported (n : Nat) :
    declarators (exported n name type inner object) = [declarator n name type inner object] := by
  have declared : (exported n name type inner object).child? .declaration =
    some (declaration (some .declaration) n name type inner object) := rfl
  have isExport : (exported n name type inner object).kind = .exportStatement := rfl
  rw [declarators, declared, ← declarators_declaration (some .declaration), declarators,
    isExport]
  rfl

theorem flatMap_declarators_of_none {statements : List Tree}
    (h : ∀ i ∈ statements, declarators i = []) :
    (statements.filter (·.kind.isNamed)).flatMap declarators = [] := by
  rw [List.flatMap_eq_nil_iff]
  exact fun i hi => h i (List.mem_filter.1 hi).1

theorem declarators_tree (fit : d.Fit t s) :
    (t.tree s d).namedChildren.flatMap declarators =
      [declarator t.imports.length metaName t.metaType d.metaType (t.aboutTree s d),
        declarator (t.storyDeclared s) t.story "Story" d.storyType (t.storyTree s d)] := by
  have imports : (d.imports.filter (·.kind.isNamed)).flatMap declarators = [] :=
    flatMap_declarators_of_none fun i hi => by simp [declarators, fit.imports i hi]
  have between : (d.between.filter (·.kind.isNamed)).flatMap declarators = [] :=
    flatMap_declarators_of_none fun i hi => by
      obtain kind | ⟨kind, plain⟩ := fit.between i hi
      · simp [declarators, kind]
      · simp [declarators, kind, plain]
  rw [tree, Tree.namedChildren, Tree.children, List.filter_append, List.filter_cons_of_pos rfl,
    List.filter_append, List.filter_cons_of_pos rfl, List.flatMap_append, List.flatMap_cons,
    List.flatMap_append, imports, between, declarators_declaration, List.flatMap_cons,
    declarators_exported]
  rfl

theorem objectOf?_of_first {k : Nat} {named : String} (literal : object = literalTree k es values)
    (first : (x.root.namedChildren.flatMap declarators).find?
      (fun d => ((d.child? .name).map x.stringOf) == some name) =
        some (declarator n named type inner object)) :
    objectOf? x name = some object := by
  have value : (declarator n named type inner object).child? .value = some object := by
    rw [literal]
    rfl
  have bare : bare? object = some object := by simp [literal, literalTree, bare?]
  have kind : (object.kind == .object) = true := by
    rw [literal]
    rfl
  rw [objectOf?, first]
  simp only [Option.bind_eq_bind, Option.bind_some, value, bare, kind, if_pos]

/-- `meta` is the first literal; so is the default story if it is called that. -/
theorem objectOf?_tree (source : x.source = t.text s) (root : x.root = t.tree s d)
    (fit : d.Fit t s) :
    objectOf? x metaName = some (t.aboutTree s d) ∧
      objectOf? x t.story =
        some (if t.story = metaName then t.aboutTree s d else t.storyTree s d) := by
  have begins : x.source = t.imports.toList ++ ((lead metaName t.metaType).toList ++
      (literal (t.about s) ++ t.behindAbout s)) := by
    simp [source, text, behindAbout, String.toList_append]
  have goesOn : x.source = ((t.imports ++ lead metaName t.metaType).toList ++
      (literal (t.about s) ++ middle.toList)) ++ ((lead t.story "Story").toList ++
        (literal (slot .args (some s.args)) ++ [';', '\n'])) := by
    simp [source, text, String.toList_append]
  have about := stringOf_name d.metaType (t.aboutTree s d) begins
  have story := stringOf_name d.storyType (t.storyTree s d) goesOn
  have place : ((t.imports ++ lead metaName t.metaType).toList ++
      (literal (t.about s) ++ middle.toList)).length = t.storyDeclared s := by
    simp only [List.length_append, String.length_toList, storyDeclared, aboutStart, Nat.add_assoc]
  rw [place] at story
  rw [String.length_toList] at about
  have declared := declarators_tree fit
  rw [← root] at declared
  refine ⟨objectOf?_of_first rfl (declared ▸ List.find?_cons_of_pos (by simp [about])), ?_⟩
  split
  next same => exact objectOf?_of_first rfl (declared ▸ List.find?_cons_of_pos (by simp [about, same]))
  next other =>
    refine objectOf?_of_first rfl (by
      rw [declared, List.find?_cons_of_neg (by simpa [about] using Ne.symm other),
        List.find?_cons_of_pos (by simp [story])])

/-! ## The whole story -/

structure Sheet.Suits (s : Sheet) (t : StoryTemplate) : Prop where
  table : s.table.isSome = t.argTypes
  tableBraced : ∀ v ∈ s.table, v.head? = some '\x7b'
  ownBraced : ∀ v ∈ s.own, v.head? = some '\x7b'
  argsBraced : s.args.head? = some '\x7b'

variable (t) in
def untilTable : List Char :=
  (t.imports ++ lead metaName t.metaType).toList ++ '\x7b' :: textOf t.basics

variable (t s) in
def behindTable : List Char :=
  textOf (slot .args s.own) ++ (['\n', '\x7d'] ++ t.behindAbout s)

variable (t) in
def untilArgs (own : Option (List Char)) : List Char :=
  textOf (slot .args own) ++ (['\n', '\x7d'] ++
    ((middle ++ lead t.story "Story").toList ++ ['\x7b']))

theorem behindTable_eq : t.behindTable s =
    t.untilArgs s.own ++ (textOf (slot .args (some s.args)) ++ ['\n', '\x7d', ';', '\n']) := by
  simp only [behindTable, behindAbout, untilArgs, literal, List.append_assoc, List.cons_append,
    List.nil_append]

theorem text_eq : t.text s =
    t.untilTable ++ (textOf (slot .argTypes s.table) ++ t.behindTable s) := by
  simp [text, untilTable, behindTable, behindAbout, literal, about, textOf_append]

theorem length_untilTable : t.untilTable.length = t.aboutStart + 1 + (textOf t.basics).length := by
  simp only [untilTable, aboutStart, List.length_append, List.length_cons, String.length_toList]
  omega

theorem key_basics (r : Region) : ∀ e ∈ t.basics, e.key ≠ .region r := by
  simp [basics]

theorem key_basics_slot {k : Region} (value? : Option (List Char)) (other : k ≠ r) :
    ∀ e ∈ t.basics ++ slot k value?, e.key ≠ .region r := by
  intro e he
  obtain he | he := List.mem_append.1 he
  · exact key_basics r e he
  · rw [key_of_mem_slot he]
    simpa using other

section

variable (source : x.source = t.text s) (fit : d.Fit t s) (suits : s.Suits t)

include source fit suits

theorem table_turns (props : List Synth.PropDescriptor) (on : t.argTypes = true) :
    ∃ change e, (upsert x props .argTypes (t.aboutTree s d)).edit = some (change, e) ∧
      Edit.Turns t.untilTable.length (textOf (slot .argTypes s.table))
        (textOf (slot .argTypes (t.filled props s).table)) e ∧
      e.start < (t.untilTable ++ textOf (slot .argTypes s.table)).length := by
  have there : s.table ≠ none := by
    rw [← Option.isSome_iff_ne_none, suits.table, on]
  have begins : x.source = (t.imports ++ lead metaName t.metaType).toList ++
    (literal (t.basics ++ (slot .argTypes s.table ++ slot .args s.own)) ++ t.behindAbout s) := source
  obtain ⟨change, e, edit, turns, start⟩ := upsert_slot props begins fit.aboutValues
    (key_basics .argTypes) (fun none => absurd none there) suits.tableBraced
  rw [String.length_toList] at edit turns start
  refine ⟨change, e, edit, ?_, ?_⟩
  · rw [length_untilTable, filled, if_pos on]
    exact turns
  · rw [List.length_append, length_untilTable]
    exact start there

omit fit in
theorem remove_table (props : List Synth.PropDescriptor) (off : t.argTypes = false) :
    (Reconciliation.remove x .argTypes (t.aboutTree s d)).edit = none ∧
      (t.filled props s).table = s.table := by
  have missing : s.table = none := by simpa [off] using suits.table
  have about : t.about s = t.basics ++ slot .args s.own := by
    rw [about, missing]
    rfl
  have begins : x.source = (t.imports ++ lead metaName t.metaType).toList ++
      (literal (t.basics ++ slot .args s.own) ++ t.behindAbout s) := by
    rw [source, text, about, behindAbout]
  have fresh := pairOf?_eq_none d.aboutValues begins
    (key_basics_slot (r := .argTypes) s.own (by decide))
  rw [String.length_toList] at fresh
  refine ⟨?_, by simp [filled, off]⟩
  rw [aboutTree, about, Reconciliation.remove, aboutStart, fresh]
  rfl

theorem args_turns (props : List Synth.PropDescriptor) :
    ∃ change e, (upsert x props .args
        (if t.story = metaName then t.aboutTree s d else t.storyTree s d)).edit = some (change, e) ∧
      Edit.Turns (t.untilTable ++ textOf (slot .argTypes s.table)).length (t.behindTable s)
        (t.behindTable (t.filled props s)) e := by
  split
  next same =>
    have about : t.about s = (t.basics ++ slot .argTypes s.table) ++ (slot .args s.own ++ []) := by
      simp [about]
    have others := key_basics_slot (t := t) (k := .argTypes) (r := .args) s.table (by decide)
    have fitAbout := fit.aboutValues
    rw [about] at fitAbout
    have begins : x.source = (t.imports ++ lead metaName t.metaType).toList ++
        (literal ((t.basics ++ slot .argTypes s.table) ++ (slot .args s.own ++ [])) ++
          t.behindAbout s) := by
      rw [source, text, about, behindAbout]
    obtain ⟨change, e, edit, turns, -⟩ := upsert_slot props begins fitAbout others
      (fun _ => ⟨by simp [basics], rfl⟩) suits.ownBraced
    rw [String.length_toList] at edit turns
    refine ⟨change, e, by rw [aboutTree, about]; exact edit, ?_⟩
    have place : (t.untilTable ++ textOf (slot .argTypes s.table)).length =
        t.aboutStart + 1 + (textOf (t.basics ++ slot .argTypes s.table)).length := by
      rw [List.length_append, length_untilTable, textOf_append, List.length_append]
      omega
    simp only [behindTable, filled, if_pos same, place]
    exact turns.within [] _
  next other =>
    have start : ((t.imports ++ lead metaName t.metaType).toList ++ (literal (t.about s) ++
        (middle ++ lead t.story "Story").toList)).length = t.storyStart s := by
      simp only [List.length_append, String.length_toList, String.length_append, storyStart,
        storyDeclared, aboutStart]
      omega
    have begins : x.source = ((t.imports ++ lead metaName t.metaType).toList ++
        (literal (t.about s) ++ (middle ++ lead t.story "Story").toList)) ++
          (literal ([] ++ (slot .args (some s.args) ++ [])) ++ [';', '\n']) := by
      simp [source, text]
    have fitStory := fit.storyValues
    rw [← start] at fitStory
    obtain ⟨change, e, edit, turns, -⟩ := upsert_slot props begins fitStory (by simp) (by simp)
      (by simpa using suits.argsBraced)
    rw [start] at edit turns
    refine ⟨change, e, edit, ?_⟩
    have place : (t.untilTable ++ textOf (slot .argTypes s.table)).length +
        (t.untilArgs s.own).length = t.storyStart s + 1 + (textOf []).length := by
      have none : (textOf []).length = 0 := rfl
      simp only [none, untilArgs, List.length_append, length_untilTable, storyStart, storyDeclared,
        literal, List.length_cons, about, textOf_append, List.length_nil, String.length_toList,
        String.length_append]
      omega
    rw [← place] at turns
    rw [behindTable_eq, behindTable_eq, filled, if_neg other, if_neg other]
    exact turns.within _ _

theorem make?_regions (props : List Synth.PropDescriptor) {o : ReconcileOptions}
    (generate : o.generateArgTypes = t.argTypes) :
    Edit.make? ((Reconciliation.planArgTypes x props o (some (t.aboutTree s d))).edits ++
      (upsert x props .args
        (if t.story = metaName then t.aboutTree s d else t.storyTree s d)).edits) x.source =
      some (t.text (t.filled props s)) := by
  obtain ⟨change, f, edit, turns⟩ := args_turns source fit suits props
  have whole : x.source = (t.untilTable ++ textOf (slot .argTypes s.table)) ++ t.behindTable s := by
    rw [source, text_eq, List.append_assoc]
  rw [Reconciliation.planArgTypes, generate, whole, text_eq, ← List.append_assoc]
  -- the table is in front of the args, so the two edits do not meet
  cases on : t.argTypes with
  | true =>
      obtain ⟨change', e, edit', turns', start⟩ := table_turns source fit suits props on
      rw [if_pos rfl, Reconciliation.RegionPlan.edits, Reconciliation.RegionPlan.edits, edit, edit']
      exact Edit.make?_two turns'.behind turns (Nat.lt_of_lt_of_le start turns.range.1)
  | false =>
      obtain ⟨edit', table⟩ := remove_table source suits props on
      rw [if_neg Bool.false_ne_true, Reconciliation.RegionPlan.edits,
        Reconciliation.RegionPlan.edits, edit, edit', table]
      exact Edit.make?_one turns.behind

end

/-- A new story that is read as expected is filled in by a reconciliation, whatever it held in its
regions. -/
theorem reconcile_text (props : List Synth.PropDescriptor) {o : ReconcileOptions}
    (suits : s.Suits t) (reads : t.Reads s)
    (clean : (parse (t.text s)).root.firstFault? = none) (story : o.defaultStory = t.story)
    (generate : o.generateArgTypes = t.argTypes) :
    ∃ report, reconcile (String.ofList (t.text s)) props o =
      .updated (String.ofList (t.text (t.filled props s))) report := by
  obtain ⟨d, fit, root⟩ := reads clean
  have source : (parse (t.text s)).source = t.text s := parse_source
  unfold reconcile
  simp only [String.toList_ofList]
  generalize parse (t.text s) = x at clean root source ⊢
  obtain ⟨about, literal⟩ := objectOf?_tree source root fit
  have made := make?_regions source fit suits props generate
  simp only [Syntax.faultLine?, clean, Option.map_none, Reconciliation.ofSyntax, about, story,
    literal, Reconciliation.planArgs, made]
  exact ⟨_, rfl⟩

theorem blank_suits (t : StoryTemplate) : t.blank.Suits t := by
  refine ⟨?_, ?_, by simp [blank], rfl⟩
  all_goals
    unfold blank
    cases t.argTypes <;> simp

theorem Sheet.Suits.filled (suits : s.Suits t) (props : List Synth.PropDescriptor) :
    (t.filled props s).Suits t := by
  have braced (r : Region) : (written r props).head? = some '\x7b' := by
    obtain ⟨inner, text⟩ := Reconciliation.rendered_eq r props [' ', ' ']
    rw [written, text]
    rfl
  constructor
  case table =>
    simp only [StoryTemplate.filled]
    split
    next on => simp [on]
    next => exact suits.table
  case tableBraced =>
    simp only [StoryTemplate.filled]
    split
    next => simpa using braced .argTypes
    next => exact suits.tableBraced
  case ownBraced =>
    simp only [StoryTemplate.filled]
    split
    next => simpa using braced .args
    next => exact suits.ownBraced
  case argsBraced =>
    simp only [StoryTemplate.filled]
    split
    next => exact suits.argsBraced
    next => exact braced .args

theorem reconcile_of_fault {source : List Char} (props : List Synth.PropDescriptor)
    (o : ReconcileOptions)
    (fault : (parse source).root.firstFault? ≠ none) :
    ∃ line, reconcile (String.ofList source) props o = .unparsable line := by
  obtain ⟨place, fault⟩ := Option.ne_none_iff_exists'.1 fault
  unfold reconcile
  simp only [String.toList_ofList, Syntax.faultLine?, fault, Option.map_some]
  exact ⟨_, rfl⟩

variable (t props) in
/-- The text of a new story: the template with its regions filled in, or as it is if it cannot be
reconciled. -/
def created (o : ReconcileOptions) : String :=
  match reconcile t.render props o with
  | .updated content _ => content
  | _ => t.render

theorem created_of_updated {o : ReconcileOptions} {content : String} {report : ReconcileReport}
    (h : reconcile t.render props o = .updated content report) : t.created props o = content := by
  unfold created
  generalize reconcile t.render props o = result at h ⊢
  cases h
  rfl

theorem created_of_unparsable {o : ReconcileOptions} {line : Nat}
    (h : reconcile t.render props o = .unparsable line) : t.created props o = t.render := by
  unfold created
  generalize reconcile t.render props o = result at h ⊢
  cases h
  rfl

/-- A story that has just been created is refused when it is reconciled with the same props, or
stays as it is. -/
theorem reconcile_created {o : ReconcileOptions} (reads : t.Reads t.blank)
    (readsFilled : t.Reads (t.filled props t.blank)) (story : o.defaultStory = t.story)
    (generate : o.generateArgTypes = t.argTypes) :
    (∃ line, reconcile (t.created props o) props o = .unparsable line) ∨
      ∃ report, reconcile (t.created props o) props o = .updated (t.created props o) report := by
  have template : t.render = String.ofList (t.text t.blank) := by
    rw [← render_eq, String.ofList_toList]
  -- a refused template is left as it is, and is refused again
  by_cases clean : (parse (t.text t.blank)).root.firstFault? = none
  · obtain ⟨report, filling⟩ :=
      reconcile_text props t.blank_suits reads clean story generate
    rw [← template] at filling
    rw [created_of_updated filling]
    by_cases clean' : (parse (t.text (t.filled props t.blank))).root.firstFault? = none
    · have again := reconcile_text props (t.blank_suits.filled props) readsFilled clean'
        story generate
      rw [filled_filled] at again
      exact .inr again
    · exact .inl (reconcile_of_fault props o clean')
  · obtain ⟨line, refused⟩ := reconcile_of_fault props o clean
    rw [← template] at refused
    rw [created_of_unparsable refused]
    exact .inl ⟨line, refused⟩

end

/-! ## Recognizing a new story -/

instance decidableValuesFit : ∀ n es values, Decidable (ValuesFit n es values)
  | n, e :: es, _ :: vs =>
      have := decidableValuesFit (n + e.text.length) es vs
      inferInstanceAs (Decidable (_ ∧ _))
  | _, [], [] => inferInstanceAs (Decidable True)
  | _, [], _ :: _ => inferInstanceAs (Decidable False)
  | _, _ :: _, [] => inferInstanceAs (Decidable False)

section

variable {t : StoryTemplate} {s : Sheet} {d : Details}

theorem Details.fit_iff : d.Fit t s ↔
    (∀ i ∈ d.imports, i.kind = .importStatement) ∧
      ValuesFit (t.aboutStart + 1) (t.about s) d.aboutValues ∧
      (∀ i ∈ d.between, i.kind = .typeAliasDeclaration ∨
        i.kind = .exportStatement ∧ i.child? .declaration = none) ∧
      ValuesFit (t.storyStart s + 1) (slot .args (some s.args)) d.storyValues :=
  ⟨fun ⟨a, b, c, d⟩ => ⟨a, b, c, d⟩, fun ⟨a, b, c, d⟩ => ⟨a, b, c, d⟩⟩

instance : Decidable (d.Fit t s) := decidable_of_iff _ Details.fit_iff.symm

def typeNodes (declaration : Tree) : List Tree :=
  ((declaration.namedChildren.head?.bind (Tree.child? · .type)).map Tree.children).getD []

def valueNodes (declaration : Tree) : List Tree :=
  ((declaration.namedChildren.head?.bind (Tree.child? · .value)).map fun o =>
    o.namedChildren.filterMap (Tree.child? · .value)).getD []

def Details.ofRoot (root : Tree) : Details :=
  let statements := root.children.dropWhile (·.kind == .importStatement)
  let about := statements.head?
  let story := statements.getLast?.bind (Tree.child? · .declaration)
  { imports := root.children.takeWhile (·.kind == .importStatement)
    metaType := (about.map typeNodes).getD []
    aboutValues := (about.map valueNodes).getD []
    between := statements.tail.dropLast
    storyType := (story.map typeNodes).getD []
    storyValues := (story.map valueNodes).getD [] }

theorem values_pairs (fit : ValuesFit n es values) :
    (pairs n es values).filterMap (Tree.child? · .value) = values := by
  induction es generalizing n values with
  | nil =>
      cases values with
      | nil => rfl
      | cons v values => exact fit.elim
  | cons e es ih =>
      cases values with
      | nil => exact fit.elim
      | cons v values =>
          obtain ⟨⟨label, -⟩, rest⟩ := fit
          rw [pairs, List.filterMap_cons, child?_pair label, ih rest]

theorem typeNodes_declaration {label : Option Label} {name type : String} {inner : List Tree}
    {object : Tree} : typeNodes (declaration label n name type inner object) = inner := rfl

theorem valueNodes_declaration {label : Option Label} {k : Nat} {name type : String}
    {inner : List Tree} (fit : ValuesFit (k + 1) es values) :
    valueNodes (declaration label n name type inner (literalTree k es values)) = values := by
  have object : valueNodes (declaration label n name type inner (literalTree k es values)) =
    (literalTree k es values).namedChildren.filterMap (Tree.child? · .value) := rfl
  rw [object, namedChildren_literalTree, values_pairs fit]

theorem Details.ofRoot_tree (fit : d.Fit t s) : Details.ofRoot (t.tree s d) = d := by
  let about := declaration none t.imports.length metaName t.metaType d.metaType (t.aboutTree s d)
  let story := exported (t.storyDeclared s) t.story "Story" d.storyType (t.storyTree s d)
  have isImport : ∀ i ∈ d.imports, (i.kind == .importStatement) = true := fun i hi => by
    rw [fit.imports i hi]
    rfl
  have other : (about.kind == .importStatement) = false := rfl
  have children : (t.tree s d).children = d.imports ++ about :: (d.between ++ [story]) := rfl
  have imports : (t.tree s d).children.takeWhile (·.kind == .importStatement) = d.imports := by
    rw [children, List.takeWhile_append_of_pos isImport, List.takeWhile_cons, other]
    simp
  have statements : (t.tree s d).children.dropWhile (·.kind == .importStatement) =
      about :: (d.between ++ [story]) := by
    rw [children, List.dropWhile_append_of_pos isImport, List.dropWhile_cons, other]
    simp
  have last : (about :: (d.between ++ [story])).getLast? = some story := by
    rw [← List.cons_append, List.getLast?_concat]
  have declared : story.child? .declaration = some (declaration (some .declaration)
    (t.storyDeclared s) t.story "Story" d.storyType (t.storyTree s d)) := rfl
  have aboutValues : valueNodes about = d.aboutValues := valueNodes_declaration fit.aboutValues
  have storyValues : valueNodes (declaration (some .declaration) (t.storyDeclared s) t.story "Story"
    d.storyType (t.storyTree s d)) = d.storyValues := valueNodes_declaration fit.storyValues
  rw [Details.ofRoot]
  simp only [imports, statements, last, Option.bind_some, declared, Option.map_some,
    Option.getD_some, List.head?_cons, List.tail_cons, List.dropLast_concat, aboutValues]
  rw [typeNodes_declaration, storyValues]
  rfl

theorem reads_iff : t.Reads s ↔ ((parse (t.text s)).root.firstFault? = none →
    (Details.ofRoot (parse (t.text s)).root).Fit t s ∧
      (parse (t.text s)).root = t.tree s (Details.ofRoot (parse (t.text s)).root)) := by
  refine forall_congr' fun _ => ⟨?_, fun ⟨fit, root⟩ => ⟨_, fit, root⟩⟩
  rintro ⟨d, fit, root⟩
  rw [root, Details.ofRoot_tree fit]
  exact ⟨fit, rfl⟩

instance : Decidable (t.Reads s) := decidable_of_iff _ reads_iff.symm

end

end StoryTemplate

end PropStories
