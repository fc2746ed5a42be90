import Mathlib.Data.List.Find
import PropStories.Proofs.Story.Reparse
import PropStories.Proofs.Tsx.Reading

/-!
# What is found again in a reconciled story

Outside the literals that were written, names, keys and indentation are read as before. So the
literals are found again, and in them the entries that the edits left alone.
-/

namespace PropStories.Reconciliation

open Story Tsx
open Edit (place placeFrom spliceFrom)
open Text (slice)

variable {x y : Syntax} {props : List Synth.PropDescriptor} {o : ReconcileOptions} {b : Nat}
  {written : Region → Tree}

/-! ## The edits in order -/

theorem perm_edits :
    ((plan x props o .argTypes).edit?.toList ++ (plan x props o .args).edit?.toList).Perm
      (edits x props o) :=
  ((List.reverse_perm _).trans (Edit.fromTheEnd_perm _)).symm

theorem mem_edits {e : Edit} :
    e ∈ edits x props o ↔ ∃ r change, (plan x props o r).edit = some (change, e) := by
  rw [← perm_edits.mem_iff, List.mem_append, Option.mem_toList, Option.mem_toList,
    RegionPlan.edit?_eq_some, RegionPlan.edit?_eq_some]
  constructor
  · rintro (⟨change, he⟩ | ⟨change, he⟩)
    · exact ⟨.argTypes, change, he⟩
    · exact ⟨.args, change, he⟩
  · rintro ⟨r, change, he⟩
    cases r with
    | argTypes => exact .inl ⟨change, he⟩
    | args => exact .inr ⟨change, he⟩

theorem edits_inOrder (props : List Synth.PropDescriptor)
    (lined : Lined x.source 0 x.root.children b) (named : o.defaultStory ≠ metaName) :
    Edit.InOrder x.source.length 0 (edits x props o) ∧
      (edits x props o).Pairwise fun f g => f.start < g.start := by
  have bounds {r : Region} : ∀ e ∈ (plan x props o r).edit?,
      e.start ≤ e.stop ∧ e.stop ≤ x.source.length := by
    intro e he
    obtain ⟨change, planned⟩ := RegionPlan.edit?_eq_some.1 he
    exact (editOf_plan lined planned).bounds
  have apart : ∀ e ∈ (plan x props o .argTypes).edit?, ∀ f ∈ (plan x props o .args).edit?,
      e.stop < f.start ∨ f.stop < e.start := by
    intro e he f hf
    obtain ⟨change, ePlanned⟩ := RegionPlan.edit?_eq_some.1 he
    obtain ⟨other, fPlanned⟩ := RegionPlan.edit?_eq_some.1 hf
    exact (editOf_plan lined ePlanned).apart lined (Ne.symm named) (editOf_plan lined fPlanned)
  obtain ⟨es, perm, order, starts⟩ := Edit.exists_inOrder bounds bounds apart
  have eq : edits x props o = es := by
    rw [edits, Edit.fromTheEnd_eq_reverse perm starts, List.reverse_reverse]
  rw [eq]
  exact ⟨order, starts⟩

/-- The edits in two literals can be made, and are made at once. -/
theorem make?_plans (props : List Synth.PropDescriptor) (lined : Lined x.source 0 x.root.children b)
    (named : o.defaultStory ≠ metaName) :
    Edit.make? ((plan x props o .argTypes).edits ++ (plan x props o .args).edits) x.source =
      some (spliceFrom x.source 0 (edits x props o)) := by
  obtain ⟨order, starts⟩ := edits_inOrder props lined named
  exact Edit.make?_eq_some perm_edits order starts

/-- Nothing that is reconciled in two literals makes the program break off. -/
theorem reconcile_ne_torn (story : String) (props : List Synth.PropDescriptor)
    (named : o.defaultStory ≠ metaName) {ds : List Diagnostic} :
    reconcile story props o ≠ .torn ds := by
  unfold reconcile
  simp only
  split
  · exact Reconciliation.noConfusion
  · rename_i clear
    obtain ⟨b, lined⟩ := parse_fits (Option.map_eq_none_iff.1 clear)
    replace lined : Lined (parse story.toList).source 0 (parse story.toList).root.children b := by
      rwa [parse_source]
    have made := make?_plans props lined named
    simp only [plan] at made
    unfold ofSyntax
    split
    · exact Reconciliation.noConfusion
    · simp only [made]
      exact Reconciliation.noConfusion

/-- Where there is a table just if one is generated, it is replaced in front of all that is inserted
into its literal. -/
theorem table_before {object : Tree} {r : Region} {d e : Edit}
    (literal : IsLiteral x.source object)
    (table : (pairOf? x object Region.argTypes.key).isSome = o.generateArgTypes)
    (inserted : (upsert x props r object).edit = some (.inserted, e))
    (planned : d ∈ (planArgTypes x props o (some object)).edit?) :
    d.start < d.stop ∧ d.stop ≤ e.start := by
  obtain ⟨change, planned⟩ := RegionPlan.edit?_eq_some.1 planned
  unfold planArgTypes at planned
  cases first : pairOf? x object Region.argTypes.key with
  | none =>
      rw [first] at table
      simp only [← table, remove, first] at planned
      contradiction
  | some pair =>
      rw [first] at table
      simp only [← table, upsert, first, Option.isSome_some, if_true] at planned
      obtain ⟨range, inside⟩ := replaceEntry_inside literal first planned
      exact ⟨range, Nat.le_trans inside
        (stop_le_of_inserted literal inserted (pairOf?_mem_parts first))⟩

/-- In one literal that has a table just if one is generated, and no args, the edits can be made:
the args are inserted behind the table. -/
theorem ofSyntax_of_shared (props : List Synth.PropDescriptor) {object : Tree}
    (literal : IsLiteral x.source object) (found : objectOf? x metaName = some object)
    (shared : o.defaultStory = metaName)
    (table : (pairOf? x object Region.argTypes.key).isSome = o.generateArgTypes)
    (args : pairOf? x object Region.args.key = none) :
    ∃ content report, ofSyntax x props o = .updated content report := by
  obtain ⟨e, inserted⟩ := exists_inserted props args
  obtain ⟨braces, -⟩ := upsert_editsIn literal _ e inserted
  have bound : e.stop ≤ x.source.length := by
    have := (List.getElem?_eq_some_iff.1 braces.closing).1
    have := braces.right
    omega
  have edits : (planArgs x props o (some object)).edits = [e] := by
    rw [planArgs, RegionPlan.edits, inserted]
    rfl
  have order : Edit.InOrder x.source.length 0
      ((planArgTypes x props o (some object)).edit?.toList ++ [e]) := by
    have behind := braces.range
    cases planned : (planArgTypes x props o (some object)).edit? with
    | none => exact ⟨Nat.zero_le _, behind, bound⟩
    | some d =>
        obtain ⟨range, left⟩ := table_before literal table inserted planned
        exact ⟨Nat.zero_le _, Nat.le_of_lt range, left, behind, bound⟩
  have starts : ((planArgTypes x props o (some object)).edit?.toList ++ (some e).toList).Pairwise
      fun f g => f.start < g.start :=
    Edit.pairwise_two fun d hd f hf => by
      obtain rfl := Option.some.inj hf
      have := table_before literal table inserted hd
      omega
  have made := Edit.make?_eq_some (.refl _) order starts
  rw [ofSyntax, shared, found]
  simp only [edits]
  change Edit.make? ((planArgTypes x props o (some object)).edits ++ [e]) x.source = _ at made
  rw [made]
  exact ⟨_, _, rfl⟩

-- Otherwise they may not be: the removed line takes a part of the entry that is inserted at its
-- end, as many bytes as there are behind the comma.
example : reconcile ("const meta = \x7b\n  argTypes: \x7b\x7d,               \n\x7d;\n")
    [⟨"é", .ofName "string", false, none, "''", ⟨.text, []⟩, "string", "string"⟩]
    ⟨metaName, false, false⟩ = .torn [] := by
  decide +kernel

/-! ## Outside the literals -/

def Outside (x : Syntax) (props : List Synth.PropDescriptor) (o : ReconcileOptions)
    (p q : Nat) : Prop :=
  ∀ r object, objectOf? x (owner o r) = some object → (plan x props o r).edit.isSome →
    q ≤ object.start ∨ object.stop ≤ p

theorem Outside.mono {p p' q q' : Nat} (h : Outside x props o p q) (hp : p ≤ p') (hq : q' ≤ q) :
    Outside x props o p' q' := by
  intro r object found edited
  have := h r object found edited
  omega

theorem Outside.apart (lined : Lined x.source 0 x.root.children b) {p q : Nat}
    (h : Outside x props o p q) {e : Edit} (he : e ∈ edits x props o) :
    q < e.start ∨ e.stop < p := by
  obtain ⟨r, change, planned⟩ := mem_edits.1 he
  obtain ⟨object, found, braces, -⟩ := editOf_plan lined planned
  have := h r object found (by rw [planned]; rfl)
  have := braces.left
  have := braces.right
  omega

theorem new?_eq_some {t u : Tree} (h : new? x props o written t = some u) :
    ∃ r, objectOf? x (owner o r) = some t ∧ (plan x props o r).edit.isSome ∧ u = written r := by
  obtain ⟨r, -, hr⟩ := List.exists_of_findSome?_eq_some h
  split at hr
  · rename_i here
    exact ⟨r, here.1, here.2, (Option.some.inj hr).symm⟩
  · contradiction

theorem Written.exists_eq {es : List Edit} {r : Region} {object t : Tree} {e : Edit}
    {change : Change} (h : Written x es r object e change t) :
    ∃ inner, t = reopened es e object inner := by
  cases h with
  | replaced => exact ⟨_, rfl⟩
  | inserted => exact ⟨_, rfl⟩
  | removed => exact ⟨_, rfl⟩

theorem ne_object_of_outer {k : Kind} (outer : k = .satisfies ∨ k = .as ∨ k = .parenthesized) :
    k ≠ .object := by
  rintro rfl
  simp at outer

theorem bare?_eq (t : Tree) :
    bare? t =
      if t.kind = .satisfies ∨ t.kind = .as ∨ t.kind = .parenthesized then bareAmong? t.children
      else some t := by
  cases t with
  | node k l a e cs =>
      unfold bare?
      split <;> simp_all [Tree.kind, Tree.children]

/-! ## Renewals -/

/-- A story `y` that comes of a story `x` by a reconciliation. -/
structure Renewal (x : Syntax) (props : List Synth.PropDescriptor) (o : ReconcileOptions)
    (written : Region → Tree) (y : Syntax) : Prop where
  lined : ∃ b, Lined x.source 0 x.root.children b
  program : x.root.kind = .program
  named : o.defaultStory ≠ metaName
  source : y.source = spliceFrom x.source 0 (edits x props o)
  literals : AreWritten x props o written
  root : y.root = rebuilt x props o written x.root

namespace Renewal

variable (h : Renewal x props o written y)

include h

theorem inOrder : Edit.InOrder x.source.length 0 (edits x props o) := by
  obtain ⟨b, lined⟩ := h.lined
  exact (edits_inOrder props lined h.named).1

theorem isLiteral {name : String} {t : Tree} (found : objectOf? x name = some t) :
    IsLiteral x.source t := by
  obtain ⟨b, lined⟩ := h.lined
  exact isLiteral_of_objectOf? lined found

theorem onLiterals : Tree.OnLiterals (new? x props o written) := by
  intro t u new
  obtain ⟨r, found, edited, rfl⟩ := new?_eq_some new
  have kind := (h.isLiteral found).kind
  obtain ⟨⟨change, e⟩, planned⟩ := Option.isSome_iff_exists.1 edited
  obtain ⟨inner, eq⟩ := (h.literals r t change e found planned).exists_eq
  rw [eq]
  exact ⟨kind, kind, rfl⟩

theorem kind (t : Tree) : (rebuilt x props o written t).kind = t.kind :=
  Tree.kind_substitute h.onLiterals t

theorem label? (t : Tree) : (rebuilt x props o written t).label? = t.label? :=
  Tree.label?_substitute h.onLiterals t

theorem children {t : Tree} (proper : t.kind ≠ .object) :
    (rebuilt x props o written t).children = t.children.map (rebuilt x props o written) :=
  Tree.children_substitute h.onLiterals proper

theorem new?_of_outside {t : Tree} (outside : Outside x props o t.start t.stop) :
    new? x props o written t = none := by
  cases new : new? x props o written t with
  | none => rfl
  | some u =>
      obtain ⟨r, found, edited, -⟩ := new?_eq_some new
      obtain ⟨-, -, -, -, -, -, -, length, -, -⟩ := (h.isLiteral found).braces
      have := outside r t found edited
      omega

theorem textOf {t : Tree} (outside : Outside x props o t.start t.stop)
    (range : t.start ≤ t.stop) : y.textOf (rebuilt x props o written t) = x.textOf t := by
  obtain ⟨b, lined⟩ := h.lined
  have untouched : Edit.Untouched (edits x props o) t.start t.stop := by
    intro e he
    have := outside.apart lined he
    omega
  have stop : place (edits x props o) t.stop =
      place (edits x props o) t.start + (t.stop - t.start) := by
    refine Edit.placeFrom_add h.inOrder (Nat.zero_le _) range fun e he => ?_
    have := outside.apart lined he
    have := h.inOrder.mem he
    omega
  have same := Edit.slice_spliceFrom h.inOrder (Nat.zero_le _) untouched (Nat.le_refl _) range
    (Nat.le_refl _)
  rw [Nat.sub_self, Nat.add_zero] at same
  rw [rebuilt, Tree.substitute_of_none (h.new?_of_outside outside)]
  show slice y.source (place _ t.start) (place _ t.stop) = slice x.source t.start t.stop
  rw [stop, h.source]
  exact same

/-! ### The literals -/

theorem declarators (t : Tree) :
    declarators (rebuilt x props o written t) =
      (declarators t).map (rebuilt x props o written) := by
  have below {d : Tree} (proper : d.kind ≠ .object) :
      ((rebuilt x props o written d).namedChildren).filter (·.kind == .variableDeclarator) =
        ((d.namedChildren).filter (·.kind == .variableDeclarator)).map
          (rebuilt x props o written) := by
    rw [Tree.namedChildren_map (h.children proper) h.kind, List.filter_map]
    simp only [Function.comp_def, h.kind]
  have among (d : Tree) :
      (if (rebuilt x props o written d).kind == .lexicalDeclaration ||
          (rebuilt x props o written d).kind == .variableDeclaration then
        (rebuilt x props o written d).namedChildren.filter (·.kind == .variableDeclarator)
      else []) =
        (if d.kind == .lexicalDeclaration || d.kind == .variableDeclaration then
          d.namedChildren.filter (·.kind == .variableDeclarator)
        else []).map (rebuilt x props o written) := by
    rw [h.kind]
    split
    · rename_i declaration
      refine below fun object => ?_
      rw [object] at declaration
      exact absurd declaration (by decide)
    · rfl
  unfold Story.declarators
  simp only [h.kind t]
  by_cases exported : t.kind = .exportStatement
  · have proper : t.kind ≠ .object := by
      rw [exported]
      decide
    rw [exported, beq_self_eq_true, if_pos rfl, if_pos rfl,
      Tree.child?_map (h.children proper) h.label?]
    cases t.child? .declaration with
    | none => rfl
    | some d => exact among d
  · rw [beq_eq_false_iff_ne.2 exported]
    exact among t

theorem declared : declared y = (declared x).map (rebuilt x props o written) := by
  have proper : x.root.kind ≠ .object := by
    rw [h.program]
    decide
  unfold Story.declared
  rw [h.root, Tree.namedChildren_map (h.children proper) h.kind, List.flatMap_map,
    List.map_flatMap]
  simp only [h.declarators]

mutual

theorem bare? : (t : Tree) → bare? (rebuilt x props o written t) =
    (bare? t).map (rebuilt x props o written)
  | .node k l a e cs => by
      have among := bareAmong? cs
      rw [bare?_eq, bare?_eq, h.kind]
      split
      · rename_i outer
        rw [h.children (ne_object_of_outer outer)]
        exact among
      · rfl

theorem bareAmong? : (ts : List Tree) → Story.bareAmong? (ts.map (rebuilt x props o written)) =
    (Story.bareAmong? ts).map (rebuilt x props o written)
  | [] => rfl
  | t :: ts => by
      have here := bare? t
      have behind := bareAmong? ts
      rw [List.map_cons, Story.bareAmong?, Story.bareAmong?, h.kind, here, behind]
      split <;> rfl

end

/-- The name of a variable stands outside the literals, even if its own value is one. -/
theorem name_outside {d t : Tree} (hd : d ∈ Story.declared x) (named : d.child? .name = some t) :
    Outside x props o t.start t.stop ∧ t.start ≤ t.stop := by
  obtain ⟨b, lined⟩ := h.lined
  have dFits := ((lined_declared lined).mem hd).1
  obtain ⟨fits, left, right⟩ := fits_of_child? dFits named
  refine ⟨fun r object found _ => ?_, fits.start_le_stop⟩
  obtain ⟨d', value, hd', valued, bare, -⟩ := objectOf?_eq_some found
  have mem' := List.mem_of_find?_eq_some hd'
  have fits' := ((lined_declared lined).mem mem').1
  obtain ⟨valueFits, valueLeft, valueRight⟩ := fits_of_child? fits' valued
  obtain ⟨-, objectLeft, objectRight⟩ := fits_of_bare? valueFits bare
  obtain rfl | order := apart_of_mem (lined_declared lined) hd mem'
  · obtain rfl | order := apart_of_mem fits'.lined (Tree.mem_children_of_child? named)
      (Tree.mem_children_of_child? valued)
    · have asName := List.find?_some named
      have asValue := List.find?_some valued
      rw [beq_iff_eq] at asName asValue
      rw [asName] at asValue
      contradiction
    · omega
  · omega

theorem objectOf? (name : String) :
    Story.objectOf? y name = (Story.objectOf? x name).map (rebuilt x props o written) := by
  have named : ∀ d ∈ Story.declared x,
      ((((rebuilt x props o written d).child? .name).map y.stringOf) == some name) =
        (((d.child? .name).map x.stringOf) == some name) := by
    intro d hd
    have proper : d.kind ≠ .object := by
      rw [kind_of_mem_declared hd]
      decide
    rw [Tree.child?_map (h.children proper) h.label?]
    cases found : d.child? .name with
    | none => rfl
    | some t =>
        obtain ⟨outside, range⟩ := h.name_outside hd found
        have text : y.stringOf (rebuilt x props o written t) = x.stringOf t :=
          congrArg String.ofList (h.textOf outside range)
        simp only [Option.map_some, text]
  unfold Story.objectOf?
  show ((Story.declared y).find? _ >>= _) = Option.map _ ((Story.declared x).find? _ >>= _)
  rw [h.declared, List.find?_map, Function.comp_def, List.find?_congr named]
  cases found : (Story.declared x).find? _ with
  | none => rfl
  | some d =>
      have proper : d.kind ≠ .object := by
        rw [kind_of_mem_declared (List.mem_of_find?_eq_some found)]
        decide
      simp only [Option.map_some, Option.bind_eq_bind, Option.bind_some]
      rw [Tree.child?_map (h.children proper) h.label?]
      cases d.child? .value with
      | none => rfl
      | some value =>
          simp only [Option.map_some, Option.bind_some]
          rw [h.bare?]
          cases Story.bare? value with
          | none => rfl
          | some t =>
              simp only [Option.map_some, Option.bind_some, h.kind]
              split <;> rfl

end Renewal

end PropStories.Reconciliation
