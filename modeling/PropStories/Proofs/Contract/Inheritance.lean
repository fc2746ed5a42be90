import PropStories.Proofs.Contract.Forms
import PropStories.Proofs.Tsx.Reading
import PropStories.Proofs.Tsx.Substitution

/-!
# Which property of a name counts

Overloads, bases and intersections may give several properties of one name. Main statement: of one
name the first property counts, so names are distinct at every depth of whatever a file has to say
about its types; and nothing else is lost or moved, whether or not bases lead back to where they
started.
-/

namespace PropStories

open Tsx

/-! ## Distinct names at every depth -/

def TypeForm.IsDistinct (f : TypeForm) : Prop := ∀ ps, f = .object ps → DistinctNames ps

theorem TypeForm.isDistinct_object {ps : List Property} :
    (TypeForm.object ps).IsDistinct ↔ DistinctNames ps :=
  ⟨fun h => h ps rfl, fun h _ eq => TypeForm.object.inj eq ▸ h⟩

theorem merges_isDistinct : Merges TypeForm.IsDistinct where
  empty := TypeForm.isDistinct_object.2 .nil
  merge hf _ :=
    TypeForm.isDistinct_object.2 (Property.distinct_merge (TypeForm.isDistinct_object.1 hf) _)

/-- Every tree is lowered to distinct names, whatever faults it has. -/
theorem Lower.lowers_distinct (x : Syntax) : Lowers x (fun _ => True) TypeForm.IsDistinct where
  toMerges := merges_isDistinct
  child _ _ := trivial
  form _ := fun _ => distinct_of_form
  members _ := TypeForm.isDistinct_object.2 (distinct_members x _)
  other := nofun
  function := nofun
  any := nofun

/-! ## What a file says about types -/

/-- The types that the analysis of a file hands out, or that can be asked about by name. -/
inductive Handle (x : Syntax) : TypeRef → Prop
  | name (n : String) : Handle x (.ofName n)
  | node (t : Tree) : Handle x (Lower.type x t)
  | accepted {c : Contract} {p : Property} (contract : c ∈ (Analysis.ofSyntax x).contracts)
      (property : p ∈ c.properties) : Handle x p.type
  | part {t u : TypeRef} (outer : Handle x t) (inner : u ∈ t.form.parts) : Handle x u
  | element {t e : TypeRef} (array : Handle x t)
      (shape : x.declarations.classify t = .array (some e)) :
      Handle x e
  | property {t : TypeRef} {ps : List Property} {p : Property} (object : Handle x t)
      (shape : x.declarations.classify t = .object ps) (property : p ∈ ps) : Handle x p.type

variable {x : Syntax} {t : TypeRef}

theorem FileItem.ofFile_distinct (x : Syntax) : ∀ i ∈ ofFile x, i.All TypeForm.IsDistinct :=
  ofFile_all (Lower.lowers_distinct x) trivial

theorem declarations_distinct (x : Syntax) : x.declarations.All TypeForm.IsDistinct :=
  FileItem.declarations_all (FileItem.ofFile_distinct x)

theorem contracts_distinct (x : Syntax) : ∀ c ∈ (Analysis.ofSyntax x).contracts,
    AllProperties TypeForm.IsDistinct c.properties :=
  Analysis.ofItems_all merges_isDistinct (fun _ => nofun) (FileItem.ofFile_distinct x)

theorem Handle.distinct (h : Handle x t) : t.All TypeForm.IsDistinct := by
  have shape {t : TypeRef} (ih : t.All TypeForm.IsDistinct) :=
    Declarations.classify_all merges_isDistinct (declarations_distinct x) ih
  -- Each way to come by a type starts from a tree of the file or takes a part of a shape.
  induction h with
  | name n => exact .of_plain nofun rfl _
  | node t => exact Lower.type_all (Lower.lowers_distinct x) trivial
  | accepted contract property => exact (contracts_distinct x _ contract).types _ property
  | part _ inner ih => exact ih.part inner
  | element _ eq ih =>
      have array := shape ih
      rw [eq] at array
      exact array
  | property _ eq member ih =>
      have object := shape ih
      rw [eq] at object
      exact object.types _ member

/-! ## Inherited properties -/

namespace Declarations

/-- The properties that a base or a member gives: those of its shape, if that is an object. -/
def given (ds : Declarations) (steps : Nat) (t : TypeRef) : List Property :=
  (propertiesOf? (classifyWithin ds steps t)).getD []

theorem flatten_given (ds : Declarations) (steps : Nat) (ts : List TypeRef) :
    (ts.filterMap fun t => propertiesOf? (classifyWithin ds steps t)).flatten =
      ts.flatMap (ds.given steps) := by
  induction ts with
  | nil => rfl
  | cons t ts ih =>
      rw [List.filterMap_cons, List.flatMap_cons, ← ih, given]
      split
      all_goals
        rename_i h
        rw [h]
        rfl

theorem classifyWithin_interface {ds : Declarations} {name : String}
    {arguments bases : List TypeRef} {own : List Property} (form : t.form = .named name arguments)
    (plain : wellKnown (unqualified name) arguments = .none)
    (declared : ds.lookup name = some (.interface own bases)) (distinct : DistinctNames own)
    (steps : Nat) :
    classifyWithin ds (steps + 1) t =
      .object (Property.firstOfEachName (own ++ bases.flatMap (ds.given steps))) := by
  simp only [classifyWithin, form, plain, declared]
  rw [Property.foldl_merge, flatten_given, Property.merge_eq distinct]

theorem classifyWithin_intersection {ds : Declarations} {members : List TypeRef}
    (form : t.form = .intersection members) (steps : Nat) :
    classifyWithin ds (steps + 1) t =
      if ∃ m ∈ members, (propertiesOf? (classifyWithin ds steps m)).isSome then
        .object (Property.firstOfEachName (members.flatMap (ds.given steps)))
      else .unknown := by
  simp only [classifyWithin, form, intersectionShape]
  rw [← flatten_given]
  have shapes : (members.map (classifyWithin ds steps)).filterMap propertiesOf? =
      members.filterMap fun t => propertiesOf? (classifyWithin ds steps t) :=
    List.filterMap_map ..
  rw [shapes]
  split
  · rename_i none
    rw [List.filterMap_eq_nil_iff] at none
    rw [if_neg]
    rintro ⟨m, hm, some_⟩
    rw [none m hm] at some_
    cases some_
  · rename_i some_
    rw [Property.foldl_merge, Property.merge_eq .nil, List.nil_append, if_pos]
    obtain ⟨ps, hp⟩ := List.exists_mem_of_ne_nil _ some_
    obtain ⟨m, hm, shape⟩ := List.mem_filterMap.1 hp
    exact ⟨m, hm, Option.isSome_of_eq_some shape⟩

end Declarations

/-! ## The statement -/

namespace FileItem

def own (x : Syntax) (t : Tree) : List Property :=
  ((t.child? .body).map (Lower.listed x)).getD []

def bases (x : Syntax) (t : Tree) : List TypeRef :=
  ((t.namedChildren.filter (·.kind == .extendsClause)).flatMap Tree.parts).map (Lower.type x)

theorem interface?_eq (x : Syntax) (t : Tree) :
    interface? x t = (t.child? .name).map fun name =>
      (x.stringOf name, .interface (Property.firstOfEachName (own x t)) (bases x t)) := by
  rw [interface?, own]
  cases t.child? .body with
  | none => rfl
  | some body =>
      simp only [Option.map_some, Option.getD_some, Lower.members_eq]
      rfl

end FileItem

open Declarations in
/-- Of one name the first property counts. In a file with or without faults, names are distinct in
every object type, every shape of an object and every contract. An interface has its own properties
and then those of its bases, an intersection those of its members, in order and without later
duplicates, where a type that is no object within the steps that are left gives nothing. This holds
of every declared interface whose name is not well-known. -/
theorem first_property_counts (x : Syntax) :
    (∀ t, Handle x t → (∀ ps, t.form = .object ps → DistinctNames ps) ∧
      ∀ ps, x.declarations.classify t = .object ps → DistinctNames ps) ∧
    (∀ c ∈ (Analysis.ofSyntax x).contracts, DistinctNames c.properties) ∧
    (∀ node name d, FileItem.interface? x node = some (name, d) →
      x.declarations.lookup name = some d →
      ∀ t arguments, t.form = .named name arguments →
        wellKnown (unqualified name) arguments = .none →
        ∀ steps, classifyWithin x.declarations (steps + 1) t = .object (Property.firstOfEachName
          (FileItem.own x node ++ (FileItem.bases x node).flatMap (x.declarations.given steps)))) ∧
    ∀ t members, t.form = .intersection members →
      ∀ steps, classifyWithin x.declarations (steps + 1) t =
        if ∃ m ∈ members, (propertiesOf? (classifyWithin x.declarations steps m)).isSome then
          .object (Property.firstOfEachName (members.flatMap (x.declarations.given steps)))
        else .unknown := by
  refine ⟨fun t h => ⟨h.distinct.form, fun ps shape => ?_⟩, fun c hc => ?_, ?_, ?_⟩
  · have object := classify_all merges_isDistinct (declarations_distinct x) h.distinct
    rw [shape] at object
    exact TypeForm.isDistinct_object.1 object.here
  · exact TypeForm.isDistinct_object.1 (contracts_distinct x c hc).here
  · intro node name d found declared t arguments form plain steps
    rw [FileItem.interface?_eq] at found
    obtain ⟨_, -, eq⟩ := Option.map_eq_some_iff.1 found
    obtain ⟨-, rfl⟩ := Prod.mk.inj eq
    rw [classifyWithin_interface form plain declared (Property.distinct_firstOfEachName _),
      Property.firstOfEachName_append]
  · exact fun t members form => classifyWithin_intersection form

/-! ## Two interfaces that are bases of each other -/

def loopFirst : Tree :=
  .node .interfaceDeclaration none 0 26
    [.node (.token "interface") none 0 9 [],
      .node .typeIdentifier (some .name) 10 11 [],
      .node .extendsClause none 12 21
        [.node (.token "extends") none 12 19 [], .node .typeIdentifier none 20 21 []],
      .node .interfaceBody (some .body) 21 26
        [.node (.token "\x7b") none 21 22 [],
          .node .propertySignature none 22 23 [.node .propertyIdentifier (some .name) 22 23 []],
          .node (.token ";") none 23 24 [],
          .node .propertySignature none 24 25 [.node .propertyIdentifier (some .name) 24 25 []],
          .node (.token "\x7d") none 25 26 []]]

def loopSecond : Tree :=
  .node .interfaceDeclaration none 26 55
    [.node (.token "interface") none 26 35 [],
      .node .typeIdentifier (some .name) 36 37 [],
      .node .extendsClause none 38 47
        [.node (.token "extends") none 38 45 [], .node .typeIdentifier none 46 47 []],
      .node .interfaceBody (some .body) 47 55
        [.node (.token "\x7b") none 47 48 [],
          .node .propertySignature none 48 50
            [.node .propertyIdentifier (some .name) 48 49 [], .node (.token "?") none 49 50 []],
          .node (.token ";") none 50 51 [],
          .node .propertySignature none 51 52 [.node .propertyIdentifier (some .name) 51 52 []],
          .node (.token ";") none 52 53 [],
          .node .propertySignature none 53 54 [.node .propertyIdentifier (some .name) 53 54 []],
          .node (.token "\x7d") none 54 55 []]]

def loopSyntax : Syntax where
  source := "interface A extends B\x7ba;b\x7dinterface B extends A\x7bb?;c;b\x7d".toList
  root := .node .program none 0 55 [loopFirst, loopSecond]

def anyProperty (name : String) (isOptional : Bool) : Property :=
  .mk name Lower.anyType isOptional none

theorem bases_loopFirst : FileItem.bases loopSyntax loopFirst = [.ofName "B"] := by
  have base : Lower.type loopSyntax (.node .typeIdentifier none 20 21 []) = .ofName "B" := by
    rw [Lower.type_of_plain (by decide), Lower.form]
    rfl
  rw [← base]
  rfl

theorem bases_loopSecond : FileItem.bases loopSyntax loopSecond = [.ofName "A"] := by
  have base : Lower.type loopSyntax (.node .typeIdentifier none 46 47 []) = .ofName "A" := by
    rw [Lower.type_of_plain (by decide), Lower.form]
    rfl
  rw [← base]
  rfl

theorem interface_loopFirst : FileItem.interface? loopSyntax loopFirst =
    some ("A", .interface [anyProperty "a" false, anyProperty "b" false] [.ofName "B"]) := by
  rw [FileItem.interface?_eq, bases_loopFirst]
  rfl

theorem interface_loopSecond : FileItem.interface? loopSyntax loopSecond =
    some ("B", .interface [anyProperty "b" true, anyProperty "c" false] [.ofName "A"]) := by
  rw [FileItem.interface?_eq, bases_loopSecond]
  rfl

theorem declarations_loopSyntax : loopSyntax.declarations =
    [("B", .interface [anyProperty "b" true, anyProperty "c" false] [.ofName "A"]),
      ("A", .interface [anyProperty "a" false, anyProperty "b" false] [.ofName "B"])] := by
  have items : FileItem.ofFile loopSyntax = [loopFirst, loopSecond].flatMap fun t =>
      ((FileItem.interface? loopSyntax t).map fun i => .type i.1 i.2 false).toList := rfl
  rw [Syntax.declarations, items]
  simp only [List.flatMap_cons, interface_loopFirst, interface_loopSecond]
  rfl

theorem first_property_counts_of_loop :
    let ps := [anyProperty "a" false, anyProperty "b" false, anyProperty "c" false]
    parse loopSyntax.source = loopSyntax ∧
      loopSyntax.declarations.classify (.ofName "A") = .object ps ∧ DistinctNames ps ∧
      loopSyntax.declarations.classify (.mk (.intersection [.ofName "B", .ofName "A"]) "B & A") =
        .object [anyProperty "b" true, anyProperty "c" false, anyProperty "a" false] := by
  intro ps
  obtain ⟨handles, -, interfaces, intersections⟩ := first_property_counts loopSyntax
  have lookup : loopSyntax.declarations.lookup "A" = some (.interface
      [anyProperty "a" false, anyProperty "b" false] [.ofName "B"]) := by
    rw [declarations_loopSyntax]
    rfl
  have shape : loopSyntax.declarations.classify (.ofName "A") = .object ps := by
    rw [Declarations.classify, interfaces loopFirst "A" _ interface_loopFirst lookup _ [] rfl rfl,
      bases_loopFirst, declarations_loopSyntax]
    rfl
  refine ⟨parse_eq (by decide +kernel), shape, (handles _ (.name "A")).2 _ shape, ?_⟩
  rw [Declarations.classify, intersections _ [.ofName "B", .ofName "A"] rfl,
    declarations_loopSyntax, if_pos ⟨_, List.mem_cons_self, rfl⟩]
  rfl

end PropStories
