import PropStories.Proofs.Contract.Forms
import PropStories.Proofs.Contract.Resolution
import PropStories.Proofs.Tsx.Reading
import PropStories.Proofs.Tsx.Substitution
import PropStories.Proofs.Tsx.Views

/-!
# Object types and interfaces with one body

A body can be declared as an interface or as an alias of an object type. Lowering depends only on
what nodes show, so two bodies with the same members, whatever comments stand between them, give
the same properties. Main statement: the two ways to declare a body agree on its shape unless the
alias takes it for a function, which it does if the body has calls or comments in it and nothing
else.
-/

namespace PropStories

open Tsx Syntax

/-! ## Lowering of nodes that show the same -/

namespace Lower

variable {x y : Syntax} {t u : Tree}

theorem shown_of_view (same : x.view t = y.view u) : shown x t = shown y u := by
  rw [shown, stringOf_eq_of_view same, shown]

theorem literalForm_of_view (same : x.view t = y.view u) : literalForm x t = literalForm y u := by
  rw [literalForm, literalForm, kind_eq_of_view same, stringOf_eq_of_view same]

theorem isCallable_of_view (same : x.view t = y.view u) : isCallable t = isCallable u := by
  have callable (x : Syntax) (t : Tree) : isCallable t =
      (!(x.view t).namedChildren.isEmpty && (x.view t).parts.all (·.kind == .callSignature)) := by
    rw [isCallable, namedChildren_view, parts_view, List.isEmpty_map, List.all_map]
    simp only [Function.comp_def, kind_view]
  rw [callable x, callable y, same]

theorem operands_of_view (k : Kind) (same : x.view t = y.view u) :
    (operands k t).map x.view = (operands k u).map y.view := by
  induction size : sizeOf t using Nat.strongRecOn generalizing t u with
  | ind n ih =>
      rw [operands_eq, operands_eq, List.map_flatMap, List.map_flatMap, List.flatMap_def,
        List.flatMap_def]
      refine congrArg _ (map_eq_of_map_eq (parts_of_view same) fun c hc d shown => ?_)
      rw [kind_eq_of_view shown]
      split
      · exact ih _ (size ▸ Tree.sizeOf_lt_of_mem_parts hc) shown rfl
      · simp only [List.map_cons, shown, List.map_nil]

theorem methodType_of_view (same : x.view t = y.view u) : methodType x t = methodType y u := by
  rw [methodType, methodType,
    option_map_eq_of_view (child?_of_view same .parameters) fun _ _ _ => stringOf_eq_of_view,
    option_map_eq_of_view (childPart?_of_view same .returnType) fun _ _ _ => stringOf_eq_of_view]

theorem documented_of_view {ts us : List Tree} (same : ts.map x.view = us.map y.view)
    (pending : Option String) :
    (documented x pending ts).map (fun m => (x.view m.1, m.2)) =
      (documented y pending us).map fun m => (y.view m.1, m.2) := by
  induction ts generalizing us pending with
  | nil =>
      obtain rfl := List.map_eq_nil_iff.1 same.symm
      rfl
  | cons t ts ih =>
      obtain ⟨u, us, rfl, first, rest⟩ := List.map_eq_cons_iff.1 same.symm
      rw [documented, documented, kind_eq_of_view first, textOf_eq_of_view first]
      split
      · exact ih rest.symm _
      · rw [List.map_cons, List.map_cons, first, ih rest.symm]

section

-- What is known of smaller nodes when a node is compared.
variable (smaller : ∀ c, sizeOf c < sizeOf t → ∀ d, x.view c = y.view d → type x c = type y d)
  (same : x.view t = y.view u)

include smaller same

theorem property?_of_smaller (comment : Option String) :
    property? x (t, comment) = property? y (u, comment) := by
  have ascribed : ((t.child? .type).bind Tree.firstPart?).map (type x) =
      ((u.child? .type).bind Tree.firstPart?).map (type y) := by
    refine option_map_eq_of_view (childPart?_of_view same .type) fun c hc d => smaller c ?_ d
    obtain ⟨ascription, hl, first⟩ := Option.bind_eq_some_iff.1 hc
    exact Nat.lt_trans (Tree.sizeOf_lt_of_firstPart? first) (Tree.sizeOf_lt_of_child? hl)
  have declared : memberType? x t = memberType? y u := by
    rw [memberType?, memberType?, kind_eq_of_view same, ascribed, methodType_of_view same]
  rw [property?, property?, declared, hasToken_of_view same,
    option_map_eq_of_view (child?_of_view same .name) fun _ _ _ => keyName_eq_of_view]

theorem members_of_smaller : members x t = members y u := by
  rw [members_eq, members_eq, listed, listed]
  refine congrArg _
    (filterMap_eq_of_map_eq (documented_of_view (namedChildren_of_view same) none) ?_)
  rintro ⟨m, comment⟩ hm ⟨m', comment'⟩ eq
  obtain ⟨shown, rfl⟩ := Prod.mk.inj eq
  have member := Tree.sizeOf_lt_of_mem_children
    (Tree.mem_children_of_mem_namedChildren (mem_of_mem_documented hm))
  exact property?_of_smaller (fun c hc => smaller c (Nat.lt_trans hc member)) shown comment

theorem form_of_smaller : form x t = form y u := by
  have kinds := kind_eq_of_view same
  have operand (k : Kind) : (operands k t).map (type x) = (operands k u).map (type y) :=
    map_eq_of_map_eq (operands_of_view k same) fun c hc => smaller c (sizeOf_lt_of_mem_operands hc)
  cases kind : t.kind
  case literalType =>
    rw [form_of_literal kind, form_of_literal (kinds ▸ kind), stringOf_eq_of_view same,
      option_map_eq_of_view (firstPart?_of_view same) fun _ _ _ => literalForm_of_view]
  case genericType =>
    rw [form_of_generic kind, form_of_generic (kinds ▸ kind),
      option_map_eq_of_view (child?_of_view same .name) fun _ _ _ => stringOf_eq_of_view,
      option_map_eq_of_view (child?_of_view same .typeArguments) fun a ha b shown =>
        map_eq_of_map_eq (parts_of_view shown) fun c hc => smaller c
          (Nat.lt_trans (Tree.sizeOf_lt_of_mem_parts hc) (Tree.sizeOf_lt_of_child? ha))]
  case arrayType =>
    rw [form_of_array kind, form_of_array (kinds ▸ kind),
      option_map_eq_of_view (firstPart?_of_view same) fun c hc d shown =>
        congrArg TypeForm.array (smaller c (Tree.sizeOf_lt_of_firstPart? hc) d shown)]
  case unionType => rw [form_of_union kind, form_of_union (kinds ▸ kind), operand]
  case intersectionType =>
    rw [form_of_intersection kind, form_of_intersection (kinds ▸ kind), operand]
  case objectType =>
    rw [form_of_object kind, form_of_object (kinds ▸ kind), isCallable_of_view same,
      members_of_smaller smaller same]
  all_goals
    rw [form, form, ← kinds]
    simp only [kind, stringOf_eq_of_view same]

end

theorem type_of_view (same : x.view t = y.view u) : type x t = type y u := by
  -- On the size of one of the trees; the other goes down with it.
  induction size : sizeOf t using Nat.strongRecOn generalizing t u with
  | ind n ih =>
      have smaller (c : Tree) (hc : sizeOf c < sizeOf t) (d : Tree) (shown : x.view c = y.view d) :
          type x c = type y d := ih _ (size ▸ hc) shown rfl
      have kinds := kind_eq_of_view same
      by_cases kind : t.kind = .parenthesizedType ∨ t.kind = .readonlyType
      · rw [type_of_parenthesized kind, type_of_parenthesized (kinds ▸ kind), shown_of_view same,
          option_map_eq_of_view (firstPart?_of_view same) fun c hc =>
            smaller c (Tree.sizeOf_lt_of_firstPart? hc)]
      · rw [not_or] at kind
        rw [type_of_plain kind, type_of_plain (kinds ▸ kind), form_of_smaller smaller same,
          shown_of_view same]

end Lower

/-! ## Properties without comments -/

def Property.uncommented (p : Property) : Property := .mk p.name p.type p.isOptional none

def Shape.uncommented : Shape → Shape
  | .object ps => .object (ps.map Property.uncommented)
  | s => s

namespace Lower

variable {x y : Syntax} {b b' : Tree}

theorem documented_fst (x : Syntax) (pending : Option String) (ts : List Tree) :
    (documented x pending ts).map Prod.fst = ts.filter (·.kind != .comment) := by
  induction ts generalizing pending with
  | nil => rfl
  | cons t ts ih =>
      rw [documented]
      split
      · rename_i comment
        rw [ih, List.filter_cons_of_neg (by simpa using comment)]
      · rename_i other
        rw [List.map_cons, ih, List.filter_cons_of_pos (by simpa using other)]

theorem uncommented_property? (m : Tree × Option String) :
    (property? x m).map Property.uncommented = property? x (m.1, none) := by
  unfold property?
  cases (m.1.child? .name).map x.keyName with
  | none => rfl
  | some name =>
      cases memberType? x m.1 with
      | none => rfl
      | some t => rfl

/-- Apart from comments, the properties of a body are those that its parts declare. -/
theorem uncommented_members (x : Syntax) (b : Tree) :
    (members x b).map Property.uncommented =
      Property.firstOfEachName (b.parts.filterMap fun m => property? x (m, none)) := by
  rw [members_eq, ← @Property.firstOfEachName_map Property.uncommented fun _ => rfl, listed,
    List.map_filterMap, Tree.parts, ← documented_fst x none, List.filterMap_map]
  exact congrArg (fun f => Property.firstOfEachName (List.filterMap f _))
    (funext uncommented_property?)

theorem uncommented_members_of_view (same : b.parts.map x.view = b'.parts.map y.view) :
    (members x b).map Property.uncommented = (members y b').map Property.uncommented := by
  rw [uncommented_members, uncommented_members]
  exact congrArg _ (filterMap_eq_of_map_eq same fun m _ m' shown =>
    property?_of_smaller (fun _ _ _ => type_of_view) shown none)

end Lower

/-! ## Declared bodies -/

inductive Way where
  | interface | aliased

/-- The name stands for the body: that of an interface without bases, or that of an alias. -/
inductive DeclaresBody (x : Syntax) (name : String) : Way → Tree → Prop
  | interface {t b : Tree} {d : Declaration} (found : FileItem.interface? x t = some (name, d))
      (latest : x.declarations.lookup name = some d) (body : t.child? .body = some b)
      (alone : ∀ c ∈ t.namedChildren, c.kind ≠ .extendsClause) : DeclaresBody x name .interface b
  | aliased {t b : Tree} {d : Declaration} (found : FileItem.aliased? x t = some (name, d))
      (latest : x.declarations.lookup name = some d) (value : t.child? .value = some b)
      (object : b.kind = .objectType) : DeclaresBody x name .aliased b

def Way.isFunction : Way → Tree → Bool
  | .interface, _ => false
  | .aliased, b => Lower.isCallable b

open Declarations in
theorem DeclaresBody.classify {x : Syntax} {name : String} {way : Way} {b : Tree}
    (h : DeclaresBody x name way b) (plain : wellKnown (unqualified name) [] = .none) :
    x.declarations.classify (.ofName name) =
      if way.isFunction b then .function else .object (Lower.members x b) := by
  cases h with
  | @interface t _ _ found latest body alone =>
      have bases : t.namedChildren.filter (·.kind == .extendsClause) = [] :=
        List.filter_eq_nil_iff.2 fun c hc => by simpa using alone c hc
      rw [FileItem.interface?, body, bases] at found
      obtain ⟨_, -, eq⟩ := Option.map_eq_some_iff.1 found
      obtain ⟨-, rfl⟩ := Prod.mk.inj eq
      rw [Declarations.classify, classifyWithin]
      simp only [TypeRef.ofName, TypeRef.form, plain, latest]
      rfl
  | aliased found latest value object =>
      simp only [FileItem.aliased?, Option.bind_eq_bind, Option.bind_eq_some_iff] at found
      obtain ⟨_, -, u, hu, eq⟩ := found
      obtain ⟨-, rfl⟩ := Prod.mk.inj (Option.some.inj eq)
      obtain rfl := Option.some.inj (value.symm.trans hu)
      rw [Declarations.classify, classifyWithin_alias rfl plain latest,
        Lower.type_of_plain (by simp [object]), Lower.form_of_object object, Way.isFunction]
      cases Lower.isCallable b <;> rfl

open Declarations in
theorem classify_wellKnown {name : String} (known : wellKnown (unqualified name) [] ≠ .none)
    (ds ds' : Declarations) : ds.classify (.ofName name) = ds'.classify (.ofName name) := by
  rw [classify, classify, classifyWithin, classifyWithin]
  simp only [TypeRef.ofName, TypeRef.form]
  cases what : wellKnown (unqualified name) [] with
  | shape s => rfl
  | first => rfl
  | none => exact absurd what known

theorem Lower.isCallable_of_parts {x y : Syntax} {b b' : Tree}
    (same : b.parts.map x.view = b'.parts.map y.view) (member : b.parts ≠ []) :
    isCallable b = isCallable b' := by
  have named {t : Tree} (h : t.parts ≠ []) : t.namedChildren.isEmpty = false := by
    rw [List.isEmpty_eq_false_iff]
    exact fun none => h (by rw [Tree.parts, none, List.filter_nil])
  have member' : b'.parts ≠ [] := by
    rintro none
    rw [none, List.map_nil, List.map_eq_nil_iff] at same
    exact member same
  have kinds : b.parts.map (·.kind == .callSignature) = b'.parts.map (·.kind == .callSignature) :=
    map_eq_of_map_eq same fun _ _ _ shown => by rw [kind_eq_of_view shown]
  have calls (t : Tree) : t.parts.all (·.kind == .callSignature) =
      (t.parts.map (·.kind == .callSignature)).all id := by
    rw [List.all_map]
    rfl
  rw [isCallable, isCallable, named member, named member', calls, calls, kinds]

open Declarations in
/-- Two declarations of one name by bodies with the same members, each as an interface or as an
alias and with whatever comments, agree on its shape just if the name is well-known or both bodies
or neither are taken for functions. Where they are not, the shape is an object with the properties
of the body; and what an alias is taken for depends on the members alone as soon as there is one. -/
theorem bodies_agree {x y : Syntax} {name : String} {way way' : Way} {b b' : Tree}
    (h : DeclaresBody x name way b) (h' : DeclaresBody y name way' b')
    (same : b.parts.map x.view = b'.parts.map y.view) :
    ((x.declarations.classify (.ofName name)).uncommented =
        (y.declarations.classify (.ofName name)).uncommented ↔
      wellKnown (unqualified name) [] ≠ .none ∨ way.isFunction b = way'.isFunction b') ∧
    (wellKnown (unqualified name) [] = .none → x.declarations.classify (.ofName name) =
      if way.isFunction b then .function else .object (Lower.members x b)) ∧
    (b.parts ≠ [] → Lower.isCallable b = Lower.isCallable b') := by
  refine ⟨?_, h.classify, Lower.isCallable_of_parts same⟩
  by_cases plain : wellKnown (unqualified name) [] = .none
  -- The declarations count: two functions, or two objects with the same parts, or one of each.
  · rw [h.classify plain, h'.classify plain, or_iff_right fun known => known plain]
    cases way.isFunction b <;> cases way'.isFunction b'
    · exact iff_of_true (congrArg Shape.object (Lower.uncommented_members_of_view same)) rfl
    · exact iff_of_false nofun nofun
    · exact iff_of_false nofun nofun
    · exact iff_of_true rfl rfl
  · exact iff_of_true (congrArg _ (classify_wellKnown plain _ _)) (.inl plain)

/-! ## One body in two files -/

def interfaceBody : Tree :=
  .node .interfaceBody (some .body) 11 24
    [.node (.token "\x7b") none 11 12 [],
      .node .propertySignature none 12 13 [.node .propertyIdentifier (some .name) 12 13 []],
      .node (.token ";") none 13 14 [],
      .node .comment none 14 21 [],
      .node .propertySignature none 21 23
        [.node .propertyIdentifier (some .name) 21 22 [], .node (.token "?") none 22 23 []],
      .node (.token "\x7d") none 23 24 []]

def interfaceNode : Tree :=
  .node .interfaceDeclaration none 0 24
    [.node (.token "interface") none 0 9 [], .node .typeIdentifier (some .name) 10 11 [],
      interfaceBody]

def interfaceSyntax : Syntax where
  source := "interface I\x7ba;/* b */b?\x7d".toList
  root := .node .program none 0 24 [interfaceNode]

def aliasBody : Tree :=
  .node .objectType (some .value) 7 13
    [.node (.token "\x7b") none 7 8 [],
      .node .propertySignature none 8 9 [.node .propertyIdentifier (some .name) 8 9 []],
      .node (.token ";") none 9 10 [],
      .node .propertySignature none 10 12
        [.node .propertyIdentifier (some .name) 10 11 [], .node (.token "?") none 11 12 []],
      .node (.token "\x7d") none 12 13 []]

def aliasNode : Tree :=
  .node .typeAliasDeclaration none 0 13
    [.node (.token "type") none 0 4 [], .node .typeIdentifier (some .name) 5 6 [],
      .node (.token "=") none 6 7 [], aliasBody]

def aliasSyntax : Syntax where
  source := "type I=\x7ba;b?\x7d".toList
  root := .node .program none 0 13 [aliasNode]

theorem bodies_agree_of_commented :
    parse interfaceSyntax.source = interfaceSyntax ∧ parse aliasSyntax.source = aliasSyntax ∧
      interfaceSyntax.declarations.classify (.ofName "I") =
        .object [.mk "a" Lower.anyType false none, .mk "b" Lower.anyType true none] ∧
      (aliasSyntax.declarations.classify (.ofName "I")).uncommented =
        .object [.mk "a" Lower.anyType false none, .mk "b" Lower.anyType true none] := by
  have declared : DeclaresBody interfaceSyntax "I" .interface interfaceBody :=
    @DeclaresBody.interface _ _ interfaceNode _ _ rfl rfl rfl (by decide)
  have aliased : DeclaresBody aliasSyntax "I" .aliased aliasBody :=
    @DeclaresBody.aliased _ _ aliasNode _ _ rfl rfl rfl rfl
  obtain ⟨agree, shape, -⟩ := bodies_agree declared aliased rfl
  have object : interfaceSyntax.declarations.classify (.ofName "I") =
      .object [.mk "a" Lower.anyType false none, .mk "b" Lower.anyType true none] := by
    rw [shape rfl, Lower.members_eq]
    rfl
  refine ⟨parse_eq (by decide +kernel), parse_eq (by decide +kernel), object, ?_⟩
  rw [← agree.2 (.inr rfl), object]
  rfl

end PropStories
