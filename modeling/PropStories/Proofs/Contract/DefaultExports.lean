import Mathlib.Data.List.Basic
import PropStories.Proofs.Contract.Statements

/-!
# Default exports

The default export of a file comes first among its components. It can be an expression, or a
variable that is declared with the expression as its value. Main statement: where nothing else is
exported as default, both give the same first contract for a function, but a wrapped component
counts only as the value of a variable.
-/

namespace PropStories

open Tsx Syntax

namespace FileItem

/-! ## The items of a default export among others -/

def ofVariable (name : String) (r? : Option TypeRef) : List FileItem :=
  (r?.map fun r => component name r false false).toList ++ [defaultName name]

def ofFunction (r? : Option TypeRef) : List FileItem := (r?.map defaultFunction).toList

structure NoDefault (items : List FileItem) : Prop where
  names : items.filterMap defaultName? = []
  functions : items.filterMap defaultFunction? = []

variable {before own after : List FileItem} {name : String} {r? : Option TypeRef}

theorem filterMap_around {α : Type} {f : FileItem → Option α} (none : own.filterMap f = []) :
    (before ++ own ++ after).filterMap f = (before ++ after).filterMap f := by
  rw [List.filterMap_append, List.filterMap_append, none, List.append_nil, List.filterMap_append]

theorem filterMap_between {α : Type} {f : FileItem → Option α}
    (none : (before ++ after).filterMap f = []) :
    (before ++ own ++ after).filterMap f = own.filterMap f := by
  rw [List.filterMap_append, List.append_eq_nil_iff] at none
  rw [List.filterMap_append, List.filterMap_append, none.1, none.2, List.nil_append,
    List.append_nil]

section

variable {α : Type} {f : FileItem → Option α}

theorem filterMap_ofFunction :
    (ofFunction r?).filterMap f = (r?.bind fun r => f (defaultFunction r)).toList := by
  cases r? with
  | none => rfl
  | some r => cases h : f (defaultFunction r) <;> simp [ofFunction, h]

theorem filterMap_ofFunction_eq_nil (none : ∀ r, f (defaultFunction r) = none) :
    (ofFunction r?).filterMap f = [] := by
  simp only [filterMap_ofFunction, none, Option.bind_fun_none, Option.toList_none]

theorem filterMap_ofVariable : (ofVariable name r?).filterMap f =
    (r?.bind fun r => f (component name r false false)).toList ++
      (f (defaultName name)).toList := by
  rw [ofVariable, List.filterMap_append]
  cases r? with
  | none => cases h : f (defaultName name) <;> simp [h]
  | some r =>
      cases h : f (component name r false false) <;> cases h' : f (defaultName name) <;>
        simp [h, h']

theorem filterMap_ofVariable_eq_nil (none : ∀ r, f (component name r false false) = none)
    (none' : f (defaultName name) = Option.none) : (ofVariable name r?).filterMap f = [] := by
  simp only [filterMap_ofVariable, none, none', Option.bind_fun_none, Option.toList_none,
    List.append_nil]

end

theorem contractNames_around (none : own.filterMap contractName? = []) :
    contractNames (before ++ own ++ after) = contractNames (before ++ after) :=
  filterMap_around none

theorem declarations_around (none : own.filterMap declaration? = []) :
    declarations (before ++ own ++ after) = declarations (before ++ after) :=
  congrArg List.reverse (filterMap_around none)

section

variable (alone : NoDefault (before ++ after))

include alone

/-- Without a default export, the components are those that are exported by name. -/
theorem componentTypes_alone : componentTypes (before ++ after) =
    (exportedComponents (before ++ after)).eraseDups.filterMap fun n =>
      ((components (before ++ after)).lookup n).map (n, ·) := by
  rw [componentTypes_eq, alone.functions, defaultExport?_eq, alone.names]
  rfl

theorem componentTypes_function : componentTypes (before ++ ofFunction r? ++ after) =
    (r?.map ("default", ·)).toList ++ componentTypes (before ++ after) := by
  have none {α : Type} {f : FileItem → Option α} (h : ∀ r, f (defaultFunction r) = none) :
      (before ++ ofFunction r? ++ after).filterMap f = (before ++ after).filterMap f :=
    filterMap_around (filterMap_ofFunction_eq_nil h)
  rw [componentTypes_alone alone, componentTypes_eq, filterMap_between alone.functions,
    defaultExport?_eq, none fun _ => rfl, alone.names, exportedComponents_eq, none fun _ => rfl,
    components_eq, none fun _ => rfl, filterMap_ofFunction]
  cases r? <;> rfl

end

theorem not_mem_exportedComponents {items : List FileItem}
    (fresh : ∀ r, (name, r) ∉ components items) : name ∉ exportedComponents items := by
  intro exported
  obtain ⟨i, hi, found⟩ := List.mem_filterMap.1 (exportedComponents_eq items ▸ exported)
  cases i with
  | component n r e isDefault =>
      cases e with
      | false => cases found
      | true =>
          obtain rfl := Option.some.inj found
          exact fresh r (List.mem_reverse.2 (List.mem_filterMap.2 ⟨_, hi, rfl⟩))
  | _ => cases found

theorem lookup_ofVariable (fresh : ∀ r, (name, r) ∉ components (before ++ after))
    (r? : Option TypeRef) (n : String) :
    (components (before ++ ofVariable name r? ++ after)).lookup n =
      if n = name then r? else (components (before ++ after)).lookup n := by
  have own : (ofVariable name r?).filterMap component? = (r?.map (name, ·)).toList := by
    rw [filterMap_ofVariable]
    cases r? <;> rfl
  have rest : (components (before ++ after)).lookup name = none :=
    List.lookup_eq_none_iff.2 fun ⟨m, r⟩ hm => by
      rw [bne_iff_ne]
      rintro rfl
      exact fresh r hm
  rw [components_eq, List.filterMap_append, List.reverse_append, List.lookup_append,
    Option.or_eq_none_iff] at rest
  rw [components_eq, components_eq, List.filterMap_append, List.filterMap_append, own,
    List.filterMap_append]
  simp only [List.reverse_append, List.lookup_append]
  split
  next same =>
    rw [same, rest.1, rest.2]
    cases r? <;> simp
  next other =>
    cases r? <;> simp [List.lookup_cons, beq_false_of_ne other]

theorem componentTypes_variable (alone : NoDefault (before ++ after))
    (fresh : ∀ r, (name, r) ∉ components (before ++ after)) :
    componentTypes (before ++ ofVariable name r? ++ after) =
      (r?.map (name, ·)).toList ++ componentTypes (before ++ after) := by
  have functions : (ofVariable name r?).filterMap defaultFunction? = [] :=
    filterMap_ofVariable_eq_nil (fun _ => rfl) rfl
  have exported : (ofVariable name r?).filterMap exportedName? = [] :=
    filterMap_ofVariable_eq_nil (fun _ => rfl) rfl
  have default : (ofVariable name r?).filterMap defaultName? = [name] := by
    rw [filterMap_ofVariable]
    cases r? <;> rfl
  have missing := not_mem_exportedComponents fresh
  have others : (exportedComponents (before ++ after)).filter (fun n => !n == name) =
      exportedComponents (before ++ after) :=
    List.filter_eq_self.2 fun n hn => by
      rw [Bool.not_eq_true', beq_eq_false_iff_ne]
      rintro rfl
      exact missing hn
  rw [componentTypes_alone alone, componentTypes_eq, filterMap_around functions, alone.functions,
    defaultExport?_eq, filterMap_between alone.names, default, exportedComponents_eq,
    filterMap_around exported, ← exportedComponents_eq]
  have first := lookup_ofVariable fresh r? name
  rw [if_pos rfl] at first
  have rest : (exportedComponents (before ++ after)).eraseDups.filterMap (fun n =>
        ((components (before ++ ofVariable name r? ++ after)).lookup n).map (n, ·)) =
      (exportedComponents (before ++ after)).eraseDups.filterMap fun n =>
        ((components (before ++ after)).lookup n).map (n, ·) := by
    refine List.filterMap_congr fun n hn => ?_
    rw [lookup_ofVariable fresh, if_neg]
    rintro rfl
    exact missing (List.mem_eraseDups.1 hn)
  simp only [List.map_nil, List.reverse_nil, List.nil_append, List.getLast?_singleton,
    Option.toList_some, List.singleton_append, List.eraseDups_cons, others]
  rw [List.filterMap_cons, first, rest]
  cases r? <;> rfl

/-! ## The first contract -/

def firstProperties? (items : List FileItem) : Option (List Property) :=
  (Analysis.ofItems items).contracts.head?.map Contract.properties

theorem firstProperties?_declared {items : List FileItem} (some_ : contractNames items ≠ []) :
    firstProperties? items = (Analysis.declaredContracts items).head?.map Contract.properties := by
  have nonempty : (Analysis.declaredContracts items).isEmpty = false := by
    rw [List.isEmpty_eq_false_iff]
    exact fun none => some_ (List.map_eq_nil_iff.1 none)
  rw [firstProperties?, Analysis.ofItems]
  simp only [nonempty, Bool.false_eq_true, if_false]

theorem firstProperties?_parameters {items : List FileItem} (none : contractNames items = []) :
    firstProperties? items = (componentTypes items).findSome? fun c =>
      Declarations.propertiesOf? ((declarations items).classify c.2) := by
  have empty : (Analysis.declaredContracts items).isEmpty = true := by
    rw [Analysis.declaredContracts, none]
    rfl
  rw [firstProperties?, Analysis.ofItems]
  simp only [empty, if_true, Analysis.parameterContracts]
  rw [← List.head?_map, List.map_filterMap, List.head?_filterMap]
  refine congrArg (List.findSome? · _) (funext fun c => ?_)
  rw [Option.map_map]
  exact Option.map_id'

/-- A component in front of the others gives the first contract, if its properties are those of an
object and no type is exported as a contract. -/
theorem firstProperties?_leading {items rest : List FileItem} {label : String}
    (names : contractNames items = contractNames rest)
    (declared : declarations items = declarations rest)
    (types : componentTypes items = (r?.map (label, ·)).toList ++ componentTypes rest) :
    firstProperties? items =
      if contractNames rest = [] then
        (r?.bind fun r => Declarations.propertiesOf? ((declarations rest).classify r)).or
          (firstProperties? rest)
      else firstProperties? rest := by
  split
  next none =>
    rw [firstProperties?_parameters (names.trans none), firstProperties?_parameters none, types,
      declared, List.findSome?_append]
    cases r? <;> simp
  next some_ =>
    rw [firstProperties?_declared (names ▸ some_), firstProperties?_declared some_]
    simp only [Analysis.declaredContracts, names, declared]

end FileItem

/-! ## Two files that differ in their default export -/

structure IsDefaultExport (s e : Tree) : Prop where
  kind : s.kind = .exportStatement
  noDeclaration : s.child? .declaration = none
  value : s.child? .value = some e

structure IsVariable (x : Syntax) (s : Tree) (name : String) (e : Tree) : Prop where
  kind : s.kind = .lexicalDeclaration
  declarator : ∃ d, s.namedChildren.filter (·.kind == .variableDeclarator) = [d] ∧
    (d.child? .name).map x.stringOf = some name ∧ d.child? .type = none ∧
    d.child? .value = some e

/-- The file has the statements `before`, the default export of an expression, and then the
statements `after`. -/
def ExportsExpression (x : Syntax) (e : Tree) (before after : List View) : Prop :=
  ∃ s, x.root.namedChildren.map x.view = before ++ [x.view s] ++ after ∧ IsDefaultExport s e

def ExportsVariable (x : Syntax) (name : String) (e : Tree) (before after : List View) : Prop :=
  ∃ d s i, x.root.namedChildren.map x.view = before ++ [x.view d, x.view s] ++ after ∧
    IsVariable x d name e ∧ IsDefaultExport s i ∧ i.kind = .identifier ∧ x.stringOf i = name

def Tsx.Syntax.firstProperties? (x : Syntax) : Option (List Property) :=
  (Analysis.ofSyntax x).contracts.head?.map Contract.properties

namespace FileItem

open Component

variable {x z : Syntax} {s e : Tree} {before after : List View} {name : String}

theorem ofStatement_of_defaultExport (h : IsDefaultExport s e) :
    ofStatement x s = ofValue x e := by
  rw [ofStatement_of_export h.kind, h.noDeclaration, h.value]
  rfl

theorem ofValue_of_function (function : isFunction e.kind = true) :
    ofValue x e = ofFunction (expressionType? x e) := by
  have identifier : ¬ (e.kind == .identifier) = true := by
    intro h
    rw [eq_of_beq h] at function
    cases function
  rw [ofValue, if_neg identifier, if_pos function, expressionType?_of_function function, ofFunction]

theorem ofValue_of_other (identifier : e.kind ≠ .identifier)
    (function : isFunction e.kind = false) : ofValue x e = [] := by
  rw [ofValue, if_neg (by rwa [beq_iff_eq]), if_neg (by rw [function]; decide)]

theorem ofStatement_of_variable (h : IsVariable x s name e) : ofStatement x s =
    ((expressionType? x e).map fun r => component name r false false).toList := by
  obtain ⟨d, only, named, noType, value⟩ := h.declarator
  obtain ⟨n, found, rfl⟩ := Option.map_eq_some_iff.1 named
  have type : declaratorType? x d = expressionType? x e := by
    rw [declaratorType?, noType, value]
    rfl
  rw [ofStatement_of_plain (by rw [h.kind]; decide), ofDeclaration]
  simp only [h.kind, only, List.filterMap_cons, List.filterMap_nil, found, type]
  cases expressionType? x e <;> rfl

/-- What files contribute that have further statements in one place of another file. -/
theorem ofFile_around (rest : z.root.namedChildren.map z.view = before ++ after) :
    ∃ first last, ofFile z = first ++ last ∧ ∀ (x : Syntax) (own : List Tree),
      x.root.namedChildren.map x.view = before ++ own.map x.view ++ after →
        ofFile x = first ++ own.flatMap (ofStatement x) ++ last := by
  obtain ⟨bs, as, split, rfl, rfl⟩ := List.map_eq_append_iff.1 rest
  refine ⟨bs.flatMap (ofStatement z), as.flatMap (ofStatement z), ?_, fun x own whole => ?_⟩
  · rw [ofFile, split, List.flatMap_append]
  · obtain ⟨front, as', split', shown, last⟩ := List.map_eq_append_iff.1 whole
    obtain ⟨bs', own', rfl, first, middle⟩ := List.map_eq_append_iff.1 shown
    rw [ofFile, split', List.flatMap_append, List.flatMap_append, ofStatements_of_view first,
      ofStatements_of_view middle, ofStatements_of_view last]

end FileItem

/-! ## Their first contracts -/

open FileItem Component

/-- The properties of the first contract of a file once a component stands in front of the others,
whose properties have the type. -/
def Tsx.Syntax.firstPropertiesWith? (z : Syntax) (r? : Option TypeRef) : Option (List Property) :=
  if contractNames (ofFile z) = [] then
    (r?.bind fun r => Declarations.propertiesOf? (z.declarations.classify r)).or z.firstProperties?
  else z.firstProperties?

section

variable {x z : Syntax} {e : Tree} {before after : List View} {name : String}
variable (rest : z.root.namedChildren.map z.view = before ++ after) (alone : NoDefault (ofFile z))

include rest alone

theorem firstProperties?_of_expression (exports_ : ExportsExpression x e before after)
    (component : e.kind ≠ .identifier) : x.firstProperties? =
      if isFunction e.kind then z.firstPropertiesWith? (expressionType? x e)
      else z.firstProperties? := by
  obtain ⟨s, whole, export_⟩ := exports_
  obtain ⟨first, last, split, around⟩ := ofFile_around rest
  have items : ofFile x = first ++ ofValue x e ++ last := by
    rw [around x [s] whole, List.flatMap_singleton, ofStatement_of_defaultExport export_]
  split
  next function =>
    rw [ofValue_of_function function] at items
    rw [split] at alone
    have names : contractNames (ofFile x) = contractNames (ofFile z) := by
      rw [items, split, contractNames_around (filterMap_ofFunction_eq_nil fun _ => rfl)]
    have declared : declarations (ofFile x) = declarations (ofFile z) := by
      rw [items, split, declarations_around (filterMap_ofFunction_eq_nil fun _ => rfl)]
    have types : componentTypes (ofFile x) =
        ((expressionType? x e).map ("default", ·)).toList ++ componentTypes (ofFile z) := by
      rw [items, split, componentTypes_function alone]
    exact firstProperties?_leading names declared types
  next other =>
    rw [Bool.not_eq_true] at other
    rw [ofValue_of_other component other, List.append_nil, ← split] at items
    exact congrArg FileItem.firstProperties? items

/-- A component that is the value of a variable gives the first contract, however often it is
wrapped. -/
theorem firstProperties?_of_variable (exports_ : ExportsVariable x name e before after)
    (fresh : ∀ r, (name, r) ∉ components (ofFile z)) :
    x.firstProperties? = z.firstPropertiesWith? (expressionType? x e) := by
  obtain ⟨d, s, i, whole, variable_, export_, identifier, called⟩ := exports_
  obtain ⟨first, last, split, around⟩ := ofFile_around rest
  have items : ofFile x = first ++ ofVariable name (expressionType? x e) ++ last := by
    rw [around x [d, s] whole, List.flatMap_cons, List.flatMap_singleton,
      ofStatement_of_variable variable_, ofStatement_of_defaultExport export_, ofValue,
      if_pos (by rw [identifier, beq_self_eq_true]), called, ofVariable]
  rw [split] at alone fresh
  have names : contractNames (ofFile x) = contractNames (ofFile z) := by
    rw [items, split, contractNames_around (filterMap_ofVariable_eq_nil (fun _ => rfl) rfl)]
  have declared : declarations (ofFile x) = declarations (ofFile z) := by
    rw [items, split, declarations_around (filterMap_ofVariable_eq_nil (fun _ => rfl) rfl)]
  have types : componentTypes (ofFile x) =
      ((expressionType? x e).map (name, ·)).toList ++ componentTypes (ofFile z) := by
    rw [items, split, componentTypes_variable alone fresh]
  exact firstProperties?_leading names declared types

end

/-- A component that is exported as default in place and as the value of a variable gives the same
first contract just if some type is exported as a contract, or the component is a function, or the
type of its properties is no object unless the other components begin with the same properties. As
the value of a variable it is found however often it is wrapped; in place only a function is. -/
theorem default_exports_agree {x y z : Syntax} {e e' : Tree} {name : String}
    {before after : List View} (inPlace : ExportsExpression x e before after)
    (named : ExportsVariable y name e' before after) (same : x.view e = y.view e')
    (others : z.root.namedChildren.map z.view = before ++ after)
    (component : e.kind ≠ .identifier) (alone : NoDefault (ofFile z))
    (fresh : ∀ r, (name, r) ∉ components (ofFile z)) :
    (x.firstProperties? = y.firstProperties? ↔
      contractNames (ofFile z) ≠ [] ∨ isFunction e.kind = true ∨
        ∀ r ps, Carries x e r → z.declarations.classify r = .object ps →
          z.firstProperties? = some ps) ∧
    (contractNames (ofFile z) = [] → ∀ r ps, Carries x e r →
      z.declarations.classify r = .object ps → y.firstProperties? = some ps) ∧
    (isFunction e.kind = false → x.firstProperties? = z.firstProperties?) := by
  have inPlace := firstProperties?_of_expression others alone inPlace component
  have named := firstProperties?_of_variable others alone named fresh
  rw [← expressionType?_of_view same] at named
  have leading (none : contractNames (ofFile z) = []) {r : TypeRef} {ps : List Property}
      (carries : Carries x e r) (object : z.declarations.classify r = .object ps) :
      z.firstPropertiesWith? (expressionType? x e) = some ps := by
    rw [firstPropertiesWith?, if_pos none, carries.expressionType?, Option.bind_some, object]
    rfl
  refine ⟨?_, fun none r ps carries object => named.trans (leading none carries object),
    fun other => ?_⟩
  · rw [inPlace, named]
    by_cases function : isFunction e.kind = true
    · rw [if_pos function]
      exact iff_of_true rfl (.inr (.inl function))
    by_cases none : contractNames (ofFile z) = []
    · rw [if_neg function]
      constructor
      · intro agree
        exact .inr (.inr fun r ps carries object => agree.trans (leading none carries object))
      · rintro (some_ | isFunction | agree)
        · exact absurd none some_
        · exact absurd isFunction function
        · rw [firstPropertiesWith?, if_pos none]
          cases found : expressionType? x e with
          | none => rfl
          | some r =>
              rw [Option.bind_some]
              cases object : z.declarations.classify r with
              | object ps =>
                  rw [agree r ps (expressionType?_eq_some_iff.1 found) object]
                  rfl
              | _ => rfl
    · rw [if_neg function, firstPropertiesWith?, if_neg none]
      exact iff_of_true rfl (.inl none)
  · rw [inPlace, if_neg (by rw [other]; decide)]

/-! ## A wrapped component in two files -/

def memoType (o : Nat) : Tree :=
  .node .objectType none o (o + 4)
    [.node (.token "\x7b") none o (o + 1) [],
      .node .propertySignature none (o + 1) (o + 3)
        [.node .propertyIdentifier (some .name) (o + 1) (o + 2) [],
          .node (.token "?") none (o + 2) (o + 3) []],
      .node (.token "\x7d") none (o + 3) (o + 4) []]

def memoFunction (o : Nat) : Tree :=
  .node .arrow none o (o + 11)
    [.node .parameters (some .parameters) o (o + 8)
        [.node (.token "(") none o (o + 1) [],
          .node .parameter none (o + 1) (o + 7)
            [.node .identifier (some .name) (o + 1) (o + 2) [],
              .node .typeAscription (some .type) (o + 2) (o + 7)
                [.node (.token ":") none (o + 2) (o + 3) [], memoType (o + 3)]],
          .node (.token ")") none (o + 7) (o + 8) []],
      .node (.token "=>") none (o + 8) (o + 10) [],
      .node .number (some .body) (o + 10) (o + 11) []]

def memoCall (o : Nat) : Tree :=
  .node .call (some .value) o (o + 17)
    [.node .identifier (some .function) o (o + 4) [],
      .node .arguments (some .arguments) (o + 4) (o + 17)
        [.node (.token "(") none (o + 4) (o + 5) [], memoFunction (o + 5),
          .node (.token ")") none (o + 16) (o + 17) []]]

def memoExport : Tree :=
  .node .exportStatement none 0 32
    [.node (.token "export") none 0 6 [], .node (.token "default") none 7 14 [], memoCall 15]

def memoInPlace : Syntax where
  source := "export default memo((p:\x7ba?\x7d)=>0)".toList
  root := .node .program none 0 32 [memoExport]

def memoDeclarator : Tree :=
  .node .variableDeclarator none 6 25
    [.node .identifier (some .name) 6 7 [], .node (.token "=") none 7 8 [], memoCall 8]

def memoVariable : Tree :=
  .node .lexicalDeclaration none 0 26
    [.node (.token "const") none 0 5 [], memoDeclarator, .node (.token ";") none 25 26 []]

def memoNameExport : Tree :=
  .node .exportStatement none 26 42
    [.node (.token "export") none 26 32 [], .node (.token "default") none 33 40 [],
      .node .identifier (some .value) 41 42 []]

def memoNamed : Syntax where
  source := "const X=memo((p:\x7ba?\x7d)=>0);export default X".toList
  root := .node .program none 0 42 [memoVariable, memoNameExport]

def emptySyntax : Syntax where
  source := []
  root := .node .program none 0 0 []

theorem carries_memoCall : Component.Carries memoInPlace (memoCall 15)
    (.mk (.object [.mk "a" Lower.anyType true none]) "\x7ba?\x7d") := by
  refine .wrapped rfl (.inl (by decide +kernel)) (u := memoFunction 20) rfl (.function rfl ?_)
  refine congrArg some (?_ : Lower.type memoInPlace (memoType 23) = _)
  rw [Lower.type_of_plain ⟨by decide, by decide⟩, Lower.form_of_object rfl, Lower.members_eq]
  rfl

theorem default_exports_agree_of_memo :
    parse memoInPlace.source = memoInPlace ∧ parse memoNamed.source = memoNamed ∧
      parse emptySyntax.source = emptySyntax ∧ memoInPlace.firstProperties? = none ∧
      memoNamed.firstProperties? = some [.mk "a" Lower.anyType true none] := by
  have inPlace : ExportsExpression memoInPlace (memoCall 15) [] [] :=
    ⟨memoExport, rfl, rfl, rfl, rfl⟩
  have named : ExportsVariable memoNamed "X" (memoCall 8) [] [] :=
    ⟨memoVariable, memoNameExport, .node .identifier (some .value) 41 42 [], rfl,
      ⟨rfl, memoDeclarator, rfl, rfl, rfl, rfl⟩, ⟨rfl, rfl, rfl⟩, rfl, rfl⟩
  obtain ⟨-, variable_, wrapped⟩ := default_exports_agree (z := emptySyntax) inPlace named
    (by decide +kernel) rfl (by decide) ⟨rfl, rfl⟩ nofun
  exact ⟨parse_eq (by decide +kernel), parse_eq (by decide +kernel), parse_eq (by decide +kernel),
    (wrapped rfl).trans rfl, variable_ rfl _ _ carries_memoCall rfl⟩

end PropStories
