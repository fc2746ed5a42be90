import PropStories.Proofs.Contract.Bodies

/-!
# What a statement contributes

A component can be wrapped: in parentheses, in `memo`, in `forwardRef`. The type of its properties
is found through any nesting of these, and what a statement contributes to what is known of its
file depends only on what the statement shows. What is known of the file is then asked of one item
after the other.
-/

namespace PropStories

open Tsx Syntax

variable {x y : Syntax} {t u : Tree} {r : TypeRef}

namespace Component

/-! ## Wrapped components -/

def callee? (x : Syntax) (t : Tree) : Option String :=
  (t.child? .function).map fun f => Declarations.unqualified (x.stringOf f)

def given? (x : Syntax) (t : Tree) : Option TypeRef :=
  ((t.child? .typeArguments).bind fun a => a.parts[1]?).map (Lower.type x)

def argument? (t : Tree) : Option Tree := (t.child? .arguments).bind Tree.firstPart?

theorem sizeOf_lt_of_argument? (h : argument? t = some u) : sizeOf u < sizeOf t := by
  obtain ⟨arguments, found, first⟩ := Option.bind_eq_some_iff.1 h
  exact Nat.lt_trans (Tree.sizeOf_lt_of_firstPart? first) (Tree.sizeOf_lt_of_child? found)

theorem expressionType?_of_function (kind : isFunction t.kind = true) :
    expressionType? x t = firstParameterType? x t := by
  rw [expressionType?, if_pos kind]

theorem expressionType?_of_parenthesized (kind : t.kind = .parenthesized) :
    expressionType? x t = t.firstPart?.bind (expressionType? x) := by
  rw [expressionType?, if_neg (by rw [kind]; decide)]
  simp only [kind]
  split
  all_goals
    rename_i h
    rw [h]
    rfl

theorem expressionType?_of_call (kind : t.kind = .call) :
    expressionType? x t = (callee? x t).bind fun c =>
      (if c == "forwardRef" then given? x t else none).or
        (if c == "forwardRef" || c == "memo" then (argument? t).bind (expressionType? x)
          else none) := by
  rw [expressionType?, if_neg (by rw [kind]; decide)]
  simp only [kind, callee?, argument?]
  cases t.child? .function with
  | none => rfl
  | some f =>
      simp only [Option.map_some, Option.bind_some, given?]
      split
      next found =>
        rw [found]
        rfl
      next missing =>
        rw [missing, Option.none_or]
        split
        · split
          next none =>
            rw [none]
            rfl
          next arguments found =>
            rw [found]
            simp only [Option.bind_some]
            split
            all_goals
              rename_i first
              rw [first]
              rfl
        · rfl

theorem expressionType?_of_other (function : isFunction t.kind = false)
    (parenthesized : t.kind ≠ .parenthesized) (call : t.kind ≠ .call) :
    expressionType? x t = none := by
  rw [expressionType?, if_neg (by rw [function]; decide)]
  split
  next kind => exact absurd kind parenthesized
  next kind => exact absurd kind call
  next => rfl

/-- An expression is a component whose properties have the type: a function, however often wrapped,
or something that is given the type in `forwardRef`. -/
inductive Carries (x : Syntax) : Tree → TypeRef → Prop
  | function {t : Tree} {r : TypeRef} (kind : isFunction t.kind = true)
      (parameter : firstParameterType? x t = some r) : Carries x t r
  | parenthesized {t u : Tree} {r : TypeRef} (kind : t.kind = .parenthesized)
      (inner : t.firstPart? = some u) (carries : Carries x u r) : Carries x t r
  | given {t : Tree} {r : TypeRef} (kind : t.kind = .call)
      (callee : callee? x t = some "forwardRef") (type : given? x t = some r) : Carries x t r
  | wrapped {t u : Tree} {r : TypeRef} (kind : t.kind = .call)
      (callee : callee? x t = some "memo" ∨ callee? x t = some "forwardRef" ∧ given? x t = none)
      (inner : argument? t = some u) (carries : Carries x u r) : Carries x t r

theorem Carries.expressionType? (h : Carries x t r) : expressionType? x t = some r := by
  induction h with
  | function kind parameter => rw [expressionType?_of_function kind, parameter]
  | parenthesized kind inner _ ih =>
      rw [expressionType?_of_parenthesized kind, inner, Option.bind_some, ih]
  | given kind callee type =>
      rw [expressionType?_of_call kind, callee, Option.bind_some, type]
      rfl
  | wrapped kind callee inner _ ih =>
      rw [expressionType?_of_call kind, inner, Option.bind_some, ih]
      obtain memo | ⟨forward, none⟩ := callee
      · rw [memo]
        rfl
      · rw [forward, none]
        rfl

theorem expressionType?_eq_some_iff : expressionType? x t = some r ↔ Carries x t r := by
  refine ⟨fun h => ?_, Carries.expressionType?⟩
  induction size : sizeOf t using Nat.strongRecOn generalizing t with
  | ind n ih =>
      -- One case for each branch of the function; only a call has two ways to carry a type.
      by_cases function : isFunction t.kind = true
      · exact .function function (expressionType?_of_function function ▸ h)
      by_cases parenthesized : t.kind = .parenthesized
      · rw [expressionType?_of_parenthesized parenthesized] at h
        obtain ⟨u, inner, h⟩ := Option.bind_eq_some_iff.1 h
        exact .parenthesized parenthesized inner
          (ih _ (size ▸ Tree.sizeOf_lt_of_firstPart? inner) h rfl)
      by_cases call : t.kind = .call
      · rw [expressionType?_of_call call] at h
        obtain ⟨c, callee, h⟩ := Option.bind_eq_some_iff.1 h
        obtain given | ⟨missing, h⟩ := Option.or_eq_some_iff.1 h
        · split at given
          next forward => exact .given call (by rw [callee, eq_of_beq forward]) given
          next => cases given
        · split at h
          next wrapper =>
            obtain ⟨u, inner, h⟩ := Option.bind_eq_some_iff.1 h
            refine .wrapped call ?_ inner (ih _ (size ▸ sizeOf_lt_of_argument? inner) h rfl)
            obtain forward | memo := Bool.or_eq_true_iff.1 wrapper
            · rw [if_pos forward] at missing
              exact .inr ⟨by rw [callee, eq_of_beq forward], missing⟩
            · exact .inl (by rw [callee, eq_of_beq memo])
          next => cases h
      · rw [expressionType?_of_other (Bool.not_eq_true _ ▸ function) parenthesized call] at h
        cases h

/-! ## Components that show the same -/

section

variable (same : x.view t = y.view u)

include same

theorem firstParameterType?_of_view : firstParameterType? x t = firstParameterType? y u := by
  have flat (x : Syntax) (t : Tree) : firstParameterType? x t =
      ((((t.child? .parameters).bind Tree.firstPart?).bind (·.child? .type)).bind
        Tree.firstPart?).map (Lower.type x) := by
    simp only [firstParameterType?, Option.bind_eq_bind, Option.bind_assoc, Option.map_eq_bind]
    rfl
  rw [flat, flat]
  have ascription := option_bind_of_view (childPart?_of_view same .parameters) fun _ _ shown =>
    child?_of_view shown .type
  exact option_map_eq_of_view (option_bind_of_view ascription fun _ _ => firstPart?_of_view)
    fun _ _ _ => Lower.type_of_view

theorem ascribedType?_of_view : ascribedType? x t = ascribedType? y u := by
  refine option_bind_eq_of_view (firstPart?_of_view same) fun a _ b shown => ?_
  rw [kind_eq_of_view shown]
  split
  · rfl
  refine option_bind_eq_of_view (child?_of_view shown .name) fun n _ m name => ?_
  rw [stringOf_eq_of_view name]
  split
  · rfl
  refine option_bind_eq_of_view (child?_of_view shown .typeArguments) fun as _ bs list => ?_
  exact option_bind_eq_of_view (firstPart?_of_view list) fun c _ d first =>
    congrArg some (Lower.type_of_view first)

theorem callee?_of_view : callee? x t = callee? y u :=
  option_map_eq_of_view (child?_of_view same .function) fun _ _ _ shown => by
    rw [stringOf_eq_of_view shown]

theorem given?_of_view : given? x t = given? y u := by
  refine option_map_eq_of_view (option_bind_of_view (child?_of_view same .typeArguments) ?_)
    fun _ _ _ => Lower.type_of_view
  intro a b shown
  rw [← List.getElem?_map, ← List.getElem?_map, parts_of_view shown]

theorem argument?_of_view : (argument? t).map x.view = (argument? u).map y.view :=
  childPart?_of_view same .arguments

theorem expressionType?_of_view : expressionType? x t = expressionType? y u := by
  induction size : sizeOf t using Nat.strongRecOn generalizing t u with
  | ind n ih =>
      have kinds := kind_eq_of_view same
      by_cases function : isFunction t.kind = true
      · rw [expressionType?_of_function function, expressionType?_of_function (kinds ▸ function),
          firstParameterType?_of_view same]
      by_cases parenthesized : t.kind = .parenthesized
      · rw [expressionType?_of_parenthesized parenthesized,
          expressionType?_of_parenthesized (kinds ▸ parenthesized)]
        exact option_bind_eq_of_view (firstPart?_of_view same) fun c hc d shown =>
          ih _ (size ▸ Tree.sizeOf_lt_of_firstPart? hc) shown rfl
      by_cases call : t.kind = .call
      · rw [expressionType?_of_call call, expressionType?_of_call (kinds ▸ call),
          callee?_of_view same, given?_of_view same,
          option_bind_eq_of_view (argument?_of_view same) fun c hc d shown =>
            ih _ (size ▸ sizeOf_lt_of_argument? hc) shown rfl]
      · rw [Bool.not_eq_true] at function
        rw [expressionType?_of_other function parenthesized call,
          expressionType?_of_other (kinds ▸ function) (kinds ▸ parenthesized) (kinds ▸ call)]

theorem declaratorType?_of_view : declaratorType? x t = declaratorType? y u := by
  have ascribed : (t.child? .type).bind (ascribedType? x) =
      (u.child? .type).bind (ascribedType? y) :=
    option_bind_eq_of_view (child?_of_view same .type) fun _ _ _ => ascribedType?_of_view
  have value : (t.child? .value).bind (expressionType? x) =
      (u.child? .value).bind (expressionType? y) :=
    option_bind_eq_of_view (child?_of_view same .value) fun _ _ _ => expressionType?_of_view
  rw [declaratorType?, declaratorType?, ascribed, value]

end

end Component

namespace FileItem

open Component

/-! ## Exports -/

def ofValue (x : Syntax) (v : Tree) : List FileItem :=
  if v.kind == .identifier then [defaultName (x.stringOf v)]
  else if isFunction v.kind then ((firstParameterType? x v).map defaultFunction).toList
  else []

theorem ofStatement_of_plain (kind : t.kind ≠ .exportStatement) :
    ofStatement x t = ofDeclaration x t false false := by
  rw [ofStatement, if_neg (by rwa [beq_iff_eq])]

theorem ofStatement_of_export (kind : t.kind = .exportStatement) :
    ofStatement x t =
      ((t.child? .declaration).map fun d => ofDeclaration x d true (t.hasToken "default")).getD
        (((t.child? .value).map (ofValue x)).getD []) := by
  rw [ofStatement, if_pos (by rw [kind, beq_self_eq_true])]
  cases t.child? .declaration with
  | some d => rfl
  | none =>
      cases t.child? .value with
      | some v => rfl
      | none => rfl

/-! ## Statements that show the same -/

section

variable (same : x.view t = y.view u)

include same

theorem childrenOfKind_of_view (k : Kind) :
    (t.namedChildren.filter (·.kind == k)).map x.view =
      (u.namedChildren.filter (·.kind == k)).map y.view := by
  have view (x : Syntax) (t : Tree) : (t.namedChildren.filter (·.kind == k)).map x.view =
      (x.view t).namedChildren.filter (·.kind == k) := by
    rw [namedChildren_view, List.filter_map]
    simp only [Function.comp_def, kind_view]
  rw [view, view, same]

theorem bases_of_view :
    ((t.namedChildren.filter (·.kind == .extendsClause)).flatMap Tree.parts).map (Lower.type x) =
      ((u.namedChildren.filter (·.kind == .extendsClause)).flatMap Tree.parts).map
        (Lower.type y) := by
  rw [List.map_flatMap, List.map_flatMap, List.flatMap_def, List.flatMap_def]
  exact congrArg _ (map_eq_of_map_eq (childrenOfKind_of_view same _) fun _ _ _ shown =>
    map_eq_of_map_eq (parts_of_view shown) fun _ _ _ => Lower.type_of_view)

theorem interface?_of_view : interface? x t = interface? y u := by
  have members : (t.child? .body).map (Lower.members x) = (u.child? .body).map (Lower.members y) :=
    option_map_eq_of_view (child?_of_view same .body) fun _ _ _ =>
      Lower.members_of_smaller fun _ _ _ => Lower.type_of_view
  rw [interface?, interface?, members, bases_of_view same]
  exact option_map_eq_of_view (child?_of_view same .name) fun _ _ _ name => by
    rw [stringOf_eq_of_view name]

theorem aliased?_of_view : aliased? x t = aliased? y u :=
  option_bind_eq_of_view (child?_of_view same .name) fun _ _ _ name =>
    option_bind_eq_of_view (child?_of_view same .value) fun _ _ _ value => by
      rw [stringOf_eq_of_view name, Lower.type_of_view value]

theorem ofDeclaration_of_view (exported isDefault : Bool) :
    ofDeclaration x t exported isDefault = ofDeclaration y u exported isDefault := by
  unfold ofDeclaration
  rw [kind_eq_of_view same, interface?_of_view same, aliased?_of_view same]
  split
  · rfl
  · rfl
  · refine congrArg _ (option_bind_eq_of_view (child?_of_view same .name) fun _ _ _ name => ?_)
    rw [stringOf_eq_of_view name, firstParameterType?_of_view same]
  · refine filterMap_eq_of_map_eq (childrenOfKind_of_view same _) fun _ _ _ shown => ?_
    refine option_bind_eq_of_view (child?_of_view shown .name) fun _ _ _ name => ?_
    rw [stringOf_eq_of_view name, declaratorType?_of_view shown]
  · rfl

theorem ofValue_of_view : ofValue x t = ofValue y u := by
  rw [ofValue, ofValue, kind_eq_of_view same, stringOf_eq_of_view same,
    firstParameterType?_of_view same]

theorem ofStatement_of_view : ofStatement x t = ofStatement y u := by
  have kinds := kind_eq_of_view same
  by_cases kind : t.kind = .exportStatement
  · rw [ofStatement_of_export kind, ofStatement_of_export (kinds ▸ kind), hasToken_of_view same,
      option_map_eq_of_view (child?_of_view same .declaration) fun _ _ _ shown =>
        ofDeclaration_of_view shown true (u.hasToken "default"),
      option_map_eq_of_view (child?_of_view same .value) fun _ _ _ => ofValue_of_view]
  · rw [ofStatement_of_plain kind, ofStatement_of_plain (kinds ▸ kind),
      ofDeclaration_of_view same]

end

theorem ofStatements_of_view {ts us : List Tree} (same : ts.map x.view = us.map y.view) :
    ts.flatMap (ofStatement x) = us.flatMap (ofStatement y) := by
  rw [List.flatMap_def, List.flatMap_def]
  exact congrArg _ (map_eq_of_map_eq same fun _ _ _ => ofStatement_of_view)

/-! ## What an item says -/

def declaration? : FileItem → Option (String × Declaration)
  | type n d _ => some (n, d)
  | _ => none

def contractName? : FileItem → Option String
  | type n _ true => if isContractName n then some n else none
  | _ => none

def component? : FileItem → Option (String × TypeRef)
  | component n t _ _ => some (n, t)
  | _ => none

def exportedName? : FileItem → Option String
  | component n _ true _ => some n
  | _ => none

def defaultName? : FileItem → Option String
  | component n _ true true => some n
  | defaultName n => some n
  | _ => none

def defaultFunction? : FileItem → Option TypeRef
  | defaultFunction t => some t
  | _ => none

variable (items : List FileItem)

theorem components_eq : components items = (items.filterMap component?).reverse := rfl

theorem exportedComponents_eq : exportedComponents items = items.filterMap exportedName? := rfl

theorem defaultExport?_eq : defaultExport? items = (items.filterMap defaultName?).getLast? := rfl

theorem componentTypes_eq : componentTypes items =
    ((items.filterMap defaultFunction?).map ("default", ·)).reverse ++
      ((defaultExport? items).toList ++ exportedComponents items).eraseDups.filterMap fun n =>
        ((components items).lookup n).map (n, ·) := by
  have inline : (items.filterMap fun
      | defaultFunction t => some ("default", t)
      | _ => none) = (items.filterMap defaultFunction?).map ("default", ·) := by
    rw [List.map_filterMap]
    exact congrArg (List.filterMap · items) (funext fun i => by cases i <;> rfl)
  rw [← inline]
  rfl

end FileItem

end PropStories
