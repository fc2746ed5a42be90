import Mathlib.Data.List.Perm.Basic
import PropStories.Proofs.Contract.Resolution
import PropStories.Proofs.Contract.Statements
import PropStories.Synth.Prop

/-!
# Files in another order

A type can be used before its declaration and a component can be exported before its own. Main
statement: where no two types and no two components have the same name, the order of the statements
decides nothing besides the order of the exported contracts, that of the exported components, and
which default export is the last one.
-/

namespace PropStories

open Tsx Syntax

/-! ## Declarations in another order -/

theorem lookup_of_perm {α : Type} {l l' : List (String × α)} (reordered : l.Perm l')
    (distinct : (l.map Prod.fst).Nodup) (name : String) : l.lookup name = l'.lookup name := by
  induction reordered with
  | nil => rfl
  | cons p _ ih =>
      rw [List.lookup_cons, List.lookup_cons, ih (List.nodup_cons.1 distinct).2]
  | swap p q l =>
      -- Of two neighbours with different names at most one is found.
      obtain ⟨m, r⟩ := p
      obtain ⟨n, s⟩ := q
      have different : n ≠ m := fun same =>
        (List.nodup_cons.1 distinct).1 (List.mem_cons.2 (.inl same))
      simp only [List.lookup_cons]
      cases first : name == n with
      | false => rfl
      | true => rw [eq_of_beq first, beq_false_of_ne different]
  | trans first _ ih ih' =>
      exact (ih distinct).trans (ih' ((first.map _).nodup_iff.1 distinct))

namespace Declarations

variable {ds ds' : Declarations}

theorem level_of_lookup (same : ∀ name, ds.lookup name = ds'.lookup name)
    (shape : TypeRef → Shape) (t : TypeRef) : ds.level shape t = ds'.level shape t := by
  unfold level
  simp only [same]

theorem classifyWithin_of_lookup (same : ∀ name, ds.lookup name = ds'.lookup name) (steps : Nat)
    (t : TypeRef) : classifyWithin ds steps t = classifyWithin ds' steps t := by
  induction steps generalizing t with
  | zero => rw [classifyWithin, classifyWithin]
  | succ steps ih =>
      rw [classifyWithin_succ, classifyWithin_succ, level_congr fun u _ => ih u,
        level_of_lookup same]

theorem classify_of_lookup (same : ∀ name, ds.lookup name = ds'.lookup name) :
    ds.classify = ds'.classify :=
  funext (classifyWithin_of_lookup same _)

end Declarations

/-! ## Statements in another order -/

namespace FileItem

variable {x y : Syntax}

theorem ofStatement_of_comment {t : Tree} (kind : t.kind = .comment) : ofStatement x t = [] := by
  rw [ofStatement_of_plain (by rw [kind]; decide), ofDeclaration]
  simp only [kind]

theorem ofFile_eq_parts (x : Syntax) : ofFile x = x.root.parts.flatMap (ofStatement x) := by
  rw [ofFile, Tree.parts]
  induction x.root.namedChildren with
  | nil => rfl
  | cons t ts ih =>
      rw [List.flatMap_cons, List.filter_cons, ih]
      split
      next => rw [List.flatMap_cons]
      next comment =>
        rw [ofStatement_of_comment (by simpa using comment), List.nil_append]

theorem ofFile_perm (statements : (x.root.parts.map x.view).Perm (y.root.parts.map y.view)) :
    (ofFile x).Perm (ofFile y) := by
  have moved : Relation.Comp (· = List.map x.view ·) List.Perm (y.root.parts.map y.view)
      x.root.parts := by
    rw [List.eq_map_comp_perm]
    exact statements.symm
  obtain ⟨ts, same, reordered⟩ := moved
  rw [ofFile_eq_parts, ofFile_eq_parts, ofStatements_of_view same]
  exact (reordered.flatMap_right _).symm

theorem reverse_filterMap_perm {α : Type}
    (statements : (x.root.parts.map x.view).Perm (y.root.parts.map y.view))
    (f : FileItem → Option α) :
    ((ofFile x).filterMap f).reverse.Perm ((ofFile y).filterMap f).reverse :=
  (List.reverse_perm _).trans
    (((ofFile_perm statements).filterMap f).trans (List.reverse_perm _).symm)

def isDefaultExport : FileItem → Bool
  | component _ _ true true | defaultName _ | defaultFunction _ => true
  | _ => false

theorem filterMap_defaultExports {α : Type} {f : FileItem → Option α}
    (only : ∀ i, isDefaultExport i = false → f i = none) (items : List FileItem) :
    (items.filter isDefaultExport).filterMap f = items.filterMap f := by
  rw [List.filterMap_filter]
  refine List.filterMap_congr fun i _ => ?_
  split
  next => rfl
  next other => exact (only i (Bool.not_eq_true _ ▸ other)).symm

theorem defaultName?_of_other (i : FileItem) (other : isDefaultExport i = false) :
    defaultName? i = none := by
  cases i with
  | component n r exported isDefault => cases exported <;> cases isDefault <;> trivial
  | defaultName n => cases other
  | _ => rfl

theorem defaultFunction?_of_other (i : FileItem) (other : isDefaultExport i = false) :
    defaultFunction? i = none := by
  cases i with
  | defaultFunction r => cases other
  | _ => rfl

variable (defaults : (ofFile x).filter isDefaultExport = (ofFile y).filter isDefaultExport)

include defaults

theorem defaultExport?_of_defaults : defaultExport? (ofFile x) = defaultExport? (ofFile y) := by
  rw [defaultExport?_eq, defaultExport?_eq, ← filterMap_defaultExports defaultName?_of_other,
    defaults, filterMap_defaultExports defaultName?_of_other]

theorem defaultFunctions_of_defaults : (ofFile x).filterMap defaultFunction? =
    (ofFile y).filterMap defaultFunction? := by
  rw [← filterMap_defaultExports defaultFunction?_of_other, defaults,
    filterMap_defaultExports defaultFunction?_of_other]

end FileItem

open FileItem

structure Tsx.Syntax.HasDistinctNames (x : Syntax) : Prop where
  types : (x.declarations.map Prod.fst).Nodup
  components : ((components (ofFile x)).map Prod.fst).Nodup

/-- Two files have the same statements, up to an order that keeps that of the exported contracts and
that of the exported components. -/
structure Reordering (x y : Syntax) : Prop where
  statements : (x.root.parts.map x.view).Perm (y.root.parts.map y.view)
  contracts : contractNames (ofFile x) = contractNames (ofFile y)
  components : exportedComponents (ofFile x) = exportedComponents (ofFile y)

namespace Reordering

variable {x y : Syntax} (reordering : Reordering x y) (distinct : x.HasDistinctNames)

include reordering distinct

theorem lookup_declarations (name : String) :
    x.declarations.lookup name = y.declarations.lookup name :=
  lookup_of_perm (reverse_filterMap_perm reordering.statements declaration?) distinct.types name

theorem lookup_components (name : String) :
    (FileItem.components (ofFile x)).lookup name = (FileItem.components (ofFile y)).lookup name :=
  lookup_of_perm (reverse_filterMap_perm reordering.statements component?) distinct.components name

/-- Every type is classified the same, wherever the types that it refers to are declared. -/
theorem classify : x.declarations.classify = y.declarations.classify :=
  Declarations.classify_of_lookup (reordering.lookup_declarations distinct)

theorem declaredContracts : Analysis.declaredContracts (ofFile x) =
    Analysis.declaredContracts (ofFile y) := by
  have classify : (declarations (ofFile x)).classify = (declarations (ofFile y)).classify :=
    reordering.classify distinct
  simp only [Analysis.declaredContracts, reordering.contracts, classify]

theorem componentTypes
    (defaults : (ofFile x).filter isDefaultExport = (ofFile y).filter isDefaultExport) :
    componentTypes (ofFile x) = componentTypes (ofFile y) := by
  rw [componentTypes_eq, componentTypes_eq, defaultFunctions_of_defaults defaults,
    defaultExport?_of_defaults defaults, reordering.components]
  simp only [reordering.lookup_components distinct]

theorem contracts_eq
    (defaults : (ofFile x).filter isDefaultExport = (ofFile y).filter isDefaultExport) :
    (Analysis.ofSyntax x).contracts = (Analysis.ofSyntax y).contracts := by
  have classify : (declarations (ofFile x)).classify = (declarations (ofFile y)).classify :=
    reordering.classify distinct
  simp only [Analysis.ofSyntax, Analysis.ofItems, reordering.declaredContracts distinct,
    Analysis.parameterContracts, reordering.componentTypes distinct defaults, classify]

end Reordering

/-- Where no two types and no two components have the same name, a file gives the same contracts in
the same order, every type is classified the same and every contract is described the same, in
whatever order its statements stand that keeps that of the exported contracts, that of the exported
components and that of the default exports. -/
theorem reordering_keeps_analysis {x y : Syntax} (reordering : Reordering x y)
    (distinct : x.HasDistinctNames)
    (defaults : (ofFile x).filter isDefaultExport = (ofFile y).filter isDefaultExport) :
    (Analysis.ofSyntax x).contracts = (Analysis.ofSyntax y).contracts ∧
      (∀ t, x.declarations.classify t = y.declarations.classify t) ∧
      ∀ options c, Synth.describeContract options x.declarations c =
        Synth.describeContract options y.declarations c := by
  have classify := reordering.classify distinct
  refine ⟨reordering.contracts_eq distinct defaults, congrFun classify, fun options c => ?_⟩
  simp only [Declarations.service, classify]

/-! ## A component, the type of its properties and its exports -/

def orderedType (o : Nat) : Tree :=
  .node .objectType (some .value) (o + 7) (o + 11)
    [.node (.token "\x7b") none (o + 7) (o + 8) [],
      .node .propertySignature none (o + 8) (o + 10)
        [.node .propertyIdentifier (some .name) (o + 8) (o + 9) [],
          .node (.token "?") none (o + 9) (o + 10) []],
      .node (.token "\x7d") none (o + 10) (o + 11) []]

def orderedAlias (o : Nat) : Tree :=
  .node .typeAliasDeclaration none o (o + 12)
    [.node (.token "type") none o (o + 4) [],
      .node .typeIdentifier (some .name) (o + 5) (o + 6) [],
      .node (.token "=") none (o + 6) (o + 7) [], orderedType o,
      .node (.token ";") none (o + 11) (o + 12) []]

def orderedName (o : Nat) : Tree := .node .typeIdentifier none (o + 13) (o + 14) []

def orderedFunction (o : Nat) : Tree :=
  .node .functionDeclaration none o (o + 17)
    [.node (.token "function") none o (o + 8) [],
      .node .identifier (some .name) (o + 9) (o + 10) [],
      .node .parameters (some .parameters) (o + 10) (o + 15)
        [.node (.token "(") none (o + 10) (o + 11) [],
          .node .parameter none (o + 11) (o + 14)
            [.node .identifier (some .name) (o + 11) (o + 12) [],
              .node .typeAscription (some .type) (o + 12) (o + 14)
                [.node (.token ":") none (o + 12) (o + 13) [], orderedName o]],
          .node (.token ")") none (o + 14) (o + 15) []],
      .node .block (some .body) (o + 15) (o + 17)
        [.node (.token "\x7b") none (o + 15) (o + 16) [],
          .node (.token "\x7d") none (o + 16) (o + 17) []]]

def orderedExport (o : Nat) : Tree :=
  .node .exportStatement none o (o + 17)
    [.node (.token "export") none o (o + 6) [], .node (.token "default") none (o + 7) (o + 14) [],
      .node .identifier (some .value) (o + 15) (o + 16) [],
      .node (.token ";") none (o + 16) (o + 17) []]

def declaredFirst : Syntax where
  source := "type P=\x7ba?\x7d;function A(p:P)\x7b\x7dexport default A;".toList
  root := .node .program none 0 46 [orderedAlias 0, orderedFunction 12, orderedExport 29]

def exportedFirst : Syntax where
  source := "export default A;function A(p:P)\x7b\x7dtype P=\x7ba?\x7d;".toList
  root := .node .program none 0 46 [orderedExport 0, orderedFunction 17, orderedAlias 34]

theorem ofFile_declaredFirst : ofFile declaredFirst =
    [.type "P" (.aliasOf (Lower.type declaredFirst (orderedType 0))) false,
      .component "A" (Lower.type declaredFirst (orderedName 12)) false false,
      .defaultName "A"] := rfl

theorem ofFile_exportedFirst : ofFile exportedFirst =
    [.defaultName "A", .component "A" (Lower.type exportedFirst (orderedName 17)) false false,
      .type "P" (.aliasOf (Lower.type exportedFirst (orderedType 34))) false] := rfl

theorem reordering_keeps_analysis_of_reversed :
    parse declaredFirst.source = declaredFirst ∧ parse exportedFirst.source = exportedFirst ∧
      (Analysis.ofSyntax declaredFirst).contracts = (Analysis.ofSyntax exportedFirst).contracts ∧
      declaredFirst.declarations.classify (.ofName "P") =
        exportedFirst.declarations.classify (.ofName "P") := by
  have reordering : Reordering declaredFirst exportedFirst := by
    refine ⟨by decide +kernel, ?_, ?_⟩
    all_goals
      rw [ofFile_declaredFirst, ofFile_exportedFirst]
      simp only [contractNames, exportedComponents, List.filterMap_cons, List.filterMap_nil]
  have distinct : declaredFirst.HasDistinctNames := by
    refine ⟨?_, ?_⟩
    · rw [Syntax.declarations, ofFile_declaredFirst]
      exact List.pairwise_singleton _ _
    · rw [ofFile_declaredFirst]
      exact List.pairwise_singleton _ _
  have defaults : (ofFile declaredFirst).filter isDefaultExport =
      (ofFile exportedFirst).filter isDefaultExport := by
    rw [ofFile_declaredFirst, ofFile_exportedFirst]
    simp only [isDefaultExport, List.filter_cons]
    rfl
  obtain ⟨contracts, shapes, -⟩ := reordering_keeps_analysis reordering distinct defaults
  exact ⟨parse_eq (by decide +kernel), parse_eq (by decide +kernel), contracts, shapes _⟩

/-! ## Two default exports -/

def componentLast : Syntax where
  source := "type P=\x7ba?\x7d;function A(p:P)\x7b\x7dexport default t;export default A;".toList
  root := .node .program none 0 63
    [orderedAlias 0, orderedFunction 12, orderedExport 29, orderedExport 46]

def componentFirst : Syntax where
  source := "type P=\x7ba?\x7d;function A(p:P)\x7b\x7dexport default A;export default t;".toList
  root := .node .program none 0 63
    [orderedAlias 0, orderedFunction 12, orderedExport 29, orderedExport 46]

theorem ofFile_componentLast : ofFile componentLast =
    [.type "P" (.aliasOf (.mk (.object [.mk "a" Lower.anyType true none]) "\x7ba?\x7d")) false,
      .component "A" (.ofName "P") false false, .defaultName "t", .defaultName "A"] := by
  have type : Lower.type componentLast (orderedType 0) =
      .mk (.object [.mk "a" Lower.anyType true none]) "\x7ba?\x7d" := by
    rw [Lower.type_of_plain ⟨by decide, by decide⟩, Lower.form_of_object rfl, Lower.members_eq]
    rfl
  have name : Lower.type componentLast (orderedName 12) = .ofName "P" := by
    rw [Lower.type_of_plain ⟨by decide, by decide⟩, Lower.form_of_name rfl]
    rfl
  rw [← type, ← name]
  rfl

theorem ofFile_componentFirst : ofFile componentFirst =
    [.type "P" (.aliasOf (Lower.type componentFirst (orderedType 0))) false,
      .component "A" (Lower.type componentFirst (orderedName 12)) false false,
      .defaultName "A", .defaultName "t"] := rfl

/-- Of two default exports the last one counts, so their order does decide something. -/
theorem default_order_counts :
    parse componentLast.source = componentLast ∧ parse componentFirst.source = componentFirst ∧
      Reordering componentLast componentFirst ∧ componentLast.HasDistinctNames ∧
      (Analysis.ofSyntax componentLast).contracts =
        [⟨"A", [.mk "a" Lower.anyType true none], .parameter⟩] ∧
      (Analysis.ofSyntax componentFirst).contracts = [] := by
  refine ⟨parse_eq (by decide +kernel), parse_eq (by decide +kernel),
    ⟨by decide +kernel, ?_, ?_⟩, ⟨?_, ?_⟩, ?_, ?_⟩
  · rw [ofFile_componentLast, ofFile_componentFirst]
    simp only [contractNames, List.filterMap_cons, List.filterMap_nil]
  · rw [ofFile_componentLast, ofFile_componentFirst]
    simp only [exportedComponents, List.filterMap_cons, List.filterMap_nil]
  · rw [Syntax.declarations, ofFile_componentLast]
    exact List.pairwise_singleton _ _
  · rw [ofFile_componentLast]
    exact List.pairwise_singleton _ _
  · rw [Analysis.ofSyntax, ofFile_componentLast]
    rfl
  · rw [Analysis.ofSyntax, ofFile_componentFirst]
    rfl

end PropStories
