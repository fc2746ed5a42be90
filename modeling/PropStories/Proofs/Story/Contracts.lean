import PropStories.Proofs.Contract.Written
import PropStories.Proofs.Story.Rendering
import PropStories.Proofs.Tsx.Substitution

/-!
# Contracts in the regions

A contract that was read from a source without a fault is written into both regions as a whole. Main
statement: each of its properties is one pair under its own key, in order, and nothing is left out.
-/

namespace PropStories.Region

open Synth Tsx

/-! ## Keys and descriptions -/

theorem objectKey_inj {a b : String} (ha : OneLine a) (hb : OneLine b)
    (h : Text.objectKey a = Text.objectKey b) : a = b := by
  have noReturn {s : String} (hs : OneLine s) : s.toList.filter (· ≠ '\r') = s.toList := by
    rw [List.filter_eq_self]
    intro c hc
    rw [decide_eq_true_eq]
    rintro rfl
    exact absurd (hs _ hc) (by decide)
  have quoted {s : String} : Text.isIdentifier (Text.Quoted.quote s) = false := by
    unfold Text.isIdentifier
    rw [show (Text.Quoted.quote s).toList = '\x27' :: _ from toList_single _]
    rfl
  unfold Text.objectKey at h
  split at h <;> split at h
  · exact h
  next identifier _ =>
    rw [h, quoted] at identifier
    cases identifier
  next _ identifier =>
    rw [← h, quoted] at identifier
    cases identifier
  · have inside := congrArg String.toList h
    rw [Text.Quoted.quote_eq, Text.Quoted.quote_eq, toList_single, toList_single, String.toList_ofList,
      String.toList_ofList] at inside
    have same := List.append_cancel_right (List.cons.inj inside).2
    have decoded := congrArg Text.Quoted.decode same
    rw [Text.Quoted.decode_encode, Text.Quoted.decode_encode, noReturn ha, noReturn hb] at decoded
    exact String.toList_inj.1 (Option.some.inj decoded)

theorem writable_describe {options : Options} {ds : Declarations} (declared : ds.Written)
    {p : Property} (written : p.type.Written) : Writable (describe options ds p) where
  typeName := by
    refine isValue_word ?_
    have plain : ∀ s : Shape, ∀ c ∈ (typeName s).toList,
        c ≠ '\\' ∧ c ≠ '\x27' ∧ c ≠ '\n' ∧ c ≠ '\r' := by
      intro s
      unfold typeName
      split <;> decide
    exact plain _
  options := by
    intro v hv
    have shape := Declarations.classify_written declared written
    change v ∈ (controlOf (ds.classify p.type)).options at hv
    unfold controlOf at hv
    split at hv
    case h_5 u eq =>
      rw [eq] at shape
      exact shape v hv
    all_goals cases hv

/-! ## The statement -/

/-- Every property of a contract is one pair of the region, in the order of the contract. -/
theorem props_land_once (source : String) (options : Options) {c : Contract} {ds : Declarations}
    (clear : (parse source.toList).hasFault = false)
    (hc : c ∈ (Analysis.ofSource source).1.contracts)
    (hds : (Analysis.ofSource source).1.declarations = some ds)
    (names : ∀ p ∈ c.properties, OneLine p.name ∧ ∀ q, Nested ds p.type q → OneLine q.name)
    (r : Region) (indent : String) (blank : IsIndent indent) :
    let out := r.render (describeContract options ds c) indent
    out.diagnostics = [] ∧
      (∃ value : Property → List Char, IsLiteral out.text.toList
        (c.properties.map fun p => ((Text.objectKey p.name).toList, value p))) ∧
      (c.properties.map fun p => Text.objectKey p.name).Nodup := by
  intro out
  obtain ⟨contracts, declared⟩ := Analysis.ofSource_written clear
  have written := contracts c hc
  have lines : ∀ p ∈ c.properties, (∃ e, r.IsLine (indent ++ indentStep) (describe options ds p) e) ∧
      (r.entry (indent ++ indentStep) (describe options ds p)).diagnostics = [] := by
    intro p hp
    obtain ⟨name, nested⟩ := names p hp
    exact exists_line blank.step (writable_describe (declared ds hds) (written.types p hp))
      (isDefault_value options options.maxDepth name nested).isSpaced r
  refine ⟨?_, ?_, ?_⟩
  · rw [render_diagnostics, List.flatMap_eq_nil_iff, describeContract]
    exact List.forall_mem_map.2 fun p hp => (lines p hp).2
  · have lines' : ∀ d ∈ describeContract options ds c, ∃ e, r.IsLine (indent ++ indentStep) d e :=
      List.forall_mem_map.2 fun p hp => (lines p hp).1
    choose! line hline using lines'
    obtain ⟨-, literal⟩ := render_literal blank hline
    refine ⟨fun p => (line (describe options ds p)).core, ?_⟩
    rw [describeContract, List.map_map] at literal
    exact literal
  · have distinct := written.names
    rw [DistinctNames, List.nodup_iff_pairwise_ne, List.pairwise_map] at distinct
    rw [List.nodup_iff_pairwise_ne, List.pairwise_map]
    exact distinct.imp_of_mem fun ha hb apart same =>
      apart (objectKey_inj (names _ ha).1 (names _ hb).1 same)

/-! ## A contract with a quoted name and an object in an array -/

def rowsSource : String := "export interface BProps\x7b'a-b':\x7bn:number\x7d[]\x7d"

def numberNode : Tree := .node .predefinedType none 33 39 []

def rowNode : Tree :=
  .node .objectType none 30 40
    [.node (.token "\x7b") none 30 31 [],
      .node .propertySignature none 31 39
        [.node .propertyIdentifier (some .name) 31 32 [],
          .node .typeAscription (some .type) 32 39 [.node (.token ":") none 32 33 [], numberNode]],
      .node (.token "\x7d") none 39 40 []]

def rowsNode : Tree :=
  .node .arrayType none 30 42
    [rowNode, .node (.token "[") none 40 41 [], .node (.token "]") none 41 42 []]

def rowsBody : Tree :=
  .node .interfaceBody (some .body) 23 43
    [.node (.token "\x7b") none 23 24 [],
      .node .propertySignature none 24 42
        [.node .string (some .name) 24 29 [],
          .node .typeAscription (some .type) 29 42 [.node (.token ":") none 29 30 [], rowsNode]],
      .node (.token "\x7d") none 42 43 []]

def rowsSyntax : Syntax where
  source := rowsSource.toList
  root :=
    .node .program none 0 43
      [.node .exportStatement none 0 43
        [.node (.token "export") none 0 6 [],
          .node .interfaceDeclaration (some .declaration) 7 43
            [.node (.token "interface") none 7 16 [],
              .node .typeIdentifier (some .name) 17 23 [], rowsBody]]]

def numberType : TypeRef := .mk (.keyword "number") "number"

def rowType : TypeRef := .mk (.object [.mk "n" numberType false none]) "\x7bn:number\x7d"

def rowsType : TypeRef := .mk (.array rowType) "\x7bn:number\x7d[]"

def rowsContract : Contract := ⟨"BProps", [.mk "a-b" rowsType false none], .declared⟩

def rowsDeclarations : Declarations :=
  [("BProps", .interface rowsContract.properties [])]

theorem parse_rowsSource : parse rowsSource.toList = rowsSyntax :=
  @parse_eq rowsSyntax (by decide +kernel)

theorem type_numberNode : Lower.type rowsSyntax numberNode = numberType := by
  rw [Lower.type, Lower.form]
  rfl

theorem type_rowNode : Lower.type rowsSyntax rowNode = rowType := by
  have members : Lower.members rowsSyntax rowNode = [.mk "n" numberType false none] := by
    rw [← type_numberNode, Lower.members]
    rfl
  have form : Lower.form rowsSyntax rowNode = .object (Lower.members rowsSyntax rowNode) := by
    rw [Lower.form]
    rfl
  have type : Lower.type rowsSyntax rowNode =
      .mk (Lower.form rowsSyntax rowNode) (Lower.shown rowsSyntax rowNode) := by
    rw [Lower.type]
    rfl
  rw [type, form, members]
  rfl

theorem type_rowsNode : Lower.type rowsSyntax rowsNode = rowsType := by
  have form : Lower.form rowsSyntax rowsNode = .array (Lower.type rowsSyntax rowNode) := by
    rw [Lower.form]
    rfl
  have type : Lower.type rowsSyntax rowsNode =
      .mk (Lower.form rowsSyntax rowsNode) (Lower.shown rowsSyntax rowsNode) := by
    rw [Lower.type]
    rfl
  rw [type, form, type_rowNode]
  rfl

theorem ofSource_rowsSource : (Analysis.ofSource rowsSource).1.contracts = [rowsContract] ∧
    (Analysis.ofSource rowsSource).1.declarations = some rowsDeclarations := by
  have members : Lower.members rowsSyntax rowsBody = rowsContract.properties := by
    rw [rowsContract, ← type_rowsNode, Lower.members]
    rfl
  have items : FileItem.ofFile rowsSyntax =
    [.type "BProps" (.interface (Lower.members rowsSyntax rowsBody) []) true] := rfl
  simp only [Analysis.ofSource, parse_rowsSource, Analysis.ofSyntax, items, members]
  exact ⟨rfl, rfl⟩

theorem nested_rowsType {q : Property} (h : Nested rowsDeclarations rowsType q) :
    OneLine q.name := by
  have number : ∀ {q}, ¬ Nested rowsDeclarations numberType q := by
    rintro q (⟨shape, -⟩ | ⟨shape, -⟩ | ⟨shape, -⟩) <;> cases shape
  have row : ∀ {q}, Nested rowsDeclarations rowType q → OneLine q.name := by
    rintro q (⟨shape, member⟩ | ⟨shape, -⟩ | ⟨shape, member, inner⟩)
    · obtain rfl := Shape.object.inj shape
      obtain rfl := List.mem_singleton.1 member
      decide
    · cases shape
    · obtain rfl := Shape.object.inj shape
      obtain rfl := List.mem_singleton.1 member
      exact absurd inner number
  obtain ⟨shape, -⟩ | ⟨shape, inner⟩ | ⟨shape, -⟩ := h
  · cases shape
  · obtain rfl := Option.some.inj (Shape.array.inj shape)
    exact row inner
  · cases shape

theorem props_land_once_of_rows :
    (parse rowsSource.toList).hasFault = false ∧
      rowsContract ∈ (Analysis.ofSource rowsSource).1.contracts ∧
      (argTypes.render (describeContract ⟨3, true⟩ rowsDeclarations rowsContract) "\t").diagnostics =
        [] ∧
      (args.render (describeContract ⟨3, true⟩ rowsDeclarations rowsContract) "\t").text =
        "\x7b\n\t  'a-b': [\x7b n: 0 \x7d],\n\t\x7d" ∧
      ∃ value, IsLiteral "\x7b\n\t  'a-b': [\x7b n: 0 \x7d],\n\t\x7d".toList
        [("'a-b'".toList, value)] := by
  have clear : (parse rowsSource.toList).hasFault = false := by
    rw [parse_rowsSource]
    decide
  obtain ⟨contracts, declarations⟩ := ofSource_rowsSource
  have member : rowsContract ∈ (Analysis.ofSource rowsSource).1.contracts := by
    rw [contracts]
    exact List.mem_singleton_self _
  have names : ∀ p ∈ rowsContract.properties, OneLine p.name ∧
      ∀ q, Nested rowsDeclarations p.type q → OneLine q.name := by
    intro p hp
    obtain rfl := List.mem_singleton.1 hp
    exact ⟨by decide, fun q => nested_rowsType⟩
  have lands := fun r => props_land_once rowsSource ⟨3, true⟩ clear member declarations names r "\t"
    (by decide)
  have text : (args.render (describeContract ⟨3, true⟩ rowsDeclarations rowsContract) "\t").text =
      "\x7b\n\t  'a-b': [\x7b n: 0 \x7d],\n\t\x7d" := by decide +kernel
  obtain ⟨-, ⟨value, literal⟩, -⟩ := lands .args
  rw [text] at literal
  exact ⟨clear, member, (lands .argTypes).1, text, _, literal⟩

end PropStories.Region
