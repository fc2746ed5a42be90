import PropStories.Contract.Classify
import PropStories.Contract.Lower
import PropStories.Log
import PropStories.Tsx.Parse

/-!
# The contracts of a component file

Each statement of a file contributes items: declared types, components with the type of their
properties, a default export. Exported types whose names end in `Props` or `Properties` are the
contracts; without any, the exported components give theirs, the default export first.
-/

namespace PropStories

open Tsx

inductive FileItem where
  | type (name : String) (declaration : Declaration) (exported : Bool)
  | component (name : String) (properties : TypeRef) (exported isDefault : Bool)
  | defaultName (name : String)
  /-- A function that is itself the default export. -/
  | defaultFunction (properties : TypeRef)

namespace Component

/-! ## The type of a component's properties -/

def firstParameterType? (x : Syntax) (function : Tree) : Option TypeRef := do
  let parameters ← function.child? .parameters
  let first ← parameters.firstPart?
  let ascription ← first.child? .type
  (← ascription.firstPart?) |> Lower.type x |> some

def componentTypes : List String := ["FC", "FunctionComponent", "VFC", "ComponentType"]

def ascribedType? (x : Syntax) (ascription : Tree) : Option TypeRef := do
  let t ← ascription.firstPart?
  if t.kind != .genericType then none
  let name ← t.child? .name
  if !(componentTypes.contains (Declarations.unqualified (x.stringOf name))) then none
  let arguments ← t.child? .typeArguments
  (← arguments.firstPart?) |> Lower.type x |> some

def isFunction (k : Kind) : Bool := k == .arrow || k == .function

/-- The type of the properties of a component given by an expression: a function, perhaps in
parentheses or passed to `memo` or `forwardRef`. -/
def expressionType? (x : Syntax) (t : Tree) : Option TypeRef :=
  if isFunction t.kind then firstParameterType? x t
  else match t.kind with
    | .parenthesized =>
        match _h : t.firstPart? with
        | some inner => expressionType? x inner
        | none => none
    | .call =>
        match t.child? .function with
        | none => none
        | some function =>
            let callee := Declarations.unqualified (x.stringOf function)
            let given := if callee == "forwardRef" then
                ((t.child? .typeArguments).bind fun a => a.parts[1]?).map (Lower.type x)
              else none
            match given with
            | some properties => some properties
            | none =>
                if callee == "forwardRef" || callee == "memo" then
                  match _h : t.child? .arguments with
                  | none => none
                  | some arguments =>
                      match _h' : arguments.firstPart? with
                      | some first => expressionType? x first
                      | none => none
                else none
    | _ => none
termination_by t
decreasing_by
  · exact Tree.sizeOf_lt_of_firstPart? _h
  · exact Nat.lt_trans (Tree.sizeOf_lt_of_firstPart? _h') (Tree.sizeOf_lt_of_child? _h)

def declaratorType? (x : Syntax) (declarator : Tree) : Option TypeRef :=
  ((declarator.child? .type).bind (ascribedType? x)) <|>
    (declarator.child? .value).bind (expressionType? x)

end Component

namespace FileItem

open Component

/-! ## Items of a statement -/

def isContractName (name : String) : Bool :=
  Text.endsWith "Props".toList name.toList || Text.endsWith "Properties".toList name.toList

def interface? (x : Syntax) (t : Tree) : Option (String × Declaration) :=
  (t.child? .name).map fun name =>
    (x.stringOf name, .interface
      (((t.child? .body).map (Lower.members x)).getD [])
      (((t.namedChildren.filter (·.kind == .extendsClause)).flatMap Tree.parts).map
        (Lower.type x)))

def aliased? (x : Syntax) (t : Tree) : Option (String × Declaration) := do
  let name ← t.child? .name
  let value ← t.child? .value
  some (x.stringOf name, .aliasOf (Lower.type x value))

def ofDeclaration (x : Syntax) (t : Tree) (exported isDefault : Bool) : List FileItem :=
  match t.kind with
  | .interfaceDeclaration => ((interface? x t).map fun (n, d) => type n d exported).toList
  | .typeAliasDeclaration => ((aliased? x t).map fun (n, d) => type n d exported).toList
  | .functionDeclaration =>
      (do
        let name ← t.child? .name
        let properties ← firstParameterType? x t
        some (component (x.stringOf name) properties exported isDefault) :
        Option FileItem).toList
  | .lexicalDeclaration =>
      (t.namedChildren.filter (·.kind == .variableDeclarator)).filterMap fun d => do
        let name ← d.child? .name
        let properties ← declaratorType? x d
        some (component (x.stringOf name) properties exported false)
  | _ => []

def ofStatement (x : Syntax) (t : Tree) : List FileItem :=
  if t.kind == .exportStatement then
    match t.child? .declaration with
    | some d => ofDeclaration x d true (t.hasToken "default")
    | none =>
        match t.child? .value with
        | none => []
        | some v =>
            if v.kind == .identifier then [defaultName (x.stringOf v)]
            else if isFunction v.kind then
              ((firstParameterType? x v).map defaultFunction).toList
            else []
  else ofDeclaration x t false false

def ofFile (x : Syntax) : List FileItem := x.root.namedChildren.flatMap (ofStatement x)

/-! ## What the items say together -/

/-- The declared types, the latest first. -/
def declarations (items : List FileItem) : Declarations :=
  (items.filterMap fun
    | type n d _ => some (n, d)
    | _ => none).reverse

def contractNames (items : List FileItem) : List String :=
  items.filterMap fun
    | type n _ true => if isContractName n then some n else none
    | _ => none

def components (items : List FileItem) : List (String × TypeRef) :=
  (items.filterMap fun
    | component n t _ _ => some (n, t)
    | _ => none).reverse

def exportedComponents (items : List FileItem) : List String :=
  items.filterMap fun
    | component n _ true _ => some n
    | _ => none

def defaultExport? (items : List FileItem) : Option String :=
  (items.filterMap fun
    | component n _ true true => some n
    | defaultName n => some n
    | _ => none).getLast?

/-- The exported components with their types, the default export first. -/
def componentTypes (items : List FileItem) : List (String × TypeRef) :=
  let inline := (items.filterMap fun
    | defaultFunction t => some ("default", t)
    | _ => none).reverse
  let names := ((defaultExport? items).toList ++ exportedComponents items).eraseDups
  inline ++ names.filterMap fun n => ((components items).lookup n).map (n, ·)

end FileItem

/-- What is known of a component file; without a representation of the file there are no
declarations. -/
structure Analysis where
  contracts : List Contract
  declarations : Option Declarations

namespace Analysis

def unavailable : Analysis := ⟨[], none⟩

def declaredContracts (items : List FileItem) : List Contract :=
  let ds := FileItem.declarations items
  (FileItem.contractNames items).map fun n =>
    ⟨n, (Declarations.propertiesOf? (ds.classify (.ofName n))).getD [], .declared⟩

def parameterContracts (items : List FileItem) : List Contract :=
  let ds := FileItem.declarations items
  (FileItem.componentTypes items).filterMap fun (n, t) =>
    (Declarations.propertiesOf? (ds.classify t)).map fun ps => ⟨n, ps, .parameter⟩

def ofItems (items : List FileItem) : Analysis :=
  let declared := declaredContracts items
  ⟨if declared.isEmpty then parameterContracts items else declared,
    some (FileItem.declarations items)⟩

def ofSyntax (x : Syntax) : Analysis := ofItems (FileItem.ofFile x)

def faultEvents (x : Syntax) : List LogEvent :=
  if x.hasFault then
    [.debug "component source contains syntax errors, analysis may be partial" []]
  else []

def ofSource (source : String) : Analysis × List LogEvent :=
  let x := parse source.toList
  (ofSyntax x, faultEvents x)

end Analysis

end PropStories
