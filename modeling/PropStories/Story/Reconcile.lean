import PropStories.Story.Edit
import PropStories.Story.Locate
import PropStories.Story.Region

/-!
# Reconciling a story with its component

The two generated regions of a story are written anew for the current props; all else stays as it
is. A region whose value is not an object literal was written by hand and is left alone. A story
with a syntax error is not touched at all.
-/

namespace PropStories

open Synth Tsx

structure ReconcileOptions where
  /-- The name of the default story. -/
  defaultStory : String
  /-- Whether the table of props is generated; if not, it is removed. -/
  generateArgTypes : Bool
  actions : Bool

inductive ArgTypesChange where
  | replaced | inserted | removed
  /-- There was nothing to do, or nothing could be done. -/
  | untouched
  deriving DecidableEq

structure ReconcileReport where
  argTypes : ArgTypesChange
  argsUpdated : Bool
  diagnostics : List Diagnostic
  deriving DecidableEq

inductive Reconciliation where
  | updated (content : String) (report : ReconcileReport)
  /-- There is neither `meta` nor the default story. -/
  | unrecognized
  /-- The story has a syntax error, the first one on the given line. -/
  | unparsable (line : Nat)
  /-- The edits cut a character apart, with which the program breaks off. -/
  | torn (diagnostics : List Diagnostic)
  deriving DecidableEq

namespace Reconciliation

open Story

/-! ## One region -/

inductive Change where
  | replaced | inserted | removed
  deriving DecidableEq

structure RegionPlan where
  edit : Option (Change × Edit)
  diagnostics : List Diagnostic

namespace RegionPlan

def nothing : RegionPlan := ⟨none, []⟩

def change? (p : RegionPlan) : Option Change := p.edit.map Prod.fst

def edits (p : RegionPlan) : List Edit := (p.edit.map Prod.snd).toList

end RegionPlan

def replaceEntry (x : Syntax) (props : List PropDescriptor) (r : Region) (pair : Tree) :
    RegionPlan :=
  match pair.child? .value with
  | none => .nothing
  | some value =>
      if value.kind == .object then
        let rendered := r.render props (lineIndent x.source pair.start)
        ⟨some (.replaced, ⟨value.start, value.stop, rendered.text.toList⟩), rendered.diagnostics⟩
      else ⟨none, [.notAnObject r.key]⟩

def insertBehind (x : Syntax) (props : List PropDescriptor) (r : Region) (object last : Tree) :
    RegionPlan :=
  let indent := lineIndent x.source last.start
  let rendered := r.render props indent
  let line := "\n" ++ indent ++ r.key ++ ": " ++ rendered.text ++ ","
  let edit := match commaBehind? object last.stop with
    | some comma => Edit.insert comma.stop line
    | none => Edit.insert last.stop ("," ++ line)
  ⟨some (.inserted, edit), rendered.diagnostics⟩

/-- The first entry of an object literal. Comments inside it stay in front; white space alone is
replaced. -/
def insertFirst (x : Syntax) (props : List PropDescriptor) (r : Region) (object : Tree) :
    RegionPlan :=
  let outer := lineIndent x.source object.start
  let indent := outer ++ Region.indentStep
  let rendered := r.render props indent
  let first := object.start + 1
  let last := max (object.stop - 1) first
  let start := if blankBetween x.source first last then first else last
  let text := "\n" ++ indent ++ r.key ++ ": " ++ rendered.text ++ ",\n" ++ outer
  ⟨some (.inserted, ⟨start, last, text.toList⟩), rendered.diagnostics⟩

def upsert (x : Syntax) (props : List PropDescriptor) (r : Region) (object : Tree) : RegionPlan :=
  match pairOf? x object r.key with
  | some pair => replaceEntry x props r pair
  | none =>
      match object.parts.getLast? with
      | some last => insertBehind x props r object last
      | none => insertFirst x props r object

def remove (x : Syntax) (r : Region) (object : Tree) : RegionPlan :=
  match pairOf? x object r.key with
  | some pair =>
      let (start, stop) := removalRange x.source object pair
      ⟨some (.removed, .remove start stop), []⟩
  | none => .nothing

/-! ## Both regions -/

def planArgTypes (x : Syntax) (props : List PropDescriptor) (o : ReconcileOptions) :
    Option Tree → RegionPlan
  | none => ⟨none, [.metaNotFound]⟩
  | some object =>
      if o.generateArgTypes then upsert x props .argTypes object else remove x .argTypes object

def planArgs (x : Syntax) (props : List PropDescriptor) (o : ReconcileOptions) :
    Option Tree → RegionPlan
  | none => ⟨none, [.storyNotFound o.defaultStory]⟩
  | some object => upsert x props .args object

def argTypesChange (p : RegionPlan) : ArgTypesChange :=
  match p.change? with
  | some .replaced => .replaced
  | some .inserted => .inserted
  | some .removed => .removed
  | none => .untouched

def usesActions (props : List PropDescriptor) : Bool :=
  props.any fun p => Text.occursIn (actionHelper ++ "(").toList p.defaultValue.toList

def actionDiagnostics (x : Syntax) (props : List PropDescriptor) (o : ReconcileOptions) :
    List Diagnostic :=
  if o.actions && usesActions props && !imports x actionHelper then [.actionNotImported] else []

def ofSyntax (x : Syntax) (props : List PropDescriptor) (o : ReconcileOptions) :
    Reconciliation :=
  match objectOf? x metaName, objectOf? x o.defaultStory with
  | none, none => .unrecognized
  | about, story =>
      let argTypes := planArgTypes x props o about
      let args := planArgs x props o story
      let diagnostics :=
        argTypes.diagnostics ++ args.diagnostics ++ actionDiagnostics x props o
      match Edit.make? (argTypes.edits ++ args.edits) x.source with
      | none => .torn diagnostics
      | some content =>
          .updated (String.ofList content)
            { argTypes := argTypesChange argTypes
              argsUpdated := args.change?.isSome
              diagnostics }

end Reconciliation

def reconcile (story : String) (props : List PropDescriptor) (o : ReconcileOptions) :
    Reconciliation :=
  let x := parse story.toList
  match x.faultLine? with
  | some line => .unparsable line
  | none => Reconciliation.ofSyntax x props o

namespace Reconciliation

def events : Reconciliation → List LogEvent
  | .updated _ report => report.diagnostics.filterMap Diagnostic.event?
  | .torn diagnostics => diagnostics.filterMap Diagnostic.event?
  | _ => []

end Reconciliation

end PropStories
