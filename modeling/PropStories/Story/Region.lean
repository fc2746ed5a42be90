import PropStories.Story.Diagnostic
import PropStories.Synth.Prop
import PropStories.Tsx.Parse

/-!
# The generated regions of a story

Two object literals of a story are generated: the table of props in `meta`, and the args of the
default story. Each has one entry for a prop, on lines of its own, indented from the line that
holds the key of the region.
-/

namespace PropStories

open Synth

inductive Region where
  /-- The table of props, which belongs to `meta`. -/
  | argTypes
  /-- The values of the props, which belong to the default story. -/
  | args
  deriving DecidableEq

namespace Region

def key : Region → String
  | argTypes => "argTypes"
  | args => "args"

def indentStep : String := "  "

def quotedLine (s : String) : String := Text.Quoted.quote (Text.singleSpaced s)

/-! ## Entries -/

def controlText (c : Control) : String :=
  match c.kind with
  | .none => "false"
  | .select => "\x7b type: 'select', options: [" ++ ", ".intercalate c.options ++ "] \x7d"
  | kind => "'" ++ kind.label ++ "'"

def descriptionLines (indent : String) (p : PropDescriptor) : List String :=
  match p.description with
  | some d => [indent ++ "description: " ++ Text.Quoted.quote d ++ ","]
  | none => []

def argType (indent : String) (p : PropDescriptor) : String :=
  let field := indent ++ indentStep
  let nested := field ++ indentStep
  "\n".intercalate
    (["\x7b", field ++ "name: " ++ Text.Quoted.quote p.name ++ ",",
      field ++ "type: \x7b name: '" ++ p.typeName ++ "', required: " ++
        (if p.isOptional then "false" else "true") ++ " \x7d,"] ++
    descriptionLines field p ++
    [field ++ "control: " ++ controlText p.control ++ ",",
      field ++ "table: \x7b",
      nested ++ "type: \x7b summary: " ++ quotedLine p.typeSummary ++ " \x7d,",
      nested ++ "defaultValue: \x7b summary: " ++ quotedLine p.defaultValue ++ " \x7d,",
      field ++ "\x7d,",
      indent ++ "\x7d"])

structure Rendered where
  text : String
  diagnostics : List Diagnostic

namespace Rendered

def empty : Rendered := ⟨"", []⟩

def append (a b : Rendered) : Rendered := ⟨a.text ++ b.text, a.diagnostics ++ b.diagnostics⟩

end Rendered

/-- The lines of a prop in a region. In the table, an entry that is no expression is left out; in
the args, a value that is no expression is named behind `undefined`. -/
def entry (indent : String) (p : PropDescriptor) : Region → Rendered
  | argTypes =>
      let value := argType indent p
      if Tsx.isExpression value then
        ⟨indent ++ Text.objectKey p.name ++ ": " ++ value ++ ",\n", []⟩
      else ⟨"", [.entrySkipped p.name]⟩
  | args =>
      let start := indent ++ Text.objectKey p.name ++ ": "
      if Tsx.isExpression p.defaultValue then ⟨start ++ p.defaultValue ++ ",\n", []⟩
      else
        ⟨start ++ "undefined, // unparsable default: " ++ Text.singleSpaced p.defaultValue ++ "\n",
          [.defaultReplaced p.name p.defaultValue]⟩

/-! ## The literal -/

def entries (indent : String) (props : List PropDescriptor) (r : Region) : Rendered :=
  (props.map fun p => r.entry indent p).foldr Rendered.append .empty

def render (r : Region) (props : List PropDescriptor) (indent : String) : Rendered :=
  let inside := r.entries (indent ++ indentStep) props
  if inside.text.isEmpty then { inside with text := "\x7b\x7d" }
  else { inside with text := "\x7b\n" ++ inside.text ++ indent ++ "\x7d" }

end Region

end PropStories
