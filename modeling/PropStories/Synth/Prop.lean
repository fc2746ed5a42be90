import PropStories.Synth.Value

/-!
# Props

A prop is what a story shows of one property of a contract: its default value, the control that
edits it, and how it is described.
-/

namespace PropStories.Synth

/-! ## Controls -/

inductive ControlKind where
  | boolean | number | text | select | object
  /-- Not editable: functions are called, not edited. -/
  | none
  deriving DecidableEq

def ControlKind.label : ControlKind → String
  | boolean => "boolean"
  | number => "number"
  | text => "text"
  | select => "select"
  | object => "object"
  | none => "none"

def ControlKind.all : List ControlKind := [boolean, number, text, select, object, none]

def ControlKind.ofLabel? (label : String) : Option ControlKind :=
  all.find? fun k => k.label == label

structure Control where
  kind : ControlKind
  /-- The choices, as written in the source. -/
  options : List String

def controlOf : Shape → Control
  | .boolean => ⟨.boolean, []⟩
  | .number => ⟨.number, []⟩
  | .string => ⟨.text, []⟩
  | .function => ⟨.none, []⟩
  | .literals u => ⟨.select, u.values⟩
  | .array _ | .object _ | .node | .unknown => ⟨.object, []⟩

def typeName : Shape → String
  | .string | .literals (.strings _) => "string"
  | .number | .literals (.numbers _) => "number"
  | .boolean => "boolean"
  | .array _ => "array"
  | .function => "function"
  | .object _ => "object"
  | .node | .unknown => "other"

/-! ## Descriptions -/

structure PropDescriptor where
  name : String
  type : TypeRef
  isOptional : Bool
  description : Option String
  defaultValue : String
  control : Control
  typeName : String
  typeSummary : String

def describe (options : Options) (service : TypeService) (p : Property) : PropDescriptor :=
  let shape := service.classify p.type
  { name := p.name
    type := p.type
    isOptional := p.isOptional
    description := service.documentation? p
    defaultValue := defaultValue options service p.name p.type
    control := controlOf shape
    typeName := typeName shape
    typeSummary := service.text p.type }

def describeContract (options : Options) (service : TypeService) (c : Contract) :
    List PropDescriptor :=
  c.properties.map (describe options service)

end PropStories.Synth
