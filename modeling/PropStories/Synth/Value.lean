import PropStories.Contract.Service
import PropStories.Text.Quoted

/-!
# Default values

Every type has a default value, an expression built from its shape. A value nests at most as deep
as the configured bound; what lies below, and what no expression represents, is `undefined` with a
comment that says why.
-/

namespace PropStories.Synth

structure Options where
  /-- How deep arrays, objects and callables may nest. -/
  maxDepth : Nat
  /-- Whether functions record their calls. -/
  actions : Bool

def actionHelper : String := "action"

def depthPlaceholder : String := "undefined /* Max recursion depth reached */"

def nodePlaceholder : String := "undefined /* ReactNode placeholder */"

def openCommentEnds (cs : List Char) : List Char :=
  Text.replaceAll "*/".toList "* /".toList cs.length cs

/-- What stands in for a value of a type that no expression represents. -/
def unrepresentable (typeText : String) : String :=
  "undefined /* type: " ++ String.ofList (openCommentEnds typeText.toList) ++ " */"

def actionName (name : String) : String :=
  String.ofList (name.toList.filter fun c => !("'\"`\\".toList.contains c))

def callable (options : Options) (name : String) : String :=
  if options.actions then actionHelper ++ "('" ++ actionName name ++ "')" else "() => \x7b\x7d"

def value (options : Options) (service : TypeService) : Nat → String → TypeRef → String
  | 0, _, _ => depthPlaceholder
  | depth + 1, name, t =>
      match service.classify t with
      | .string => "''"
      | .number => "0"
      | .boolean => "false"
      | .array (some element) => "[" ++ value options service depth name element ++ "]"
      | .array none => "[]"
      | .object [] => "\x7b\x7d"
      | .object properties =>
          "\x7b " ++ ", ".intercalate (properties.map fun p =>
            Text.objectKey p.name ++ ": " ++ value options service depth p.name p.type) ++ " \x7d"
      | .function => callable options name
      | .node => nodePlaceholder
      | .literals _ | .unknown => unrepresentable (service.text t)

/-- The default value of a property; the value itself is the first level. -/
def defaultValue (options : Options) (service : TypeService) (name : String) (t : TypeRef) :
    String :=
  value options service options.maxDepth name t

end PropStories.Synth
