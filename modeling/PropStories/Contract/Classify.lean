import PropStories.Contract.Type
import PropStories.Text.Blank

/-!
# Classifying types

A type is classified by following names through the declarations of its file. Following a name, a
base, a member of a union or an argument is one step; a type that needs too many steps is unknown,
so that types which refer to themselves are no danger.
-/

namespace PropStories

inductive Declaration where
  | interface (properties : List Property) (bases : List TypeRef)
  | aliasOf (target : TypeRef)

abbrev Declarations := List (String × Declaration)

namespace Declarations

/-! ## Well-known names -/

def nodeTypes : List String :=
  ["ReactNode", "ReactElement", "ReactChild", "ReactPortal", "JSX.Element"]

def unqualified (name : String) : String :=
  match Text.afterStart? "React.".toList name.toList with
  | some rest => String.ofList rest
  | none => name

inductive WellKnown where
  | shape (s : Shape)
  /-- The shape of the first argument. -/
  | first
  | none

def wellKnown (name : String) (arguments : List TypeRef) : WellKnown :=
  if nodeTypes.contains name then .shape .node
  else match name with
    | "Array" | "ReadonlyArray" => .shape (.array arguments.head?)
    | "Function" => .shape .function
    | "String" => .shape .string
    | "Number" => .shape .number
    | "Boolean" => .shape .boolean
    | "Record" => .shape (.object [])
    | "Partial" | "Readonly" | "Required" => .first
    | _ => .none

/-! ## Unions and intersections of shapes -/

def isBoolean : Shape → Bool
  | .boolean => true
  | _ => false

def literalsOf : List Shape → Option (List String × List String)
  | [] => some ([], [])
  | .literals (.strings vs) :: rest => (literalsOf rest).map fun (s, n) => (vs ++ s, n)
  | .literals (.numbers vs) :: rest => (literalsOf rest).map fun (s, n) => (s, vs ++ n)
  | _ :: _ => none

def unionShape (shapes : List Shape) : Shape :=
  if shapes.all isBoolean then .boolean
  else match literalsOf shapes with
    | some (v :: vs, []) => .literals (.strings (v :: vs))
    | some ([], v :: vs) => .literals (.numbers (v :: vs))
    | _ => .unknown

def propertiesOf? : Shape → Option (List Property)
  | .object ps => some ps
  | _ => none

def intersectionShape (shapes : List Shape) : Shape :=
  match shapes.filterMap propertiesOf? with
  | [] => .unknown
  | objects => .object (objects.foldl Property.merge [])

/-! ## Classification -/

def keywordShape : String → Shape
  | "string" => .string
  | "number" | "bigint" => .number
  | "boolean" => .boolean
  | "object" => .object []
  | _ => .unknown

/-- The shape of a type, with at most `steps` types on the way. -/
def classifyWithin (ds : Declarations) : Nat → TypeRef → Shape
  | 0, _ => .unknown
  | steps + 1, t =>
      match t.form with
      | .keyword w => keywordShape w
      | .stringLiteral v => .literals (.strings [v])
      | .numberLiteral v => .literals (.numbers [v])
      | .booleanLiteral _ => .boolean
      | .null | .undefined | .other => .unknown
      | .array e => .array (some e)
      | .union members =>
          match members.filter (!·.isNullish) with
          | [] => .unknown
          | [single] => classifyWithin ds steps single
          | some_ => unionShape (some_.map (classifyWithin ds steps))
      | .intersection members => intersectionShape (members.map (classifyWithin ds steps))
      | .object ps => .object ps
      | .function => .function
      | .named name arguments =>
          match wellKnown (unqualified name) arguments with
          | .shape s => s
          | .first =>
              match arguments with
              | inner :: _ => classifyWithin ds steps inner
              | [] => .unknown
          | .none =>
              match ds.lookup name with
              | some (.aliasOf target) => classifyWithin ds steps target
              | some (.interface own bases) =>
                  .object ((bases.filterMap fun b =>
                    propertiesOf? (classifyWithin ds steps b)).foldl Property.merge own)
              | none => .unknown

def stepLimit : Nat := 16

def classify (ds : Declarations) (t : TypeRef) : Shape := classifyWithin ds (stepLimit + 1) t

end Declarations

end PropStories
