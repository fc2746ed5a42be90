/-!
# Declared types and their shapes

A declared type keeps its syntax, as far as it matters, and its text. Names in it stay names:
what they stand for is looked up when the type is classified into a shape.
-/

namespace PropStories

mutual

inductive TypeRef where
  | mk (form : TypeForm) (text : String)

inductive TypeForm where
  | keyword (word : String)
  /-- A string literal with its quotes. -/
  | stringLiteral (text : String)
  | numberLiteral (text : String)
  | booleanLiteral (value : Bool)
  | null
  | undefined
  | array (element : TypeRef)
  | union (members : List TypeRef)
  | intersection (members : List TypeRef)
  | object (properties : List Property)
  | function
  | named (name : String) (arguments : List TypeRef)
  /-- Syntax that has no shape of its own: tuples, conditional types and the like. -/
  | other

inductive Property where
  | mk (name : String) (type : TypeRef) (isOptional : Bool) (comment : Option String)

end

namespace TypeRef

def form : TypeRef → TypeForm
  | mk f _ => f

def text : TypeRef → String
  | mk _ t => t

def ofName (name : String) : TypeRef := mk (.named name []) name

def isNullish (t : TypeRef) : Bool :=
  match t.form with
  | .null | .undefined => true
  | .keyword w => w == "undefined" || w == "null"
  | .named n _ => n == "undefined" || n == "null"
  | _ => false

end TypeRef

namespace Property

def name : Property → String
  | mk n _ _ _ => n

def type : Property → TypeRef
  | mk _ t _ _ => t

def isOptional : Property → Bool
  | mk _ _ o _ => o

def comment : Property → Option String
  | mk _ _ _ c => c

/-- Properties in order, with those of a second list whose names are new. -/
def merge (first second : List Property) : List Property :=
  second.foldl (fun into p => if into.any (·.name == p.name) then into else into ++ [p]) first

end Property

/-! ## Shapes -/

inductive LiteralUnion where
  | strings (values : List String)
  | numbers (values : List String)

def LiteralUnion.values : LiteralUnion → List String
  | strings vs => vs
  | numbers vs => vs

inductive Shape where
  | string
  | number
  | boolean
  /-- An array; its element type may be unknown. -/
  | array (element : Option TypeRef)
  | literals (union : LiteralUnion)
  | object (properties : List Property)
  | function
  /-- Something that can be rendered. -/
  | node
  | unknown

/-! ## Contracts -/

inductive ContractOrigin where
  /-- An exported type whose name marks it as a contract. -/
  | declared
  /-- The type of the first parameter of an exported component. -/
  | parameter

structure Contract where
  name : String
  properties : List Property
  origin : ContractOrigin

/-- The contract of a component: the one named after it, otherwise the first. -/
def Contract.select? (contracts : List Contract) (component : String) : Option Contract :=
  match contracts.find? fun c => c.name == component ++ "Props" || c.name == component with
  | some c => some c
  | none => contracts.head?

end PropStories
