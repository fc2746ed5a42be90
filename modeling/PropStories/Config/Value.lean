import PropStories.Path

/-!
# Values of settings, and how records are read from them

A value stands at a place of the text that it was read from. Reading a record takes a default for
every field that is missing and ignores what it does not know; what has the wrong type is an error
at its place.
-/

namespace PropStories

inductive Value where
  | null
  | boolean (b : Bool)
  | integer (n : Int)
  /-- A number that is not an integer. -/
  | real
  /-- A date, a time of day, or both. -/
  | moment
  | text (s : String)
  | list (items : List (Nat × Value))
  | table (entries : List (String × Nat × Value))

instance : Inhabited Value := ⟨.null⟩

abbrev Decoder (α : Type) := Nat × Value → Except Nat α

namespace Decoder

def text : Decoder String
  | (_, .text s) => .ok s
  | (place, _) => .error place

def path : Decoder Path := fun v => (text v).map Path.mk

def boolean : Decoder Bool
  | (_, .boolean b) => .ok b
  | (place, _) => .error place

def countBound : Nat := UInt64.size

def count : Decoder Nat
  | (place, .integer n) =>
      if 0 ≤ n ∧ n.toNat < countBound then .ok n.toNat else .error place
  | (place, _) => .error place

def listOf {α : Type} (d : Decoder α) : Decoder (List α)
  | (_, .list items) => items.mapM d
  | (place, _) => .error place

def optional {α : Type} (d : Decoder α) : Decoder (Option α) := fun v => (d v).map some

end Decoder

/-- The fields of a record: by name, or in the order of the record. -/
inductive Fields where
  | named (entries : List (String × Nat × Value))
  | listed (items : List (Nat × Value))

namespace Fields

def none : Fields := named []

/-- A list holds the fields of a record in order; a moment has none that a record knows. -/
def decode : Decoder Fields
  | (_, .table entries) => .ok (named entries)
  | (_, .list items) => .ok (listed items)
  | (_, .moment) => .ok none
  | (place, _) => .error place

def find? (fs : Fields) (name : String) (index : Nat) : Option (Nat × Value) :=
  match fs with
  | named entries => entries.lookup name
  | listed items => items[index]?

def get {α : Type} (fs : Fields) (name : String) (index : Nat) (d : Decoder α) (default : α) :
    Except Nat α :=
  match fs.find? name index with
  | some v => d v
  | Option.none => .ok default

def exceed (fs : Fields) (n : Nat) : Bool :=
  match fs with
  | named _ => false
  | listed items => n < items.length

end Fields

end PropStories
