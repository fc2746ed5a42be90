import PropStories.Contract.Classify
import PropStories.Contract.Documentation

/-!
# What is asked about types

Props are made of three answers about a contract: the shape of a type, its text, and what a
property is documented with. The declarations of a file give one way to answer.
-/

namespace PropStories

structure TypeService where
  classify : TypeRef → Shape
  /-- The text that shows a type. -/
  text : TypeRef → String
  documentation? : Property → Option String

def Declarations.service (ds : Declarations) : TypeService :=
  ⟨ds.classify, TypeRef.text, Property.documentation?⟩

instance : Coe Declarations TypeService := ⟨Declarations.service⟩

end PropStories
