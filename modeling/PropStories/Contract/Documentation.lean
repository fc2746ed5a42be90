import PropStories.Contract.Type
import PropStories.Text.Blank

/-!
# Documentation comments

The text of a block that begins with two stars: its lines without the decoration in front of them.
-/

namespace PropStories.Documentation

open Text

def isDocumentation (comment : List Char) : Bool := startsWith "/**".toList comment

/-- A line without the blanks around it, the star in front of it, and one space after that. -/
def undecorated (line : List Char) : List Char :=
  let line := trim line
  let line := (afterStart? ['*'] line).getD line
  trimEnd ((afterStart? [' '] line).getD line)

def clean (comment : List Char) : List Char :=
  let body := dropAllEnds "*/".toList (dropAllStarts "/**".toList (trim comment))
  trim (['\n'].intercalate ((lines body).map undecorated))

end PropStories.Documentation

namespace PropStories

def Property.documentation? (p : Property) : Option String :=
  match p.comment with
  | none => none
  | some comment =>
      match Documentation.clean comment.toList with
      | [] => none
      | text => some (String.ofList text)

end PropStories
