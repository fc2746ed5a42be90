import PropStories.Path
import PropStories.Text.Letter
import PropStories.Text.UpperCase

/-!
# What a component is called

From the path of a component follow the name that stories use for it, the module that they import
it from, where its story lies, and the title of that story. Nothing here looks at the disk.
-/

namespace PropStories

inductive DisplayName where
  | derived (name : String)
  | fallback
  deriving DecidableEq

namespace DisplayName

def unnamed : String := "UnnamedComponent"

def text : DisplayName → String
  | derived n => n
  | fallback => unnamed

def isFallback : DisplayName → Bool
  | derived _ => false
  | fallback => true

end DisplayName

namespace Identity

open Text

/-! ## Names -/

def structuralEndings : List (List Char) := [".component".toList, ".module".toList]

/-- A stem without the first structural ending that fits, unless nothing would remain. -/
def withoutStructuralEnding (stem : List Char) : List Char :=
  let lower := asciiLower stem
  match structuralEndings.find? fun e => endsWith e lower && e.length < lower.length with
  | some e => stem.take (stem.length - e.length)
  | none => stem

def isWordPart (c : Char) : Bool := isAlphanumeric c || c == '_' || c == '$'

def toIdentifier (raw : List Char) : List Char :=
  let joined := ((splitWhere (fun c => !isWordPart c) raw).map capitalize).flatten
  capitalize (joined.dropWhile Char.isDigit)

def isIndex (stem : List Char) : Bool := sameIgnoringCase stem "index".toList

def located (component root : Path) : Path := (component.from? root).getD component

/-- The name of a component. A file named `index`, or like its directory, is called after the
directory. -/
def displayName (component root : Path) : DisplayName :=
  let stem := withoutStructuralEnding ((component.fileStem?).getD "").toList
  let raw :=
    match (located component root).parent?.bind Path.fileName? with
    | some directory =>
        if isIndex stem || sameIgnoringCase stem directory.toList then directory.toList else stem
    | none => stem
  match toIdentifier raw with
  | [] => .fallback
  | name => .derived (String.ofList name)

/-! ## Modules -/

def moduleName (file : List Char) : List Char := (Path.splitName file).1

/-- The segments of a module reference: index files stand for their directory. -/
def moduleSegments (names : List String) : List String :=
  match names.getLast? with
  | none => []
  | some last =>
      let stem := moduleName last.toList
      if isIndex stem then names.dropLast else names.dropLast ++ [String.ofList stem]

/-- The module reference of a component: through the alias below the alias root, elsewhere
relative to the project root. -/
def importPath (component project aliasRoot : Path) (aliasMark : String) : String :=
  let (start, relative) :=
    match component.from? aliasRoot with
    | some relative => (aliasMark, relative)
    | none => ("../", (component.from? project).getD component)
  match moduleSegments relative.names with
  | [] => String.ofList (dropEndWhile (· == '/') start.toList)
  | segments => start ++ "/".intercalate segments

/-! ## Stories -/

def artifactPath (component componentsRoot storiesRoot : Path) (ending : String) : Path :=
  let relative := (component.from? componentsRoot).getD ⟨(component.fileName?).getD ""⟩
  let stem := ((relative.fileStem?).getD "").toList
  let name := if isIndex stem then "index" else String.ofList stem
  (storiesRoot.join ((relative.parent?).getD ⟨""⟩)).join ⟨name ++ ending⟩

def storyTitle (component root : Path) (name : DisplayName) : String :=
  let directory := "/".intercalate
    (((located component root).parent?.map Path.names).getD [])
  if directory.isEmpty then name.text else directory ++ "/" ++ name.text

end Identity

end PropStories
