import PropStories.Ignore.Rules

/-!
# The rules of a user

Besides the ignore files of a repository, version control knows one file of rules for all the
repositories of a user. It is named in the user's settings or lies at a place of its own.
-/

namespace PropStories.Ignore

/-- What the rules of a user say of a path, as it is walked, and whether it is a directory. -/
abbrev UserRules := Path → Bool → Option Verdict

def noUserRules : UserRules := fun _ _ => none

/-- The text of a path seen from a directory; a path that does not begin with it is seen whole. -/
def textFrom (dir path : List Char) : List Char :=
  let path := (Text.afterStart? ['.', '/'] path).getD path
  if path.contains '/' then
    match Text.afterStart? dir path with
    | some rest => (Text.afterStart? ['/'] rest).getD rest
    | none => path
  else path

def Rules.ofUser (rs : Rules) (dir : Path) : UserRules := fun path isDirectory =>
  rs.verdict? [String.ofList (textFrom dir.text.toList path.text.toList)] isDirectory

/-! ## Settings -/

def settingOfLine? (cs : List Char) : Option String := do
  let cs := Text.trim cs
  let (name, rest) := cs.splitAt "excludesfile".length
  guard (name.map Char.toLower == "excludesfile".toList)
  let value ← Text.afterStart? ['='] (Text.trimStart rest)
  let value := Text.trim value
  let value := Text.trim ((Text.afterStart? ['"'] value).getD value)
  let value := Text.trimEnd ((Text.beforeEnd? ['"'] value).getD value)
  guard (!value.isEmpty && !value.any Text.isBlank)
  return String.ofList value

/-- The file of rules that a user's settings name; a tilde stands for the user's directory. -/
def fileOfSettings? (home : String) (settings : Content) : Option Path :=
  ((readableLines settings).findSome? settingOfLine?).map fun name =>
    ⟨String.ofList (name.toList.flatMap fun c => if c == '~' then home.toList else [c])⟩

end PropStories.Ignore
