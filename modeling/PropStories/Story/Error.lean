import PropStories.Disk.Error
import PropStories.Path

/-!
# What keeps an event from being handled

Only what happens to the file of a story fails an event. A formatter that fails is told, and that
is all.
-/

namespace PropStories

inductive StoryError where
  | unreadable (path : Path) (cause : DiskError)
  | unwritable (path : Path) (cause : DiskError)
  | noDirectory (path : Path) (cause : DiskError)
  | undeletable (path : Path) (cause : DiskError)
  /-- Reading TSX could not be prepared. -/
  | noParser (reason : String)
  | noTree

def StoryError.message : StoryError → String
  | unreadable path cause => "Failed to read " ++ path.text ++ ": " ++ cause.message
  | unwritable path cause => "Failed to write " ++ path.text ++ ": " ++ cause.message
  | noDirectory path cause => "Failed to create directory " ++ path.text ++ ": " ++ cause.message
  | undeletable path cause => "Failed to delete " ++ path.text ++ ": " ++ cause.message
  | noParser reason => "Failed to initialize TSX parser: " ++ reason
  | noTree => "Parser produced no syntax tree"

inductive Failure where
  | error (cause : StoryError)
  /-- The program has broken off. -/
  | brokenOff

def Failure.isBrokenOff {α : Type} : Except Failure α → Bool
  | .error .brokenOff => true
  | _ => false

inductive FormatError where
  | notLaunched (program : String) (cause : DiskError)
  /-- The program ended without success. -/
  | failed (program status complaint : String)

def FormatError.message : FormatError → String
  | notLaunched program cause =>
      "Failed to launch formatter '" ++ program ++ "': " ++ cause.message
  | failed program status complaint =>
      "Formatter '" ++ program ++ "' exited with " ++ status ++ ": " ++ complaint

end PropStories
