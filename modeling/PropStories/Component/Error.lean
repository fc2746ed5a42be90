import PropStories.Ignore.Rules

/-!
# Why components cannot be found
-/

namespace PropStories

inductive ScanError where
  | directoryNotFound (path : Path)
  | invalidPattern (pattern reason : String)
  /-- The path to be scanned cannot be read. -/
  | unreadable (path : Path) (cause : DiskError)
  /-- Ignore files above the directory have lines that are no rules. -/
  | faultyRules (faults : List (Place × Ignore.Fault))

namespace ScanError

def faultMessage (file : Place) (f : Ignore.Fault) : String :=
  "/" ++ "/".intercalate file ++ ": " ++ f.message

def message : ScanError → String
  | directoryNotFound path => "Directory not found: " ++ path.text
  | invalidPattern pattern reason => "Invalid ignore pattern '" ++ pattern ++ "': " ++ reason
  | unreadable path cause =>
      "Walk error: " ++ path.text ++ ": IO error for operation on " ++ path.text ++ ": " ++
        cause.message
  | faultyRules faults =>
      "Walk error: " ++ "\n".intercalate (faults.map fun (file, f) => faultMessage file f)

end ScanError

end PropStories
