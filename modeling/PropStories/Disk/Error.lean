/-!
# What the file system refuses
-/

namespace PropStories

inductive DiskError where
  | notFound
  | permissionDenied
  | alreadyExists
  | notADirectory
  | isADirectory
  | nameTooLong
  /-- No name holds the character zero. -/
  | nulInName
  | notText
  /-- A directory whose ancestors cannot be made. -/
  | noAncestor
  /-- Any other cause, with its own wording. -/
  | other (text : String)
  deriving DecidableEq

namespace DiskError

def message : DiskError → String
  | notFound => "No such file or directory (os error 2)"
  | permissionDenied => "Permission denied (os error 13)"
  | alreadyExists => "File exists (os error 17)"
  | notADirectory => "Not a directory (os error 20)"
  | isADirectory => "Is a directory (os error 21)"
  | nameTooLong => "File name too long (os error 36)"
  | nulInName => "file name contained an unexpected NUL byte"
  | notText => "stream did not contain valid UTF-8"
  | noAncestor => "failed to create whole tree"
  | other text => text

end DiskError

end PropStories
