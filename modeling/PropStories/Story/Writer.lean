import PropStories.Disk.Basic
import PropStories.Story.Error

/-!
# Writing and deleting stories

A preview tells what would be written and touches nothing.
-/

namespace PropStories

inductive WriteResult where
  | written (path : Path) (bytes : Nat)
  | deleted (path : Path)
  /-- What would have been written; nothing for a deletion. -/
  | previewed (path : Path) (content : Option String)

namespace WriteResult

def path : WriteResult → Path
  | written p _ => p
  | deleted p => p
  | previewed p _ => p

def applied : WriteResult → Bool
  | previewed _ _ => false
  | _ => true

end WriteResult

inductive WriteMode where
  | real
  | preview
  deriving DecidableEq

namespace WriteMode

abbrev Attempt := Disk × Except StoryError WriteResult

def ensureParent (d : Disk) (path : Path) : Disk × Except StoryError Unit :=
  match path.parent? with
  | none => (d, .ok ())
  | some parent =>
      if parent.text.isEmpty || d.exists? parent then (d, .ok ())
      else
        let (d, made) := d.ensureDirectory parent
        (d, made.mapError (.noDirectory parent))

def write (mode : WriteMode) (d : Disk) (path : Path) (content : String) : Attempt :=
  match mode with
  | preview => (d, .ok (.previewed path (some content)))
  | real =>
      match ensureParent d path with
      | (d, .error e) => (d, .error e)
      | (prepared, .ok ()) =>
          match prepared.write path (.text content) with
          | .error e => (prepared, .error (.unwritable path e))
          | .ok done => (done, .ok (.written path content.utf8ByteSize))

def delete (mode : WriteMode) (d : Disk) (path : Path) : Attempt :=
  match mode with
  | preview => (d, .ok (.previewed path none))
  | real =>
      match d.removeFile path with
      | .error e => (d, .error (.undeletable path e))
      | .ok done => (done, .ok (.deleted path))

end WriteMode

end PropStories
