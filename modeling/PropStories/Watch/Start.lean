import PropStories.Disk.Basic
import PropStories.Watch.Error

/-!
# Starting to watch

Whatever exists can be watched, seen from the current directory.
-/

namespace PropStories

def Disk.herePath (d : Disk) : Path := ⟨"/" ++ "/".intercalate d.here⟩

def startWatching (d : Disk) (path : Path) : Except WatchError Unit :=
  match d.find (d.herePath.join path) with
  | .ok _ => .ok ()
  | .error e => .error (.notStarted e.message)

end PropStories
