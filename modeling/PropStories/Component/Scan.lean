import PropStories.Component.Filter
import PropStories.Ignore.Disk
import PropStories.Ignore.User
import PropStories.Log

/-!
# Finding components

A scan lists the components below a directory, except where ignore files or the rules of the user
exclude them.
-/

namespace PropStories

structure Scanner where
  filter : ComponentFilter
  /-- Whether the rules of version control count. -/
  usesGit : Bool
  /-- What the user has excluded from all repositories. -/
  userRules : Ignore.UserRules

structure Scanned where
  components : List Path
  log : List LogEvent

/-! ## Walking -/

structure Visit where
  path : Path
  place : Place
  deriving DecidableEq

namespace Visit

def enter (v : Visit) (n : String) : Visit := ⟨v.path.join ⟨n⟩, v.place ++ [n]⟩

/-- What is visited on the way to the given names, the end included. -/
def way (v : Visit) : List String → List Visit
  | [] => []
  | n :: rest => v.enter n :: (v.enter n).way rest

end Visit

namespace Scanner

/-- What is said of a place. The user's rules are asked only where no ignore file says anything. -/
def verdict? (s : Scanner) (d : Disk) (v : Visit) (isDirectory : Bool) : Option Ignore.Verdict :=
  (Ignore.verdict? d s.usesGit v.place isDirectory).or
    (if s.usesGit then s.userRules v.path isDirectory else none)

def isIgnored (s : Scanner) (d : Disk) (v : Visit) : Bool :=
  s.verdict? d v (d.at? v.place == some .directory) == some .ignored

/-- The files below a directory that can be reached without passing anything ignored, by the names
that lead to them. -/
def filesBelow (s : Scanner) (d : Disk) (v : Visit) : List (List String) :=
  d.entries.filterMap fun (p, e) =>
    let names := p.drop v.place.length
    if e != .directory && v.place.isPrefixOf p && (v.way names).all fun w => !s.isIgnored d w
    then some names else none

def files (s : Scanner) (d : Disk) (path : Path) : Except ScanError (List Path) :=
  match d.find path, d.placeOf path with
  | .ok .directory, .ok place =>
      match Ignore.faultsAbove d s.usesGit place with
      | [] => .ok ((s.filesBelow d ⟨path, place⟩).map fun names =>
          names.foldl (fun p n => p.join ⟨n⟩) path)
      | faults => .error (.faultyRules faults)
  | .ok _, _ => .ok [path]
  | .error e, _ => .error (.unreadable path e)

def scanDirectory (s : Scanner) (d : Disk) (dir : Path) : Except ScanError Scanned := do
  let files ← s.files d dir
  let components := (files.filter s.filter.accepts).mergeSort Path.le
  let told := LogEvent.debug "Scanned components"
    [("dir", dir.text), ("count", toString components.length)]
  .ok ⟨components, [told]⟩

def scan (s : Scanner) (d : Disk) : Except ScanError Scanned :=
  let root := s.filter.root
  if d.isDirectory root then s.scanDirectory d root else .error (.directoryNotFound root)

end Scanner

end PropStories
