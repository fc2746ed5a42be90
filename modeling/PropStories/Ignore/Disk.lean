import PropStories.Ignore.Rules

/-!
# What the ignore files of a disk exclude

Ignore files may lie in every directory above a place. Files of one kind are asked from the
innermost directory outwards; a kind is asked only where those before it say nothing.
-/

namespace PropStories.Ignore

/-- The kinds of ignore files, by their names from the directory that they speak of. -/
def kinds (usesGit : Bool) : List (List String) :=
  [".ignore"] :: if usesGit then [[".gitignore"], [".git", "info", "exclude"]] else []

/-- The directories above a place, innermost first, each with the names that lead on to the
place. -/
def directoriesAbove : Place → List (Place × List String)
  | [] => []
  | n :: rest =>
      ((directoriesAbove rest).map fun (dir, names) => (n :: dir, names)) ++ [([], n :: rest)]

def rulesAt (d : Disk) (dir : Place) (kind : List String) : Rules :=
  match d.at? (dir ++ kind) with
  | some (.file c) => Rules.ofContent c
  | _ => ⟨[], []⟩

def verdict? (d : Disk) (usesGit : Bool) (p : Place) (isDirectory : Bool) : Option Verdict :=
  (kinds usesGit).findSome? fun kind =>
    (directoriesAbove p).findSome? fun (dir, names) =>
      (rulesAt d dir kind).verdict? names isDirectory

def faultsAbove (d : Disk) (usesGit : Bool) (dir : Place) : List (Place × Fault) :=
  (directoriesAbove dir).reverse.flatMap fun (above, _) =>
    (kinds usesGit).flatMap fun kind =>
      (rulesAt d above kind).faults.map fun f => (above ++ kind, f)

end PropStories.Ignore
