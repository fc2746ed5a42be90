import PropStories.Event
import PropStories.Path

/-!
# Known components

A watcher learns that something happened to a path, but not what. The set of the components known
to exist tells: a component that exists and is not known was added, a known one that is gone was
deleted.
-/

namespace PropStories

/-- Component paths in their order. Paths with the same parts are one component. -/
structure KnownComponents where
  paths : List Path

namespace KnownComponents

def empty : KnownComponents := ⟨[]⟩

def contains (k : KnownComponents) (p : Path) : Bool := k.paths.any (·.same p)

def size (k : KnownComponents) : Nat := k.paths.length

def isEmpty (k : KnownComponents) : Bool := k.paths.isEmpty

def insert (k : KnownComponents) (p : Path) : KnownComponents :=
  let others := k.paths.filter fun q => !q.same p
  ⟨others.takeWhile (·.le p) ++ p :: others.dropWhile (·.le p)⟩

def erase (k : KnownComponents) (p : Path) : KnownComponents :=
  ⟨k.paths.filter fun q => !q.same p⟩

def ofList (ps : List Path) : KnownComponents := ps.foldl insert empty

/-- What happened to a touched component, and the components known from then on. Nothing did if
it is neither there nor known. -/
def classify (k : KnownComponents) (p : Path) (isThere : Bool) :
    KnownComponents × Option EventKind :=
  match isThere, k.contains p with
  | true, true => (k, some .changed)
  | true, false => (k.insert p, some .added)
  | false, true => (k.erase p, some .deleted)
  | false, false => (k, none)

def isBelow (dir p : Path) : Bool := p.startsWith dir && !p.same dir

def forgetBelow (k : KnownComponents) (dir : Path) : KnownComponents × List Path :=
  (⟨k.paths.filter fun p => !isBelow dir p⟩, k.paths.filter (isBelow dir))

end KnownComponents

end PropStories
