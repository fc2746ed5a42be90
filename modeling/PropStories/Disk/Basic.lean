import PropStories.Disk.Error
import PropStories.Path

/-!
# Files and directories

A disk says of each place what is there. A place is the list of names that lead to it from the
root directory, which always exists; a path leads to a place, step by step through directories that
exist. There are no links.
-/

namespace PropStories

inductive Content where
  | text (s : String)
  /-- Bytes that are not the encoding of a text. -/
  | bytes (raw : List UInt8)
  deriving DecidableEq

namespace Content

def toBytes : Content → List UInt8
  | text s => s.toUTF8.toList
  | bytes raw => raw

def ofBytes (raw : List UInt8) : Content :=
  match String.fromUTF8? ⟨raw.toArray⟩ with
  | some s => .text s
  | none => .bytes raw

end Content

inductive Entry where
  | file (content : Content)
  | directory
  deriving DecidableEq

abbrev Place := List String

structure Disk where
  /-- What is at each place other than the root; the first entry of a place counts. -/
  entries : List (Place × Entry)
  /-- The place where relative paths begin. -/
  here : Place

namespace Disk

/-! ## Places -/

def at? (d : Disk) (p : Place) : Option Entry :=
  if p.isEmpty then some .directory else d.entries.lookup p

def remove (d : Disk) (p : Place) : Disk := { d with entries := d.entries.filter (·.1 != p) }

def set (d : Disk) (p : Place) (e : Entry) : Disk :=
  { d with entries := (p, e) :: (d.remove p).entries }

/-! ## Paths -/

def nameLimit : Nat := 255

/-- The place that parts of a path lead to; only the last one may be missing. -/
def follow (d : Disk) : Place → List PathPart → Except DiskError Place
  | p, [] => .ok p
  | _, .root :: rest => follow d [] rest
  | p, .here :: rest => follow d p rest
  | p, .up :: rest =>
      match d.at? p with
      | some .directory => follow d p.dropLast rest
      | some (.file _) => .error .notADirectory
      | none => .error .notFound
  | p, .name n :: rest =>
      match d.at? p with
      | some .directory =>
          if nameLimit < n.utf8ByteSize then .error .nameTooLong else follow d (p ++ [n]) rest
      | some (.file _) => .error .notADirectory
      | none => .error .notFound

def meansDirectory (p : Path) : Bool :=
  Text.endsWith ['/'] p.text.toList || Text.endsWith "/.".toList p.text.toList

def placeOf (d : Disk) (p : Path) : Except DiskError Place :=
  if p.text.isEmpty then .error .notFound
  else if p.text.toList.contains '\x00' then .error .nulInName
  else d.follow d.here p.parts

def find (d : Disk) (p : Path) : Except DiskError Entry := do
  let place ← d.placeOf p
  match d.at? place with
  | none => .error .notFound
  | some .directory => .ok .directory
  | some (.file c) => if meansDirectory p then .error .notADirectory else .ok (.file c)

def exists? (d : Disk) (p : Path) : Bool := (d.find p).isOk

def isDirectory (d : Disk) (p : Path) : Bool :=
  match d.find p with
  | .ok .directory => true
  | _ => false

def isFile (d : Disk) (p : Path) : Bool :=
  match d.find p with
  | .ok (.file _) => true
  | _ => false

/-! ## Reading and writing -/

def readText (d : Disk) (p : Path) : Except DiskError String := do
  match ← d.find p with
  | .file (.text s) => .ok s
  | .file (.bytes _) => .error .notText
  | .directory => .error .isADirectory

/-- Writes a file, whether or not there is one; the directory must exist. -/
def write (d : Disk) (p : Path) (c : Content) : Except DiskError Disk := do
  let place ← d.placeOf p
  if meansDirectory p || d.at? place == some .directory then .error .isADirectory
  else .ok (d.set place (.file c))

def removeFile (d : Disk) (p : Path) : Except DiskError Disk := do
  let place ← d.placeOf p
  match ← d.find p with
  | .directory => .error .isADirectory
  | .file _ => .ok (d.remove place)

def makeDirectory (d : Disk) (p : Path) : Except DiskError Disk := do
  let place ← d.placeOf p
  match d.at? place with
  | some _ => .error .alreadyExists
  | none => .ok (d.set place .directory)

/-- Makes a directory and the ones above it. Behind a missing directory, `..` makes it first. What
has been made stays, also where the rest fails. -/
def makeDirectories (d : Disk) : Nat → Path → Disk × Except DiskError Unit
  | 0, _ => (d, .error .noAncestor)
  | fuel + 1, p =>
      let unlessThere (d : Disk) (e : DiskError) : Disk × Except DiskError Unit :=
        (d, if d.isDirectory p then .ok () else .error e)
      if p.text.isEmpty then (d, .ok ())
      else match d.makeDirectory p with
        | .ok made => (made, .ok ())
        | .error .notFound =>
            match p.parent? with
            | none => (d, .error .noAncestor)
            | some parent =>
                match d.makeDirectories fuel parent with
                | (above, .error e) => (above, .error e)
                | (above, .ok ()) =>
                    match above.makeDirectory p with
                    | .ok made => (made, .ok ())
                    | .error e => unlessThere above e
        | .error e => unlessThere d e

def ensureDirectory (d : Disk) (p : Path) : Disk × Except DiskError Unit :=
  d.makeDirectories (p.pieces.length + 1) p

end Disk

end PropStories
