import PropStories.Text.Blank

/-!
# Paths

A path is a text; its parts are what lies between the slashes. Empty pieces do not count, nor does
a dot, except as the first part of a relative path. Two paths with the same parts name the same
place, but a path keeps the text that it was made with.
-/

namespace PropStories

inductive PathPart where
  | root
  | here
  | up
  | name (text : String)
  deriving DecidableEq

structure Path where
  text : String
  deriving DecidableEq

namespace Path

/-! ## Parts -/

structure Piece where
  part : PathPart
  start : Nat
  stop : Nat

def isDot (cs : List Char) : Bool := cs == ['.']

def partOf (cs : List Char) : PathPart :=
  if isDot cs then .here else if cs == ['.', '.'] then .up else .name (String.ofList cs)

/-- The pieces between slashes that count, the first of which begins at `start`. -/
def bodyPieces (start : Nat) : List (List Char) → List Piece
  | [] => []
  | cs :: rest =>
      let more := bodyPieces (start + cs.length + 1) rest
      if cs.isEmpty || isDot cs then more
      else ⟨partOf cs, start, start + cs.length⟩ :: more

def piecesOf (cs : List Char) : List Piece :=
  match cs with
  | '/' :: rest => ⟨.root, 0, 1⟩ :: bodyPieces 1 (Text.splitWhere (· == '/') rest)
  | _ =>
      match Text.splitWhere (· == '/') cs with
      | ['.'] :: rest => ⟨.here, 0, 1⟩ :: bodyPieces 2 rest
      | all => bodyPieces 0 all

def pieces (p : Path) : List Piece := piecesOf p.text.toList

def parts (p : Path) : List PathPart := p.pieces.map (·.part)

/-- The part of the text that consecutive pieces cover. -/
def cover (p : Path) (ps : List Piece) : Path :=
  match ps.head?, ps.getLast? with
  | some a, some b => ⟨String.ofList ((p.text.toList.drop a.start).take (b.stop - a.start))⟩
  | _, _ => ⟨""⟩

def isAbsolute (p : Path) : Bool := p.text.toList.head? == some '/'

def same (p q : Path) : Bool := p.parts == q.parts

/-! ## Parents and names -/

def parent? (p : Path) : Option Path :=
  match p.pieces.getLast? with
  | none => none
  | some last => if last.part == .root then none else some (p.cover p.pieces.dropLast)

def fileName? (p : Path) : Option String :=
  match p.parts.getLast? with
  | some (.name n) => some n
  | _ => none

/-- A file name in front of its last dot and behind it. A dot in first place separates nothing. -/
def splitName (name : List Char) : List Char × Option (List Char) :=
  let ending := (name.reverse.takeWhile (· != '.')).reverse
  let before := name.take (name.length - ending.length - 1)
  if before.isEmpty || ending.length == name.length then (name, none) else (before, some ending)

def fileStem? (p : Path) : Option String :=
  p.fileName?.map fun n => String.ofList (splitName n.toList).1

def ending? (p : Path) : Option String :=
  (p.fileName?.bind fun n => (splitName n.toList).2).map String.ofList

/-! ## Relative paths -/

def piecesBehind? : List PathPart → List Piece → Option (List Piece)
  | [], ps => some ps
  | _ :: _, [] => none
  | q :: qs, p :: ps => if p.part == q then piecesBehind? qs ps else none

def from? (p base : Path) : Option Path := (piecesBehind? base.parts p.pieces).map p.cover

def startsWith (p base : Path) : Bool := (piecesBehind? base.parts p.pieces).isSome

/-- The path `q` seen from `p`; an absolute `q` stays as it is. -/
def join (p q : Path) : Path :=
  if q.isAbsolute then q
  else match p.text.toList.getLast? with
    | none => q
    | some '/' => ⟨p.text ++ q.text⟩
    | some _ => ⟨p.text ++ "/" ++ q.text⟩

def names (p : Path) : List String :=
  p.parts.filterMap fun
    | .name n => some n
    | _ => none

/-! ## Order -/

def partOrder (a b : PathPart) : Ordering :=
  match a, b with
  | .root, .root | .here, .here | .up, .up => .eq
  | .root, _ => .lt
  | _, .root => .gt
  | .here, _ => .lt
  | _, .here => .gt
  | .up, _ => .lt
  | _, .up => .gt
  | .name m, .name n => compare m n

def compareParts : List PathPart → List PathPart → Ordering
  | [], [] => .eq
  | [], _ :: _ => .lt
  | _ :: _, [] => .gt
  | a :: as, b :: bs => (partOrder a b).then (compareParts as bs)

def le (p q : Path) : Bool := compareParts p.parts q.parts != .gt

end Path

end PropStories
