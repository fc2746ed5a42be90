/-!
# Patterns of ignore files

Unlike the patterns of a configuration, these know slashes: a star and a question mark stand for
text within one part of a path, and braces list alternatives. Texts are matched byte by byte.
-/

namespace PropStories.Ignore

structure ByteRange where
  first : UInt8
  last : UInt8
  deriving DecidableEq

def ByteRange.contains (r : ByteRange) (b : UInt8) : Bool := r.first ≤ b && b ≤ r.last

inductive Token where
  | byte (b : UInt8)
  /-- One byte that is no slash. -/
  | anyByte
  /-- Any text without a slash. -/
  | anyName
  | oneOf (ranges : List ByteRange) (isNegated : Bool)
  /-- Nothing, or any directories at the front. -/
  | directoriesFirst
  /-- A slash, and perhaps directories behind it. -/
  | directoriesBetween
  /-- A slash and all that follows. -/
  | directoriesLast
  | alternatives (branches : List (List Token))

def slash : UInt8 := 47

def bytesOf (cs : List Char) : List UInt8 := cs.flatMap fun c => (String.singleton c).toUTF8.toList

/-! ## Matching -/

mutual

def expandToken : Token → List (List Token)
  | .alternatives branches =>
      match expandBranches branches with
      | [] => [[]]
      | expanded => expanded
  | t => [[t]]

def expand : List Token → List (List Token)
  | [] => [[]]
  | t :: ts =>
      let rest := expand ts
      (expandToken t).flatMap fun front => rest.map (front ++ ·)

def expandBranches : List (List Token) → List (List Token)
  | [] => []
  | b :: bs => (if b.isEmpty then [] else expand b) ++ expandBranches bs

end

def suffixes : List UInt8 → List (List UInt8)
  | [] => [[]]
  | b :: bs => (b :: bs) :: suffixes bs

def behindSlashes : List UInt8 → List (List UInt8)
  | [] => []
  | b :: bs => if b == slash then bs :: behindSlashes bs else behindSlashes bs

def behindName : List UInt8 → List (List UInt8)
  | [] => [[]]
  | b :: bs => (b :: bs) :: if b == slash then [] else behindName bs

def matchesBytes : List Token → List UInt8 → Bool
  | [], bs => bs.isEmpty
  | .anyName :: ts, bs => (behindName bs).any (matchesBytes ts)
  | .directoriesFirst :: ts, bs => (bs :: behindSlashes bs).any (matchesBytes ts)
  | .directoriesBetween :: ts, b :: bs =>
      b == slash && (bs :: behindSlashes bs).any (matchesBytes ts)
  | .directoriesLast :: ts, b :: bs => b == slash && (suffixes bs).any (matchesBytes ts)
  | .byte c :: ts, b :: bs => b == c && matchesBytes ts bs
  | .anyByte :: ts, b :: bs => b != slash && matchesBytes ts bs
  | .oneOf ranges isNegated :: ts, b :: bs =>
      ranges.any (·.contains b) != isNegated && matchesBytes ts bs
  | .alternatives _ :: _, _ :: _ => false
  | _ :: _, [] => false

def isEverything : List Token → Bool
  | [.directoriesFirst] => true
  | _ => false

def isMatch (ts : List Token) (bs : List UInt8) : Bool :=
  isEverything ts || (expand ts).any fun plain => matchesBytes plain bs

/-! ## Reading -/

inductive PatternFault where
  | invalidRange (first last : Char)
  | unopenedBrace
  | unclosedBrace
  | danglingEscape

def PatternFault.message : PatternFault → String
  | invalidRange first last =>
      "invalid range; '" ++ first.toString ++ "' > '" ++ last.toString ++ "'"
  | unopenedBrace =>
      "unopened alternate group; missing '\x7b' (maybe escape '\x7d' with '[\x7d]'?)"
  | unclosedBrace =>
      "unclosed alternate group; missing '\x7d' (maybe escape '\x7b' with '[\x7b]'?)"
  | danglingEscape => "dangling '\\'"

def byteRanges (first last : Char) : List ByteRange :=
  let a := bytesOf [first]
  let b := bytesOf [last]
  let single (x : UInt8) : ByteRange := ⟨x, x⟩
  if first == last then a.map single
  else match a.getLast?, b with
    | some x, y :: rest => a.dropLast.map single ++ [⟨x, y⟩] ++ rest.map single
    | _, _ => []

/-- The ranges of a class, read from its inside up to the closing bracket: the last range is open
while a dash has been read behind it. -/
def readClass : List (Char × Char) → (isFirst isOpen : Bool) → List Char →
    Except PatternFault (Option (List (Char × Char) × List Char))
  | _, _, _, [] => .ok none
  | rs, isFirst, isOpen, c :: cs =>
      if c == ']' && !isFirst then .ok (some (if isOpen then rs ++ [('-', '-')] else rs, cs))
      else if c == '-' && !isFirst && !isOpen then readClass rs false true cs
      else if isOpen && c != ']' then
        match rs.getLast? with
        | some (a, _) =>
            if c < a then .error (.invalidRange a c)
            else readClass (rs.dropLast ++ [(a, c)]) false false cs
        | none => readClass [(c, c)] false false cs
      else readClass (rs ++ [(c, c)]) false false cs

/-- What has been read of a pattern: the branch being read, the branches of its group before it,
and the same of the groups around. -/
structure Draft where
  branch : List Token
  finished : List (List Token)
  outer : List (List Token × List (List Token))
  previous : Option Char
  /-- Whether some bracket has no partner, after which brackets are plain. -/
  isUnclosed : Bool

namespace Draft

def push (d : Draft) (t : Token) : Draft := { d with branch := d.branch ++ [t] }

def pushAll (d : Draft) (ts : List Token) : Draft := { d with branch := d.branch ++ ts }

def isNested (d : Draft) : Bool := !d.outer.isEmpty

def isAtBranch (d : Draft) : Bool := d.previous == some ',' || d.previous == some '\x7b'

/-- Two or more stars that are no directories stand for a name. -/
def pushStars (d : Draft) : Draft := d.pushAll [.anyName, .anyName]

def openGroup (d : Draft) : Draft :=
  { d with branch := [], finished := [], outer := (d.branch, d.finished) :: d.outer }

def nextBranch (d : Draft) : Draft :=
  { d with branch := [], finished := d.finished ++ [d.branch] }

def closeGroup (d : Draft) : Except PatternFault Draft :=
  match d.outer with
  | [] => .error .unopenedBrace
  | (branch, finished) :: outer =>
      .ok { d with
        branch := branch ++ [.alternatives (d.finished ++ [d.branch])]
        finished := finished
        outer := outer }

/-- The second of two stars has been read; what follows decides what they are. Also gives how many
further characters they take. -/
def stars (d : Draft) (cs : List Char) : Draft × Nat :=
  let isOver := cs.isEmpty || cs.head? == some '/'
  if d.branch.isEmpty then
    if isOver then (d.push .directoriesFirst, 1) else (d.pushStars, 0)
  else if d.previous != some '/' && !(d.isNested && d.isAtBranch) then (d.pushStars, 0)
  else
    let isLast := cs.isEmpty ||
      (d.isNested && (cs.head? == some ',' || cs.head? == some '\x7d'))
    if !isLast && !isOver then (d.pushStars, 0)
    else
      let t := match d.branch.getLast? with
        | some .directoriesFirst => Token.directoriesFirst
        | some .directoriesLast => .directoriesLast
        | _ => if isLast then .directoriesLast else .directoriesBetween
      ({ d with branch := d.branch.dropLast ++ [t] }, if isLast then 0 else 1)

end Draft

def read : Nat → Draft → List Char → Except PatternFault Draft
  | _, d, [] => .ok d
  | 0, d, _ => .ok d
  | fuel + 1, d, c :: cs =>
      let next (d : Draft) (previous : Char) (rest : List Char) :=
        read fuel { d with previous := some previous } rest
      match c with
      | '?' => next (d.push .anyByte) c cs
      | '*' =>
          match cs with
          | '*' :: rest =>
              let (e, n) := d.stars rest
              next e (((rest.take n).head?).getD '*') (rest.drop n)
          | _ => next (d.push .anyName) c cs
      | '[' =>
          if d.isUnclosed then next (d.pushAll [.byte 91]) c cs
          else
            let (isNegated, inside) := match cs with
              | '!' :: rest | '^' :: rest => (true, rest)
              | _ => (false, cs)
            match readClass [] true false inside with
            | .error f => .error f
            | .ok none => next { d.pushAll [.byte 91] with isUnclosed := true } c cs
            | .ok (some (rs, rest)) =>
                next (d.push (.oneOf (rs.flatMap fun (a, b) => byteRanges a b) isNegated)) ']' rest
      | '\x7b' => next d.openGroup c cs
      | '\x7d' =>
          match d.closeGroup with
          | .ok e => next e c cs
          | .error f => .error f
      | ',' => next (if d.isNested then d.nextBranch else d.push (.byte 44)) c cs
      | '\\' =>
          match cs with
          | e :: rest => next (d.pushAll ((bytesOf [e]).map .byte)) e rest
          | [] => .error .danglingEscape
      | c => next (d.pushAll ((bytesOf [c]).map .byte)) c cs

def tokensOf (cs : List Char) : Except PatternFault (List Token) :=
  match read (cs.length + 1) ⟨[], [], [], none, false⟩ cs with
  | .error f => .error f
  | .ok d => if d.isNested then .error .unclosedBrace else .ok d.branch

end PropStories.Ignore
