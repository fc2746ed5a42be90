/-!
# Patterns of paths

A pattern matches a whole text. A question mark stands for a character, a star for any text, both
slashes included; two stars between slashes stand for any directories; brackets list characters.
-/

namespace PropStories

structure CharRange where
  first : Char
  last : Char
  deriving DecidableEq

def CharRange.contains (r : CharRange) (c : Char) : Bool := r.first ≤ c && c ≤ r.last

inductive Pattern.Token where
  | char (c : Char)
  | anyChar
  /-- A character in one of the ranges, or in none of them. -/
  | oneOf (ranges : List CharRange) (isNegated : Bool)
  | anyText
  | anyDirectories
  deriving DecidableEq

structure Pattern where
  tokens : List Pattern.Token

namespace Pattern

/-! ## Matching -/

def suffixes : List Char → List (List Char)
  | [] => [[]]
  | c :: cs => (c :: cs) :: suffixes cs

def behindSlashes : List Char → List (List Char)
  | [] => []
  | c :: cs => if c == '/' then cs :: behindSlashes cs else behindSlashes cs

def matchesText : List Token → List Char → Bool
  | [], cs => cs.isEmpty
  | .anyText :: ts, cs => (suffixes cs).any (matchesText ts)
  | .anyDirectories :: ts, cs => (cs :: behindSlashes cs ++ [[]]).any (matchesText ts)
  | .anyChar :: ts, _ :: cs => matchesText ts cs
  | .char d :: ts, c :: cs => c == d && matchesText ts cs
  | .oneOf ranges isNegated :: ts, c :: cs =>
      ranges.any (·.contains c) != isNegated && matchesText ts cs
  | _ :: _, [] => false

def isMatch (p : Pattern) (s : String) : Bool := matchesText p.tokens s.toList

/-! ## Reading -/

inductive FaultKind where
  | wildcards
  | recursion
  | range
  deriving DecidableEq

structure Fault where
  place : Nat
  kind : FaultKind
  deriving DecidableEq

def FaultKind.message : FaultKind → String
  | wildcards => "wildcards are either regular `*` or recursive `**`"
  | recursion => "recursive wildcards must form a single path component"
  | range => "invalid range pattern"

def Fault.message (f : Fault) : String :=
  "Pattern syntax error near position " ++ toString f.place ++ ": " ++ f.kind.message

def ranges : List Char → List CharRange
  | a :: '-' :: b :: cs => ⟨a, b⟩ :: ranges cs
  | a :: cs => ⟨a, a⟩ :: ranges cs
  | [] => []

/-- The text between an opening bracket and the closing one, with the number of characters behind
the opening bracket. At least one character lies between them, which may be a bracket. -/
def bracket? (cs : List Char) : Option (Token × Nat) :=
  let (isNegated, inside) := match cs with
    | '!' :: rest => (true, rest)
    | _ => (false, cs)
  match inside with
  | [] => none
  | c :: rest =>
      let more := rest.takeWhile (· != ']')
      if more.length < rest.length then
        some (.oneOf (ranges (c :: more)) isNegated,
          cs.length - inside.length + more.length + 2)
      else none

/-- Whether one more token for directories would say nothing new. -/
def endsInDirectories (ts : List Token) : Bool :=
  1 < ts.length && ts.getLast? == some .anyDirectories

/-- The token of two stars, and how many characters it takes. They fill a part of the path. -/
def directories (place : Nat) (previous : Option Char) (cs : List Char) : Except Fault Nat :=
  if previous != none && previous != some '/' then .error ⟨place - 1, .recursion⟩
  else match cs with
    | [] => .ok 2
    | '/' :: _ => .ok 3
    | _ => .error ⟨place + 2, .recursion⟩

def read : Nat → Nat → Option Char → List Token → List Char → Except Fault (List Token)
  | _, _, _, ts, [] => .ok ts
  | 0, _, _, ts, _ => .ok ts
  | fuel + 1, place, previous, ts, c :: cs =>
      let rest (n : Nat) (ts : List Token) :=
        let taken := (c :: cs).take n
        read fuel (place + n) taken.getLast? ts ((c :: cs).drop n)
      match c with
      | '?' => rest 1 (ts ++ [.anyChar])
      | '[' =>
          match bracket? cs with
          | some (t, n) => rest (n + 1) (ts ++ [t])
          | none => .error ⟨place, .range⟩
      | '*' =>
          match (cs.takeWhile (· == '*')).length with
          | 0 => rest 1 (ts ++ [.anyText])
          | 1 =>
              match directories place previous (cs.drop 1) with
              | .error f => .error f
              | .ok n => rest n (if endsInDirectories ts then ts else ts ++ [.anyDirectories])
          | _ => .error ⟨place + 2, .wildcards⟩
      | c => rest 1 (ts ++ [.char c])

def ofText (s : String) : Except Fault Pattern :=
  (read (s.length + 1) 0 none [] s.toList).map Pattern.mk

end Pattern

end PropStories
