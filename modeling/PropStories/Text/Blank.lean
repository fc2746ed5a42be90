/-!
# Blank characters, words and lines

Text is cut at white space in three ways: trimmed at its ends, split into words, split into lines.
-/

namespace PropStories.Text

def isBlank (c : Char) : Bool :=
  let n := c.toNat
  (9 ≤ n && n ≤ 13) || n == 32 || n == 0x85 || n == 0xA0 || n == 0x1680 ||
    (0x2000 ≤ n && n ≤ 0x200A) || n == 0x2028 || n == 0x2029 || n == 0x202F || n == 0x205F ||
    n == 0x3000

def allBlank (cs : List Char) : Bool := cs.all isBlank

/-- Of the characters, only those in the list are gone through. -/
instance (priority := high) decidableAllIn (p : Char → Prop) [DecidablePred p] (cs : List Char) :
    Decidable (∀ c ∈ cs, p c) := List.decidableBAll p cs

/-! ## Trimming -/

def dropEndWhile (p : Char → Bool) (cs : List Char) : List Char :=
  (cs.reverse.dropWhile p).reverse

def trimStart (cs : List Char) : List Char := cs.dropWhile isBlank

def trimEnd (cs : List Char) : List Char := dropEndWhile isBlank cs

def trim (cs : List Char) : List Char := trimEnd (trimStart cs)

/-! ## Cutting at a character -/

/-- The pieces between the characters that satisfy `p`; there is always at least one piece. -/
def splitWhere (p : Char → Bool) : List Char → List (List Char)
  | [] => [[]]
  | c :: cs =>
      if p c then [] :: splitWhere p cs
      else match splitWhere p cs with
        | [] => [[c]]
        | piece :: pieces => (c :: piece) :: pieces

theorem splitWhere_ne_nil (p : Char → Bool) (cs : List Char) : splitWhere p cs ≠ [] := by
  cases cs with
  | nil => simp [splitWhere]
  | cons c cs =>
      unfold splitWhere
      split
      · simp
      · split <;> simp

def words (cs : List Char) : List (List Char) :=
  (splitWhere isBlank cs).filter fun w => !w.isEmpty

def singleSpaced (s : String) : String :=
  " ".intercalate ((words s.toList).map String.ofList)

/-- The lines of a text. A line ends at a line feed, which a carriage return may precede; nothing
follows the last line feed. -/
def lines (cs : List Char) : List (List Char) :=
  let pieces := splitWhere (· == '\n') cs
  let ended := pieces.dropLast.map fun l =>
    match l.reverse with
    | '\r' :: rest => rest.reverse
    | _ => l
  match pieces.getLast? with
  | some (c :: rest) => ended ++ [c :: rest]
  | _ => ended

/-! ## Ends of a text -/

/-- The text after `start`, if the text begins with it. -/
def afterStart? (start cs : List Char) : Option (List Char) :=
  match start, cs with
  | [], cs => some cs
  | _ :: _, [] => none
  | s :: ss, c :: cs => if s == c then afterStart? ss cs else none

theorem afterStart?_eq_some_iff {start cs rest : List Char} :
    afterStart? start cs = some rest ↔ cs = start ++ rest := by
  induction start generalizing cs with
  | nil => simp [afterStart?, eq_comm]
  | cons s ss ih =>
      cases cs with
      | nil => simp [afterStart?]
      | cons c cs =>
          by_cases h : s = c
          · simp [afterStart?, h, ih]
          · simp [afterStart?, h, Ne.symm h]

def startsWith (start cs : List Char) : Bool := (afterStart? start cs).isSome

def beforeEnd? (ending cs : List Char) : Option (List Char) :=
  (afterStart? ending.reverse cs.reverse).map List.reverse

def endsWith (ending cs : List Char) : Bool := (beforeEnd? ending cs).isSome

/-- All copies of `start` removed from the front, at most one for each step of `fuel`. -/
def dropStarts (start : List Char) : Nat → List Char → List Char
  | 0, cs => cs
  | fuel + 1, cs =>
      match afterStart? start cs with
      | some rest => dropStarts start fuel rest
      | none => cs

def dropAllStarts (start cs : List Char) : List Char := dropStarts start cs.length cs

def dropAllEnds (ending cs : List Char) : List Char :=
  (dropAllStarts ending.reverse cs.reverse).reverse

def occursIn (part : List Char) : List Char → Bool
  | [] => part.isEmpty
  | c :: cs => startsWith part (c :: cs) || occursIn part cs

/-- Every occurrence of `part` from the left, none overlapping another, replaced by `new`. -/
def replaceAll (part new : List Char) : Nat → List Char → List Char
  | 0, cs => cs
  | _, [] => []
  | fuel + 1, c :: cs =>
      match afterStart? part (c :: cs) with
      | some rest => new ++ replaceAll part new fuel rest
      | none => c :: replaceAll part new fuel cs

end PropStories.Text
