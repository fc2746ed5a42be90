import PropStories.Config.Value
import PropStories.Text.Blank

/-!
# Scalars of TOML

Strings come in four forms; numbers, words and moments are tokens without quotes. A reader takes
the text that is left and gives the text behind what it read; a fault is the number of characters
that were left.
-/

namespace PropStories.Toml

abbrev Reader (α : Type) := List Char → Except Nat (α × List Char)

def fail {α : Type} (left : List Char) : Except Nat α := .error left.length

def isBlank (c : Char) : Bool := c == ' ' || c == '\t'

def isControl (c : Char) : Bool := (c.toNat < 32 && c != '\t') || c.toNat == 127

def afterNewline? : List Char → Option (List Char)
  | '\n' :: cs => some cs
  | '\r' :: '\n' :: cs => some cs
  | _ => none

/-! ## Strings -/

def hexNumber? (digits : List Char) : Option Nat :=
  digits.foldl (fun n d =>
    n.bind fun n =>
      if d.isDigit then some (16 * n + (d.toNat - '0'.toNat))
      else if 'a' ≤ d ∧ d ≤ 'f' then some (16 * n + (d.toNat - 'a'.toNat + 10))
      else if 'A' ≤ d ∧ d ≤ 'F' then some (16 * n + (d.toNat - 'A'.toNat + 10))
      else none) (some 0)

def hexChar? (n : Nat) (cs : List Char) : Option (Char × List Char) :=
  if cs.length < n then none
  else (hexNumber? (cs.take n)).bind fun v =>
    if h : v.isValidChar then some (Char.ofNatAux v h, cs.drop n) else none

def escape? : List Char → Option (Char × List Char)
  | 'b' :: cs => some ('\x08', cs)
  | 't' :: cs => some ('\t', cs)
  | 'n' :: cs => some ('\n', cs)
  | 'f' :: cs => some ('\x0c', cs)
  | 'r' :: cs => some ('\r', cs)
  | 'e' :: cs => some ('\x1b', cs)
  | '\x22' :: cs => some ('\x22', cs)
  | '\\' :: cs => some ('\\', cs)
  | 'x' :: cs => hexChar? 2 cs
  | 'u' :: cs => hexChar? 4 cs
  | 'U' :: cs => hexChar? 8 cs
  | _ => none

def before {α : Type} (c : α) (r : Except Nat (List α × List Char)) :
    Except Nat (List α × List Char) :=
  r.map fun (cs, left) => (c :: cs, left)

def basicLine : Nat → Reader (List Char)
  | 0, cs => fail cs
  | _, [] => fail []
  | _, '\x22' :: cs => .ok ([], cs)
  | fuel + 1, '\\' :: cs =>
      match escape? cs with
      | some (c, rest) => before c (basicLine fuel rest)
      | none => fail cs
  | fuel + 1, c :: cs => if isControl c then fail (c :: cs) else before c (basicLine fuel cs)

/-- Up to two quotes that stand directly in front of the closing ones belong to a string. -/
def closing (quote : Char) : List Char → List Char × List Char
  | a :: b :: cs =>
      if a == quote && b == quote then ([a, b], cs)
      else if a == quote then ([a], b :: cs)
      else ([], a :: b :: cs)
  | [a] => if a == quote then ([a], []) else ([], [a])
  | [] => ([], [])

def isGap (c : Char) : Bool := isBlank c || c == '\n' || c == '\r'

/-- The inside of a string over several lines. A backslash at the end of a line joins it with the
next text. -/
def basicBlock : Nat → Reader (List Char)
  | 0, cs => fail cs
  | _, [] => fail []
  | _, '\x22' :: '\x22' :: '\x22' :: cs => .ok (closing '\x22' cs)
  | fuel + 1, '\\' :: cs =>
      if (afterNewline? (cs.dropWhile isBlank)).isSome then
        basicBlock fuel (cs.dropWhile isGap)
      else match escape? cs with
        | some (c, rest) => before c (basicBlock fuel rest)
        | none => fail cs
  | fuel + 1, c :: cs =>
      match afterNewline? (c :: cs) with
      | some _ => before c (basicBlock fuel cs)
      | none => if isControl c then fail (c :: cs) else before c (basicBlock fuel cs)

def literalLine : Reader (List Char)
  | [] => fail []
  | c :: cs =>
      if c == '\x27' then .ok ([], cs)
      else if isControl c then fail (c :: cs)
      else before c (literalLine cs)

def literalBlock : Reader (List Char)
  | [] => fail []
  | c :: cs =>
      match Text.afterStart? ['\x27', '\x27', '\x27'] (c :: cs) with
      | some rest => .ok (closing '\x27' rest)
      | none =>
          if isControl c && (afterNewline? (c :: cs)).isNone then fail (c :: cs)
          else before c (literalBlock cs)

/-- A line end directly behind the opening quotes does not count. -/
def withoutFirstNewline (cs : List Char) : List Char := (afterNewline? cs).getD cs

def string? (cs : List Char) : Option (Except Nat (List Char × List Char)) :=
  match cs with
  | '\x22' :: '\x22' :: '\x22' :: rest =>
      let inside := withoutFirstNewline rest
      some (basicBlock (inside.length + 1) inside)
  | '\x22' :: rest => some (basicLine (rest.length + 1) rest)
  | '\x27' :: '\x27' :: '\x27' :: rest => some (literalBlock (withoutFirstNewline rest))
  | '\x27' :: rest => some (literalLine rest)
  | _ => none

/-! ## Numbers -/

def grouped (isDigit : Char → Bool) : List Char → Bool
  | [] => false
  | [c] => isDigit c
  | c :: '_' :: cs => isDigit c && grouped isDigit cs
  | c :: cs => isDigit c && grouped isDigit cs

def digitValue (c : Char) : Nat :=
  if c.isDigit then c.toNat - '0'.toNat
  else if 'a' ≤ c ∧ c ≤ 'f' then c.toNat - 'a'.toNat + 10
  else if 'A' ≤ c ∧ c ≤ 'F' then c.toNat - 'A'.toNat + 10
  else 99

def numberIn (base : Nat) (cs : List Char) : Nat :=
  (cs.filter (· != '_')).foldl (fun n c => base * n + digitValue c) 0

def inBase? (base : Nat) (cs : List Char) : Option Int :=
  if grouped (fun c => digitValue c < base) cs then some (numberIn base cs) else none

def isDecimal (cs : List Char) : Bool :=
  grouped Char.isDigit cs && (cs.head? != some '0' || cs.length == 1)

/-- A token without its sign, and whether there is a sign and it is a minus. -/
def unsigned : List Char → List Char × Bool × Bool
  | '+' :: cs => (cs, true, false)
  | '-' :: cs => (cs, true, true)
  | cs => (cs, false, false)

def integer? (token : List Char) : Option Int :=
  match token with
  | '0' :: 'x' :: cs => inBase? 16 cs
  | '0' :: 'o' :: cs => inBase? 8 cs
  | '0' :: 'b' :: cs => inBase? 2 cs
  | _ =>
      let (digits, _, isNegative) := unsigned token
      if isDecimal digits then
        let n : Int := numberIn 10 digits
        some (if isNegative then -n else n)
      else none

def isExponent : List Char → Bool
  | 'e' :: cs | 'E' :: cs => grouped Char.isDigit (unsigned cs).1
  | _ => false

def isFraction : List Char → Bool
  | '.' :: cs =>
      let digits := cs.takeWhile fun c => c.isDigit || c == '_'
      let behind := cs.drop digits.length
      grouped Char.isDigit digits && (behind.isEmpty || isExponent behind)
  | cs => isExponent cs

def isReal (token : List Char) : Bool :=
  let digits := (unsigned token).1
  let whole := digits.takeWhile fun c => c.isDigit || c == '_'
  digits == "inf".toList || digits == "nan".toList ||
    (isDecimal whole && isFraction (digits.drop whole.length))

/-! ## Moments -/

def digits? (n : Nat) (cs : List Char) : Option (Nat × List Char) :=
  let ds := cs.take n
  if ds.length == n && ds.all Char.isDigit then some (numberIn 10 ds, cs.drop n) else none

def daysIn (year month : Nat) : Nat :=
  if month == 2 then
    if year % 4 == 0 && (year % 100 != 0 || year % 400 == 0) then 29 else 28
  else if [4, 6, 9, 11].contains month then 30 else 31

def afterDate? (cs : List Char) : Option (List Char) := do
  let (year, cs) ← digits? 4 cs
  let (month, cs) ← digits? 2 (← Text.afterStart? ['-'] cs)
  let (day, cs) ← digits? 2 (← Text.afterStart? ['-'] cs)
  if 1 ≤ month && month ≤ 12 && 1 ≤ day && day ≤ daysIn year month then some cs else none

def afterSeconds? (cs : List Char) : Option (List Char) :=
  match cs with
  | ':' :: cs =>
      match digits? 2 cs with
      | some (s, rest) =>
          if 60 < s then none
          else match rest with
            | '.' :: fraction =>
                if (fraction.head?.map Char.isDigit).getD false then
                  some (fraction.dropWhile Char.isDigit)
                else none
            | _ => some rest
      | none => none
  | _ => some cs

def afterTime? (cs : List Char) : Option (List Char) := do
  let (hour, cs) ← digits? 2 cs
  let (minute, cs) ← digits? 2 (← Text.afterStart? [':'] cs)
  if hour ≤ 23 && minute ≤ 59 then afterSeconds? cs else none

def isOffset : List Char → Bool
  | [] | ['Z'] | ['z'] => true
  | c :: cs =>
      (c == '+' || c == '-') &&
        ((digits? 2 cs).bind fun (hour, rest) =>
          match rest with
          | ':' :: rest => (digits? 2 rest).map fun (minute, end_) =>
              end_.isEmpty && hour ≤ 23 && minute ≤ 59
          | _ => none).getD false

def isMoment (token : List Char) : Bool :=
  match afterDate? token with
  | some [] => true
  | some (c :: cs) =>
      (c == 'T' || c == 't' || c == ' ') && ((afterTime? cs).map isOffset).getD false
  | none => ((afterTime? token).map List.isEmpty).getD false

/-! ## Tokens -/

def endsToken (c : Char) : Bool := " \t\n\r,[]\x7b\x7d=#\"'".toList.contains c

def takeToken (cs : List Char) : List Char :=
  let token := cs.takeWhile fun c => !endsToken c
  match cs.drop token.length with
  | ' ' :: d :: rest =>
      if d.isDigit && afterDate? token == some [] then
        token ++ ' ' :: (d :: rest).takeWhile fun c => !endsToken c
      else token
  | _ => token

def scalar? (token : List Char) : Option Value :=
  if token == "true".toList then some (.boolean true)
  else if token == "false".toList then some (.boolean false)
  else match integer? token with
    | some n => some (.integer n)
    | none =>
        if isReal token then some .real
        else if isMoment token then some .moment
        else none

end PropStories.Toml
