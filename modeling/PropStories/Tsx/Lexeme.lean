import PropStories.Text.Blank

/-!
# Lexemes

How many characters of a text each kind of lexeme takes from its front. Which lexeme is looked for
depends on the place in the grammar, so there is no single division of a source into tokens: `>>`
closes two lists of type arguments but is one operator between numbers.
-/

namespace PropStories.Tsx.Lexeme

open Text (isBlank afterStart?)

def isGap (c : Char) : Bool :=
  isBlank c || c.toNat == 0xFEFF || c.toNat == 0x2060 || c.toNat == 0x200B

/-! ## Escapes -/

def isHexDigit (c : Char) : Bool :=
  c.isDigit || ('a' ≤ c && c ≤ 'f') || ('A' ≤ c && c ≤ 'F')

/-- The code behind the letter `u` of an escape: four digits, or some in braces. -/
def codeTail? : List Char → Option Nat
  | '\x7b' :: cs =>
      let n := (cs.takeWhile isHexDigit).length
      if 0 < n && (cs.drop n).head? == some '\x7d' then some (n + 2) else none
  | a :: b :: c :: d :: _ => if [a, b, c, d].all isHexDigit then some 4 else none
  | _ => none

/-! ## Names -/

def isNamePart (c : Char) : Bool :=
  31 < c.toNat && !isGap c && !(":;`\"'@#.,|^&<=>+-*/\\%?!~()[]\x7b\x7d".toList.contains c)

def isNameStart (c : Char) : Bool := isNamePart c && !c.isDigit

/-- One letter of a name, for which the escape of its code may stand. -/
def nameLetter? (p : Char → Bool) : List Char → Option Nat
  | '\\' :: 'u' :: cs => (codeTail? cs).map (· + 2)
  | c :: _ => if p c then some 1 else none
  | [] => none

/-- The letters that go on with a name, of which the first `inside` characters are known. -/
def nameTail : Nat → List Char → Nat
  | _, [] => 0
  | inside + 1, _ :: cs => nameTail inside cs + 1
  | 0, c :: cs =>
      match nameLetter? isNamePart (c :: cs) with
      | some n => nameTail (n - 1) cs + 1
      | none => 0

def name? (cs : List Char) : Option Nat := (nameLetter? isNameStart cs).map (nameTail · cs)

def nameExcept? (reserved : List String) (cs : List Char) : Option Nat :=
  match name? cs with
  | some n => if reserved.contains (String.ofList (cs.take n)) then none else some n
  | none => none

def word? (w : String) (cs : List Char) : Option Nat :=
  match afterStart? w.toList cs with
  | none => none
  | some rest => if (nameLetter? isNamePart rest).isSome then none else some w.length

def mark? (m : String) (stops : String) (cs : List Char) : Option Nat :=
  match afterStart? m.toList cs with
  | none => none
  | some [] => some m.length
  | some (c :: _) => if stops.toList.contains c then none else some m.length

def privateName? : List Char → Option Nat
  | '#' :: cs => (name? cs).map (· + 1)
  | _ => none

def isDashedPart (c : Char) : Bool := c.isAlphanum || c == '_' || c == '$'

/-- The name of an element or attribute: one of ASCII letters may hold dashes. -/
def jsxName? (cs : List Char) : Option Nat :=
  let front := cs.takeWhile isDashedPart
  let rest := cs.drop front.length
  if (front.head?.map fun c => !c.isDigit).getD false && rest.head? == some '-' then
    some (front.length + (rest.takeWhile fun c => isDashedPart c || c == '-').length)
  else name? cs

/-! ## Numbers -/

/-- Digits of one kind, with at most one underscore between two of them. -/
def digits (p : Char → Bool) : List Char → Nat
  | [] => 0
  | c :: cs =>
      if p c then digits p cs + 1
      else match cs with
        | d :: _ => if c == '_' && p d then digits p cs + 1 else 0
        | [] => 0

def digitRun (p : Char → Bool) (cs : List Char) : Nat :=
  match cs with
  | c :: _ => if p c then digits p cs else 0
  | [] => 0

def exponent (cs : List Char) : Nat :=
  match cs with
  | e :: rest =>
      if e == 'e' || e == 'E' then
        let signed := match rest with
          | s :: more => if s == '+' || s == '-' then (1, more) else (0, rest)
          | [] => (0, rest)
        match digitRun Char.isDigit signed.2 with
        | 0 => 0
        | n => n + signed.1 + 1
      else 0
  | [] => 0

def bigSuffix (cs : List Char) : Nat := if cs.head? == some 'n' then 1 else 0

def radixNumber? (letter : Char) (p : Char → Bool) : List Char → Option Nat
  | '0' :: x :: cs =>
      if x.toLower == letter then
        match digitRun p cs with
        | 0 => none
        | n => some (2 + n + bigSuffix (cs.drop n))
      else none
  | _ => none

def decimal? (cs : List Char) : Option Nat :=
  let whole := digitRun Char.isDigit cs
  match cs.drop whole with
  | '.' :: rest =>
      let part := digitRun Char.isDigit rest
      if whole == 0 && part == 0 then none
      else some (whole + 1 + part + exponent (rest.drop part))
  | rest =>
      if whole == 0 then none
      else if bigSuffix rest == 1 then some (whole + 1)
      else some (whole + exponent rest)

def number? (cs : List Char) : Option Nat :=
  radixNumber? 'x' isHexDigit cs <|> radixNumber? 'o' (fun c => '0' ≤ c && c ≤ '7') cs <|>
    radixNumber? 'b' (fun c => c == '0' || c == '1') cs <|> decimal? cs

/-! ## Quoted text -/

def escapeTail? : List Char → Option Nat
  | 'x' :: a :: b :: _ => if isHexDigit a && isHexDigit b then some 3 else none
  | 'x' :: _ => none
  | 'u' :: cs => (codeTail? cs).map (· + 1)
  | '\r' :: '\n' :: _ => some 2
  | _ :: _ => some 1
  | [] => none

def stringTail? (quote : Char) : Nat → List Char → Option Nat
  | 0, _ => none
  | _, [] => none
  | fuel + 1, c :: cs =>
      if c == quote then some 1
      else if c == '\n' || c == '\r' then none
      else if c == '\\' then
        match escapeTail? cs with
        | some n => (stringTail? quote fuel (cs.drop n)).map (· + (n + 1))
        | none => none
      else (stringTail? quote fuel cs).map (· + 1)

def string? : List Char → Option Nat
  | q :: cs =>
      if q == '\x27' || q == '\x22' then (stringTail? q (cs.length + 1) cs).map (· + 1) else none
  | [] => none

/-! ## Templates, regular expressions, element text -/

def templateText : Nat → List Char → Nat
  | 0, _ => 0
  | _, [] => 0
  | fuel + 1, c :: cs =>
      if c == '\x60' then 0
      else if c == '\\' then
        match escapeTail? cs with
        | some n => templateText fuel (cs.drop n) + (n + 1)
        | none => 0
      else if c == '$' && cs.head? == some '\x7b' then 0
      else templateText fuel cs + 1

def regexTail? (inSet : Bool) : List Char → Option Nat
  | [] => none
  | '\\' :: c :: cs => if c == '\n' then none else (regexTail? inSet cs).map (· + 2)
  | c :: cs =>
      if c == '\n' then none
      else if c == '/' && !inSet then some 1
      else if c == '[' then (regexTail? true cs).map (· + 1)
      else if c == ']' then (regexTail? false cs).map (· + 1)
      else (regexTail? inSet cs).map (· + 1)

def regex? : List Char → Option Nat
  | '/' :: c :: cs =>
      if c == '/' || c == '*' then none
      else match regexTail? false (c :: cs) with
        | some n => some (n + 1 + (((c :: cs).drop n).takeWhile Char.isLower).length)
        | none => none
  | _ => none

def isElementText (c : Char) : Bool := !("<>&\x7b\x7d".toList.contains c)

/-- Text between elements. White space alone counts only if some of it precedes any line break. -/
def jsxText? (cs : List Char) : Option Nat :=
  let text := cs.takeWhile isElementText
  if (text.takeWhile (· != '\n')).isEmpty && text.all isGap then none else some text.length

def entity? : List Char → Option Nat
  | '&' :: '#' :: x :: cs =>
      let hex := x == 'x' || x == 'X'
      let body := if hex then cs else x :: cs
      let n := (body.takeWhile (if hex then isHexDigit else Char.isDigit)).length
      if 0 < n && n ≤ (if hex then 6 else 5) && (body.drop n).head? == some ';' then
        some (n + (if hex then 4 else 3))
      else none
  | '&' :: cs =>
      let n := (cs.takeWhile Char.isAlpha).length
      if 0 < n && n ≤ 30 && (cs.drop n).head? == some ';' then some (n + 2) else none
  | _ => none

/-- The rest of a quoted attribute value, of which the first `inside` characters are known. An
ampersand takes the character behind it along, even a quote, unless that could begin an entity. -/
def jsxStringTail? (quote : Char) : Nat → List Char → Option Nat
  | _, [] => none
  | inside + 1, _ :: cs => (jsxStringTail? quote inside cs).map (· + 1)
  | 0, c :: cs =>
      if c == quote then some 1
      else if c == '&' then
        if (cs.head?.map fun d => d == '#' || d.isAlpha).getD false then
          match entity? (c :: cs) with
          | some n => (jsxStringTail? quote (n - 1) cs).map (· + 1)
          | none => none
        else (jsxStringTail? quote 1 cs).map (· + 1)
      else (jsxStringTail? quote 0 cs).map (· + 1)

def jsxString? : List Char → Option Nat
  | q :: cs =>
      if q == '\x27' || q == '\x22' then (jsxStringTail? q 0 cs).map (· + 1) else none
  | [] => none

def hashBang? : List Char → Option Nat
  | '#' :: '!' :: cs => some ((cs.takeWhile (· != '\n')).length + 2)
  | _ => none

/-! ## Comments -/

def blockCommentTail? : List Char → Option Nat
  | [] => none
  | c :: cs =>
      if c == '*' && cs.head? == some '/' then some 2
      else (blockCommentTail? cs).map (· + 1)

def isLineEnd (c : Char) : Bool :=
  c == '\n' || c == '\r' || c.toNat == 0x2028 || c.toNat == 0x2029

def comment? : List Char → Option Nat
  | '/' :: '/' :: cs => some ((cs.takeWhile fun c => !isLineEnd c).length + 2)
  | '/' :: '*' :: cs => (blockCommentTail? cs).map (· + 2)
  | _ => none

/-- A comment in the manner of markup, which takes the rest of its line. -/
def markupComment? (cs : List Char) : Option Nat :=
  (afterStart? "<!--".toList cs).map fun rest =>
    4 + (rest.takeWhile fun c => c != '\n' && c.toNat != 0x2028 && c.toNat != 0x2029).length

/-! ## Ends of statements -/

/-- Where a statement or member may end without a semicolon: after an expression, after a member
of a type, or after the head of a function without a body. -/
inductive Ending where
  | expression | typeMember | signature
  deriving DecidableEq

def mayBegin (e : Ending) : List Char → Bool
  | [] => true
  | c :: cs =>
      if "`,.;*%><=?^|&/:".toList.contains c then false
      else if c == '\x7b' then e != .signature
      else if c == '(' || c == '[' then e == .typeMember
      else if c == '+' || c == '-' then cs.head? == some c
      else if c == '!' then cs.head? != some '='
      else if c == 'i' then
        match cs with
        | 'n' :: rest =>
            match rest.head? with
            | some d =>
                if !d.isAlpha then false
                else match afterStart? "stanceof".toList rest with
                  | some more => (more.head?.map Char.isAlpha).getD false
                  | none => true
            | none => false
        | _ => true
      else true

def mayEnd (e : Ending) (lineBreak : Bool) (ahead : List Char) : Bool :=
  match ahead with
  | [] => true
  | c :: cs =>
      if lineBreak then mayBegin e ahead
      else c == '\x7d' && (e == .expression || (cs.dropWhile isBlank).head? != some ':')

end PropStories.Tsx.Lexeme
