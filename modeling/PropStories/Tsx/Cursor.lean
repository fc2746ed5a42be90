import PropStories.Tsx.Lexeme
import PropStories.Tsx.Tree

/-!
# Reading a source token by token

A cursor stands at the end of the last token and knows the gap in front of the next one. Repairs
change what is read: at a given place a token counts as present, or a stretch is passed over.
-/

namespace PropStories.Tsx

open Lexeme (Ending)

inductive Terminal where
  | word (text : String)
  | mark (text : String) (stops : String)
  /-- The question mark of a conditional expression. -/
  | ternaryMark
  | name (reserved : List String)
  | privateName | jsxName | number | string | regex
  | jsxString | entity | markupComment | hashBang
  -- these begin right after the last token, white space included
  | templateText | jsxText
  /-- The place where a statement may end without a semicolon; it has no text. -/
  | ending (e : Ending)
  | endOfInput
  deriving DecidableEq

inductive Repair where
  /-- At `place` the given token counts as present. -/
  | supply (place : Nat) (terminal : Terminal)
  /-- The text from `first` up to `last` is passed over. -/
  | skip (first last : Nat)
  deriving DecidableEq

def Repair.place : Repair → Nat
  | .supply n _ => n
  | .skip n _ => n

structure Cursor where
  /-- Where the last token ended. -/
  place : Nat
  /-- The text from there on. -/
  rest : List Char
  /-- The comments and skipped stretches in front of the next token. -/
  gap : List Tree
  /-- Where the next token begins. -/
  next : Nat
  /-- The text from there on. -/
  ahead : List Char
  /-- The text at the end of the gap, or at the first skipped stretch in it. -/
  sight : List Char
  /-- Whether a line ends before `sight`. -/
  lineBreak : Bool
  /-- Whether the last token was supplied by a repair. -/
  supplied : Bool
  repairs : List Repair

namespace Cursor

structure Gap where
  trees : List Tree
  next : Nat
  ahead : List Char
  sight : List Char
  lineBreak : Bool

def skipFrom? (repairs : List Repair) (place : Nat) : Option Nat :=
  repairs.findSome? fun r =>
    match r with
    | .skip first last => if first == place && first < last then some last else none
    | .supply _ _ => none

/-- Passes over white space, comments and skipped stretches; `inside` characters of the stretch or
comment that has begun are still to come. -/
def scanGap (repairs : List Repair) : Nat → Nat → List Char → Bool → Gap
  | _, n, [], br => ⟨[], n, [], [], br⟩
  | inside + 1, n, _ :: cs, br => scanGap repairs inside (n + 1) cs br
  | 0, n, c :: cs, br =>
      match skipFrom? repairs n with
      | some last =>
          let g := scanGap repairs (last - n - 1) (n + 1) cs br
          ⟨.node .error none n last [] :: g.trees, g.next, g.ahead, c :: cs, br⟩
      | none =>
          if Lexeme.isGap c then scanGap repairs 0 (n + 1) cs (br || c == '\n')
          else match Lexeme.comment? (c :: cs) with
            | some len =>
                let g := scanGap repairs (len - 1) (n + 1) cs br
                { g with trees := .node .comment none n (n + len) [] :: g.trees }
            | none => ⟨[], n, c :: cs, c :: cs, br⟩

def after (repairs : List Repair) (supplied : Bool) (place : Nat) (rest : List Char) : Cursor :=
  let g := scanGap repairs 0 place rest false
  ⟨place, rest, g.trees, g.next, g.ahead, g.sight, g.lineBreak, supplied, repairs⟩

def ofSource (source : List Char) (repairs : List Repair) : Cursor := after repairs false 0 source

/-! ## Tokens -/

inductive Found where
  | nothing
  /-- A token of the given length after the gap. -/
  | token (length : Nat)
  /-- A token of the given length right after the last one. -/
  | adjacent (length : Nat)
  /-- No text, but the place is right. -/
  | place
  | supplied

def ofLength? : Option Nat → Found
  | some n => if n == 0 then .nothing else .token n
  | none => .nothing

def find (c : Cursor) : Terminal → Found
  | .word w => ofLength? (Lexeme.word? w c.ahead)
  | .mark m stops => ofLength? (Lexeme.mark? m stops c.ahead)
  | .ternaryMark =>
      match c.ahead with
      | '?' :: '?' :: _ => .nothing
      | '?' :: '.' :: d :: _ => if d.isDigit then .token 1 else .nothing
      | '?' :: _ => .token 1
      | _ => .nothing
  | .name reserved => ofLength? (Lexeme.nameExcept? reserved c.ahead)
  | .privateName => ofLength? (Lexeme.privateName? c.ahead)
  | .jsxName => ofLength? (Lexeme.jsxName? c.ahead)
  | .number => ofLength? (Lexeme.number? c.ahead)
  | .string => ofLength? (Lexeme.string? c.ahead)
  | .regex => ofLength? (Lexeme.regex? c.ahead)
  | .jsxString => ofLength? (Lexeme.jsxString? c.ahead)
  | .templateText =>
      match Lexeme.templateText (c.rest.length + 1) c.rest with
      | 0 => .nothing
      | n => .adjacent n
  | .jsxText =>
      match Lexeme.jsxText? c.rest with
      | some n => if n == 0 then .nothing else .adjacent n
      | none => .nothing
  | .entity =>
      match Lexeme.entity? c.ahead with
      | some n => .token n
      | none => .nothing
  | .markupComment => ofLength? (Lexeme.markupComment? c.ahead)
  | .hashBang => if c.place == 0 then ofLength? (Lexeme.hashBang? c.ahead) else .nothing
  | .ending e => if !c.supplied && Lexeme.mayEnd e c.lineBreak c.sight then .place else .nothing
  | .endOfInput => if c.ahead.isEmpty then .token 0 else .nothing

def supplies (c : Cursor) (t : Terminal) : Bool :=
  !c.supplied && c.repairs.any (· == .supply c.place t)

def read (c : Cursor) (t : Terminal) : Found :=
  match c.find t with
  | .nothing => if c.supplies t then .supplied else .nothing
  | found => found

def consume (c : Cursor) (kind : Kind) : Found → Option (List Tree × Cursor)
  | .nothing => none
  | .place => some ([], c)
  | .supplied =>
      some ([.node .missing none c.place c.place []], after c.repairs true c.place c.rest)
  | .token n =>
      let leaf := if n == 0 then [] else [.node kind none c.next (c.next + n) []]
      some (c.gap ++ leaf, after c.repairs false (c.next + n) (c.ahead.drop n))
  | .adjacent n =>
      some ([.node kind none c.place (c.place + n) []],
        after c.repairs false (c.place + n) (c.rest.drop n))

end Cursor

end PropStories.Tsx
