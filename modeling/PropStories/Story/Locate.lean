import PropStories.Tsx.Tree

/-!
# Finding the places of a story

The object literals of a story are the values of its top-level variables, perhaps in parentheses or
with an ascribed type. What is found are nodes of the syntax tree; the text around them decides
indentation and what goes with a removed entry.
-/

namespace PropStories.Story

open Tsx

/-! ## Declarations -/

mutual

def bare? : Tree → Option Tree
  | .node k l s e cs =>
      match k with
      | .satisfies | .as | .parenthesized => bareAmong? cs
      | _ => some (.node k l s e cs)

def bareAmong? : List Tree → Option Tree
  | [] => none
  | t :: ts => if t.kind.isNamed && t.kind != .comment then bare? t else bareAmong? ts

end

def declarators (statement : Tree) : List Tree :=
  let declaration? :=
    if statement.kind == .exportStatement then statement.child? .declaration else some statement
  match declaration? with
  | none => []
  | some d =>
      if d.kind == .lexicalDeclaration || d.kind == .variableDeclaration then
        d.namedChildren.filter (·.kind == .variableDeclarator)
      else []

/-- The object literal that the first top-level variable of the given name is set to. -/
def objectOf? (x : Syntax) (name : String) : Option Tree := do
  let declared ← (x.root.namedChildren.flatMap declarators).find? fun d =>
    ((d.child? .name).map x.stringOf) == some name
  let value ← (← declared.child? .value) |> bare?
  if value.kind == .object then some value else none

/-! ## Entries of an object literal -/

def pairOf? (x : Syntax) (object : Tree) (key : String) : Option Tree :=
  object.namedChildren.find? fun m =>
    m.kind == .pair && ((m.child? .key).map x.keyName) == some key

def commaBehind? (object : Tree) (place : Nat) : Option Tree :=
  object.children.find? fun c => c.kind == .token "," && place ≤ c.start

def imports (x : Syntax) (name : String) : Bool :=
  (x.root.namedChildren.filter (·.kind == .importStatement)).any fun i =>
    i.contains fun t => t.kind == .identifier && x.stringOf t == name

/-! ## Lines -/

def lineStart (source : List Char) (place : Nat) : Nat :=
  place - ((source.take place).reverse.takeWhile (· != '\n')).length

def lineIndent (source : List Char) (place : Nat) : String :=
  String.ofList ((source.drop (lineStart source place)).takeWhile fun c => c == ' ' || c == '\t')

def nextLine? (source : List Char) (place : Nat) : Option Nat :=
  let behind := source.drop place
  let line := behind.takeWhile (· != '\n')
  if line.length < behind.length then some (place + line.length + 1) else none

def blankBetween (source : List Char) (start stop : Nat) : Bool :=
  Text.allBlank ((source.drop start).take (stop - start))

def entryEnd (source : List Char) (object pair : Tree) : Nat :=
  match commaBehind? object pair.stop with
  | some comma => if blankBetween source pair.stop comma.start then comma.stop else pair.stop
  | none => pair.stop

/-- The range to remove with an entry: the entry with its comma, and the whole lines if there is
nothing else on them. -/
def removalRange (source : List Char) (object pair : Tree) : Nat × Nat :=
  let stop := entryEnd source object pair
  let start := lineStart source pair.start
  match nextLine? source stop with
  | some next =>
      if blankBetween source start pair.start && blankBetween source stop next then (start, next)
      else (pair.start, stop)
  | none => (pair.start, stop)

end PropStories.Story
