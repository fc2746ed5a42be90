import PropStories.Text.Blank

/-!
# Syntax trees of TSX

A tree node has a kind, the label under which its parent refers to it, and the stretch of the
source that it covers, counted in characters. Words and marks of the language are anonymous
nodes; comments, and stretches that no rule accepts, may stand between any two tokens.
-/

namespace PropStories.Tsx

inductive Kind where
  /-- A word or mark of the language, by its text. -/
  | token (text : String)
  | program
  | comment
  /-- A stretch of text that no rule accepts. -/
  | error
  /-- An empty place where a token is required. -/
  | missing
  -- names and literals
  | identifier | propertyIdentifier | typeIdentifier | privateIdentifier | shorthandProperty
  | this | super | boolTrue | boolFalse | null | undefined | importWord
  | number | string | regex | templateString | templateSubstitution | jsxText | entity | hashBang
  -- expressions
  | object | pair | spread | method | computedName | array | function | generator | arrow
  | classValue | parenthesized | sequence | call | member | subscript | nonNull | new | unary
  | update | binary | ternary | assignment | yield | await | as | satisfies | instantiation
  | arguments | jsxElement | jsxAttribute | jsxExpression | decorator
  -- patterns
  | objectPattern | arrayPattern | pairPattern | restPattern | assignmentPattern
  -- signatures
  | parameters | parameter | accessModifier
  | typeParameters | typeParameter | typeAscription | typeArguments | predicate | asserts
  -- types
  | predefinedType | literalType | nestedTypeIdentifier | genericType | arrayType | lookupType
  | readonlyType | parenthesizedType | unionType | intersectionType | objectType | functionType
  | constructorType | conditionalType | inferType | keyofType | typeQuery | tupleType
  | tupleMember | templateType | thisType | maybeType | importedType
  | interfaceBody | propertySignature | methodSignature | callSignature | constructSignature
  | indexSignature | extendsClause
  -- statements and declarations
  | exportStatement | exportClause | importStatement | importClause
  | interfaceDeclaration | typeAliasDeclaration | functionDeclaration | generatorDeclaration
  | functionSignature | lexicalDeclaration | variableDeclaration | variableDeclarator
  | classDeclaration | classBody | classMember | enumDeclaration | moduleDeclaration
  | ambientDeclaration | importAlias | block | expressionStatement | emptyStatement
  | controlStatement | labeledStatement | switchCase
  deriving DecidableEq

def Kind.isNamed : Kind → Bool
  | .token _ => false
  | _ => true

def Kind.isExtra : Kind → Bool
  | .comment | .error => true
  | _ => false

def Kind.isFault : Kind → Bool
  | .error | .missing => true
  | _ => false

inductive Label where
  | name | body | declaration | value | type | parameters | returnType | typeArguments
  | arguments | function | key | object
  deriving DecidableEq

/-- The label of the node with which a left-nested node of this kind begins. -/
def Kind.headLabel : Kind → Option Label
  | .call => some .function
  | .member | .subscript => some .object
  | .genericType => some .name
  | _ => none

inductive Tree where
  | node (kind : Kind) (label : Option Label) (start stop : Nat) (children : List Tree)

namespace Tree

def kind : Tree → Kind
  | node k _ _ _ _ => k

def label? : Tree → Option Label
  | node _ l _ _ _ => l

def start : Tree → Nat
  | node _ _ s _ _ => s

def stop : Tree → Nat
  | node _ _ _ e _ => e

def children : Tree → List Tree
  | node _ _ _ _ cs => cs

def withLabel (l : Option Label) : Tree → Tree
  | node k _ s e cs => node k l s e cs

def isExtra (t : Tree) : Bool := t.kind.isExtra

/-! ## Children -/

def namedChildren (t : Tree) : List Tree := t.children.filter (·.kind.isNamed)

def parts (t : Tree) : List Tree := t.namedChildren.filter (·.kind != .comment)

def firstPart? (t : Tree) : Option Tree := t.parts.head?

def child? (t : Tree) (l : Label) : Option Tree := t.children.find? (·.label? == some l)

def hasToken (t : Tree) (text : String) : Bool := t.children.any (·.kind == .token text)

/-! ## Descent -/

theorem sizeOf_lt_of_mem_children {t c : Tree} (h : c ∈ t.children) : sizeOf c < sizeOf t := by
  cases t with
  | node k l s e cs =>
      have := List.sizeOf_lt_of_mem h
      simp [children] at this
      simp
      omega

theorem mem_children_of_mem_namedChildren {t c : Tree} (h : c ∈ t.namedChildren) :
    c ∈ t.children := (List.mem_filter.1 h).1

theorem mem_children_of_mem_parts {t c : Tree} (h : c ∈ t.parts) : c ∈ t.children :=
  mem_children_of_mem_namedChildren (List.mem_filter.1 h).1

theorem mem_children_of_firstPart? {t c : Tree} (h : t.firstPart? = some c) : c ∈ t.children :=
  mem_children_of_mem_parts (List.mem_of_mem_head? h)

theorem mem_children_of_child? {t c : Tree} {l : Label} (h : t.child? l = some c) :
    c ∈ t.children := List.mem_of_find?_eq_some h

theorem sizeOf_lt_of_mem_parts {t c : Tree} (h : c ∈ t.parts) : sizeOf c < sizeOf t :=
  sizeOf_lt_of_mem_children (mem_children_of_mem_parts h)

theorem sizeOf_lt_of_firstPart? {t c : Tree} (h : t.firstPart? = some c) : sizeOf c < sizeOf t :=
  sizeOf_lt_of_mem_children (mem_children_of_firstPart? h)

theorem sizeOf_lt_of_child? {t c : Tree} {l : Label} (h : t.child? l = some c) :
    sizeOf c < sizeOf t :=
  sizeOf_lt_of_mem_children (mem_children_of_child? h)

/-! ## Faults -/

mutual

def firstFault? : Tree → Option Nat
  | node k _ s _ cs => if k.isFault then some s else firstFaultAmong? cs

def firstFaultAmong? : List Tree → Option Nat
  | [] => none
  | t :: ts =>
      match firstFault? t with
      | some n => some n
      | none => firstFaultAmong? ts

end

def hasFault (t : Tree) : Bool := t.firstFault?.isSome

mutual

def contains (p : Tree → Bool) : Tree → Bool
  | node k l s e cs => p (node k l s e cs) || containsAmong p cs

def containsAmong (p : Tree → Bool) : List Tree → Bool
  | [] => false
  | t :: ts => contains p t || containsAmong p ts

end

/-! ## Building -/

/-- A node over a stretch of trees. Comments and errors in front of the first token stay outside;
without a token the node is empty and stands behind them, or at `place`. -/
def wrap (k : Kind) (place : Nat) (ts : List Tree) : List Tree :=
  match ts.dropWhile isExtra with
  | [] =>
      let behind := ((ts.getLast?).map stop).getD place
      ts ++ [node k none behind behind []]
  | first :: rest =>
      let last := (rest.getLast?).getD first
      ts.takeWhile isExtra ++ [node k none first.start last.stop (first :: rest)]

def labelled (l : Label) (ts : List Tree) : List Tree :=
  ts.map fun t => if t.isExtra then t else t.withLabel (some l)

/-- Puts `head` in front of the children of the node that ends `grown`, which then begins where
`head` does. -/
def adopt (head grown : List Tree) : List Tree :=
  match head.dropWhile isExtra, grown.dropWhile isExtra with
  | first :: rest, node k l _ e cs :: _ =>
      let core := (first :: rest).map fun t =>
        if t.isExtra then t else t.withLabel k.headLabel
      head.takeWhile isExtra ++ [node k l first.start e (core ++ grown.takeWhile isExtra ++ cs)]
  | _, _ => head ++ grown

end Tree

structure Syntax where
  source : List Char
  root : Tree

namespace Syntax

def textOf (x : Syntax) (t : Tree) : List Char := (x.source.drop t.start).take (t.stop - t.start)

def stringOf (x : Syntax) (t : Tree) : String := String.ofList (x.textOf t)

def isQuote (c : Char) : Bool := c == '\x27' || c == '\x22' || c == '\x60'

/-- The name that a key stands for: its text without quotes at the ends. -/
def keyName (x : Syntax) (t : Tree) : String :=
  String.ofList (Text.dropEndWhile isQuote ((x.textOf t).dropWhile isQuote))

def lineAt (x : Syntax) (place : Nat) : Nat := (x.source.take place).count '\n' + 1

def hasFault (x : Syntax) : Bool := x.root.hasFault

def faultLine? (x : Syntax) : Option Nat := x.root.firstFault?.map x.lineAt

end Syntax

end PropStories.Tsx
