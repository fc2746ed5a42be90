import PropStories.Tsx.Cursor

/-!
# Rules and how they read

A grammar gives a rule for each of its nonterminals. Rules are data; one interpreter reads them
with ordered choice: the first alternative that fits is taken, and a repetition takes all it can.
What is read before a failure is kept as its reach, the place of the furthest token that was
looked at, which is where a fault in the source shows.
-/

namespace PropStories.Tsx

inductive Nonterminal where
  | program | statement | block | classBody
  | expression | operand | chain | memberChain | element | pattern
  | type | typeOperand | objectType
  deriving DecidableEq

inductive Rule where
  | empty
  | token (terminal : Terminal) (kind : Kind)
  /-- No line ends in front of the next token. -/
  | sameLine
  | ref (n : Nonterminal)
  | seq (first second : Rule)
  | alt (first second : Rule)
  | opt (body : Rule)
  | many (body : Rule)
  /-- `body` follows, but is not read. -/
  | follows (body : Rule)
  /-- `body` does not follow. -/
  | without (body : Rule)
  | node (kind : Kind) (body : Rule)
  | label (tag : Label) (body : Rule)
  /-- A left-nested construction: `suffix` gives a node, which adopts what was read before it, as
  often as the node read so far has one of the kinds `heads`. No `heads` means any kind. -/
  | grow (base : Rule) (heads : List Kind) (suffix : Rule)

instance : Append Rule := ⟨Rule.seq⟩

instance : OrElse Rule := ⟨fun first second => Rule.alt first (second ())⟩

structure Outcome where
  result : Option (List Tree × Cursor)
  reach : Nat

namespace Outcome

def success (ts : List Tree) (c : Cursor) (reach : Nat) : Outcome := ⟨some (ts, c), reach⟩

def failure (reach : Nat) : Outcome := ⟨none, reach⟩

def reaching (o : Outcome) (n : Nat) : Outcome := { o with reach := max n o.reach }

def mapTrees (f : List Tree → List Tree) (o : Outcome) : Outcome :=
  { o with result := o.result.map fun (ts, c) => (f ts, c) }

end Outcome

namespace Rule

def repeated (step : Cursor → Outcome) : Nat → Cursor → Outcome
  | 0, c => .success [] c 0
  | limit + 1, c =>
      let o := step c
      match o.result with
      | none => .success [] c o.reach
      | some (ts, c') =>
          if c.place < c'.place then
            ((repeated step limit c').mapTrees (ts ++ ·)).reaching o.reach
          else .success [] c o.reach

/-- Lets the nodes that `step` gives adopt what was read before. -/
def grown (step : Cursor → Outcome) (heads : List Kind) : Nat → List Tree → Cursor → Outcome
  | 0, ts, c => .success ts c 0
  | limit + 1, ts, c =>
      let unfinished := heads.isEmpty ||
        ((ts.getLast?).map fun t => heads.contains t.kind).getD false
      if unfinished then
        let o := step c
        match o.result with
        | none => .success ts c o.reach
        | some (more, c') =>
            if c.place < c'.place then
              (grown step heads limit (Tree.adopt ts more) c').reaching o.reach
            else .success ts c o.reach
      else .success ts c 0

def run (limit : Nat) (rec : Nonterminal → Cursor → Outcome) : Rule → Cursor → Outcome
  | empty, c => .success [] c 0
  | token t k, c =>
      match c.consume k (c.read t) with
      | some (ts, c') => .success ts c' c.next
      | none => .failure c.next
  | sameLine, c => if c.lineBreak then .failure 0 else .success [] c 0
  | ref n, c => rec n c
  | seq a b, c =>
      let o := run limit rec a c
      match o.result with
      | none => o
      | some (ts, c') => ((run limit rec b c').mapTrees (ts ++ ·)).reaching o.reach
  | alt a b, c =>
      let o := run limit rec a c
      match o.result with
      | none => (run limit rec b c).reaching o.reach
      | some _ => o
  | opt a, c =>
      let o := run limit rec a c
      match o.result with
      | none => .success [] c o.reach
      | some _ => o
  | many a, c => repeated (run limit rec a) limit c
  | follows a, c => if (run limit rec a c).result.isSome then .success [] c 0 else .failure 0
  | without a, c => if (run limit rec a c).result.isSome then .failure 0 else .success [] c 0
  | node k a, c => (run limit rec a c).mapTrees (Tree.wrap k c.place)
  | label l a, c => (run limit rec a c).mapTrees (Tree.labelled l)
  | grow base heads suffix, c =>
      let o := run limit rec base c
      match o.result with
      | none => o
      | some (ts, c') => (grown (run limit rec suffix) heads limit ts c').reaching o.reach

/-- Reads a nonterminal of a grammar; each step of `fuel` allows one more nested nonterminal. -/
def read (grammar : Nonterminal → Rule) (limit : Nat) :
    Nat → Nonterminal → Cursor → Outcome
  | 0, _, _ => .failure 0
  | fuel + 1, n, c => run limit (read grammar limit fuel) (grammar n) c

end Rule

end PropStories.Tsx
