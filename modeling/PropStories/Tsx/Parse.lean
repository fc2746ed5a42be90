import PropStories.Tsx.Grammar.Statements

/-!
# Parsing a source

Every source has a tree. Where no rule accepts the next token, the cheapest repair that lets it be
read is made: a closing token is supplied, or some tokens around the place are skipped. A repair
costs less the fewer and shorter the tokens are that it skips.
-/

namespace PropStories.Tsx

/-- Nonterminals nest at most this often for each character of the source. -/
def nestingPerCharacter : Nat := 16

def readProgram (source : List Char) (repairs : List Repair) : Outcome :=
  let n := source.length + 1
  Rule.read grammar n (nestingPerCharacter * n) .program (Cursor.ofSource source repairs)

def wholeTree? (source : List Char) (o : Outcome) : Option Tree :=
  o.result.map fun (ts, _) => .node .program none 0 source.length ts

/-! ## Repairs -/

namespace Repair

/-- The length of a token, whatever stands around it. -/
def looseLength (cs : List Char) : Nat :=
  match Lexeme.name? cs <|> Lexeme.number? cs <|> Lexeme.string? cs with
  | some n => n
  | none =>
      match ["...", "===", "!==", "=>", "==", "!=", "<=", ">=", "&&", "||", "??", "?.", "++", "--",
          "**"].find? fun m => (Text.afterStart? m.toList cs).isSome with
      | some m => m.length
      | none => 1

def looseTokens : Nat → Nat → List Char → List (Nat × Nat)
  | _, _, [] => []
  | 0, _, _ => []
  | fuel + 1, n, c :: cs =>
      if Lexeme.isGap c then looseTokens fuel (n + 1) cs
      else match Lexeme.comment? (c :: cs) with
        | some len => looseTokens fuel (n + len) ((c :: cs).drop len)
        | none =>
            let len := max 1 (looseLength (c :: cs))
            (n, n + len) :: looseTokens fuel (n + len) ((c :: cs).drop len)

/-- A terminal that may be supplied closes a construction or stands for an operand. -/
def supplied : List Terminal :=
  [.name [], .name Grammar.reservedTypeWords] ++
    ["\x7d", ")", "]", ">", ";", "`"].map fun m => .mark m ""

def supplyCost : Nat := 610

def skipCost (source : List Char) (tokens : List (Nat × Nat)) (first last : Nat) : Nat :=
  let text := (source.drop first).take (last - first)
  500 + text.length + 30 * text.count '\n' +
    100 * (tokens.filter fun t => first ≤ t.1 && t.1 < last).length

def within (first last : Nat) : Repair → Bool
  | .supply n _ => first ≤ n && n ≤ last
  | .skip a b => first ≤ a && b ≤ last

structure Candidate where
  cost : Nat
  repairs : List Repair
  /-- Where the token begins that has to be read for the repair to count. -/
  goal : Nat

def supplies (tokens : List (Nat × Nat)) (repairs : List Repair) (stuck : Nat) :
    List Candidate :=
  let place := ((tokens.filter fun t => t.1 < stuck).getLast?.map Prod.snd).getD 0
  supplied.map fun t => ⟨supplyCost, repairs ++ [.supply place t], stuck⟩

def skips (source : List Char) (tokens : List (Nat × Nat)) (repairs : List Repair)
    (start stuck : Nat) : List Candidate :=
  let before := (tokens.filter fun t => start ≤ t.1 && t.1 < stuck).map Prod.fst
  let behind := tokens.filter fun t => stuck ≤ t.1
  let firsts := (before.reverse.take 10 ++ before.take 1 ++ [stuck]).eraseDups
  let lasts := (stuck :: (behind.take 5).map Prod.snd ++ [source.length]).eraseDups
  let all := firsts.flatMap fun a => (lasts.filter (a < ·)).map fun b =>
    let goal := ((tokens.find? fun t => b ≤ t.1).map Prod.fst).getD source.length
    ⟨skipCost source tokens a b, repairs.filter (fun r => !r.within a b) ++ [.skip a b], goal⟩
  all.mergeSort fun x y => x.cost ≤ y.cost

def statementsEnd (source : List Char) (repairs : List Repair) : Nat :=
  let n := source.length + 1
  let o := Rule.run n (Rule.read grammar n (nestingPerCharacter * n)) (.many (.ref .statement))
    (Cursor.ofSource source repairs)
  match o.result with
  | some (_, c) => c.next
  | none => 0

def succeeds (source : List Char) (x : Candidate) : Bool :=
  let o := readProgram source x.repairs
  o.result.isSome || x.goal < o.reach

def firstFew (p : Candidate → Bool) : Nat → List Candidate → List Candidate
  | 0, _ => []
  | _, [] => []
  | limit + 1, x :: xs =>
      if p x then x :: firstFew p limit xs else firstFew p (limit + 1) xs

/-- The repairs worth pursuing where reading stopped: a supplied token, and the cheapest skips. -/
def steps (source : List Char) (repairs : List Repair) (stuck : Nat) : List Candidate :=
  let tokens := looseTokens (source.length + 1) 0 source
  firstFew (succeeds source) 1 (supplies tokens repairs stuck) ++
    firstFew (succeeds source) 2
      (skips source tokens repairs (statementsEnd source repairs) stuck)

structure Plan where
  cost : Nat
  repairs : List Repair

def totalCost (source : List Char) (repairs : List Repair) : Nat :=
  let tokens := looseTokens (source.length + 1) 0 source
  repairs.foldl (fun total r =>
    total + match r with
      | .supply _ _ => supplyCost
      | .skip a b => skipCost source tokens a b) 0

/-- Pursues the cheapest plan first, at most `fuel` plans. -/
def search (source : List Char) : Nat → List Plan → Option Tree
  | 0, _ => none
  | _, [] => none
  | fuel + 1, plan :: plans =>
      let o := readProgram source plan.repairs
      match wholeTree? source o with
      | some t => some t
      | none =>
          let more := (steps source plan.repairs o.reach).map fun x =>
            Plan.mk (totalCost source x.repairs) x.repairs
          search source fuel ((plans ++ more).mergeSort fun x y => x.cost ≤ y.cost)

end Repair

def planLimit : Nat := 40

def parseStrict? (source : List Char) : Option Syntax :=
  (wholeTree? source (readProgram source [])).map (Syntax.mk source)

def parse (source : List Char) : Syntax :=
  match Repair.search source planLimit [⟨0, []⟩] with
  | some t => ⟨source, t⟩
  | none =>
      let start := (source.takeWhile Lexeme.isGap).length
      ⟨source, .node .program none 0 source.length [.node .error none start source.length []]⟩

/-- A text in parentheses, as the value of a declaration. The line break keeps a line comment from
hiding the closing parenthesis. -/
def asValue (text : List Char) : List Char :=
  "const __value = (\n".toList ++ text ++ "\n);\n".toList

/-- Whether a text is one expression: as a value it makes a single declaration, with no fault and
nothing beside it. -/
def isExpression (text : String) : Bool :=
  !Text.allBlank text.toList &&
    ((parseStrict? (asValue text.toList)).map fun x => x.root.namedChildren.length == 1).getD false

end PropStories.Tsx
