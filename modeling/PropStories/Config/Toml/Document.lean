import PropStories.Config.Toml.Scalar

/-!
# TOML documents

A document is a list of headers and assignments. Each opens a table or puts a value into the table
that is open; nothing may be defined twice. Main definition: `parse`, whose fault is the place
where reading stopped.
-/

namespace PropStories.Toml

/-! ## Tables under construction -/

inductive TableKind where
  /-- Named by a header of its own, or the document. -/
  | explicit
  /-- On the way to the table of a header. -/
  | passed
  /-- On the way to a dotted key. -/
  | dotted
  deriving DecidableEq

inductive Node where
  | value (place : Nat) (v : Value)
  | table (kind : TableKind) (place : Nat) (entries : List (String × Node))
  /-- The tables of a repeated header, each a table. -/
  | tables (place : Nat) (items : List Node)

/-- A part of a dotted key, with the number of characters left where it begins. -/
structure Key where
  name : String
  place : Nat

abbrev Entries := List (String × Node)

def change (name : String) (f : Option Node → Except Nat Node) : Entries → Except Nat Entries
  | [] => (f none).map fun n => [(name, n)]
  | (k, n) :: es =>
      if k == name then (f (some n)).map fun m => (k, m) :: es
      else (change name f es).map ((k, n) :: ·)

def changeLast (place : Nat) (f : Node → Except Nat Node) : List Node → Except Nat (List Node)
  | [] => .error place
  | [n] => (f n).map fun m => [m]
  | n :: ns => (changeLast place f ns).map (n :: ·)

/-- A change of the entries of a table; of a repeated header, the last table is meant. -/
def inTable (place : Nat) (f : Entries → Except Nat Entries) : Node → Except Nat Node
  | .table kind p es => (f es).map (.table kind p)
  | .tables p items =>
      (changeLast place
        (fun
          | .table kind q es => (f es).map (.table kind q)
          | _ => .error place) items).map (.tables p)
  | .value _ _ => .error place

def inTableOf (f : Entries → Except Nat Entries) : List Key → Entries → Except Nat Entries
  | [] => f
  | k :: ks =>
      change k.name fun
        | none => (inTableOf f ks []).map (.table .passed k.place)
        | some n => inTable k.place (inTableOf f ks) n

def openTable (k : Key) : Entries → Except Nat Entries :=
  change k.name fun
    | none => .ok (.table .explicit k.place [])
    | some (.table .passed _ es) => .ok (.table .explicit k.place es)
    | some _ => .error k.place

def openRepeated (k : Key) : Entries → Except Nat Entries :=
  let fresh := Node.table .explicit k.place []
  change k.name fun
    | none => .ok (.tables k.place [fresh])
    | some (.tables p items) => .ok (.tables p (items ++ [fresh]))
    | some _ => .error k.place

/-- Puts a value under a dotted key. Only tables made by dotted keys can be added to. -/
def assign (place : Nat) (v : Value) : List Key → Entries → Except Nat Entries
  | [], _ => .error place
  | [k], es =>
      change k.name (fun
        | none => .ok (.value place v)
        | some _ => .error k.place) es
  | k :: ks, es =>
      change k.name (fun
        | none => (assign place v ks []).map (.table .dotted k.place)
        | some (.table kind p inner) =>
            if kind == .explicit || (kind == .passed && ks.length == 1) then .error k.place
            else (assign place v ks inner).map (.table kind p)
        | some _ => .error k.place) es

mutual

def Node.toValue : Node → Nat × Value
  | .value place v => (place, v)
  | .table _ place es => (place, .table (entriesToValue es))
  | .tables place ns => (place, .list (itemsToValue ns))

def entriesToValue : List (String × Node) → List (String × Nat × Value)
  | [] => []
  | (k, n) :: es => (k, n.toValue) :: entriesToValue es

def itemsToValue : List Node → List (Nat × Value)
  | [] => []
  | n :: ns => n.toValue :: itemsToValue ns

end

/-! ## Space -/

def skipBlanks (cs : List Char) : List Char := cs.dropWhile isBlank

def skipComment : Reader Unit
  | '#' :: cs =>
      let behind := cs.dropWhile fun c => !isControl c
      if behind.isEmpty || (afterNewline? behind).isSome then .ok ((), behind) else fail behind
  | cs => .ok ((), cs)

def skipGap : Nat → Reader Unit
  | 0, cs => .ok ((), cs)
  | fuel + 1, cs => do
      let (_, behind) ← skipComment (skipBlanks cs)
      match afterNewline? behind with
      | some rest => skipGap fuel rest
      | none => .ok ((), behind)

def gap (cs : List Char) : Except Nat (List Char) :=
  (skipGap (cs.length + 1) cs).map Prod.snd

def lineEnd (cs : List Char) : Except Nat (List Char) := do
  let (_, behind) ← skipComment (skipBlanks cs)
  if behind.isEmpty then .ok []
  else match afterNewline? behind with
    | some rest => .ok rest
    | none => fail behind

/-! ## Keys -/

def isKeyChar (c : Char) : Bool := c.isAlphanum || c == '_' || c == '-'

def key : Reader Key := fun cs =>
  match cs with
  | '\x22' :: rest => (basicLine (rest.length + 1) rest).map fun (s, left) =>
      (⟨String.ofList s, cs.length⟩, left)
  | '\x27' :: rest => (literalLine rest).map fun (s, left) =>
      (⟨String.ofList s, cs.length⟩, left)
  | _ =>
      match cs.takeWhile isKeyChar with
      | [] => fail cs
      | name => .ok (⟨String.ofList name, cs.length⟩, cs.drop name.length)

def dottedKey : Nat → Reader (List Key)
  | 0, cs => fail cs
  | fuel + 1, cs => do
      let (k, left) ← key (skipBlanks cs)
      match skipBlanks left with
      | '.' :: rest => (dottedKey fuel rest).map fun (ks, left) => (k :: ks, left)
      | _ => .ok ([k], left)

def keys : Reader (List Key) := fun cs => dottedKey (cs.length + 1) cs

def expect (c : Char) (cs : List Char) : Except Nat (List Char) :=
  match cs with
  | d :: rest => if d == c then .ok rest else fail cs
  | [] => fail cs

/-! ## Values -/

/-- The items of a list up to and with the closing bracket; the last may have a comma behind it. -/
def items (item : Reader (Nat × Value)) : Nat → Reader (List (Nat × Value))
  | 0, cs => fail cs
  | fuel + 1, cs => do
      match ← gap cs with
      | ']' :: rest => .ok ([], rest)
      | start =>
          let (v, left) ← item start
          match ← gap left with
          | ',' :: rest => before v (items item fuel rest)
          | ']' :: rest => .ok ([v], rest)
          | other => fail other

def inlineEntries (item : Reader (Nat × Value)) : Nat → Entries → Reader Entries
  | 0, _, cs => fail cs
  | fuel + 1, es, cs => do
      match ← gap cs with
      | '\x7d' :: rest => .ok (es, rest)
      | start =>
          let (ks, left) ← keys start
          let (v, left) ← item (skipBlanks (← expect '=' (skipBlanks left)))
          let es ← assign v.1 v.2 ks es
          match ← gap left with
          | ',' :: rest => inlineEntries item fuel es rest
          | '\x7d' :: rest => .ok (es, rest)
          | other => fail other

def value : Nat → Reader (Nat × Value)
  | depth, cs =>
      match string? cs with
      | some r => r.map fun (s, left) => ((cs.length, .text (String.ofList s)), left)
      | none =>
          match depth, cs with
          | depth + 1, '[' :: rest =>
              (items (value depth) (rest.length + 1) rest).map fun (vs, left) =>
                ((cs.length, .list vs), left)
          | depth + 1, '\x7b' :: rest =>
              (inlineEntries (value depth) (rest.length + 1) [] rest).map fun (es, left) =>
                ((cs.length, .table (entriesToValue es)), left)
          | _, _ =>
              let token := takeToken cs
              match scalar? token with
              | some v => .ok ((cs.length, v), cs.drop token.length)
              | none => fail cs

def depthLimit : Nat := 80

/-! ## Documents -/

structure Draft where
  entries : Entries
  header : List Key

def readHeader (d : Draft) (cs : List Char) : Except Nat (Draft × List Char) := do
  let (isRepeated, start) := match cs with
    | '[' :: rest => (true, rest)
    | _ => (false, cs)
  let (ks, left) ← keys start
  let left ← expect ']' (skipBlanks left)
  let left ← if isRepeated then expect ']' left else .ok left
  let left ← lineEnd left
  match ks.getLast? with
  | none => fail cs
  | some last =>
      let opening := if isRepeated then openRepeated last else openTable last
      let entries ← inTableOf opening ks.dropLast d.entries
      .ok (⟨entries, ks⟩, left)

def readAssignment (d : Draft) (cs : List Char) : Except Nat (Draft × List Char) := do
  let (ks, left) ← keys cs
  let (v, left) ← value depthLimit (skipBlanks (← expect '=' (skipBlanks left)))
  let left ← lineEnd left
  let entries ← inTableOf (assign v.1 v.2 ks) d.header d.entries
  .ok (⟨entries, d.header⟩, left)

def readStatements : Nat → Draft → List Char → Except Nat Draft
  | 0, d, _ => .ok d
  | fuel + 1, d, cs => do
      match ← gap cs with
      | [] => .ok d
      | '[' :: rest =>
          let (d, left) ← readHeader d rest
          readStatements fuel d left
      | start =>
          let (d, left) ← readAssignment d start
          readStatements fuel d left

/-- The table that a text stands for, or the number of characters left where reading failed. A
byte order mark may come first. -/
def parse (cs : List Char) : Except Nat (Nat × Value) :=
  let body := match cs with
    | '\ufeff' :: rest => rest
    | _ => cs
  (readStatements (body.length + 1) ⟨[], []⟩ body).map fun d =>
    (cs.length, .table (entriesToValue d.entries))

/-- The line and column, from 1, of a place in a text. Behind the last character, the place
counts as right of it. -/
def lineAndColumn (cs : List Char) (index : Nat) : Nat × Nat :=
  let last := min index (cs.length - 1)
  let front := cs.take last
  let column := (front.reverse.takeWhile (· != '\n')).length
  (front.count '\n' + 1, column + (index - last) + 1)

def faultMessage (cs : List Char) (left : Nat) : String :=
  let (line, column) := lineAndColumn cs (cs.length - left)
  "TOML parse error at line " ++ toString line ++ ", column " ++ toString column

end PropStories.Toml
