import PropStories.Disk.Basic
import PropStories.Ignore.Pattern

/-!
# Rules of ignore files

Each line of an ignore file is a rule about the paths below the directory of the file. Of the rules
that cover a path the last one decides.
-/

namespace PropStories.Ignore

inductive Verdict where
  | ignored
  /-- Not to be ignored, whatever other files say. -/
  | kept
  deriving DecidableEq

structure Rule where
  tokens : List Token
  verdict : Verdict
  onlyDirectories : Bool

structure Fault where
  /-- The number of the line, from 1. -/
  line : Nat
  text : String
  cause : PatternFault

structure Rules where
  rules : List Rule
  faults : List Fault

/-! ## Reading -/

/-- The pattern of a rule that says nothing of directories above covers paths at any depth, and one
that ends with all that is in a directory does not cover the directory. -/
def pattern (isAnchored : Bool) (cs : List Char) : List Char :=
  let anywhere := "**/".toList
  let free := !isAnchored && !cs.contains '/' && cs != ['*', '*']
  let cs := if free then anywhere ++ cs else cs
  if Text.endsWith "/**".toList cs then cs ++ ['/', '*'] else cs

def directoryName? (cs : List Char) : Option (List Char) :=
  (Text.beforeEnd? ['/'] cs).map fun front => (Text.beforeEnd? ['\\'] front).getD front

def anchored? (cs : List Char) : Option (List Char) := Text.afterStart? ['/'] cs

def Rule.ofText (cs : List Char) : Except PatternFault Rule := do
  let (verdict, isAnchored, cs) := match cs with
    | '\\' :: '!' :: rest => (Verdict.ignored, false, '!' :: rest)
    | '\\' :: '#' :: rest => (.ignored, false, '#' :: rest)
    | '!' :: rest => (.kept, (anchored? rest).isSome, (anchored? rest).getD rest)
    | _ => (.ignored, (anchored? cs).isSome, (anchored? cs).getD cs)
  let directory? := directoryName? cs
  let tokens ← tokensOf (pattern isAnchored (directory?.getD cs))
  .ok ⟨tokens, verdict, directory?.isSome⟩

/-- A line without the blanks at its end, unless the last of them is escaped. -/
def lineText (cs : List Char) : List Char :=
  if Text.endsWith ['\\', ' '] cs then cs else Text.trimEnd cs

def Rules.ofLines : Nat → List (List Char) → Rules
  | _, [] => ⟨[], []⟩
  | n, line :: lines =>
      let more := ofLines (n + 1) lines
      let cs := lineText line
      if line.head? == some '#' || cs.isEmpty then more
      else match Rule.ofText cs with
        | .ok r => { more with rules := r :: more.rules }
        | .error f => { more with faults := ⟨n, String.ofList cs, f⟩ :: more.faults }

def byteLines : List UInt8 → List (List UInt8)
  | [] => [[]]
  | b :: bs =>
      if b == 10 then [] :: byteLines bs
      else match byteLines bs with
        | [] => [[b]]
        | l :: ls => (b :: l) :: ls

def readableLines : Content → List (List Char)
  | .text s => Text.lines s.toList
  | .bytes raw =>
      let texts := ((byteLines raw).map fun l => String.fromUTF8? ⟨l.toArray⟩).takeWhile (·.isSome)
      Text.lines (texts.flatMap fun t => (t.getD "").toList ++ ['\n'])

def Rules.ofContent (c : Content) : Rules :=
  match readableLines c with
  | [] => ⟨[], []⟩
  | first :: rest => ofLines 1 (first.dropWhile (· == '\ufeff') :: rest)

def Fault.message (f : Fault) : String :=
  "line " ++ toString f.line ++ ": error parsing glob '" ++ f.text ++ "': " ++ f.cause.message

/-! ## Deciding -/

def bytesOfNames (names : List String) : List UInt8 := ("/".intercalate names).toUTF8.toList

def Rule.covers (r : Rule) (names : List String) (isDirectory : Bool) : Bool :=
  (isDirectory || !r.onlyDirectories) && isMatch r.tokens (bytesOfNames names)

def Rules.verdict? (rs : Rules) (names : List String) (isDirectory : Bool) : Option Verdict :=
  (rs.rules.reverse.find? (·.covers names isDirectory)).map (·.verdict)

end PropStories.Ignore
