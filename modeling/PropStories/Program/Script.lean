/-!
# Scripts

A script is a list of simple commands. Words may be quoted and may name the parameters of the
script; the streams of a command may be sent to files.
-/

namespace PropStories

inductive WordPiece where
  | text (cs : List Char)
  /-- The value of a parameter; one that is not quoted is cut at blanks. -/
  | parameter (name : Char) (isQuoted : Bool)

structure Word where
  pieces : List WordPiece
  /-- Whether a part of the word is quoted, so that it counts even if it is empty. -/
  isQuoted : Bool

inductive Stream where
  | output | complaint
  deriving DecidableEq

inductive Redirection where
  | toFile (stream : Stream) (file : Word) (appends : Bool)
  | toStream (stream target : Stream)
  | fromFile (file : Word)

inductive Joint where
  | always | onSuccess | onFailure
  deriving DecidableEq

structure ScriptCommand where
  joint : Joint
  words : List Word
  redirections : List Redirection

def ScriptCommand.isEmpty (c : ScriptCommand) : Bool := c.words.isEmpty && c.redirections.isEmpty

abbrev Script := List ScriptCommand

namespace Script

/-! ## Words -/

def isParameter (c : Char) : Bool := c.isDigit || "@*#?$".toList.contains c

/-- The parameter named behind a dollar sign, and what follows. -/
def parameter? : List Char → Option (Char × List Char)
  | '\x7b' :: c :: '\x7d' :: rest => if isParameter c then some (c, rest) else none
  | c :: rest => if isParameter c then some (c, rest) else none
  | [] => none

def endsWord (c : Char) : Bool := c == ' ' || c == '\t' || c == '\n' || "|&;<>()".toList.contains c

def readQuoted : Nat → List Char → Option (List WordPiece × List Char)
  | 0, _ => none
  | _, [] => none
  | _ + 1, '\x22' :: rest => some ([], rest)
  | fuel + 1, '\\' :: c :: rest =>
      let cs := if c == '$' || c == '\x60' || c == '\x22' || c == '\\' then [c] else ['\\', c]
      (readQuoted fuel rest).map fun (ps, rest) => (.text cs :: ps, rest)
  | fuel + 1, c :: rest =>
      match (if c == '$' then parameter? rest else none) with
      | some (name, rest) =>
          (readQuoted fuel rest).map fun (ps, rest) => (.parameter name true :: ps, rest)
      | none => (readQuoted fuel rest).map fun (ps, rest) => (.text [c] :: ps, rest)

def Word.cons (p : WordPiece) (w : Word) : Word := { w with pieces := p :: w.pieces }

def readWord : Nat → List Char → Option (Word × List Char)
  | 0, _ => none
  | _, [] => some (⟨[], false⟩, [])
  | fuel + 1, c :: rest =>
      let further (p : WordPiece) (rest : List Char) :=
        (readWord fuel rest).map fun (w, rest) => (Word.cons p w, rest)
      let furtherQuoted (ps : List WordPiece) (rest : List Char) :=
        (readWord fuel rest).map fun (w, rest) => (⟨ps ++ w.pieces, true⟩, rest)
      if endsWord c then some (⟨[], false⟩, c :: rest)
      else if c == '\x27' then
        let inside := rest.takeWhile (· != '\x27')
        if inside.length < rest.length then
          furtherQuoted [.text inside] (rest.drop (inside.length + 1))
        else none
      else if c == '\x22' then
        match readQuoted fuel rest with
        | some (ps, rest) => furtherQuoted ps rest
        | none => none
      else if c == '\\' then
        match rest with
        | d :: rest => furtherQuoted [.text [d]] rest
        | [] => further (.text [c]) []
      else match (if c == '$' then parameter? rest else none) with
        | some (name, rest) => further (.parameter name false) rest
        | none => further (.text [c]) rest

/-! ## Commands -/

def skipBlanks (cs : List Char) : List Char := cs.dropWhile fun c => c == ' ' || c == '\t'

/-- The number of a stream in front of an arrow, if one is given. -/
def stream? : List Char → Option (Stream × List Char)
  | '1' :: '>' :: rest => some (.output, rest)
  | '2' :: '>' :: rest => some (.complaint, rest)
  | '>' :: rest => some (.output, rest)
  | _ => none

/-- Reads commands; `c` is the one being read. -/
def readFrom : Nat → ScriptCommand → List Char → Option Script
  | 0, _, _ => none
  | fuel + 1, c, cs =>
      let next (joint : Joint) (rest : List Char) :=
        (readFrom fuel ⟨joint, [], []⟩ rest).map fun more => if c.isEmpty then more else c :: more
      let redirected (r : Redirection) (rest : List Char) :=
        readFrom fuel { c with redirections := c.redirections ++ [r] } rest
      let toFile (s : Stream) (appends : Bool) (rest : List Char) :=
        match readWord fuel (skipBlanks rest) with
        | some (w, rest) => redirected (.toFile s w appends) rest
        | none => none
      match skipBlanks cs with
      | [] => some (if c.isEmpty then [] else [c])
      | ';' :: rest | '\n' :: rest => next .always rest
      | '&' :: '&' :: rest => next .onSuccess rest
      | '|' :: '|' :: rest => next .onFailure rest
      | '#' :: rest => readFrom fuel c (rest.dropWhile (· != '\n'))
      | '<' :: rest =>
          match readWord fuel (skipBlanks rest) with
          | some (w, rest) => redirected (.fromFile w) rest
          | none => none
      | text =>
          match stream? text with
          | some (s, '&' :: '1' :: rest) => redirected (.toStream s .output) rest
          | some (s, '&' :: '2' :: rest) => redirected (.toStream s .complaint) rest
          | some (s, '>' :: rest) => toFile s true rest
          | some (s, rest) => toFile s false rest
          | none =>
              match readWord fuel text with
              | some (⟨[], false⟩, _) => none
              | some (w, rest) => readFrom fuel { c with words := c.words ++ [w] } rest
              | none => none

def ofText? (cs : List Char) : Option Script := readFrom (2 * cs.length + 2) ⟨.always, [], []⟩ cs

end Script

end PropStories
