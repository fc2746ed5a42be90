import PropStories.Text.Bytes

/-!
# Edits of a text

An edit replaces a range of a text. Its places count characters where it is planned, as those of a
syntax tree do, and bytes where it is made. Edits are made from the last to the first, so that the
ranges still to come keep their places.
-/

namespace PropStories

structure Edit where
  start : Nat
  stop : Nat
  text : List Char

namespace Edit

def insert (place : Nat) (text : String) : Edit := ⟨place, place, text.toList⟩

def remove (start stop : Nat) : Edit := ⟨start, stop, []⟩

def inBytes (source : List Char) (e : Edit) : Edit :=
  ⟨Text.byteLength (source.take e.start), Text.byteLength (source.take e.stop), e.text⟩

/-- The text with one range replaced, whose places count bytes. There is none if the range ends in
front of its start, reaches behind the text or cuts a character apart. -/
def splice? (source : List Char) (e : Edit) : Option (List Char) :=
  if e.start ≤ e.stop then
    match Text.splitAtByte? source e.start, Text.splitAtByte? source e.stop with
    | some (front, _), some (_, behind) => some (front ++ e.text ++ behind)
    | _, _ => none
  else none

def insertByStart (e : Edit) : List Edit → List Edit
  | [] => [e]
  | f :: fs => if f.start ≤ e.start then e :: f :: fs else f :: insertByStart e fs

/-- The edits with the last start first; of equal starts, the order stays. -/
def fromTheEnd (es : List Edit) : List Edit := es.foldr insertByStart []

def applyAll? (es : List Edit) (source : List Char) : Option (List Char) :=
  (fromTheEnd es).foldlM splice? source

/-- The text with all edits made, whose places count its characters. There is none if an edit cuts
apart a character that those before it have put there. -/
def make? (es : List Edit) (source : List Char) : Option (List Char) :=
  applyAll? (es.map (inBytes source)) source

end Edit

end PropStories
