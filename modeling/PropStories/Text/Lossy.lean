import PropStories.Text.Blank

/-!
# Bytes read as text

Bytes that encode no text are read as well: each run of bytes that begins a character and does not
end it stands for one replacement character.
-/

namespace PropStories.Text

def replacement : Char := '\ufffd'

structure Continuation where
  count : Nat
  /-- The bounds of the second byte; all further ones have the widest. -/
  low : UInt8
  high : UInt8
  /-- The bits that the first byte gives. -/
  bits : Nat

def continuation? (b : UInt8) : Option Continuation :=
  let n := b.toNat
  if 0xC2 ≤ n && n ≤ 0xDF then some ⟨1, 0x80, 0xBF, n - 0xC0⟩
  else if n == 0xE0 then some ⟨2, 0xA0, 0xBF, 0⟩
  else if n == 0xED then some ⟨2, 0x80, 0x9F, n - 0xE0⟩
  else if 0xE1 ≤ n && n ≤ 0xEF then some ⟨2, 0x80, 0xBF, n - 0xE0⟩
  else if n == 0xF0 then some ⟨3, 0x90, 0xBF, 0⟩
  else if 0xF1 ≤ n && n ≤ 0xF3 then some ⟨3, 0x80, 0xBF, n - 0xF0⟩
  else if n == 0xF4 then some ⟨3, 0x80, 0x8F, n - 0xF0⟩
  else none

def Continuation.take (c : Continuation) (bs : List UInt8) : List UInt8 :=
  match bs with
  | [] => []
  | b :: rest =>
      if c.low ≤ b && b ≤ c.high then
        b :: (rest.take (c.count - 1)).takeWhile fun x => 0x80 ≤ x && x ≤ 0xBF
      else []

def Continuation.char (c : Continuation) (taken : List UInt8) : Char :=
  if taken.length == c.count then
    Char.ofNat (taken.foldl (fun n b => 64 * n + (b.toNat - 0x80)) c.bits)
  else replacement

def ofBytesLossy : List UInt8 → List Char
  | [] => []
  | b :: bs =>
      if b < 0x80 then Char.ofNat b.toNat :: ofBytesLossy bs
      else match continuation? b with
        | none => replacement :: ofBytesLossy bs
        | some c =>
            let taken := c.take bs
            c.char taken :: ofBytesLossy (bs.drop taken.length)
termination_by bs => bs.length
decreasing_by all_goals simp only [List.length_cons, List.length_drop]; omega

end PropStories.Text
