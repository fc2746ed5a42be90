import PropStories.Text.Blank

/-!
# Colours of a terminal
-/

namespace PropStories.Cli

/-- A style is the sequence of characters that turns it on. -/
structure Style where
  start : String

namespace Style

def title : Style := ⟨"\x1b[1;32m"⟩
def alarm : Style := ⟨"\x1b[1;31m"⟩
def red : Style := ⟨"\x1b[31m"⟩
def green : Style := ⟨"\x1b[32m"⟩
def yellow : Style := ⟨"\x1b[33m"⟩
def cyan : Style := ⟨"\x1b[36m"⟩
def dimmed : Style := ⟨"\x1b[2m"⟩
def bold : Style := ⟨"\x1b[1m"⟩
def boldRed : Style := ⟨"\x1b[1m\x1b[31m"⟩

def reset : String := "\x1b[0m"

/-- The text in a style, which is turned on again wherever the text itself turns it off. -/
def paint (s : Style) (isColored : Bool) (text : String) : String :=
  if isColored then
    let inside := Text.replaceAll reset.toList (reset ++ s.start).toList text.length text.toList
    s.start ++ String.ofList inside ++ reset
  else text

def isOn : Option String → Option Bool
  | some v => some (v != "0")
  | none => none

/-- Whether output is coloured. Forcing it counts most, then forbidding it, then whether anyone is
there to see it. -/
def isWanted (force forbid allow : Option String) (isTerminal : Bool) : Bool :=
  if isOn force == some true then true
  else if forbid.isSome then false
  else isTerminal && (isOn allow).getD true

end Style

end PropStories.Cli
