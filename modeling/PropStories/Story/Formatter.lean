import PropStories.Log
import PropStories.Program.Basic
import PropStories.Story.Error
import PropStories.Text.Lossy

/-!
# Formatting a story

A formatter may change the disk; it is told the path of a story that has been written.
-/

namespace PropStories

structure FormatRun where
  disk : Disk
  log : List LogEvent
  error : Option FormatError

abbrev Formatter := Disk → Path → FormatRun

/-- A program that formats the file given as its last argument. -/
structure FormatCommand where
  program : String
  arguments : List String
  directory : Path

namespace FormatCommand

def ofWords? (words : List String) (directory : Path) : Option FormatCommand :=
  match words with
  | [] => none
  | program :: arguments => some ⟨program, arguments, directory⟩

def error? (c : FormatCommand) (run : ProgramRun) : Option FormatError :=
  if run.ending == .success then none
  else some (.failed c.program run.ending.text
    (String.ofList (Text.trim (Text.ofBytesLossy run.complaint))))

def formatter (c : FormatCommand) (programs : Programs) : Formatter := fun d story =>
  let told := [LogEvent.debug "Running formatter" [("program", c.program), ("path", story.text)]]
  match programs d c.directory c.program (c.arguments ++ [story.text]) with
  | .ok run => ⟨run.disk, told, c.error? run⟩
  | .error e => ⟨d, told, some (.notLaunched c.program e)⟩

end FormatCommand

namespace Formatter

def none : Formatter := fun d _ => ⟨d, [], Option.none⟩

def ofCommand (programs : Programs) : Option FormatCommand → Formatter
  | some c => c.formatter programs
  | Option.none => none

end Formatter

end PropStories
