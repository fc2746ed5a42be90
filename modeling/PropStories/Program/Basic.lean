import PropStories.Disk.Basic

/-!
# Other programs

What a program does when it is run is given from outside.
-/

namespace PropStories

structure Signal where
  number : Nat
  /-- The name without `SIG` in front. -/
  name : String
  deriving DecidableEq

inductive ProgramEnd where
  | exited (status : Nat)
  | killed (signal : Signal)
  deriving DecidableEq

namespace ProgramEnd

def success : ProgramEnd := exited 0

def failure : ProgramEnd := exited 1

def text : ProgramEnd → String
  | exited status => "exit status: " ++ toString status
  | killed signal => "signal: " ++ toString signal.number ++ " (SIG" ++ signal.name ++ ")"

end ProgramEnd

structure ProgramRun where
  disk : Disk
  ending : ProgramEnd
  output : List UInt8
  /-- What the program wrote to its error output. -/
  complaint : List UInt8

abbrev Programs :=
  (disk : Disk) → (directory : Path) → (program : String) → (arguments : List String) →
    Except DiskError ProgramRun

def Programs.none : Programs := fun _ _ _ _ => .error .notFound

end PropStories
