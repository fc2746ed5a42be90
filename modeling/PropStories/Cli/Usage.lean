import PropStories.Cli.Option
import PropStories.Cli.Style

/-!
# Wrong arguments, and help
-/

namespace PropStories.Cli

def programName : String := "storysync"

def versionText : String := programName ++ " 0.1.0"

inductive UsageError where
  | unexpectedArgument (argument : String)
  | unrecognizedCommand (argument : String)
  | valueMissing (option : CommandOption)
  | unexpectedValue (value : String) (option : CommandOption)
  | invalidValue (value : String) (option : CommandOption) (fault : CountFault)
  | repeated (option : CommandOption)

def UsageError.message (e : UsageError) (isColored : Bool) : String :=
  let wrong (s : String) := "'" ++ Style.yellow.paint isColored s ++ "'"
  let named (o : CommandOption) := "'" ++ Style.bold.paint isColored o.shown ++ "'"
  match e with
  | unexpectedArgument a => "unexpected argument " ++ wrong a ++ " found"
  | unrecognizedCommand a => "unrecognized subcommand " ++ wrong a
  | valueMissing o => "a value is required for " ++ named o ++ " but none was supplied"
  | unexpectedValue v o =>
      "unexpected value " ++ wrong v ++ " for " ++ named o ++ " found; no more were expected"
  | invalidValue v o fault =>
      "invalid value " ++ wrong v ++ " for " ++ named o ++ ": " ++ fault.message
  | repeated o => "the argument " ++ wrong o.shown ++ " cannot be used multiple times"

/-! ## Help -/

def commandHelp : List (String × String) :=
  [("watch", "Watch the components directory and sync stories as files change"),
    ("sync", "Create missing stories and reconcile existing ones, then exit"),
    ("init", "Initialize a new storysync configuration file"),
    ("help", "Print this message or the help of the given subcommand(s)")]

def about : String := "Keep Storybook stories in sync with component props"

def isCommandName (s : String) : Bool := commandHelp.any (·.1 == s)

def padded (width : Nat) (s : String) : String :=
  s ++ String.ofList (List.replicate (width - s.length) ' ')

def optionHelp (o : CommandOption) : String :=
  let letter := match o.letter with
    | some c => "-" ++ c.toString ++ ", "
    | none => "    "
  "  " ++ letter ++ padded 44 o.shown ++ o.help

def helpLines (what usage : String) (options : List CommandOption) : List String :=
  [what, "", "Usage: " ++ programName ++ " " ++ usage, "", "Options:"] ++ options.map optionHelp

def help (command : Option String) : List String :=
  match command with
  | some name =>
      let options := if name == "init" then CommandOption.forInit else CommandOption.forProject
      helpLines ((commandHelp.lookup name).getD "") (name ++ " [OPTIONS]") options
  | none =>
      [about, "", "Usage: " ++ programName ++ " <COMMAND>", "", "Commands:"] ++
        commandHelp.map (fun (name, text) => "  " ++ padded 7 name ++ text) ++
        ["", "Options:"] ++ CommandOption.forProgram.map optionHelp

end PropStories.Cli
