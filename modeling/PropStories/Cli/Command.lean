import PropStories.Cli.Usage
import PropStories.Config.Load
import PropStories.Story.Writer

/-!
# Commands

A command is read from the arguments of the program. Arguments are taken from the left; the value
of an option is looked at when the next option begins.
-/

namespace PropStories.Cli

structure ProjectArguments where
  config : Option Path
  overrides : ProjectConfig.Overrides

inductive Command where
  | watch (project : ProjectArguments) (mode : WriteMode)
  | sync (project : ProjectArguments) (mode : WriteMode)
  | init (output : Path) (overwrites : Bool)

inductive Halt where
  | wrong (e : UsageError)
  /-- There are no arguments. -/
  | nothing
  | help (command : Option String)
  | version

/-! ## Reading options -/

abbrev GivenOptions := List (String × Given)

structure Reading where
  /-- The command whose options are read. -/
  command : String
  options : List CommandOption
  given : GivenOptions
  /-- The option read last, with its value if that has been read. -/
  pending : Option (CommandOption × Option String)

namespace Reading

def has (r : Reading) (o : CommandOption) : Bool := r.given.any (·.1 == o.name)

def add (r : Reading) (o : CommandOption) (g : Given) : Reading :=
  { r with given := r.given ++ [(o.name, g)] }

def readValue (o : CommandOption) (kind : ValueKind) (value : String) : Except UsageError Given :=
  match kind with
  | .path => if value.isEmpty then .error (.valueMissing o) else .ok (.path ⟨value⟩)
  | .text => .ok (.text value)
  | .list =>
      .ok (.list ((Text.splitWhere (· == ',') value.toList).map fun cs =>
        String.ofList (Text.trim cs)))
  | .count => ((readCount value.toList).map Given.count).mapError (.invalidValue value o)

/-- Takes the value of an option. Only lists may be given again. -/
def accept (r : Reading) (o : CommandOption) (value : String) : Except Halt Reading :=
  match o.value with
  | none => .ok (r.add o .flag)
  | some (_, kind) =>
      if r.has o && kind != .list then .error (.wrong (.repeated o))
      else ((readValue o kind value).map (r.add o)).mapError .wrong

def settle (r : Reading) : Except Halt Reading :=
  match r.pending with
  | none => .ok r
  | some (o, none) => .error (.wrong (.valueMissing o))
  | some (o, some value) => { r with pending := none }.accept o value

def begin (r : Reading) (o : CommandOption) (attached : Option String) : Except Halt Reading := do
  let r ← r.settle
  match o.value, attached with
  | none, _ =>
      if o.name == CommandOption.helpFlag.name then .error (.help (some r.command))
      else if r.has o then .error (.wrong (.repeated o))
      else .ok (r.add o .flag)
  | some _, some value => r.accept o value
  | some _, none => .ok { r with pending := some (o, none) }

def readLong (r : Reading) (cs : List Char) : Except Halt Reading :=
  let name := String.ofList (cs.takeWhile (· != '='))
  let attached := match cs.dropWhile (· != '=') with
    | _ :: value => some (String.ofList value)
    | [] => none
  match r.options.find? (·.name == name) with
  | none => .error (.wrong (.unexpectedArgument ("--" ++ name)))
  | some o =>
      match o.value, attached with
      | none, some value => .error (.wrong (.unexpectedValue value o))
      | _, _ => r.begin o attached

def attachedValue : List Char → Option String
  | [] => none
  | '=' :: cs => some (String.ofList cs)
  | cs => some (String.ofList cs)

def readLetters (r : Reading) : List Char → Except Halt Reading
  | [] => .ok r
  | c :: cs =>
      match r.options.find? (·.letter == some c) with
      | none => .error (.wrong (.unexpectedArgument ("-" ++ c.toString)))
      | some o =>
          match o.value with
          | none =>
              match r.begin o none with
              | .error h => .error h
              | .ok r => r.readLetters cs
          | some _ => r.begin o (attachedValue cs)

def readArgument (r : Reading) (a : String) : Except Halt Reading :=
  match a.toList with
  | '-' :: '-' :: cs => r.readLong cs
  | '-' :: c :: cs => r.readLetters (c :: cs)
  | _ =>
      match r.pending with
      | some (o, none) => .ok { r with pending := some (o, some a) }
      | _ => .error (.wrong (.unexpectedArgument a))

/-- Reads all arguments. Behind two dashes alone there may be none. -/
def readAll (r : Reading) : List String → Except Halt GivenOptions
  | [] => r.settle.map (·.given)
  | a :: rest =>
      if a == "--" then
        match rest with
        | [] => r.settle.map (·.given)
        | b :: _ => .error (.wrong (.unexpectedArgument b))
      else match r.readArgument a with
        | .error h => .error h
        | .ok r => r.readAll rest

end Reading

/-! ## What has been given -/

namespace GivenOptions

def has (g : GivenOptions) (name : String) : Bool := g.any (·.1 == name)

def path? (g : GivenOptions) (name : String) : Option Path :=
  match g.lookup name with
  | some (.path p) => some p
  | _ => none

def text? (g : GivenOptions) (name : String) : Option String :=
  match g.lookup name with
  | some (.text s) => some s
  | _ => none

def count? (g : GivenOptions) (name : String) : Option Nat :=
  match g.lookup name with
  | some (.count n) => some n
  | _ => none

def list? (g : GivenOptions) (name : String) : Option (List String) :=
  if g.has name then
    some (g.flatMap fun
      | (n, .list ss) => if n == name then ss else []
      | _ => [])
  else none

def project (g : GivenOptions) : ProjectArguments :=
  { config := g.path? "config"
    overrides :=
      { root := g.path? "root"
        components := g.path? "components-dir"
        stories := g.path? "stories-dir"
        extensions := g.list? "component-exts"
        storyEnding := g.text? "story-ext"
        defaultStory := g.text? "default-story-name"
        argTypes := if g.has "no-arg-types" then some false else none
        actions := if g.has "actions" then some true else none
        maxDepth := g.count? "max-depth"
        format := if g.has "no-format" then some false else none } }

def mode (g : GivenOptions) : WriteMode := if g.has "dry-run" then .preview else .real

end GivenOptions

/-! ## Reading a command -/

namespace Command

def readGiven (command : String) (options : List CommandOption) (arguments : List String) :
    Except Halt GivenOptions :=
  Reading.readAll ⟨command, options, [], none⟩ arguments

def helpOn : List String → Halt
  | [] => .help none
  | a :: rest =>
      if !isCommandName a then .wrong (.unrecognizedCommand a)
      else match rest with
        | [] => .help (some a)
        | b :: _ => .wrong (.unrecognizedCommand b)

def halt (a : String) : Halt :=
  let wrong (shown : String) : Halt := .wrong (.unexpectedArgument shown)
  let asked (o : CommandOption) : Halt :=
    if o.name == CommandOption.helpFlag.name then .help none else .version
  match a.toList with
  | '-' :: '-' :: cs =>
      let name := String.ofList (cs.takeWhile (· != '='))
      match CommandOption.forProgram.find? (·.name == name), cs.dropWhile (· != '=') with
      | none, _ => wrong ("--" ++ name)
      | some o, _ :: value => .wrong (.unexpectedValue (String.ofList value) o)
      | some o, [] => asked o
  | '-' :: c :: _ =>
      match CommandOption.forProgram.find? (·.letter == some c) with
      | none => wrong ("-" ++ c.toString)
      | some o => asked o
  | _ => .wrong (.unrecognizedCommand a)

def ofArguments : List String → Except Halt Command
  | [] => .error .nothing
  | "watch" :: rest =>
      (readGiven "watch" CommandOption.forProject rest).map fun g => .watch g.project g.mode
  | "sync" :: rest =>
      (readGiven "sync" CommandOption.forProject rest).map fun g => .sync g.project g.mode
  | "init" :: rest =>
      (readGiven "init" CommandOption.forInit rest).map fun g =>
        .init ((g.path? "output").getD ProjectConfig.fileName) (g.has "force")
  | "help" :: rest => .error (helpOn rest)
  | "--" :: [] => .error .nothing
  | "--" :: a :: _ =>
      .error (.wrong (if isCommandName a then .unexpectedArgument a else .unrecognizedCommand a))
  | a :: _ => .error (halt a)

end Command

end PropStories.Cli
