import PropStories.Path

/-!
# Options of commands
-/

namespace PropStories.Cli

inductive ValueKind where
  | path | text | list | count
  deriving DecidableEq

structure CommandOption where
  name : String
  letter : Option Char
  /-- How the value is called, and what it is; flags have none. -/
  value : Option (String × ValueKind)
  help : String

inductive Given where
  | flag
  | path (p : Path)
  | text (s : String)
  | list (ss : List String)
  | count (n : Nat)

namespace CommandOption

def shown (o : CommandOption) : String :=
  match o.value with
  | some (placeholder, _) => "--" ++ o.name ++ " <" ++ placeholder ++ ">"
  | none => "--" ++ o.name

def flag (name help : String) : CommandOption := ⟨name, none, none, help⟩

def helpFlag : CommandOption := ⟨"help", some 'h', none, "Print help"⟩

def versionFlag : CommandOption := ⟨"version", some 'V', none, "Print version"⟩

def forProject : List CommandOption :=
  [⟨"config", none, some ("CONFIG", .path), "Configuration file path"⟩,
    ⟨"root", none, some ("ROOT", .path), "Project root"⟩,
    ⟨"components-dir", some 'c', some ("COMPONENTS_DIR", .path),
      "Components directory, relative to the project root"⟩,
    ⟨"stories-dir", some 's', some ("STORIES_DIR", .path),
      "Stories directory, relative to the project root"⟩,
    ⟨"component-exts", some 'e', some ("COMPONENT_EXTS", .list),
      "Comma-separated component file extensions"⟩,
    ⟨"story-ext", some 'x', some ("STORY_EXT", .text), "Story file extension"⟩,
    ⟨"default-story-name", some 'n', some ("DEFAULT_STORY_NAME", .text),
      "Name of the default story export"⟩,
    flag "no-arg-types" "Do not generate argTypes",
    flag "actions" "Wire function props to action('name')",
    ⟨"max-depth", none, some ("MAX_DEPTH", .count),
      "Maximum nesting depth of synthesized default values"⟩,
    flag "no-format" "Do not run the formatter over written stories",
    flag "dry-run" "Preview changes without writing files",
    helpFlag]

def forInit : List CommandOption :=
  [⟨"output", some 'o', some ("OUTPUT", .path),
      "Output path for configuration file [default: storysync.toml]"⟩,
    flag "force" "Overwrite existing configuration file",
    helpFlag]

def forProgram : List CommandOption := [helpFlag, versionFlag]

end CommandOption

/-! ## Counts -/

def countLimit : Nat := UInt64.size

inductive CountFault where
  | empty | digit | size
  deriving DecidableEq

def CountFault.message : CountFault → String
  | empty => "cannot parse integer from empty string"
  | digit => "invalid digit found in string"
  | size => "number too large to fit in target type"

def readDigits (n : Nat) : List Char → Except CountFault Nat
  | [] => .ok n
  | c :: cs =>
      if !c.isDigit then .error .digit
      else
        let m := 10 * n + (c.toNat - '0'.toNat)
        if countLimit ≤ m then .error .size else readDigits m cs

/-- Reads a number that fits a machine word; a plus sign may stand in front. -/
def readCount : List Char → Except CountFault Nat
  | [] => .error .empty
  | '+' :: c :: cs => readDigits 0 (c :: cs)
  | cs => readDigits 0 cs

end PropStories.Cli
