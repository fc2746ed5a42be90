import PropStories.Config.Project
import PropStories.Config.Toml.Document
import PropStories.Log

/-!
# The configuration file

The file is optional unless it is asked for by name. A new one holds the defaults, with comments.
-/

namespace PropStories.ProjectConfig

def fileName : Path := ⟨"storysync.toml"⟩

def parse (path : Path) (text : String) : Except ConfigError ProjectConfig :=
  match Toml.parse text.toList >>= decode with
  | .ok c => .ok c
  | .error left => .error (.invalidToml path (Toml.faultMessage text.toList left))

/-- The configuration in a file, with what there is to log. Only the standard file may be
missing. -/
def load (d : Disk) (asked : Option Path) : Except ConfigError (ProjectConfig × List LogEvent) :=
  let path := asked.getD fileName
  if d.exists? path then
    match d.readText path with
    | .error e => .error (.unreadable path e)
    | .ok text => (parse path text).map fun c =>
        (c, [.debug "Loaded config file" [("path", path.text)]])
  else if asked.isSome then .error (.notFound path)
  else .ok (initial, [.debug "No config file, using defaults" [("path", path.text)]])

def initialLines : List String :=
  ["# storysync configuration file",
    "",
    "[paths]",
    "# Project root; the other paths are relative to it",
    "root = \".\"",
    "",
    "# Directory containing the component sources",
    "components = \"src/components\"",
    "",
    "# Directory receiving generated stories.",
    "# Defaults to \"src/stories\" when the project has a src directory, else \"stories\".",
    "# stories = \"src/stories\"",
    "",
    "# Import alias used in generated stories (alias_prefix points at alias_root)",
    "alias_prefix = \"@/\"",
    "alias_root = \"src\"",
    "",
    "[story]",
    "# Story file extension",
    "extension = \".stories.tsx\"",
    "",
    "# Name of the default story export",
    "default_name = \"Default\"",
    "",
    "# Generate the argTypes control schema in the meta block",
    "arg_types = true",
    "",
    "# Wire function props to action('name') from @storybook/addon-actions",
    "actions = false",
    "",
    "[synthesis]",
    "# Maximum nesting depth of synthesized default values",
    "max_depth = 2",
    "",
    "[watch]",
    "# Component file extensions",
    "extensions = [\".tsx\", \".jsx\"]",
    "",
    "# Glob patterns (relative to the components directory) to ignore",
    "ignore = [\"**/*.test.*\", \"**/*.spec.*\", \"**/node_modules/**\", \"**/.next/**\", " ++
      "\"**/.storybook/**\"]",
    "",
    "# Debounce duration for filesystem events, in milliseconds",
    "debounce_ms = 300",
    "",
    "# Skip components matched by .gitignore",
    "gitignore = true",
    "",
    "[format]",
    "# Run a formatter over each rewritten story",
    "enabled = true",
    "",
    "# Formatter command; the story path is appended",
    "command = [\"npx\", \"prettier\", \"--write\"]"]

def initialText : String := String.join (initialLines.map (· ++ "\n"))

end PropStories.ProjectConfig
