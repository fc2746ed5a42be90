import PropStories.Disk.Error
import PropStories.Path

/-!
# What can be wrong with a configuration
-/

namespace PropStories

inductive ConfigError where
  /-- A file that was asked for is missing. -/
  | notFound (path : Path)
  | invalidToml (path : Path) (reason : String)
  | invalidValue (key reason : String)
  | unreadable (path : Path) (cause : DiskError)

def ConfigError.message : ConfigError → String
  | notFound path => "Configuration file not found: " ++ path.text
  | invalidToml path reason => "Invalid TOML in " ++ path.text ++ ": " ++ reason
  | invalidValue key reason => "Invalid configuration value for '" ++ key ++ "': " ++ reason
  | unreadable path cause => "Failed to read config " ++ path.text ++ ": " ++ cause.message

end PropStories
