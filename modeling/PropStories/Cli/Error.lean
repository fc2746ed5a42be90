import PropStories.Component.Error
import PropStories.Config.Error
import PropStories.Story.Error
import PropStories.Watch.Error

/-!
# Why a command fails
-/

namespace PropStories.Cli

inductive CommandError where
  | scan (e : ScanError)
  | config (e : ConfigError)
  | watch (e : WatchError)
  | story (e : StoryError)
  /-- Some components could not be handled. -/
  | incomplete (failed : Nat)
  | alreadyExists (path : Path)
  | disk (e : DiskError)

namespace CommandError

def message : CommandError → String
  | scan e => "Failed to scan components: " ++ e.message
  | config e => "Failed to load configuration: " ++ e.message
  | watch e => "Watch error: " ++ e.message
  | story e => "Sync failed: " ++ e.message
  | incomplete failed => toString failed ++ " component(s) failed to sync"
  | alreadyExists path => "File already exists: " ++ path.text
  | disk e => "IO error: " ++ e.message

def status : CommandError → Nat
  | incomplete _ => 2
  | _ => 1

end CommandError

end PropStories.Cli
