/-!
# Why watching fails
-/

namespace PropStories

inductive WatchError where
  /-- The directory cannot be watched. -/
  | notStarted (reason : String)
  | interrupted (reason : String)

def WatchError.message : WatchError → String
  | notStarted reason => "Failed to initialize file watcher: " ++ reason
  | interrupted reason => "Watch notification error: " ++ reason

end PropStories
