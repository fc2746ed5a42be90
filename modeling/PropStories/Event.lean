import PropStories.Path

/-!
# What happens to components
-/

namespace PropStories

inductive EventKind where
  | added | changed | deleted
  deriving DecidableEq

def EventKind.label : EventKind → String
  | added => "added"
  | changed => "changed"
  | deleted => "deleted"

structure ComponentEvent where
  kind : EventKind
  path : Path

end PropStories
