/-!
# Log events

What happens on the way is told as data; fields are shown as text.
-/

namespace PropStories

inductive LogLevel where
  | debug | info | warn | error
  deriving DecidableEq

structure LogEvent where
  level : LogLevel
  message : String
  fields : List (String × String)

namespace LogEvent

def debug (message : String) (fields : List (String × String)) : LogEvent :=
  ⟨.debug, message, fields⟩

def info (message : String) (fields : List (String × String)) : LogEvent :=
  ⟨.info, message, fields⟩

def warn (message : String) (fields : List (String × String)) : LogEvent :=
  ⟨.warn, message, fields⟩

def error (message : String) (fields : List (String × String)) : LogEvent :=
  ⟨.error, message, fields⟩

end LogEvent

end PropStories
