import PropStories.Log
import PropStories.Story.Template

/-!
# Local problems of a story

What goes wrong in one entry or one region of a story does not stop the rest. Problems with
generated text are logged as well.
-/

namespace PropStories

inductive Diagnostic where
  /-- The generated entry of a prop is no expression. -/
  | entrySkipped (prop : String)
  /-- The default value of a prop is no expression. -/
  | defaultReplaced (prop value : String)
  /-- The value of a region is not an object literal. -/
  | notAnObject (key : String)
  | metaNotFound
  | storyNotFound (story : String)
  | actionNotImported
  deriving DecidableEq

namespace Diagnostic

def message : Diagnostic → String
  | entrySkipped prop => "argTypes entry for '" ++ prop ++ "' skipped"
  | defaultReplaced prop _ => "default value of '" ++ prop ++ "' replaced by undefined"
  | notAnObject key => "'" ++ key ++ "' is not an object literal, left unchanged"
  | metaNotFound => "'" ++ metaName ++ "' declaration not found"
  | storyNotFound story => "'" ++ story ++ "' story not found"
  | actionNotImported =>
      "'" ++ Synth.actionHelper ++ "' is used but not imported from \"" ++ actionsModule ++ "\""

def event? : Diagnostic → Option LogEvent
  | entrySkipped prop =>
      some (.warn "generated argTypes entry does not parse, skipping" [("prop", prop)])
  | defaultReplaced prop value =>
      some (.warn "default value does not parse, using undefined"
        [("prop", prop), ("value", value)])
  | _ => none

end Diagnostic

end PropStories
