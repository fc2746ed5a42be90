import PropStories.Story.Decision
import PropStories.Story.Formatter
import PropStories.Story.Writer

/-!
# Keeping stories with their components

A keeper carries out what is decided about an event: it writes or deletes the story of the
component and formats what it has written.
-/

namespace PropStories

inductive Outcome where
  | created (write : WriteResult) (props : Nat)
  | reconciled (write : WriteResult) (report : ReconcileReport)
  | unchanged (story : Path)
  | skipped (story : Path) (reason : SkipReason)
  | deleted (write : WriteResult)
  | nothingToDelete (story : Path)
  | ignored

structure Handled where
  disk : Disk
  log : List LogEvent
  result : Except Failure Outcome

structure Keeper where
  settings : Settings
  formatter : Formatter
  mode : WriteMode

namespace Keeper

def format (k : Keeper) (d : Disk) (w : WriteResult) : Disk × List LogEvent :=
  if !w.applied then (d, [])
  else
    let run := k.formatter d w.path
    let failure := match run.error with
      | none => []
      | some e => [.warn "Formatter failed" [("story", w.path.text), ("error", e.message)]]
    (run.disk, run.log ++ failure)

def store (k : Keeper) (d : Disk) (story : Path) (content told : String) (props : Nat)
    (outcome : WriteResult → Outcome) : Handled :=
  match k.mode.write d story content with
  | (d, .error e) => ⟨d, [], .error (.error e)⟩
  | (d, .ok w) =>
      let (d, formatted) := k.format d w
      let event := LogEvent.info told [("story", story.text), ("props", toString props)]
      ⟨d, event :: formatted, .ok (outcome w)⟩

def erase (k : Keeper) (d : Disk) (story : Path) : Handled :=
  match k.mode.delete d story with
  | (d, .error e) => ⟨d, [], .error (.error e)⟩
  | (d, .ok w) => ⟨d, [.info "Story deleted" [("story", story.text)]], .ok (.deleted w)⟩

def carryOut (k : Keeper) (d : Disk) : Decision → Handled
  | .ignore => ⟨d, [], .ok .ignored⟩
  | .create story content props =>
      k.store d story content "Story created" props (.created · props)
  | .revise story content props report =>
      k.store d story content "Story updated" props (.reconciled · report)
  | .keep story => ⟨d, [], .ok (.unchanged story)⟩
  | .skip story reason => ⟨d, [], .ok (.skipped story reason)⟩
  | .delete story => k.erase d story
  | .nothingToDelete story => ⟨d, [], .ok (.nothingToDelete story)⟩
  | .fail e => ⟨d, [], .error (.error e)⟩
  | .breakOff => ⟨d, [], .error .brokenOff⟩

def handle (k : Keeper) (d : Disk) (e : ComponentEvent) : Handled :=
  let decided := k.settings.decide d e
  let handled := k.carryOut d decided.decision
  { handled with log := decided.log ++ handled.log }

end Keeper

namespace Outcome

/-- The path that the formatter was run over, if any. -/
def formatted : Outcome → List Path
  | created w _ | reconciled w _ => if w.applied then [w.path] else []
  | _ => []

end Outcome

end PropStories
