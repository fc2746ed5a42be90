import PropStories.Component.Scan
import PropStories.Config.Project
import PropStories.Story.Keeper
import PropStories.Watch.Known

/-!
# Sessions

A session keeps the stories of one project, for all components at once or for those that a watcher
has seen touched.
-/

namespace PropStories

structure EventReport where
  event : ComponentEvent
  result : Except Failure Outcome

def EventReport.isFailure (r : EventReport) : Bool := !r.result.isOk

structure Session where
  keeper : Keeper
  scanner : Scanner

structure Progress where
  disk : Disk
  log : List LogEvent
  reports : List EventReport

def Progress.isBrokenOff (p : Progress) : Bool := p.reports.any (Failure.isBrokenOff ·.result)

structure Noticed where
  known : KnownComponents
  log : List LogEvent
  events : List ComponentEvent

namespace Session

def ofConfig (programs : Programs) (userRules : Ignore.UserRules) (d : Disk) (c : ProjectConfig)
    (mode : WriteMode) : Except ScanError Session := do
  let settings := c.settings d
  let filter ← ComponentFilter.ofPatterns settings c.watch.ignored
  let command := c.formatterCommand.bind (FormatCommand.ofWords? · settings.projectRoot)
  .ok ⟨⟨settings, .ofCommand programs command, mode⟩, ⟨filter, c.watch.gitignore, userRules⟩⟩

/-! ## Handling events -/

def failureLog (r : EventReport) : List LogEvent :=
  match r.result with
  | .ok _ | .error .brokenOff => []
  | .error (.error e) =>
      [.error "Event failed"
        [("path", r.event.path.text), ("kind", r.event.kind.label), ("error", e.message)]]

def dispatch (s : Session) (d : Disk) (e : ComponentEvent) : Progress :=
  let handled := s.keeper.handle d e
  let report : EventReport := ⟨e, handled.result⟩
  ⟨handled.disk, handled.log ++ failureLog report, [report]⟩

/-- Handles events one after the other. An error stops none of them, but none comes after one at
which the program breaks off. -/
def dispatchAll (s : Session) (d : Disk) : List ComponentEvent → Progress
  | [] => ⟨d, [], []⟩
  | e :: es =>
      let first := s.dispatch d e
      if first.isBrokenOff then first
      else
        let rest := s.dispatchAll first.disk es
        ⟨rest.disk, first.log ++ rest.log, first.reports ++ rest.reports⟩

def syncAll (s : Session) (d : Disk) : Except ScanError Progress := do
  let found ← s.scanner.scan d
  let told := LogEvent.info "Syncing components" [("count", toString found.components.length)]
  let done := s.dispatchAll d (found.components.map (⟨.added, ·⟩))
  .ok { done with log := found.log ++ told :: done.log }

/-! ## Watching -/

def known (s : Session) (d : Disk) : Except ScanError (KnownComponents × List LogEvent) :=
  (s.scanner.scan d).map fun found => (.ofList found.components, found.log)

def noticeNew (k : KnownComponents) : List Path → KnownComponents × List ComponentEvent
  | [] => (k, [])
  | p :: ps =>
      if k.contains p then noticeNew k ps
      else
        let (k, events) := noticeNew (k.insert p) ps
        (k, ⟨.added, p⟩ :: events)

/-- The events of a path that has been touched. A directory brings the unknown components in it; a
path that is gone takes the known components below it along. -/
def notice (s : Session) (d : Disk) (k : KnownComponents) (p : Path) :
    Except ScanError Noticed :=
  if d.isDirectory p then
    (s.scanner.scanDirectory d p).map fun found =>
      let (k, events) := noticeNew k found.components
      ⟨k, found.log, events⟩
  else if s.scanner.filter.accepts p then
    let (k, kind?) := k.classify p (d.isFile p)
    .ok ⟨k, [], kind?.toList.map (⟨·, p⟩)⟩
  else if !d.exists? p then
    let (k, gone) := k.forgetBelow p
    .ok ⟨k, [], gone.map (⟨.deleted, ·⟩)⟩
  else .ok ⟨k, [], []⟩

end Session

end PropStories
