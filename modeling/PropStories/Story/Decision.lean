import PropStories.Config.Settings
import PropStories.Contract.Analysis
import PropStories.Disk.Basic
import PropStories.Event
import PropStories.Identity
import PropStories.Story.Error
import PropStories.Story.Reconcile

/-!
# Deciding what becomes of a story

The settings, the disk and an event decide what is to be done to the story of a component. Nothing
is changed here, so that a preview decides as a real run does.
-/

namespace PropStories

inductive SkipReason where
  | noTypeInformation
  | noProps
  | unrecognized
  | unparsable (line : Nat)
  deriving DecidableEq

def SkipReason.message : SkipReason → String
  | noTypeInformation => "no type information"
  | noProps => "no props extracted"
  | unrecognized => "story not recognized"
  | unparsable line => "story has syntax errors (line " ++ toString line ++ ")"

inductive Decision where
  /-- The path is no component. -/
  | ignore
  | create (story : Path) (content : String) (props : Nat)
  | revise (story : Path) (content : String) (props : Nat) (report : ReconcileReport)
  /-- The story says already what it should. -/
  | keep (story : Path)
  | skip (story : Path) (reason : SkipReason)
  | delete (story : Path)
  | nothingToDelete (story : Path)
  | fail (error : StoryError)
  /-- The story cannot be reconciled, and the program breaks off. -/
  | breakOff

structure Decided where
  decision : Decision
  log : List LogEvent

namespace Decided

def after (es : List LogEvent) (d : Decided) : Decided := { d with log := es ++ d.log }

end Decided

/-- The analysis of a component file; without its text, nothing is known of it. -/
def Analysis.ofFile (d : Disk) (path : Path) : Analysis × List LogEvent :=
  match d.readText path with
  | .ok source => ofSource source
  | .error e =>
      (.unavailable, [.warn "could not read component source"
        [("path", path.text), ("error", e.message)]])

namespace Settings

/-! ## The component -/

def handles (s : Settings) (path : Path) : Bool :=
  s.isComponentFile path && !path.startsWith s.storiesRoot

def storyOf (s : Settings) (component : Path) : Path :=
  Identity.artifactPath component s.componentsRoot s.storiesRoot s.storyEnding

def nameOf (s : Settings) (component : Path) : DisplayName :=
  Identity.displayName component s.componentsRoot

def nameEvents (component : Path) (name : DisplayName) : List LogEvent :=
  if name.isFallback then
    [.warn "Could not derive a component name"
      [("component", component.text), ("fallback", name.text)]]
  else []

def synthOptions (s : Settings) : Synth.Options := ⟨s.maxDepth, s.actions⟩

def reconcileOptions (s : Settings) : ReconcileOptions := ⟨s.defaultStory, s.argTypes, s.actions⟩

def propsOf (s : Settings) (a : Analysis) (component : Path) (name : DisplayName) :
    Option (List Synth.PropDescriptor) × List LogEvent :=
  match a.declarations with
  | none => (none, [.warn "No type information available" [("component", component.text)]])
  | some ds =>
      match Contract.select? a.contracts name.text with
      | none => (some [], [.warn "No prop contract found" [("component", component.text)]])
      | some c =>
          (some (Synth.describeContract s.synthOptions ds c),
            if 1 < a.contracts.length then
              [.debug "Several prop contracts, using one" [("contract", c.name)]]
            else [])

def describe (s : Settings) (d : Disk) (component : Path) (name : DisplayName) :
    Option (List Synth.PropDescriptor) × List LogEvent :=
  let (a, read) := Analysis.ofFile d component
  let (props, selected) := s.propsOf a component name
  (props, read ++ selected)

/-! ## The story -/

def template (s : Settings) (component : Path) (name : DisplayName) : StoryTemplate :=
  { component := name.text
    importPath := Identity.importPath component s.projectRoot s.aliasRoot s.shortForm.mark
    title := Identity.storyTitle component s.componentsRoot name
    story := s.defaultStory
    argTypes := s.argTypes
    actions := s.actions }

def diagnosticEvents (story : Path) : Reconciliation → List LogEvent
  | .updated _ report =>
      report.diagnostics.map fun x => .warn x.message [("story", story.text)]
  | _ => []

def creation (s : Settings) (component story : Path) (name : DisplayName)
    (props : List Synth.PropDescriptor) : Decided :=
  let template := (s.template component name).render
  if props.isEmpty then
    ⟨.create story template 0,
      [.info "No props extracted, args stay empty" [("component", name.text)]]⟩
  else
    let r := reconcile template props s.reconcileOptions
    let decision := match r with
      | .updated content _ => .create story content props.length
      | .unrecognized | .unparsable _ => .create story template props.length
      | .torn _ => .breakOff
    ⟨decision, r.events ++ diagnosticEvents story r⟩

def decideCreation (s : Settings) (d : Disk) (component story : Path) : Decided :=
  let name := s.nameOf component
  let (props, described) := s.describe d component name
  (s.creation component story name (props.getD [])).after (nameEvents component name ++ described)

def revision (s : Settings) (story : Path) (source : String)
    (props : List Synth.PropDescriptor) : Decided :=
  let r := reconcile source props s.reconcileOptions
  let decided : Decided := match r with
    | .unrecognized =>
        ⟨.skip story .unrecognized,
          [.warn "Could not find meta or default story, skipping" [("story", story.text)]]⟩
    | .unparsable line =>
        ⟨.skip story (.unparsable line),
          [.warn "Story has syntax errors, skipping"
            [("story", story.text), ("line", toString line)]]⟩
    | .updated content report =>
        if content == source then
          ⟨.keep story, [.debug "Story already up to date" [("story", story.text)]]⟩
        else ⟨.revise story content props.length report, []⟩
    | .torn _ => ⟨.breakOff, []⟩
  decided.after (r.events ++ diagnosticEvents story r)

/-- What becomes of a story that exists. Whether the component has just been added shows in the
log only. -/
def decideUpdate (s : Settings) (d : Disk) (isNew : Bool) (component story : Path) : Decided :=
  let name := s.nameOf component
  let (props, described) := s.describe d component name
  let decided : Decided := match props with
    | none => ⟨.skip story .noTypeInformation, []⟩
    | some [] =>
        ⟨.skip story .noProps,
          if isNew then []
          else [.info "No props extracted, story left as is" [("component", name.text)]]⟩
    | some props =>
        match d.readText story with
        | .error e => ⟨.fail (.unreadable story e), []⟩
        | .ok source => s.revision story source props
  decided.after (nameEvents component name ++ described)

def decideDeletion (d : Disk) (story : Path) : Decided :=
  if d.exists? story then ⟨.delete story, []⟩
  else ⟨.nothingToDelete story, [.debug "No story to delete" [("story", story.text)]]⟩

/-! ## The event -/

/-- What is to be done about an event. A component that is added and has a story already is
treated as changed; one that is changed and has none, as added. -/
def decide (s : Settings) (d : Disk) (e : ComponentEvent) : Decided :=
  let story := s.storyOf e.path
  let shown := [("component", e.path.text)]
  if !s.handles e.path then
    ⟨.ignore, [.debug "ignoring non-component path" [("path", e.path.text)]]⟩
  else match e.kind with
    | .added =>
        if d.exists? story then
          (s.decideUpdate d true e.path story).after
            [.info "Component added" shown,
              .info "Story exists, reconciling" [("story", story.text)]]
        else (s.decideCreation d e.path story).after [.info "Component added" shown]
    | .changed =>
        if d.exists? story then
          (s.decideUpdate d false e.path story).after [.info "Component changed" shown]
        else
          (s.decideCreation d e.path story).after
            [.info "Component changed" shown,
              .info "No story found, creating" [("story", story.text)]]
    | .deleted => (decideDeletion d story).after [.info "Component deleted" shown]

end Settings

end PropStories
