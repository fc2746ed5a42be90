import PropStories.Component.Filter
import PropStories.Proofs.Story.Independence
import PropStories.Proofs.Story.Preview

/-!
# Where stories are written

What is written or deleted for an event lies below the directory of the stories, where neither an
event nor a session looks for components.
-/

namespace PropStories

open Disk

/-- Whether a path lies below the directory of the stories, and is a component neither to events
nor to a session, whatever it ignores. -/
structure Settings.Shelves (s : Settings) (p : Path) : Prop where
  below : p.startsWith s.storiesRoot = true
  unhandled : s.handles p = false
  rejected : ∀ ignored, ComponentFilter.accepts ⟨s, ignored⟩ p = false

def Decision.target? : Decision → Option Path
  | .create story _ _ | .revise story _ _ _ | .delete story => some story
  | .ignore | .keep _ | .skip _ _ | .nothingToDelete _ | .fail _ | .breakOff => none

def Outcome.write? : Outcome → Option WriteResult
  | .created w _ | .reconciled w _ | .deleted w => some w
  | .unchanged _ | .skipped _ _ | .nothingToDelete _ | .ignored => none

section

variable {s : Settings} {k : Keeper} {d : Disk} {e : ComponentEvent} {p : Path}

theorem shelves_of_startsWith (below : p.startsWith s.storiesRoot = true) : s.Shelves p where
  below := below
  unhandled := by simp [Settings.handles, below]
  rejected ignored := by simp [ComponentFilter.accepts, below]

theorem shelves_storyOf (root : s.componentsRoot.text ≠ "")
    (dotted : s.storyEnding.toList.head? = some '.') (handled : s.handles p = true) :
    s.Shelves (s.storyOf p) := by
  have plain : s.storyEnding.toList.head? ≠ some '/' := by simp [dotted]
  have below := under_storiesRoot handled (Path.parts_ne_nil root) plain
  exact shelves_of_startsWith (Path.startsWith_iff.2 below)

theorem ignored_of_unhandled (unhandled : k.settings.handles e.path = false) :
    (k.handle d e).result = .ok .ignored := by
  rw [handle_result, decide_of_unhandled unhandled]
  rfl

theorem target?_decide : ∀ story ∈ (s.decide d e).decision.target?,
    s.handles e.path = true ∧ story = s.storyOf e.path := by
  intro story target
  constructor
  · cases handled : s.handles e.path with
    | false => simp [decide_of_unhandled handled, Decision.target?] at target
    | true => rfl
  · apply story?_decide (d := d)
    cases decided : (s.decide d e).decision with
    | create | revise | delete => rwa [decided] at target
    | ignore | keep | skip | nothingToDelete | fail | breakOff =>
        rw [decided] at target
        cases target

theorem shelves_target (root : s.componentsRoot.text ≠ "")
    (dotted : s.storyEnding.toList.head? = some '.') :
    ∀ story ∈ (s.decide d e).decision.target?, s.Shelves story := by
  intro story target
  obtain ⟨handled, about⟩ := target?_decide story target
  rw [about]
  exact shelves_storyOf root dotted handled

theorem carryOut_of_no_target {x : Decision} (none : x.target? = none) :
    (k.carryOut d x).disk = d := by
  cases x with
  | create | revise | delete => cases none
  | ignore | keep | skip | nothingToDelete | fail | breakOff => rfl

theorem write_path {mode : WriteMode} {story : Path} {content : String} {w : WriteResult}
    (h : (mode.write d story content).2 = .ok w) : w.path = story := by
  cases mode with
  | preview =>
      cases h
      rfl
  | real =>
      obtain ⟨rfl, -⟩ := WriteMode.real_write_done h
      rfl

theorem delete_path {mode : WriteMode} {story : Path} {w : WriteResult}
    (h : (mode.delete d story).2 = .ok w) : w.path = story := by
  unfold WriteMode.delete at h
  split at h
  next =>
    cases h
    rfl
  next =>
    split at h
    next => cases h
    next =>
      cases h
      rfl

theorem store_path {outcome : WriteResult → Outcome} (told : ∀ w, (outcome w).write? = some w)
    {story : Path} {content telling : String} {props : Nat} {o : Outcome}
    (h : (k.store d story content telling props outcome).result = .ok o) :
    ∃ w, o.write? = some w ∧ w.path = story := by
  have path (w : WriteResult) (h : (k.mode.write d story content).2 = .ok w) := write_path h
  unfold Keeper.store at h
  generalize k.mode.write d story content = attempt at path h
  obtain ⟨x, r⟩ := attempt
  cases r with
  | error error => cases h
  | ok w =>
      cases h
      exact ⟨w, told w, path w rfl⟩

theorem erase_path {story : Path} {o : Outcome} (h : (k.erase d story).result = .ok o) :
    ∃ w, o.write? = some w ∧ w.path = story := by
  have path (w : WriteResult) (h : (k.mode.delete d story).2 = .ok w) := delete_path h
  unfold Keeper.erase at h
  generalize k.mode.delete d story = attempt at path h
  obtain ⟨x, r⟩ := attempt
  cases r with
  | error error => cases h
  | ok w =>
      cases h
      exact ⟨w, rfl, path w rfl⟩

theorem write?_carryOut {x : Decision} {o : Outcome} (h : (k.carryOut d x).result = .ok o) :
    o.write?.map (·.path) = x.target? := by
  cases x with
  | create story content props =>
      obtain ⟨w, told, path⟩ := store_path (fun _ => rfl) h
      rw [told, Option.map_some, path, Decision.target?]
  | revise story content props report =>
      obtain ⟨w, told, path⟩ := store_path (fun _ => rfl) h
      rw [told, Option.map_some, path, Decision.target?]
  | delete story =>
      obtain ⟨w, told, path⟩ := erase_path h
      rw [told, Option.map_some, path, Decision.target?]
  | fail | breakOff => cases h
  | ignore | keep | skip | nothingToDelete =>
      cases h
      rfl

theorem destination_of_changed (real : k.mode = .real) (idle : k.formatter.Idle) {q : Place}
    (changed : (k.handle d e).disk.at? q ≠ d.at? q)
    (file : d.at? q ≠ none ∨ (k.handle d e).disk.at? q ≠ some .directory) :
    k.settings.handles e.path = true ∧ q = d.destination (k.settings.storyOf e.path) := by
  constructor
  · apply Decidable.byContradiction
    intro unhandled
    rw [Bool.not_eq_true] at unhandled
    rw [handle_disk, decide_of_unhandled unhandled] at changed
    exact changed rfl
  · apply Decidable.byContradiction
    intro other
    obtain same | ⟨empty, made, -⟩ := (handle_careful (d := d) (e := e) real idle).elsewhere q other
    · exact changed same
    · exact file.elim (fun h => h empty) (fun h => h made)

/-- Stories never feed back. With a components root and a story ending that begins with a dot, the
story of every path whose event is not ignored lies below the stories root, where no event and no
session sees a component. So does all that a run writes or deletes, new directories apart. -/
theorem stories_are_no_components (k : Keeper) (root : k.settings.componentsRoot.text ≠ "")
    (dotted : k.settings.storyEnding.toList.head? = some '.') :
    (∀ d e, (k.handle d e).result ≠ .ok .ignored →
      k.settings.Shelves (k.settings.storyOf e.path)) ∧
      ∀ d hs, ∀ t ∈ k.turns d hs,
        (∀ story ∈ (k.settings.decide t.before t.event).decision.target?,
          k.settings.Shelves story) ∧
        ((k.settings.decide t.before t.event).decision.target? = none →
          t.handled.disk = t.before) ∧
        (∀ o, t.handled.result = .ok o → ∀ w ∈ o.write?, k.settings.Shelves w.path) ∧
        (k.mode = .real → k.formatter.Idle → ∀ q, t.handled.disk.at? q ≠ t.before.at? q →
          (t.before.at? q ≠ none ∨ t.handled.disk.at? q ≠ some .directory) →
            ∃ story, k.settings.Shelves story ∧ q = t.before.destination story) := by
  constructor
  · intro d e answered
    cases handled : k.settings.handles e.path with
    | false => exact absurd (ignored_of_unhandled handled) answered
    | true => exact shelves_storyOf root dotted handled
  · intro d hs t ht
    have targets := shelves_target (d := t.before) (e := t.event) root dotted
    rw [Keeper.handled_of_mem_turns ht]
    refine ⟨targets, ?_, ?_, ?_⟩
    · intro nothing
      rw [handle_disk]
      exact carryOut_of_no_target nothing
    · intro o done w told
      rw [handle_result] at done
      refine targets w.path ?_
      rw [← write?_carryOut done, Option.mem_def.1 told]
      rfl
    · intro real idle q changed file
      obtain ⟨handled, place⟩ := destination_of_changed real idle changed file
      exact ⟨_, shelves_storyOf root dotted handled, place⟩

theorem stories_are_no_components_of_standard :
    let k := standardSession.keeper
    k.settings.componentsRoot.text ≠ "" ∧ k.settings.storyEnding.toList.head? = some '.' ∧
      k.settings.Shelves ⟨"/p/src/stories/forms/Input.stories.tsx"⟩ := by
  intro k
  have root : k.settings.componentsRoot.text ≠ "" := by decide +kernel
  have dotted : k.settings.storyEnding.toList.head? = some '.' := by decide +kernel
  obtain ⟨shelved, -⟩ := stories_are_no_components k root dotted
  let input : ComponentEvent := ⟨.added, ⟨"/p/src/components/forms/Input.tsx"⟩⟩
  have answered : (k.handle withButton input).result ≠ .ok .ignored := by
    intro ignored
    have created : (k.handle withButton input).result.toOption.bind Outcome.write? ≠ none := by
      decide +kernel
    rw [ignored] at created
    exact created rfl
  refine ⟨root, dotted, ?_⟩
  have story : k.settings.storyOf input.path = ⟨"/p/src/stories/forms/Input.stories.tsx"⟩ := by
    decide +kernel
  rw [← story]
  exact shelved withButton input answered

end

end PropStories
