import Mathlib.Data.List.Forall2
import PropStories.Proofs.Story.Pairing
import PropStories.Proofs.Story.Writing

/-!
# Runs of events

Events are handled one after the other, and between them somebody else may change the disk. After
each event that succeeds the story of the component is there, or gone if the component was deleted.
Whether a component is called added or changed makes no difference to what is done.
-/

namespace PropStories

open Disk

inductive Happening where
  | event (e : ComponentEvent)
  | edit (change : Disk → Disk)

structure Turn where
  before : Disk
  event : ComponentEvent
  handled : Handled

namespace Keeper

/-- The turns of a run. If the program breaks off, somebody starts it again. -/
def turns (k : Keeper) (d : Disk) : List Happening → List Turn
  | [] => []
  | .event e :: hs => ⟨d, e, k.handle d e⟩ :: k.turns (k.handle d e).disk hs
  | .edit change :: hs => k.turns (change d) hs

def final (k : Keeper) (d : Disk) : List Happening → Disk
  | [] => d
  | .event e :: hs => k.final (k.handle d e).disk hs
  | .edit change :: hs => k.final (change d) hs

theorem handled_of_mem_turns {k : Keeper} {d : Disk} {hs : List Happening} {t : Turn}
    (ht : t ∈ k.turns d hs) : t.handled = k.handle t.before t.event := by
  induction hs generalizing d with
  | nil => cases ht
  | cons h hs ih =>
      cases h with
      | event e =>
          cases ht with
          | head => rfl
          | tail _ ht => exact ih ht
      | edit change => exact ih ht

end Keeper

/-! ## Decisions by kind -/

section

variable {s : Settings} {d : Disk} {e e' : ComponentEvent}

theorem decideUpdate_isNew (component story : Path) :
    (s.decideUpdate d true component story).decision =
      (s.decideUpdate d false component story).decision := by
  simp only [Settings.decideUpdate, Decided.after_decision]
  split <;> rfl

theorem decideUpdate_cases (isNew : Bool) (component story : Path) {x : Decision}
    (h : (s.decideUpdate d isNew component story).decision = x) :
    x = .keep story ∨ (∃ reason, x = .skip story reason) ∨ (∃ error, x = .fail error) ∨
      x = .breakOff ∨ ∃ content props report, x = .revise story content props report := by
  subst h
  simp only [Settings.decideUpdate, Settings.revision, Decided.after_decision]
  repeat' split
  all_goals simp

theorem decide_of_present (handled : s.handles e.path = true) (kind : e.kind ≠ .deleted)
    (there : d.exists? (s.storyOf e.path) = true) :
    (s.decide d e).decision = (s.decideUpdate d false e.path (s.storyOf e.path)).decision := by
  unfold Settings.decide
  simp only [handled, Bool.not_true, Bool.false_eq_true, if_false, there, if_true]
  cases h : e.kind with
  | added => rw [Decided.after_decision, decideUpdate_isNew]
  | changed => rw [Decided.after_decision]
  | deleted => exact absurd h kind

theorem decide_of_deleted (handled : s.handles e.path = true) (kind : e.kind = .deleted) :
    (s.decide d e).decision = (Settings.decideDeletion d (s.storyOf e.path)).decision := by
  unfold Settings.decide
  simp [handled, kind]

/-- Whether two events concern one component, and both or none delete it. -/
def ComponentEvent.Alike (e e' : ComponentEvent) : Prop :=
  e.path = e'.path ∧ (e.kind = .deleted ↔ e'.kind = .deleted)

theorem decide_alike (alike : e.Alike e') :
    (s.decide d e').decision = (s.decide d e).decision := by
  obtain ⟨path, kinds⟩ := alike
  cases handled : s.handles e.path with
  | false => rw [decide_of_unhandled handled, decide_of_unhandled (path ▸ handled)]
  | true =>
      have handled' : s.handles e'.path = true := path ▸ handled
      by_cases kind : e.kind = .deleted
      · rw [decide_of_deleted handled kind, decide_of_deleted handled' (kinds.1 kind), path]
      · have kind' : e'.kind ≠ .deleted := fun h => kind (kinds.2 h)
        cases there : d.exists? (s.storyOf e.path) with
        | true =>
            rw [decide_of_present handled kind there,
              decide_of_present handled' kind' (path ▸ there), path]
        | false =>
            rw [decide_of_absent handled kind there,
              decide_of_absent handled' kind' (path ▸ there), path]

end

/-! ## What is there after an event -/

def Formatter.KeepsFile (f : Formatter) : Prop :=
  ∀ d path, d.isFile path = true → (f d path).disk.exists? path = true

section

variable {k : Keeper} {d d' : Disk} {e e' : ComponentEvent} {hs hs' : List Happening}

theorem exists?_of_isFile {path : Path} (h : d.isFile path = true) : d.exists? path = true := by
  obtain ⟨c, found⟩ := isFile_iff.1 h
  exact exists?_iff.2 ⟨_, found⟩

theorem Formatter.Idle.keepsFile {f : Formatter} (idle : f.Idle) : f.KeepsFile := by
  intro d path file
  rw [idle]
  exact exists?_of_isFile file

namespace Keeper

theorem exists?_of_stored (real : k.mode = .real) (keeps : k.formatter.KeepsFile) {story : Path}
    {content told : String} {props : Nat} {outcome : WriteResult → Outcome}
    (done : (k.store d story content told props outcome).result.isOk = true) :
    (k.store d story content told props outcome).disk.exists? story = true := by
  have written (w : WriteResult) (h : (WriteMode.real.write d story content).2 = .ok w) :=
    WriteMode.real_write_done h
  unfold store at done ⊢
  rw [real] at done ⊢
  generalize WriteMode.real.write d story content = attempt at written done ⊢
  obtain ⟨x, r⟩ := attempt
  cases r with
  | error error => cases done
  | ok w =>
      obtain ⟨rfl, found⟩ := written w rfl
      change (k.format x (.written story content.utf8ByteSize)).1.exists? story = true
      rw [format_applied rfl]
      exact keeps x story (isFile_iff.2 ⟨_, found⟩)

theorem exists?_of_erased (real : k.mode = .real) {story : Path}
    (done : (k.erase d story).result.isOk = true) :
    (k.erase d story).disk.exists? story = false := by
  obtain ⟨error, failed, -⟩ | ⟨w, -, removed⟩ := erase_erases (d := d) real story
  · rw [failed] at done
    cases done
  · exact exists?_of_removed removed

/-- After an event that succeeds, the story is there unless the component was deleted. -/
theorem exists?_handle (real : k.mode = .real) (keeps : k.formatter.KeepsFile)
    (handled : k.settings.handles e.path = true) (done : (k.handle d e).result.isOk = true) :
    (k.handle d e).disk.exists? (k.settings.storyOf e.path) = true ↔ e.kind ≠ .deleted := by
  rw [handle_result] at done
  rw [handle_disk]
  by_cases kind : e.kind = .deleted
  · rw [decide_of_deleted handled kind, Settings.decideDeletion] at done ⊢
    cases there : d.exists? (k.settings.storyOf e.path) with
    | true =>
        rw [there, if_pos rfl] at done
        simp [carryOut, kind, exists?_of_erased real done]
    | false => simp [carryOut, kind, there]
  · suffices (k.carryOut d (k.settings.decide d e).decision).disk.exists?
        (k.settings.storyOf e.path) = true by simp [this, kind]
    cases there : d.exists? (k.settings.storyOf e.path) with
    | true =>
        rw [decide_of_present handled kind there] at done ⊢
        obtain keep | ⟨reason, skip⟩ | ⟨error, fail⟩ | broken | ⟨content, props, report, revise⟩ :=
          decideUpdate_cases (s := k.settings) (d := d) false e.path
            (k.settings.storyOf e.path) rfl
        · rw [keep]
          exact there
        · rw [skip]
          exact there
        · rw [fail] at done
          cases done
        · rw [broken] at done
          cases done
        · rw [revise] at done ⊢
          exact exists?_of_stored real keeps done
    | false =>
        rw [decide_of_absent handled kind there] at done ⊢
        obtain ⟨content, props, create⟩ | ⟨broken, -⟩ := decideCreation_decision (s := k.settings)
          (d := d) e.path (k.settings.storyOf e.path)
        · rw [create] at done ⊢
          exact exists?_of_stored real keeps done
        · rw [broken] at done
          cases done

/-! ## Added and changed -/

theorem handle_alike (alike : e.Alike e') :
    (k.handle d e').result = (k.handle d e).result ∧ (k.handle d e').disk = (k.handle d e).disk := by
  rw [handle_result, handle_result, handle_disk, handle_disk, decide_alike alike]
  exact ⟨rfl, rfl⟩

end Keeper

def Happening.Alike : Happening → Happening → Prop
  | .event e, .event e' => e.Alike e'
  | .edit change, .edit change' => change = change'
  | _, _ => False

def Turn.Same (t t' : Turn) : Prop :=
  t'.handled.result = t.handled.result ∧ t'.handled.disk = t.handled.disk

theorem turns_alike (alike : List.Forall₂ Happening.Alike hs hs') (same : d' = d) :
    List.Forall₂ Turn.Same (k.turns d hs) (k.turns d' hs') ∧ k.final d' hs' = k.final d hs := by
  induction alike generalizing d d' with
  | nil => exact ⟨.nil, same⟩
  | @cons h h' hs hs' first _ ih =>
      subst same
      cases h with
      | event e =>
          cases h' with
          | event e' =>
              obtain ⟨result, disk⟩ := Keeper.handle_alike (k := k) (d := d') first
              obtain ⟨turns, final⟩ := ih disk
              exact ⟨.cons ⟨result, disk⟩ turns, final⟩
          | edit change => cases first
      | edit change =>
          cases h' with
          | event e => cases first
          | edit change' =>
              cases first
              exact ih rfl

/-- After each event of a run that succeeds, the story of its component is there, or gone if the
component was deleted. A run in which other components are called added or changed comes to the same,
event by event and on the disk. -/
theorem story_follows_component (k : Keeper) (d : Disk) (hs : List Happening)
    (real : k.mode = .real) (keeps : k.formatter.KeepsFile) :
    (∀ t ∈ k.turns d hs, k.settings.handles t.event.path = true →
      t.handled.result.isOk = true →
        (t.handled.disk.exists? (k.settings.storyOf t.event.path) = true ↔
          t.event.kind ≠ .deleted)) ∧
      ∀ hs', List.Forall₂ Happening.Alike hs hs' →
        List.Forall₂ Turn.Same (k.turns d hs) (k.turns d hs') ∧ k.final d hs' = k.final d hs := by
  refine ⟨fun t ht handled done => ?_, fun hs' alike => turns_alike alike rfl⟩
  rw [Keeper.handled_of_mem_turns ht] at done ⊢
  exact Keeper.exists?_handle real keeps handled done

theorem story_follows_component_of_button :
    let edited : Disk → Disk := fun d =>
      d.set ["p", "src", "components", "Button.tsx"]
        (.file (.text "export interface ButtonProps { label: string }"))
    let button : Path := ⟨"/p/src/components/Button.tsx"⟩
    let hs : List Happening :=
      [.event ⟨.added, button⟩, .edit edited, .event ⟨.deleted, button⟩, .event ⟨.changed, button⟩]
    let k := standardSession.keeper
    k.mode = .real ∧ k.formatter.KeepsFile ∧
      (k.turns withButton hs).map (fun t => t.handled.disk.exists? (k.settings.storyOf button)) =
        [true, false, true] := by
  intro edited button hs k
  have real : k.mode = .real := rfl
  have keeps : k.formatter.KeepsFile := Formatter.Idle.keepsFile (fun _ _ => rfl)
  obtain ⟨follows, -⟩ := story_follows_component k withButton hs real keeps
  refine ⟨real, keeps, ?_⟩
  have told : ∀ t ∈ k.turns withButton hs, t.event.path = button ∧ t.handled.result.isOk = true := by
    decide +kernel
  have handled : k.settings.handles button = true := by decide +kernel
  have kinds : (k.turns withButton hs).map (fun t => decide (t.event.kind ≠ .deleted)) =
      [true, false, true] := by
    decide +kernel
  refine (List.map_congr_left fun t ht => ?_).trans kinds
  obtain ⟨path, done⟩ := told t ht
  have there := follows t ht (path ▸ handled) done
  rw [path] at there
  rw [Bool.eq_iff_iff, there, decide_eq_true_eq]

end

end PropStories
