import PropStories.Proofs.Disk
import PropStories.Story.Keeper

/-!
# What an event does to the disk

An event touches the place of its story alone, and a story that exists is only replaced by its own
reconciliation. The one way around this is a story that cannot be found before the directory of its
path has been made: the path then turns back from a directory that was missing.
-/

namespace PropStories

open Disk

/-! ## Decisions -/

inductive Decides (s : Settings) (d : Disk) (e : ComponentEvent) : Decision → Prop where
  | ignore : Decides s d e .ignore
  | create {content : String} {props : Nat} (handled : s.handles e.path = true)
      (kind : e.kind ≠ .deleted) (absent : d.exists? (s.storyOf e.path) = false)
      (made : (s.decideCreation d e.path (s.storyOf e.path)).decision =
        .create (s.storyOf e.path) content props) :
      Decides s d e (.create (s.storyOf e.path) content props)
  | revise {source content : String} {props : List Synth.PropDescriptor} {report : ReconcileReport}
      (kind : e.kind ≠ .deleted)
      (described : (s.describe d e.path (s.nameOf e.path)).1 = some props) (some : props ≠ [])
      (read : d.readText (s.storyOf e.path) = .ok source)
      (updated : reconcile source props s.reconcileOptions = .updated content report)
      (different : content ≠ source) :
      Decides s d e (.revise (s.storyOf e.path) content props.length report)
  | keep (story : Path) : Decides s d e (.keep story)
  | skip (story : Path) (reason : SkipReason) : Decides s d e (.skip story reason)
  | delete (kind : e.kind = .deleted) : Decides s d e (.delete (s.storyOf e.path))
  | nothingToDelete (story : Path) : Decides s d e (.nothingToDelete story)
  | fail (x : StoryError) : Decides s d e (.fail x)
  | breakOff {story : String} {props : List Synth.PropDescriptor} {ds : List Diagnostic}
      (kind : e.kind ≠ .deleted) (torn : reconcile story props s.reconcileOptions = .torn ds) :
      Decides s d e .breakOff

def Decision.Creates : Decision → Prop
  | .create _ _ _ => True
  | _ => False

instance : DecidablePred Decision.Creates
  | .create _ _ _ => isTrue trivial
  | .ignore | .revise _ _ _ _ | .keep _ | .skip _ _ | .delete _ | .nothingToDelete _ | .fail _
  | .breakOff => isFalse id

namespace Decided

@[simp] theorem after_decision (es : List LogEvent) (x : Decided) :
    (x.after es).decision = x.decision := rfl

end Decided

section

variable {s : Settings} {d : Disk} {e : ComponentEvent}

theorem decideCreation_decision (component story : Path) :
    (∃ content props,
      (s.decideCreation d component story).decision = .create story content props) ∨
    (s.decideCreation d component story).decision = .breakOff ∧
      ∃ source props ds, reconcile source props s.reconcileOptions = .torn ds := by
  simp only [Settings.decideCreation, Decided.after_decision, Settings.creation]
  split
  · exact .inl ⟨_, _, rfl⟩
  · simp only
    split
    next => exact .inl ⟨_, _, rfl⟩
    next => exact .inl ⟨_, _, rfl⟩
    next => exact .inl ⟨_, _, rfl⟩
    next torn => exact .inr ⟨rfl, _, _, _, torn⟩

theorem exists_creation {component story : Path}
    (creates : (s.decideCreation d component story).decision.Creates) :
    ∃ content props,
      (s.decideCreation d component story).decision = .create story content props := by
  obtain made | ⟨broken, -⟩ := decideCreation_decision (s := s) (d := d) component story
  · exact made
  · rw [broken] at creates
    exact creates.elim

theorem decideUpdate_decides (isNew : Bool) (kind : e.kind ≠ .deleted) :
    Decides s d e (s.decideUpdate d isNew e.path (s.storyOf e.path)).decision := by
  simp only [Settings.decideUpdate, Decided.after_decision]
  split
  next => exact .skip _ _
  next => exact .skip _ _
  next props some described =>
    split
    next x _ => exact .fail _
    next source read =>
      simp only [Settings.revision, Decided.after_decision]
      split
      next => exact .skip _ _
      next => exact .skip _ _
      next content report updated =>
        split
        next => exact .keep _
        next different =>
          exact .revise kind described (fun h => some h) read updated (by simpa using different)
      next torn => exact .breakOff kind torn

theorem decide_decides : Decides s d e (s.decide d e).decision := by
  unfold Settings.decide
  simp only
  split
  next => exact .ignore
  next handled =>
    have handled : s.handles e.path = true := by simpa using handled
    have creates (absent : d.exists? (s.storyOf e.path) = false) (kind : e.kind ≠ .deleted) :
        Decides s d e (s.decideCreation d e.path (s.storyOf e.path)).decision := by
      obtain ⟨content, props, made⟩ | ⟨broken, source, props, ds, torn⟩ :=
        decideCreation_decision (s := s) (d := d) e.path (s.storyOf e.path)
      · rw [made]
        exact .create handled kind absent made
      · rw [broken]
        exact .breakOff kind torn
    have updates (isNew : Bool) (kind : e.kind ≠ .deleted) :=
      decideUpdate_decides (s := s) (d := d) isNew kind
    cases kind : e.kind with
    | added =>
        simp only
        split
        next =>
          rw [Decided.after_decision]
          exact updates true (by simp [kind])
        next absent =>
          rw [Decided.after_decision]
          exact creates (by simpa using absent) (by simp [kind])
    | changed =>
        simp only
        split
        next =>
          rw [Decided.after_decision]
          exact updates false (by simp [kind])
        next absent =>
          rw [Decided.after_decision]
          exact creates (by simpa using absent) (by simp [kind])
    | deleted =>
        simp only [Settings.decideDeletion, Decided.after_decision]
        split
        next => exact .delete kind
        next => exact .nothingToDelete _

theorem decide_of_absent (handled : s.handles e.path = true) (kind : e.kind ≠ .deleted)
    (absent : d.exists? (s.storyOf e.path) = false) :
    (s.decide d e).decision = (s.decideCreation d e.path (s.storyOf e.path)).decision := by
  unfold Settings.decide
  simp only [handled, Bool.not_true, Bool.false_eq_true, if_false, absent]
  cases h : e.kind with
  | added => rw [Decided.after_decision]
  | changed => rw [Decided.after_decision]
  | deleted => exact absurd h kind

end

/-! ## Writing -/

namespace WriteMode

theorem ensureParent_grown (d : Disk) (path : Path) :
    Grown path.parts d (ensureParent d path).1 := by
  unfold ensureParent
  split
  next => exact .refl
  next parent hparent =>
    split
    next => exact .refl
    next =>
      have some : path.parts ≠ [] := by
        intro none
        rw [Path.parent?_eq_none_iff.2 (.inl none)] at hparent
        cases hparent
      have short : path.parts.length - 1 < path.parts.length := by
        have := List.length_pos_iff.2 some
        omega
      exact makeDirectories_grown short
        (by rw [Path.parts_parent? hparent, List.dropLast_eq_take])

inductive Writes (d : Disk) (path : Path) (content : String) : Attempt → Prop where
  | refused {d' : Disk} (x : StoryError) (grown : Grown path.parts d d') :
      Writes d path content (d', .error x)
  | written {prepared done : Disk} (w : WriteResult)
      (ready : ensureParent d path = (prepared, .ok ()))
      (wrote : prepared.write path (.text content) = .ok done) : Writes d path content (done, .ok w)

theorem write_writes (d : Disk) (path : Path) (content : String) :
    Writes d path content (real.write d path content) := by
  have grown := ensureParent_grown d path
  unfold write
  simp only
  split
  next refused =>
    rw [refused] at grown
    exact .refused _ grown
  next ready =>
    rw [ready] at grown
    split
    next => exact .refused _ grown
    next wrote => exact .written _ ready wrote

end WriteMode

/-! ## Carrying out a decision -/

def Formatter.Idle (f : Formatter) : Prop := ∀ d path, (f d path).disk = d

namespace Keeper

variable {k : Keeper} {d : Disk} {e : ComponentEvent}

theorem format_disk (idle : k.formatter.Idle) (w : WriteResult) : (k.format d w).1 = d := by
  unfold format
  split
  · rfl
  · exact idle d w.path

inductive Stores (d : Disk) (path : Path) (content : String) (outcome : WriteResult → Outcome)
    (h : Handled) : Prop where
  | refused (x : StoryError) (result : h.result = .error (.error x)) (grown : Grown path.parts d h.disk)
  | written {prepared : Disk} (w : WriteResult) (result : h.result = .ok (outcome w))
      (ready : WriteMode.ensureParent d path = (prepared, .ok ()))
      (wrote : prepared.write path (.text content) = .ok h.disk)

theorem store_stores (real : k.mode = .real) (idle : k.formatter.Idle) (path : Path)
    (content told : String) (props : Nat) (outcome : WriteResult → Outcome) :
    Stores d path content outcome (k.store d path content told props outcome) := by
  have written := WriteMode.write_writes d path content
  unfold store
  rw [real]
  generalize WriteMode.real.write d path content = attempt at written
  cases written with
  | refused x grown => exact .refused x rfl grown
  | written w ready wrote =>
      exact .written w rfl ready (wrote.trans (congrArg Except.ok (format_disk idle w).symm))

theorem erase_erases (real : k.mode = .real) (path : Path) :
    (∃ x, (k.erase d path).result = .error (.error x) ∧ (k.erase d path).disk = d) ∨
    ∃ w, (k.erase d path).result = .ok (.deleted w) ∧
      d.removeFile path = .ok (k.erase d path).disk := by
  unfold erase
  rw [real, WriteMode.delete]
  cases d.removeFile path with
  | error x => exact .inl ⟨_, rfl, rfl⟩
  | ok done => exact .inr ⟨_, rfl, rfl⟩

end Keeper

/-! ## What is kept -/

/-- What the result of an event tells of the story: created or replaced by its own reconciliation
unless the component is deleted, removed only then, and else left as it was. -/
def Told (s : Settings) (d : Disk) (e : ComponentEvent) (after : Disk) :
    Except Failure Outcome → Prop
  | .ok (.created _ props) => e.kind ≠ .deleted ∧ ∃ content,
      (s.decideCreation d e.path (s.storyOf e.path)).decision =
        .create (s.storyOf e.path) content props ∧
      after.at? (d.destination (s.storyOf e.path)) = some (.file (.text content))
  | .ok (.reconciled _ report) => e.kind ≠ .deleted ∧ ∃ source content props,
      (s.describe d e.path (s.nameOf e.path)).1 = some props ∧ props ≠ [] ∧
      d.at? (d.destination (s.storyOf e.path)) = some (.file (.text source)) ∧
      reconcile source props s.reconcileOptions = .updated content report ∧ content ≠ source ∧
      after.at? (d.destination (s.storyOf e.path)) = some (.file (.text content))
  | .ok (.deleted _) => e.kind = .deleted ∧
      (∃ c, d.at? (d.destination (s.storyOf e.path)) = some (.file c)) ∧
      after.at? (d.destination (s.storyOf e.path)) = none
  | .ok (.unchanged _) | .ok (.skipped _ _) | .ok (.nothingToDelete _) | .ok .ignored
  | .error .brokenOff => after = d
  | .error (.error _) => Grown (s.storyOf e.path).parts d after

/-- What handling an event leaves of the disk. Elsewhere than at the story, directories on its way
are all that can be new. -/
structure Careful (s : Settings) (d : Disk) (e : ComponentEvent) (h : Handled) : Prop where
  here : h.disk.here = d.here
  elsewhere : ∀ p, p ≠ d.destination (s.storyOf e.path) →
    Kept (s.storyOf e.path).parts d h.disk p
  told : Told s d e h.disk h.result

def Fresh (s : Settings) (d : Disk) (e : ComponentEvent) (h : Handled) : Prop :=
  ∀ w props, h.result = .ok (.created w props) →
    d.at? (d.destination (s.storyOf e.path)) = none

def Reappears (d : Disk) (path : Path) : Prop :=
  d.exists? path = false ∧ (WriteMode.ensureParent d path).2.isOk = true ∧
    (WriteMode.ensureParent d path).1.isFile path = true

instance (d : Disk) (path : Path) : Decidable (Reappears d path) :=
  inferInstanceAs (Decidable (_ ∧ _ ∧ _))

/-- Whether an event overwrites a story that it has not seen. -/
def Overwrites (s : Settings) (d : Disk) (e : ComponentEvent) : Prop :=
  s.handles e.path = true ∧ e.kind ≠ .deleted ∧ Reappears d (s.storyOf e.path) ∧
    (s.decideCreation d e.path (s.storyOf e.path)).decision.Creates

instance (s : Settings) (d : Disk) (e : ComponentEvent) : Decidable (Overwrites s d e) :=
  inferInstanceAs (Decidable (_ ∧ _ ∧ _ ∧ _))

section

variable {k : Keeper} {s : Settings} {d : Disk} {e : ComponentEvent}

theorem careful_of_same {h : Handled} (same : h.disk = d) (told : Told s d e d h.result) :
    Careful s d e h where
  here := by rw [same]
  elsewhere p _ := .inl (by rw [same])
  told := by rw [same]; exact told

theorem careful_of_failed {h : Handled} {x : StoryError} (result : h.result = .error (.error x))
    (grown : Grown (s.storyOf e.path).parts d h.disk) : Careful s d e h where
  here := grown.here
  elsewhere p _ := grown.kept p
  told := by rw [result]; exact grown

/-- A story written changes its own place and leaves the way to it. -/
theorem written_grown {path : Path} {content : String} {prepared done : Disk}
    (ready : WriteMode.ensureParent d path = (prepared, .ok ()))
    (wrote : prepared.write path (.text content) = .ok done) :
    done.here = d.here ∧ (∀ p, p ≠ d.destination path → Kept path.parts d done p) ∧
      done.at? (d.destination path) = some (.file (.text content)) := by
  have grown := WriteMode.ensureParent_grown d path
  rw [ready] at grown
  obtain ⟨-, -, free, rfl⟩ := write_eq_ok wrote
  rw [grown.destination path] at free ⊢
  refine ⟨grown.here, fun p hp => ?_, at?_set_self (ne_nil_of_at? free)⟩
  unfold Kept
  rw [at?_set_of_ne hp]
  exact grown.kept p

theorem readText_eq_ok {path : Path} {source : String} (h : d.readText path = .ok source) :
    d.at? (d.destination path) = some (.file (.text source)) := by
  unfold readText at h
  cases found : d.find path with
  | error x =>
      rw [found] at h
      cases h
  | ok entry =>
      rw [found] at h
      have there := (find_eq_ok_iff.1 found).2.1
      cases entry with
      | directory => cases h
      | file c =>
          cases c with
          | bytes raw => cases h
          | text t =>
              cases h
              exact there

theorem careful_of_written {h : Handled} {prepared : Disk} {content : String}
    (ready : WriteMode.ensureParent d (s.storyOf e.path) = (prepared, .ok ()))
    (wrote : prepared.write (s.storyOf e.path) (.text content) = .ok h.disk)
    (told : h.disk.at? (d.destination (s.storyOf e.path)) = some (.file (.text content)) →
      Told s d e h.disk h.result) : Careful s d e h := by
  obtain ⟨here, elsewhere, there⟩ := written_grown ready wrote
  exact ⟨here, elsewhere, told there⟩

theorem careful_of_deleted {h : Handled} {w : WriteResult} (kind : e.kind = .deleted)
    (result : h.result = .ok (.deleted w))
    (removed : d.removeFile (s.storyOf e.path) = .ok h.disk) : Careful s d e h := by
  obtain ⟨c, there, gone⟩ := removeFile_eq_ok removed
  refine ⟨by rw [gone]; rfl, fun p hp => .inl (by rw [gone, at?_remove_of_ne hp]), ?_⟩
  rw [result, gone]
  exact ⟨kind, ⟨c, there⟩, at?_remove_self (ne_nil_of_at? (d := d) (by simp [there]))⟩

theorem careful_carryOut (real : k.mode = .real) (idle : k.formatter.Idle) {x : Decision}
    (decided : Decides k.settings d e x) : Careful k.settings d e (k.carryOut d x) := by
  cases decided with
  | ignore => exact careful_of_same rfl rfl
  | keep story => exact careful_of_same rfl rfl
  | skip story reason => exact careful_of_same rfl rfl
  | nothingToDelete story => exact careful_of_same rfl rfl
  | fail x => exact careful_of_failed rfl .refl
  | breakOff => exact careful_of_same rfl rfl
  | @create content props handled kind absent made =>
      cases Keeper.store_stores (d := d) real idle (k.settings.storyOf e.path) content
        "Story created" props (.created · props) with
      | refused x result grown => exact careful_of_failed result grown
      | written w result ready wrote =>
          refine careful_of_written ready wrote fun there => ?_
          rw [Keeper.carryOut, result]
          exact ⟨kind, content, made, there⟩
  | @revise source content props report kind described some read updated different =>
      cases Keeper.store_stores (d := d) real idle (k.settings.storyOf e.path) content
        "Story updated" props.length (.reconciled · report) with
      | refused x result grown => exact careful_of_failed result grown
      | written w result ready wrote =>
          refine careful_of_written ready wrote fun there => ?_
          rw [Keeper.carryOut, result]
          exact ⟨kind, source, content, props, described, some, readText_eq_ok read, updated,
            different, there⟩
  | delete kind =>
      obtain ⟨x, result, disk⟩ | ⟨w, result, removed⟩ :=
        Keeper.erase_erases (d := d) real (k.settings.storyOf e.path)
      · refine careful_of_failed result ?_
        rw [Keeper.carryOut, disk]
        exact .refl
      · exact careful_of_deleted kind result removed

theorem handle_careful (real : k.mode = .real) (idle : k.formatter.Idle) :
    Careful k.settings d e (k.handle d e) := by
  obtain ⟨here, elsewhere, told⟩ :=
    careful_carryOut real idle (decide_decides (s := k.settings) (d := d) (e := e))
  exact ⟨here, elsewhere, told⟩

/-! ## New stories -/

theorem handle_result (k : Keeper) (d : Disk) (e : ComponentEvent) :
    (k.handle d e).result = (k.carryOut d (k.settings.decide d e).decision).result := by
  rw [Keeper.handle]

theorem exists_create_of_created {x : Decision} (real : k.mode = .real) (idle : k.formatter.Idle)
    (decided : Decides k.settings d e x) {w : WriteResult} {props : Nat}
    (result : (k.carryOut d x).result = .ok (.created w props)) :
    k.settings.handles e.path = true ∧ e.kind ≠ .deleted ∧
      d.exists? (k.settings.storyOf e.path) = false ∧
      (k.settings.decideCreation d e.path (k.settings.storyOf e.path)).decision.Creates ∧
      ∃ prepared done content,
        WriteMode.ensureParent d (k.settings.storyOf e.path) = (prepared, .ok ()) ∧
        prepared.write (k.settings.storyOf e.path) (.text content) = .ok done := by
  cases decided with
  | @create content _ handled kind absent made =>
      cases Keeper.store_stores (d := d) real idle (k.settings.storyOf e.path) content
        "Story created" _ (.created · _) with
      | refused x refused _ => cases refused.symm.trans result
      | written w _ ready wrote =>
          exact ⟨handled, kind, absent, by rw [made]; trivial, _, _, content, ready, wrote⟩
  | @revise _ content props report =>
      cases Keeper.store_stores (d := d) real idle (k.settings.storyOf e.path) content
        "Story updated" props.length (.reconciled · report) with
      | refused x refused _ => cases refused.symm.trans result
      | written w written _ _ => cases written.symm.trans result
  | delete =>
      obtain ⟨x, refused, -⟩ | ⟨w, deleted, -⟩ :=
        Keeper.erase_erases (d := d) real (k.settings.storyOf e.path)
      · cases refused.symm.trans result
      · cases deleted.symm.trans result
  | ignore => cases result
  | keep story => cases result
  | skip story reason => cases result
  | nothingToDelete story => cases result
  | fail x => cases result
  | breakOff => cases result

theorem reappears_iff {path : Path} : Reappears d path ↔ d.exists? path = false ∧ ∃ prepared c,
    WriteMode.ensureParent d path = (prepared, .ok ()) ∧ prepared.find path = .ok (.file c) := by
  unfold Reappears
  rw [isFile_iff]
  cases WriteMode.ensureParent d path with
  | mk prepared made =>
      cases made with
      | error x => simp [Except.isOk, Except.toBool]
      | ok u => simp [Except.isOk, Except.toBool]

theorem handle_of_overwrites (real : k.mode = .real) (h : Overwrites k.settings d e) :
    ∃ w props, (k.handle d e).result = .ok (.created w props) := by
  obtain ⟨handled, kind, reappears, creates⟩ := h
  obtain ⟨absent, prepared, c, ready, found⟩ := reappears_iff.1 reappears
  obtain ⟨content, props, made⟩ := exists_creation creates
  rw [handle_result, decide_of_absent handled kind absent, made, Keeper.carryOut, Keeper.store,
    real, WriteMode.write, ready]
  simp only [write_of_find _ found]
  exact ⟨_, _, rfl⟩

theorem handle_fresh_iff (real : k.mode = .real) (idle : k.formatter.Idle) :
    Fresh k.settings d e (k.handle d e) ↔ ¬ Overwrites k.settings d e := by
  constructor
  · intro fresh overwrites
    obtain ⟨w, props, created⟩ := handle_of_overwrites real overwrites
    obtain ⟨-, prepared, c, ready, found⟩ := reappears_iff.1 overwrites.2.2.1
    have grown := WriteMode.ensureParent_grown d (k.settings.storyOf e.path)
    rw [ready] at grown
    have there := (find_eq_ok_iff.1 found).2.1
    rw [grown.destination] at there
    have before := grown.file there
    rw [fresh w props created] at before
    cases before
  · intro careful w props created
    obtain ⟨handled, kind, absent, creates, prepared, done, content, ready, wrote⟩ :=
      exists_create_of_created real idle (decide_decides (s := k.settings) (d := d) (e := e)) created
    have grown := WriteMode.ensureParent_grown d (k.settings.storyOf e.path)
    rw [ready] at grown
    have free := (write_eq_ok wrote).2.2.1
    rw [grown.destination] at free
    cases there : d.at? (d.destination (k.settings.storyOf e.path)) with
    | none => rfl
    | some entry =>
        cases entry with
        | directory => exact absurd (grown.directory there) free
        | file old =>
            have kept := grown.file_after there
            rw [← grown.destination] at kept
            have reappears := reappears_iff.2 ⟨absent, prepared, old, ready, find_of_write wrote kept⟩
            exact absurd ⟨handled, kind, reappears, creates⟩ careful

theorem up_mem_of_reappears {path : Path} (tree : d.IsTree) (h : Reappears d path) :
    .up ∈ path.parts := by
  obtain ⟨absent, prepared, c, ready, found⟩ := reappears_iff.1 h
  have grown := WriteMode.ensureParent_grown d path
  rw [ready] at grown
  obtain ⟨place, there, plain⟩ := find_eq_ok_iff.1 found
  obtain ⟨nonempty, noNul, way⟩ := placeOf_eq_ok_iff.1 place
  rw [grown.destination] at there way
  have there := grown.file there
  apply Decidable.byContradiction
  intro onward
  -- Without a way back, the story could have been found at once.
  have open_ : d.follow d.here path.parts = .ok (d.destination path) := by
    have onlyFirst : .root ∉ path.parts.tail := fun root => (Path.of_mem_tail root).1 rfl
    rw [grown.here] at way
    cases hparts : path.parts with
    | nil => rwa [hparts] at way
    | cons x rest =>
        rw [hparts] at way onward onlyFirst
        rw [List.mem_cons, not_or] at onward
        by_cases root : x = .root
        · rw [root, follow_cons_eq_ok_iff] at way ⊢
          exact (tree.follow onward.2 onlyFirst way (by simp [there])).1
        · refine (tree.follow ?_ ?_ way (by simp [there])).1
          · exact List.not_mem_cons_of_ne_of_not_mem onward.1 onward.2
          · exact List.not_mem_cons_of_ne_of_not_mem (Ne.symm root) onlyFirst
  have seen : d.find path = .ok (.file c) :=
    find_eq_ok_iff.2 ⟨placeOf_eq_ok_iff.2 ⟨nonempty, noNul, open_⟩, there, plain⟩
  rw [exists?_iff.2 ⟨_, seen⟩] at absent
  cases absent

/-- An event touches only its story, and a story is replaced only by its reconciliation, unless the
way to it turns back from a directory that was missing: then it is taken for a new one. -/
theorem handle_keeps_stories (k : Keeper) (d : Disk) (e : ComponentEvent) (real : k.mode = .real)
    (idle : k.formatter.Idle) :
    Careful k.settings d e (k.handle d e) ∧
      (Fresh k.settings d e (k.handle d e) ↔ ¬ Overwrites k.settings d e) ∧
      (d.IsTree → Overwrites k.settings d e → .up ∈ (k.settings.storyOf e.path).parts) :=
  ⟨handle_careful real idle, handle_fresh_iff real idle,
    fun tree overwrites => up_mem_of_reappears tree overwrites.2.2.1⟩

def turningBack : Settings :=
  { Settings.standard with projectRoot := ⟨"/p"⟩, storiesDir := ⟨"gen/../stories"⟩ }

def withStory : Disk :=
  { entries :=
      [(["p"], .directory), (["p", "stories"], .directory),
        (["p", "stories", "Button.stories.tsx"], .file (.text "export const note = 1;\n"))]
    here := [] }

theorem handle_keeps_stories_turning_back :
    withStory.IsTree ∧
      ¬ Fresh turningBack withStory ⟨.changed, ⟨"/p/src/components/Button.tsx"⟩⟩
        (Keeper.handle ⟨turningBack, .none, .real⟩ withStory
          ⟨.changed, ⟨"/p/src/components/Button.tsx"⟩⟩) := by
  obtain ⟨-, fresh, -⟩ := handle_keeps_stories ⟨turningBack, .none, .real⟩ withStory
    ⟨.changed, ⟨"/p/src/components/Button.tsx"⟩⟩ rfl fun _ _ => rfl
  refine ⟨isTree_of_entries (by decide +kernel), fun h => fresh.1 h ?_⟩
  decide +kernel

end

end PropStories
