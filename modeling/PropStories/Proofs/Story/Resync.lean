import PropStories.Proofs.Component.Rescan
import PropStories.Proofs.Story.Filling
import PropStories.Proofs.Story.Independence
import PropStories.Proofs.Story.Runs

/-!
# Syncing twice

A sync that creates the stories of all components adds files that no scan lists. Each of the new
stories already says what a second sync would have it say.
-/

namespace PropStories

open Disk

def Disk.Free (d : Disk) (path : Path) : Prop :=
  (∃ n, path.parts.getLast? = some (.name n)) → ∀ c, d.at? (d.destination path) ≠ some (.file c)

def Disk.FilePlace (d : Disk) (path : Path) (q : Place) : Prop :=
  q = d.destination path ∧ ∃ n, path.parts.getLast? = some (.name n)

def Decision.Rests (x : Decision) : Prop :=
  (∃ story, x = .keep story) ∨ ∃ story reason, x = .skip story reason

section

variable {d d' : Disk} {path : Path} {files : Place → Prop} {k : Keeper} {s : Settings} {p q : Path}

/-! ## Writing a new story -/

theorem WriteMode.ensureParent_extends (sound : d.Sound) (path : Path) :
    Extends files d (ensureParent d path).1 := by
  unfold ensureParent
  split
  next => exact .refl sound
  next parent _ =>
    split
    next => exact .refl sound
    next => exact makeDirectories_extends sound _ _

theorem Disk.Free.absent (free : d.Free path) (sound : d.Sound) {c : Content} :
    d.find path ≠ .ok (.file c) := by
  intro found
  obtain ⟨place, there, -⟩ := find_eq_ok_iff.1 found
  exact free (sound.exists_name_of_placeOf place (by simp [there])) c there

/-- A story stored where no file is adds a file to the disk, with directories on the way. -/
theorem store_extends (sound : d.Sound) (real : k.mode = .real) (idle : k.formatter.Idle)
    (free : d.Free path) {content told : String} {props : Nat} {outcome : WriteResult → Outcome}
    (done : (k.store d path content told props outcome).result.isOk = true) :
    Extends (d.FilePlace path) d (k.store d path content told props outcome).disk ∧
      (k.store d path content told props outcome).disk.readText path = .ok content := by
  cases Keeper.store_stores real idle path content told props outcome with
  | refused x result =>
      rw [result] at done
      cases done
  | @written prepared w result ready wrote =>
      have ext : Extends (fun _ => False) d (WriteMode.ensureParent d path).1 :=
        WriteMode.ensureParent_extends sound path
      rw [ready] at ext
      obtain ⟨place, -, noDirectory, after⟩ := write_eq_ok wrote
      have named := ext.sound.exists_name_of_placeOf place noDirectory
      have empty : prepared.at? (prepared.destination path) = none := by
        cases there : prepared.at? (prepared.destination path) with
        | none => rfl
        | some e =>
            cases e with
            | directory => exact absurd there noDirectory
            | file c =>
                obtain before | ⟨-, new⟩ := ext.file there
                · rw [ext.destination] at before
                  exact absurd before (free named c)
                · exact new.elim
      have put : Extends (d.FilePlace path) prepared
          (prepared.set (prepared.destination path) (.file (.text content))) :=
        .put ext.sound place empty fun _ => ⟨ext.destination path, named⟩
      have there := find_of_written wrote
      rw [after] at there ⊢
      exact ⟨(ext.mono fun _ h => h.elim).trans put, readText_eq_ok_iff.2 there⟩

/-! ## One component -/

structure Scanner.Listed (t : Scanner) (d : Disk) (p : Path) : Prop where
  covers : t.filter.Covers p
  names : ∃ names : List String, p.parts = t.filter.root.parts ++ names.map .name
  occupied : d.Occupied p

theorem Scanner.listed_of_scan {t : Scanner} (sound : d.Sound) {found : Scanned}
    (scan : t.scan d = .ok found) : ∀ p ∈ found.components, t.Listed d p := by
  intro p hp
  obtain ⟨root, -, listed⟩ := scan_components_iff.1 ⟨found, scan, rfl⟩
  obtain ⟨names, covers, parts, there⟩ := covers_of_listed sound root (listed ▸ hp)
  obtain ⟨place, directory, -⟩ := find_eq_ok_iff.1 (isDirectory_iff.1 root)
  exact ⟨covers, ⟨names, parts⟩, _, _, names,
    ⟨parts, (placeOf_eq_ok_iff.1 place).2.2, directory⟩, there⟩

theorem Scanner.Listed.extends {t : Scanner} (ext : Extends files d d') (h : t.Listed d p) :
    t.Listed d' p :=
  ⟨h.covers, h.names, ext.occupied h.occupied⟩

def Settings.newText (s : Settings) (component : Path) (props : List Synth.PropDescriptor) :
    String :=
  let template := s.template component (s.nameOf component)
  if props.isEmpty then template.render else template.created props s.reconcileOptions

/-- Whether the texts made for a new component, the template and the story with its regions filled
in, are refused or read as expected. -/
def Settings.ReadsNew (s : Settings) (d : Disk) (component : Path) : Prop :=
  ∀ props, (s.describe d component (s.nameOf component)).1 = some props → props ≠ [] →
    let template := s.template component (s.nameOf component)
    template.Reads template.blank ∧ template.Reads (template.filled props template.blank)

theorem creation_decision (story : Path) (props : List Synth.PropDescriptor) :
    (s.creation p story (s.nameOf p) props).decision =
        .create story (s.newText p props) props.length ∨
      (s.creation p story (s.nameOf p) props).decision = .breakOff := by
  unfold Settings.creation Settings.newText
  cases props with
  | nil => simp only [List.isEmpty_nil, if_true, List.length_nil, true_or]
  | cons x props =>
      have some : ¬ (x :: props).isEmpty = true := by simp
      rw [if_neg some, if_neg some]
      unfold StoryTemplate.created
      generalize reconcile (s.template p (s.nameOf p)).render (x :: props) s.reconcileOptions = r
      cases r with
      | updated => exact .inl rfl
      | unrecognized => exact .inl rfl
      | unparsable => exact .inl rfl
      | torn => exact .inr rfl

theorem decideCreation_cases (story : Path) : (s.decideCreation d p story).decision =
      .create story (s.newText p ((s.describe d p (s.nameOf p)).1.getD []))
        ((s.describe d p (s.nameOf p)).1.getD []).length ∨
    (s.decideCreation d p story).decision = .breakOff := by
  rw [Settings.decideCreation, Decided.after_decision]
  exact creation_decision story _

theorem revision_rests (story : Path) {props : List Synth.PropDescriptor} (some_ : props ≠ [])
    (reads : (s.template p (s.nameOf p)).Reads (s.template p (s.nameOf p)).blank)
    (readsFilled : (s.template p (s.nameOf p)).Reads
      ((s.template p (s.nameOf p)).filled props (s.template p (s.nameOf p)).blank)) :
    (s.revision story (s.newText p props) props).decision.Rests := by
  have text : s.newText p props = (s.template p (s.nameOf p)).created props s.reconcileOptions := by
    rw [Settings.newText, if_neg (by simpa using some_)]
  have again := StoryTemplate.reconcile_created (o := s.reconcileOptions) reads readsFilled rfl rfl
  rw [← text] at again
  unfold Settings.revision
  obtain ⟨line, refused⟩ | ⟨report, same⟩ := again
  · rw [refused]
    exact .inr ⟨_, _, rfl⟩
  · rw [same]
    exact .inl ⟨story, by simp⟩

/-- An update rests if there are no props, or the story holds a text that it rests on. -/
theorem decideUpdate_rests (isNew : Bool) (story : Path)
    (text : ∀ props, (s.describe d p (s.nameOf p)).1 = some props → props ≠ [] →
      ∃ source, d.readText story = .ok source ∧ (s.revision story source props).decision.Rests) :
    (s.decideUpdate d isNew p story).decision.Rests := by
  unfold Settings.decideUpdate
  simp only [Decided.after_decision]
  split
  next => exact .inr ⟨_, _, rfl⟩
  next => exact .inr ⟨_, _, rfl⟩
  next props some_ described =>
    obtain ⟨source, read, rests⟩ := text props described fun none => some_ (none ▸ rfl)
    simp only [read]
    exact rests

theorem decideUpdate_of_directory (isNew : Bool) {story : Path}
    (directory : d.find story = .ok .directory)
    (done : ∀ x, (s.decideUpdate d isNew p story).decision ≠ .fail x) :
    (s.decideUpdate d isNew p story).decision.Rests := by
  have text : d.readText story = .error .isADirectory := by
    rw [readText, directory]
    rfl
  unfold Settings.decideUpdate at done ⊢
  simp only [Decided.after_decision, text] at done ⊢
  split at done
  next => exact .inr ⟨_, _, rfl⟩
  next => exact .inr ⟨_, _, rfl⟩
  next => exact absurd rfl (done _)

theorem carryOut_of_rests {x : Decision} (rests : x.Rests) : (k.carryOut d x).disk = d := by
  obtain ⟨story, rfl⟩ | ⟨story, reason, rfl⟩ := rests
  · rfl
  · rfl

theorem decide_of_there (handled : s.handles p = true) (there : d.exists? (s.storyOf p) = true) :
    (s.decide d ⟨.added, p⟩).decision = (s.decideUpdate d false p (s.storyOf p)).decision :=
  decide_of_present (e := ⟨.added, p⟩) handled (by simp) there

theorem rests_of_newText (handled : s.handles p = true)
    (component : ∀ source, d'.readText p = .ok source ↔ d.readText p = .ok source)
    (reads : s.ReadsNew d p) (story : d'.readText (s.storyOf p) =
      .ok (s.newText p ((s.describe d p (s.nameOf p)).1.getD []))) :
    d'.exists? (s.storyOf p) = true ∧ (s.decide d' ⟨.added, p⟩).decision.Rests := by
  have there := exists?_iff.2 ⟨_, readText_eq_ok_iff.1 story⟩
  refine ⟨there, ?_⟩
  rw [decide_of_there handled there]
  refine decideUpdate_rests false _ fun props described some_ => ?_
  rw [describe_congr component] at described
  obtain ⟨blank, filled⟩ := reads props described some_
  rw [described] at story
  exact ⟨_, story, revision_rests _ some_ blank filled⟩

/-- Handling a new component adds its story to the disk, unless something is there already, and
then there is no more to do. -/
theorem handle_added (sound : d.Sound) (real : k.mode = .real) (idle : k.formatter.Idle)
    (handled : k.settings.handles p = true) (occupied : d.Occupied p)
    (free : d.Free (k.settings.storyOf p)) (reads : k.settings.ReadsNew d p)
    (done : (k.handle d ⟨.added, p⟩).result.isOk = true) :
    Extends (d.FilePlace (k.settings.storyOf p)) d (k.handle d ⟨.added, p⟩).disk ∧
      (k.handle d ⟨.added, p⟩).disk.exists? (k.settings.storyOf p) = true ∧
      (k.settings.decide (k.handle d ⟨.added, p⟩).disk ⟨.added, p⟩).decision.Rests := by
  rw [handle_result] at done
  rw [handle_disk]
  cases there : d.exists? (k.settings.storyOf p) with
  | true =>
      have decided := decide_of_there handled there
      obtain ⟨e, found⟩ := exists?_iff.1 there
      cases e with
      | file c => exact absurd found (free.absent sound)
      | directory =>
          -- without a failure the component has no props, and the directory is never read
          have rests := decideUpdate_of_directory (s := k.settings) (p := p) false found
            fun x failed => by
              rw [decided, failed] at done
              cases done
          rw [← decided] at rests
          rw [carryOut_of_rests rests]
          exact ⟨.refl sound, there, rests⟩
  | false =>
      rw [decide_of_absent (e := ⟨.added, p⟩) handled (by simp) there] at done ⊢
      obtain created | broken := decideCreation_cases (s := k.settings) (d := d) (p := p)
        (k.settings.storyOf p)
      · rw [created, Keeper.carryOut] at done ⊢
        obtain ⟨ext, story⟩ := store_extends sound real idle free done
        exact ⟨ext, rests_of_newText handled (ext.readText_iff sound.tree occupied) reads story⟩
      · rw [broken] at done
        cases done

theorem rests_extends (ext : Extends files d d') (sound : d.Sound) (occupied : d.Occupied p)
    (there : d.exists? (s.storyOf p) = true) (rests : (s.decide d ⟨.added, p⟩).decision.Rests) :
    (s.decide d' ⟨.added, p⟩).decision.Rests := by
  obtain ⟨e, found⟩ := exists?_iff.1 there
  have same : ∀ x, d'.find (s.storyOf p) = .ok x ↔ d.find (s.storyOf p) = .ok x := by
    intro x
    rw [found, ext.find found]
  rwa [decide_congr (e := ⟨.added, p⟩) (ext.readText_iff sound.tree occupied) same]

/-! ## Places of stories -/

section

variable {t : Scanner} (dotted : t.filter.settings.storyEnding.toList.head? = some '.')
  (plain : '/' ∉ t.filter.settings.storyEnding.toList)

include dotted plain

/-- With an ending that has no slash, a story is one file in the directory that mirrors that of its
component. -/
theorem Scanner.Listed.storyOf_parts (listed : t.Listed d p) :
    Path.counts (storyName p ++ t.filter.settings.storyEnding.toList) = true ∧
      ∃ names : List String, (t.filter.settings.storyOf p).parts =
        t.filter.settings.storiesRoot.parts ++ (names.map .name ++
          [Path.partOf (storyName p ++ t.filter.settings.storyEnding.toList)]) := by
  obtain ⟨covers, ⟨names, parts⟩, -⟩ := listed
  obtain ⟨r, n, below, whole, last, named⟩ := exists_relative covers
  obtain ⟨nonempty, noSlash⟩ := storyName_of_fileName named
  have relative : r.parts = names.map .name := List.append_cancel_left (whole.symm.trans parts)
  have counted : Path.counts (storyName p ++ t.filter.settings.storyEnding.toList) = true := by
    rw [Path.counts_iff]
    refine ⟨by simp [nonempty], fun dot => ?_⟩
    have length := congrArg List.length dot
    have := List.length_pos_iff.2 nonempty
    have := List.length_pos_of_mem (List.mem_of_mem_head? dotted)
    simp at length
    omega
  refine ⟨counted, names.dropLast, ?_⟩
  have file : t.filter.settings.storyFile p =
      [Path.partOf (storyName p ++ t.filter.settings.storyEnding.toList)] := by
    have noSlash : ∀ c ∈ storyName p ++ t.filter.settings.storyEnding.toList, (c == '/') = false := by
      intro c hc
      obtain hc | hc := List.mem_append.1 hc
      · exact noSlash c hc
      · rw [beq_eq_false_iff_ne]
        rintro rfl
        exact plain hc
    rw [Settings.storyFile, Path.bodyParts, Text.splitWhere_of_none noSlash,
      List.filter_cons_of_pos counted]
    rfl
  have directory : r.parts.dropLast = names.dropLast.map .name := by rw [relative, List.map_dropLast]
  have noRoot : ¬ (names.dropLast.map PathPart.name).head? = some .root := by
    cases names.dropLast <;> simp
  have noDots : (names.dropLast.map PathPart.name).filter (· != .here) =
      names.dropLast.map .name := by
    rw [List.filter_eq_self]
    intro x hx
    obtain ⟨n, -, rfl⟩ := List.mem_map.1 hx
    rfl
  rw [PropStories.storyOf_parts covers, storyDirectory_parts covers below, directory, if_neg noRoot,
    noDots, file, List.append_assoc]

theorem filePlace_cases (listed : t.Listed d p) {x : Place}
    (place : d.FilePlace (t.filter.settings.storyOf p) x) :
    ∃ names : List String, (t.filter.settings.storyOf p).parts =
        t.filter.settings.storiesRoot.parts ++ names.map .name ∧
      x = d.destination t.filter.settings.storiesRoot ++ names ∧
      names.getLast? = some (String.ofList (storyName p) ++ t.filter.settings.storyEnding) := by
  obtain ⟨counted, names, parts⟩ := listed.storyOf_parts dotted plain
  obtain ⟨at_, last, isName⟩ := place
  rw [Path.partOf_of_counts counted] at parts
  split at parts
  next => simp [parts] at isName
  next =>
    have text : String.ofList (storyName p ++ t.filter.settings.storyEnding.toList) =
        String.ofList (storyName p) ++ t.filter.settings.storyEnding := by
      simp [String.ofList_append]
    rw [text] at parts
    have whole : (t.filter.settings.storyOf p).parts = t.filter.settings.storiesRoot.parts ++
        (names ++ [String.ofList (storyName p) ++ t.filter.settings.storyEnding]).map .name := by
      simp [parts]
    exact ⟨_, whole, at_.trans (destination_below whole), by simp⟩

theorem storyPlace_of_filePlace (listed : t.Listed d p) {x : Place}
    (place : d.FilePlace (t.filter.settings.storyOf p) x) : t.filter.settings.StoryPlace x := by
  obtain ⟨r, n, -, -, -, named⟩ := exists_relative listed.covers
  obtain ⟨nonempty, -⟩ := storyName_of_fileName named
  obtain ⟨names, -, rfl, last⟩ := filePlace_cases dotted plain listed place
  refine ⟨String.ofList (storyName p), fun none => nonempty ?_, ?_⟩
  · rw [← String.toList_ofList (l := storyName p), none]
    rfl
  · rw [List.getLast?_append, last]
    rfl

theorem filePlace_apart (hp : t.Listed d p) (hq : t.Listed d q)
    (different : (t.filter.settings.storyOf p).parts ≠ (t.filter.settings.storyOf q).parts)
    {x : Place} (place : d.FilePlace (t.filter.settings.storyOf p) x) :
    ¬ d.FilePlace (t.filter.settings.storyOf q) x := by
  intro place'
  obtain ⟨names, parts, at_, -⟩ := filePlace_cases dotted plain hp place
  obtain ⟨names', parts', at', -⟩ := filePlace_cases dotted plain hq place'
  rw [at_, List.append_cancel_left_eq] at at'
  exact different (by rw [parts, parts', at'])

end

/-! ## All components -/

structure Session.Addable (t : Session) (d : Disk) (p : Path) : Prop where
  listed : t.scanner.Listed d p
  free : d.Free (t.keeper.settings.storyOf p)
  reads : t.keeper.settings.ReadsNew d p

/-- A real run without a formatter, with an ending of stories that has a dot in front and no
slash. -/
structure Session.Plain (t : Session) : Prop where
  real : t.keeper.mode = .real
  idle : t.keeper.formatter.Idle
  same : t.scanner.filter.settings = t.keeper.settings
  dotted : t.keeper.settings.storyEnding.toList.head? = some '.'
  noSlash : '/' ∉ t.keeper.settings.storyEnding.toList

section

variable {t : Session} (plain : t.Plain)

include plain

theorem Session.Addable.extends (sound : d.Sound) (hp : t.Addable d p) (hq : t.Addable d q)
    (different : (t.keeper.settings.storyOf p).parts ≠ (t.keeper.settings.storyOf q).parts)
    (ext : Extends (d.FilePlace (t.keeper.settings.storyOf p)) d d') : t.Addable d' q := by
  have settings := plain.same
  refine ⟨hq.listed.extends ext, fun named c there => ?_, fun props described => ?_⟩
  · rw [ext.destination] at there
    obtain before | ⟨-, place⟩ := ext.file there
    · exact hq.free named c before
    · rw [← settings] at different place named
      exact filePlace_apart (settings ▸ plain.dotted) (settings ▸ plain.noSlash) hp.listed hq.listed
        different place ⟨rfl, named⟩
  · rw [describe_congr (ext.readText_iff sound.tree hq.listed.occupied)] at described
    exact hq.reads props described

theorem dispatchAll_added {ps : List Path} (sound : d.Sound) (addable : ∀ p ∈ ps, t.Addable d p)
    (distinct : ps.Pairwise fun p q =>
      (t.keeper.settings.storyOf p).parts ≠ (t.keeper.settings.storyOf q).parts)
    (clean : ∀ r ∈ (t.dispatchAll d (ps.map (⟨.added, ·⟩))).reports, r.isFailure = false) :
    Extends t.keeper.settings.StoryPlace d (t.dispatchAll d (ps.map (⟨.added, ·⟩))).disk ∧
      ∀ p ∈ ps, (t.keeper.settings.decide (t.dispatchAll d (ps.map (⟨.added, ·⟩))).disk
        ⟨.added, p⟩).decision.Rests := by
  -- what is added for the first component leaves the others addable, and what is added for them
  -- leaves the first at rest
  induction ps generalizing d with
  | nil => exact ⟨.refl sound, by simp⟩
  | cons p ps ih =>
      obtain ⟨others, distinct⟩ := List.pairwise_cons.1 distinct
      have hp := addable p List.mem_cons_self
      have settings := plain.same
      rw [List.map_cons] at clean ⊢
      obtain ⟨disk, reports⟩ := Session.dispatchAll_cons (Session.breaksOff_of_clean clean)
        (ps.map (⟨.added, ·⟩))
      rw [disk]
      rw [reports] at clean
      obtain ⟨first, rest⟩ := List.forall_mem_cons.1 clean
      have handled : t.keeper.settings.handles p = true :=
        settings ▸ (accepts_cases hp.listed.covers.1).2.1
      obtain ⟨ext, there, rests⟩ := handle_added sound plain.real plain.idle handled
        hp.listed.occupied hp.free hp.reads (by simpa [EventReport.isFailure] using first)
      generalize (t.keeper.handle d ⟨.added, p⟩).disk = d₁ at ext there rests rest ⊢
      obtain ⟨more, resting⟩ := ih ext.sound
        (fun q hq => hp.extends plain sound (addable q (List.mem_cons_of_mem p hq)) (others q hq) ext)
        distinct rest
      have named : Extends t.keeper.settings.StoryPlace d d₁ := ext.mono fun x place => by
        rw [← settings] at place ⊢
        exact storyPlace_of_filePlace (settings ▸ plain.dotted) (settings ▸ plain.noSlash) hp.listed
          place
      refine ⟨named.trans more, List.forall_mem_cons.2 ⟨?_, resting⟩⟩
      exact rests_extends more ext.sound (ext.occupied hp.listed.occupied) there rests

end

theorem dispatchAll_rests {t : Session} {ps : List Path}
    (rests : ∀ p ∈ ps, (t.keeper.settings.decide d ⟨.added, p⟩).decision.Rests) :
    (t.dispatchAll d (ps.map (⟨.added, ·⟩))).disk = d ∧
      ∀ r ∈ (t.dispatchAll d (ps.map (⟨.added, ·⟩))).reports,
        (∃ story, r.result = .ok (.unchanged story)) ∨
          ∃ story reason, r.result = .ok (.skipped story reason) := by
  induction ps with
  | nil => exact ⟨rfl, by simp [Session.dispatchAll]⟩
  | cons p ps ih =>
      obtain ⟨first, rest⟩ := List.forall_mem_cons.1 rests
      have same : (t.keeper.handle d ⟨.added, p⟩).disk = d := by
        rw [handle_disk, carryOut_of_rests first]
      have result : (∃ story, (t.keeper.handle d ⟨.added, p⟩).result = .ok (.unchanged story)) ∨
          ∃ story reason, (t.keeper.handle d ⟨.added, p⟩).result = .ok (.skipped story reason) := by
        rw [handle_result]
        obtain ⟨story, decided⟩ | ⟨story, reason, decided⟩ := first
        · exact .inl ⟨story, by rw [decided]; rfl⟩
        · exact .inr ⟨story, reason, by rw [decided]; rfl⟩
      have onward : t.keeper.breaksOff d ⟨.added, p⟩ = false := isBrokenOff_of_success (by
        obtain ⟨story, told⟩ | ⟨story, reason, told⟩ := result <;> rw [told] <;> rfl)
      obtain ⟨disk, reports⟩ := Session.dispatchAll_cons onward (ps.map (⟨.added, ·⟩))
      obtain ⟨rested, results⟩ := ih rest
      rw [List.map_cons, disk, reports, same]
      exact ⟨rested, List.forall_mem_cons.2 ⟨result, results⟩⟩

/-- After a sync without failures that met no story yet, a second sync finds the same components,
has nothing to do for any of them and changes nothing. Assumed is that no story is the path of two
components, and that new stories are read as expected or refused. An ending with a slash names
stories that the next scan may take for components. -/
theorem second_sync_rests (t : Session) (d : Disk) {found : Scanned} {done : Progress}
    (sound : d.Sound) (plain : t.Plain) (scan : t.scanner.scan d = .ok found)
    (absent : ∀ p ∈ found.components, ∀ c,
      d.at? (d.destination (t.keeper.settings.storyOf p)) ≠ some (.file c))
    (distinct : found.components.Pairwise fun p q =>
      (t.keeper.settings.storyOf p).parts ≠ (t.keeper.settings.storyOf q).parts)
    (reads : ∀ p ∈ found.components, t.keeper.settings.ReadsNew d p)
    (synced : t.syncAll d = .ok done) (clean : ∀ r ∈ done.reports, r.isFailure = false) :
    (∃ again, t.scanner.scan done.disk = .ok again ∧ again.components = found.components) ∧
      ∃ again, t.syncAll done.disk = .ok again ∧ again.disk = done.disk ∧
        again.reports.map (·.event) = done.reports.map (·.event) ∧
        ∀ r ∈ again.reports, (∃ story, r.result = .ok (.unchanged story)) ∨
          ∃ story reason, r.result = .ok (.skipped story reason) := by
  obtain ⟨done', synced', disk, reports⟩ := syncAll_of_scan (t := t) scan
  obtain rfl : done' = done := Except.ok.inj (synced'.symm.trans synced)
  have listed := Scanner.listed_of_scan sound scan
  have addable : ∀ p ∈ found.components, t.Addable d p := fun p hp =>
    ⟨listed p hp, fun _ => absent p hp, reads p hp⟩
  obtain ⟨ext, rests⟩ := dispatchAll_added plain sound addable distinct (reports ▸ clean)
  rw [← disk] at ext rests
  have settings := plain.same
  obtain ⟨found', scan', components⟩ := Scanner.scan_extends (s := t.scanner) sound ext
    (fun q place => settings ▸ place) (settings ▸ plain.dotted) scan
  refine ⟨⟨found', scan', components⟩, ?_⟩
  obtain ⟨again, synced'', disk', reports'⟩ := syncAll_of_scan (t := t) scan'
  rw [components] at disk' reports'
  obtain ⟨same, results⟩ := dispatchAll_rests rests
  refine ⟨again, synced'', disk'.trans same, ?_, reports' ▸ results⟩
  have clean' : ∀ r ∈ (t.dispatchAll done'.disk (found.components.map (⟨.added, ·⟩))).reports,
      r.isFailure = false := fun r hr => by
    obtain ⟨story, told⟩ | ⟨story, reason, told⟩ := results r hr <;>
      rw [EventReport.isFailure, told] <;> rfl
  rw [reports, reports', Session.dispatchAll_events (Progress.isBrokenOff_of_clean clean'),
    Session.dispatchAll_events (Progress.isBrokenOff_of_clean (reports ▸ clean))]

end

/-! ## A component with one prop -/

open Tsx

def untabled : Settings := { Settings.standard with projectRoot := ⟨"/p"⟩, argTypes := false }

def looseSource : String := "export interface BProps\x7ba\x7d"

def looseComponent : Path := ⟨"/p/src/components/B.tsx"⟩

def withLooseProp : Disk :=
  { entries :=
      [(["p"], .directory), (["p", "src"], .directory), (["p", "src", "components"], .directory),
        (["p", "src", "components", "B.tsx"], .file (.text looseSource))]
    here := [] }

def looseBody : Tree :=
  .node .interfaceBody (some .body) 23 26
    [.node (.token "\x7b") none 23 24 [],
      .node .propertySignature none 24 25 [.node .propertyIdentifier (some .name) 24 25 []],
      .node (.token "\x7d") none 25 26 []]

def looseSyntax : Syntax where
  source := looseSource.toList
  root :=
    .node .program none 0 26
      [.node .exportStatement none 0 26
        [.node (.token "export") none 0 6 [],
          .node .interfaceDeclaration (some .declaration) 7 26
            [.node (.token "interface") none 7 16 [],
              .node .typeIdentifier (some .name) 17 23 [], looseBody]]]

def looseProp : Synth.PropDescriptor :=
  { name := "a"
    type := Lower.anyType
    isOptional := false
    description := none
    defaultValue := "undefined /* type: any */"
    control := ⟨.object, []⟩
    typeName := "other"
    typeSummary := "any" }

theorem parse_looseSource : parse looseSource.toList = looseSyntax :=
  @parse_eq looseSyntax (by decide +kernel)

theorem describe_looseComponent : (untabled.describe withLooseProp looseComponent
    (untabled.nameOf looseComponent)).1 = some [looseProp] := by
  have text : withLooseProp.readText looseComponent = .ok looseSource := by
    rw [readText_eq_ok_iff]
    rfl
  have members : Lower.members looseSyntax looseBody = [⟨"a", Lower.anyType, false, none⟩] := by
    rw [Lower.members]
    rfl
  have items : FileItem.ofFile looseSyntax =
    [.type "BProps" (.interface (Lower.members looseSyntax looseBody) []) true] := rfl
  unfold Settings.describe Analysis.ofFile
  rw [text]
  simp only [Analysis.ofSource, parse_looseSource, Analysis.ofSyntax, items, members]
  rfl

theorem readsNew_looseComponent : untabled.ReadsNew withLooseProp looseComponent := by
  intro props described _
  rw [describe_looseComponent] at described
  cases described
  exact ⟨by decide +kernel, by decide +kernel⟩

theorem handle_looseComponent :
    ((plainSession untabled).keeper.handle withLooseProp ⟨.added, looseComponent⟩).result.isOk =
      true := by
  have handled : untabled.handles looseComponent = true := by decide +kernel
  have absent : withLooseProp.exists? (untabled.storyOf looseComponent) = false := by decide +kernel
  have settings : (plainSession untabled).keeper.settings = untabled := rfl
  have onward := breaksOff_eq_false (k := (plainSession untabled).keeper)
    (by rw [settings]; decide) withLooseProp ⟨.added, looseComponent⟩
  rw [Keeper.breaksOff] at onward
  rw [handle_result, settings, decide_of_absent (e := ⟨.added, looseComponent⟩) handled (by simp)
    absent] at onward ⊢
  obtain created | broken := decideCreation_cases (s := untabled) (d := withLooseProp)
    (p := looseComponent) (untabled.storyOf looseComponent)
  · rw [created, describe_looseComponent]
    decide +kernel
  · rw [broken] at onward
    contradiction

theorem second_sync_rests_of_loose_prop :
    let t := plainSession untabled
    ∃ done, t.syncAll withLooseProp = .ok done ∧ done.reports.length = 1 ∧
      ∃ again, t.syncAll done.disk = .ok again ∧ again.disk = done.disk ∧
        ∀ r ∈ again.reports, (∃ story, r.result = .ok (.unchanged story)) ∨
          ∃ story reason, r.result = .ok (.skipped story reason) := by
  intro t
  have sound : withLooseProp.Sound :=
    ⟨isTree_of_entries (by decide +kernel), by decide +kernel, by decide +kernel, by decide +kernel⟩
  have plain : t.Plain := ⟨rfl, fun _ _ => rfl, rfl, by decide +kernel, by decide +kernel⟩
  obtain ⟨found, scan, components⟩ : ∃ found, t.scanner.scan withLooseProp = .ok found ∧
      found.components = [looseComponent] := by
    rw [scan_components_iff]
    decide +kernel
  obtain ⟨done, synced, -, reports⟩ := syncAll_of_scan (t := t) scan
  rw [components] at reports
  have only : done.reports = [⟨⟨.added, looseComponent⟩,
      (t.keeper.handle withLooseProp ⟨.added, looseComponent⟩).result⟩] :=
    reports.trans (Session.dispatchAll_cons (isBrokenOff_of_success handle_looseComponent) _).2
  have absent : withLooseProp.at? (withLooseProp.destination (untabled.storyOf looseComponent)) =
      none := by
    decide +kernel
  obtain ⟨-, again, synced', disk, -, results⟩ := second_sync_rests t withLooseProp sound plain scan
    (by
      rw [components]
      intro p hp c there
      rw [List.mem_singleton.1 hp] at there
      exact nomatch absent.symm.trans there)
    (by
      rw [components]
      exact List.pairwise_singleton _ _)
    (by
      rw [components]
      intro p hp
      rw [List.mem_singleton.1 hp]
      exact readsNew_looseComponent)
    synced
    (by
      rw [only]
      intro r hr
      rw [List.mem_singleton.1 hr, EventReport.isFailure]
      simp [t, handle_looseComponent])
  exact ⟨done, synced, by rw [only]; rfl, again, synced', disk, results⟩

/-- With a slash in the ending, a story beside its component has the file name of a component. -/
example :
    let t := plainSession { untabled with
      storiesDir := ⟨"src/../src/components"⟩, storyEnding := ".stories/index.tsx" }
    let d := withLooseProp.set ["p", "src", "components", "B.tsx"] (.file (.text ""))
    let story : Path := ⟨"/p/src/components/B.stories/index.tsx"⟩
    ((t.syncAll d).toOption.map fun done =>
      done.disk.isFile story && t.scanner.filter.accepts story) = some true := by
  decide +kernel

end PropStories
