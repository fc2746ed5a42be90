import PropStories.Proofs.Disk.Changes
import PropStories.Proofs.Story.Keeping

/-!
# Writing a story on two disks

Writing, formatting and deleting a story go the same way on a disk that has been changed elsewhere,
and change it in the same way.
-/

namespace PropStories

open Disk

variable {d d' : Disk} {path outer : Path} {front : List PathPart} {base : Place}
  {names : List String} {n : String} {ps : List Place}

namespace WriteMode

/-! ## The directory of a story -/

/-- What has come of a directory on whose way something was found. A file in its place is no
obstacle yet. -/
def excused (outer : Path) : Except DiskError Unit → Except StoryError Unit
  | .ok () => .ok ()
  | .error .alreadyExists =>
      if meansDirectory outer then .error (.noDirectory outer .alreadyExists) else .ok ()
  | .error x => .error (.noDirectory outer x)

/-- A directory that is in the way of itself is a file that can be found. -/
theorem exists_of_alreadyExists (tree : d.IsTree) (l : Leads d outer front base names)
    (nonempty : outer.text ≠ "") (noNul : outer.text.toList.contains '\x00' = false)
    (plain : meansDirectory outer = false)
    (blocked : (d.pave base names).2 = .error .alreadyExists) : d.exists? outer = true := by
  cases way : d.follow base (names.map .name) with
  | ok q =>
      obtain rfl := follow_names_eq way
      have paved := pave_of_follow l.directory way
      have place : d.placeOf outer = .ok (d.destination outer) := by
        rw [placeOf_eq_ok_iff, l.follow, l.destination]
        exact ⟨by simpa using nonempty, noNul, way⟩
      cases there : d.at? (base ++ names) with
      | none =>
          rw [paved, there] at blocked
          cases blocked
      | some e =>
          refine exists?_iff.2 ⟨e, find_eq_ok_iff.2 ⟨place, ?_, by simp [plain]⟩⟩
          rw [l.destination, there]
  | error x =>
      by_cases missing : x = .notFound
      · subst missing
        obtain passed | passed := pave_of_missing tree l.directory way
        · rw [passed] at blocked
          cases blocked
        · rw [passed] at blocked
          cases blocked
      · obtain ⟨paved, other⟩ := pave_of_refused l.directory way missing
        rw [paved] at blocked
        cases blocked
        exact absurd rfl other

theorem ensureParent_eq (tree : d.IsTree) (l : Leads d path front base (names ++ [n]))
    (h : path.parent? = some outer) :
    ensureParent d path =
      if outer.text.toList.contains '\x00' then (d, .error (.noDirectory outer .nulInName))
      else ((d.pave base names).1, excused outer (d.pave base names).2) := by
  have l' := l.parent h
  unfold ensureParent
  rw [h]
  simp only
  by_cases nul : outer.text.toList.contains '\x00' = true
  · have nonempty : outer.text.isEmpty = false := by
      rw [String.isEmpty_eq_false_iff]
      intro empty
      simp [empty] at nul
    have place : d.placeOf outer = .error .nulInName := by
      rw [placeOf, nonempty, nul]
      rfl
    have lost : d.find outer = .error .nulInName := by
      rw [find, place]
      rfl
    have made : d.ensureDirectory outer = (d, .error .nulInName) := by
      simp [ensureDirectory, makeDirectories, nonempty, makeDirectory, place, bind, Except.bind,
        isDirectory, lost]
    rw [if_pos nul]
    have missing : d.exists? outer = false := by rw [exists?, lost]; rfl
    simp only [nonempty, missing, made, Bool.or_self, Bool.false_eq_true, if_false]
    rfl
  have noNul : outer.text.toList.contains '\x00' = false := by simpa using nul
  rw [if_neg nul]
  by_cases empty : outer.text = ""
  · have parts := l'.parts
    rw [Path.parts_eq, empty] at parts
    have none : names = [] := by simpa using (List.append_eq_nil_iff.1 parts.symm).2
    simp [empty, none, pave, excused]
  by_cases there : d.exists? outer = true
  · obtain ⟨e, found⟩ := exists?_iff.1 there
    obtain ⟨place, at_, plain⟩ := find_eq_ok_iff.1 found
    have way := (placeOf_eq_ok_iff.1 place).2.2
    rw [l'.follow, l'.destination] at way
    rw [l'.destination] at at_
    rw [pave_of_follow l'.directory way, at_]
    cases e with
    | directory => simp [there, excused]
    | file c =>
        have plain : meansDirectory outer = false := by simpa using plain
        simp [there, excused, plain]
  · have enough : names.length < outer.pieces.length + 1 := by
      have length := congrArg List.length l'.parts
      rw [Path.parts, List.length_map, List.length_append, List.length_map] at length
      omega
    have made : d.ensureDirectory outer = d.pave base names :=
      makeDirectories_eq tree l' noNul enough
    have blocked := exists_of_alreadyExists tree l' empty noNul
    have nonempty : outer.text.isEmpty = false := by simpa using empty
    simp only [nonempty, there, made, Bool.or_self, Bool.false_eq_true, if_false, Prod.mk.injEq,
      true_and]
    cases result : (d.pave base names).2 with
    | ok _ => rfl
    | error x =>
        cases x
        case alreadyExists =>
          have means : meansDirectory outer = true :=
            Decidable.byContradiction fun plain => there (blocked (by simpa using plain) result)
          rw [excused, if_pos means]
          rfl
        all_goals rfl

end WriteMode

/-! ## A text at a place -/

theorem write_cases (d : Disk) (path : Path) (c : Content) :
    (∃ x, d.placeOf path = .error x ∧ d.write path c = .error x) ∨
      d.placeOf path = .ok (d.destination path) ∧
        d.write path c =
          if meansDirectory path || d.at? (d.destination path) == some .directory then
            .error .isADirectory
          else .ok (d.set (d.destination path) (.file c)) := by
  cases place : d.placeOf path with
  | error x =>
      refine .inl ⟨x, rfl, ?_⟩
      rw [Disk.write, place]
      rfl
  | ok p =>
      obtain rfl := placeOf_eq_destination place
      refine .inr ⟨rfl, ?_⟩
      rw [Disk.write, place]
      rfl

theorem placeOf_congr (l : Leads d path front base names) (l' : Leads d' path front base names)
    (same : ∀ q, base <+: q → q <+: base ++ names → q ≠ base ++ names → d'.at? q = d.at? q) :
    d'.placeOf path = d.placeOf path := by
  rw [placeOf, placeOf, l.follow, l'.follow, follow_congr same]

namespace WriteMode

structure Alike (d d' : Disk) (path : Path) (front : List PathPart) (base : Place)
    (names : List String) (n : String) : Prop where
  tree : d.IsTree
  tree' : d'.IsTree
  leads : Leads d path front base (names ++ [n])
  leads' : Leads d' path front base (names ++ [n])
  holds : ∀ q, base <+: q → q <+: base ++ names → Holds d d' q
  same : d'.at? (base ++ (names ++ [n])) = d.at? (base ++ (names ++ [n]))

namespace Alike

variable (a : Alike d d' path front base names n)
include a

/-- Once the directory of a story has been made, both disks lead to it in one way. -/
theorem prepared {q : Place}
    (passed : (d.pave base names).2 = .ok () ∨ (d.pave base names).2 = .error .alreadyExists)
    (above : base <+: q) (below : q <+: base ++ names) :
    (d'.pave base names).1.at? q = (d.pave base names).1.at? q := by
  obtain ⟨result, -⟩ := pave_congr a.holds
  by_cases proper : (d.pave base names).2 = .ok () ∨ q ≠ base ++ names
  · rw [pave_directories a.leads.directory passed above below proper]
    rw [← result] at passed proper
    exact pave_directories a.leads'.directory passed above below proper
  · simp only [not_or, Decidable.not_not] at proper
    obtain ⟨stopped, rfl⟩ := proper
    obtain ⟨c, there⟩ := pave_blocked (passed.resolve_left stopped)
    have there' : d'.at? (base ++ names) = some (.file c) := by
      obtain same | ⟨empty, -⟩ := a.holds _ above below
      · rw [same, there]
      · rw [there] at empty
        cases empty
    obtain same | ⟨empty, -, -⟩ := pave_at d base names (base ++ names)
    · obtain same' | ⟨empty', -, -⟩ := pave_at d' base names (base ++ names)
      · rw [same, same', there, there']
      · rw [there'] at empty'
        cases empty'
    · rw [there] at empty
      cases empty

end Alike

theorem passed_of_excused (h : excused outer (d.pave base names).2 = .ok ()) :
    (d.pave base names).2 = .ok () ∨ (d.pave base names).2 = .error .alreadyExists := by
  cases result : (d.pave base names).2 with
  | ok _ => exact .inl rfl
  | error x =>
      cases x
      case alreadyExists => exact .inr rfl
      all_goals
        rw [result] at h
        cases h

def place (path : Path) (content : String) (prepared : Disk) : Attempt :=
  match prepared.write path (.text content) with
  | .error e => (prepared, .error (.unwritable path e))
  | .ok done => (done, .ok (.written path content.utf8ByteSize))

theorem real_write_eq (tree : d.IsTree) (l : Leads d path front base (names ++ [n]))
    (h : path.parent? = some outer) (content : String) :
    real.write d path content =
      if outer.text.toList.contains '\x00' then (d, .error (.noDirectory outer .nulInName))
      else match excused outer (d.pave base names).2 with
        | .error e => ((d.pave base names).1, .error e)
        | .ok () => place path content (d.pave base names).1 := by
  rw [WriteMode.write, ensureParent_eq tree l h]
  by_cases nul : outer.text.toList.contains '\x00' = true
  · rw [if_pos nul, if_pos nul]
  · rw [if_neg nul, if_neg nul]
    cases excused outer (d.pave base names).2 <;> rfl

theorem place_congr (a : Alike d d' path front base names n)
    (passed : (d.pave base names).2 = .ok () ∨ (d.pave base names).2 = .error .alreadyExists)
    (content : String) :
    (place path content (d'.pave base names).1).2 = (place path content (d.pave base names).1).2 ∧
      SameChange d (place path content (d.pave base names).1).1 d'
        (place path content (d'.pave base names).1).1 := by
  obtain ⟨-, change⟩ := pave_congr a.holds
  have found := placeOf_congr a.leads.pave a.leads'.pave fun q above below proper => by
    rw [← List.append_assoc, List.prefix_concat_iff] at below
    exact a.prepared passed above (below.resolve_left (by simpa using proper))
  have end_ : (d'.pave base names).1.at? (base ++ (names ++ [n])) =
      (d.pave base names).1.at? (base ++ (names ++ [n])) := by
    rw [pave_at_end, pave_at_end, a.same]
  have proper : base ++ (names ++ [n]) ≠ [] := by simp
  have wrote := write_cases (d.pave base names).1 path (.text content)
  have wrote' := write_cases (d'.pave base names).1 path (.text content)
  rw [a.leads.pave.destination] at wrote
  rw [found, a.leads'.pave.destination, end_] at wrote'
  unfold place
  obtain ⟨x, none, failed⟩ | ⟨there, wrote⟩ := wrote
  · obtain ⟨x', none', failed'⟩ | ⟨there', -⟩ := wrote'
    · cases none.symm.trans none'
      rw [failed, failed']
      exact ⟨rfl, change⟩
    · cases none.symm.trans there'
  · obtain ⟨x', none', -⟩ | ⟨-, wrote'⟩ := wrote'
    · cases there.symm.trans none'
    · generalize (meansDirectory path || _) = refused at wrote wrote'
      rw [wrote, wrote']
      cases refused with
      | true => exact ⟨rfl, change⟩
      | false =>
          refine ⟨rfl, change.put a.same (fun q hq => at?_set_of_ne hq)
            (fun q hq => at?_set_of_ne hq) ?_⟩
          exact (at?_set_self proper).trans (at?_set_self proper).symm

theorem write_congr (a : Alike d d' path front base names n) (mode : WriteMode)
    (content : String) :
    (mode.write d' path content).2 = (mode.write d path content).2 ∧
      SameChange d (mode.write d path content).1 d' (mode.write d' path content).1 := by
  cases mode with
  | preview => exact ⟨rfl, .refl d d'⟩
  | real =>
      obtain ⟨outer, houter⟩ := a.leads.exists_parent
      rw [real_write_eq a.tree a.leads houter, real_write_eq a.tree' a.leads' houter]
      obtain ⟨result, change⟩ := pave_congr a.holds
      split
      next => exact ⟨rfl, .refl d d'⟩
      next =>
        rw [result]
        cases ready : excused outer (d.pave base names).2 with
        | error x => exact ⟨rfl, change⟩
        | ok _ => exact place_congr a (passed_of_excused ready) content

/-! ## What writing changes -/

theorem directory_of_placeOf (l : Leads d path front base (names ++ [n])) {p : Place}
    (place : d.placeOf path = .ok p) : d.at? (base ++ names) = some .directory := by
  have way := (placeOf_eq_ok_iff.1 place).2.2
  rw [l.follow, List.map_append, follow_append] at way
  cases first : d.follow base (names.map .name) with
  | error x =>
      rw [first] at way
      cases way
  | ok q =>
      rw [first] at way
      obtain rfl := follow_names_eq first
      exact (follow_cons_eq_ok_iff.1 way).1

theorem write_spread (tree : d.IsTree) (l : Leads d path front base (names ++ [n]))
    (mode : WriteMode) (content : String) :
    Spread [d.destination path] d (mode.write d path content).1 := by
  rw [l.destination]
  have unchanged : Spread [base ++ (names ++ [n])] d d := (Spread.refl tree).mono (by simp)
  have paved := pave_spread tree l.directory names n
  cases mode with
  | preview => exact unchanged
  | real =>
      obtain ⟨outer, houter⟩ := l.exists_parent
      rw [real_write_eq tree l houter]
      split
      next => exact unchanged
      next =>
        split
        next => exact paved
        next =>
          have wrote := write_cases (d.pave base names).1 path (.text content)
          rw [l.pave.destination] at wrote
          unfold place
          obtain ⟨x, -, failed⟩ | ⟨there, wrote⟩ := wrote
          · rw [failed]
            exact paved
          · by_cases refused : (meansDirectory path ||
                (d.pave base names).1.at? (base ++ (names ++ [n])) == some .directory) = true
            · rw [wrote, if_pos refused]
              exact paved
            · rw [wrote, if_neg refused]
              have free : (d.pave base names).1.at? (base ++ (names ++ [n])) ≠ some .directory := by
                simp only [Bool.or_eq_true, beq_iff_eq, not_or] at refused
                exact refused.2
              have above := directory_of_placeOf l.pave there
              refine paved.put rfl (paved.tree.set ?_ (.inr free) (by simp))
                (fun q hq => at?_set_of_ne hq) free
              rw [← List.append_assoc, List.dropLast_concat, above]

theorem real_write_done {content : String} {w : WriteResult}
    (h : (real.write d path content).2 = .ok w) :
    w = .written path content.utf8ByteSize ∧
      (real.write d path content).1.find path = .ok (.file (.text content)) := by
  unfold WriteMode.write at h ⊢
  simp only at h ⊢
  split at h
  next => cases h
  next =>
    split at h
    next => cases h
    next done wrote =>
      cases h
      exact ⟨rfl, Disk.find_of_written wrote⟩

theorem write_done (mode : WriteMode) (content : String) {w : WriteResult}
    (h : (mode.write d path content).2 = .ok w) :
    w.applied = false ∨ w.applied = true ∧ w.path = path ∧
      (mode.write d path content).1.find path = .ok (.file (.text content)) := by
  cases mode with
  | preview =>
      cases h
      exact .inl rfl
  | real =>
      obtain ⟨rfl, found⟩ := real_write_done h
      exact .inr ⟨rfl, rfl, found⟩

end WriteMode

/-! ## Formatting -/

/-- Whether a formatter changes just the file that it is told of, by what the file holds. -/
def Formatter.Local (f : Formatter) : Prop :=
  ∃ formatted : Path → Content → Content, ∀ d path c, d.find path = .ok (.file c) →
    (f d path).disk.here = d.here ∧ ∀ q, (f d path).disk.at? q =
      if q = d.destination path then some (.file (formatted path c)) else d.at? q

theorem Formatter.local_none : Formatter.none.Local := by
  refine ⟨fun _ c => c, fun d path c found => ⟨rfl, fun q => ?_⟩⟩
  split
  next same => rw [same, ← (find_eq_ok_iff.1 found).2.1]; rfl
  next => rfl

namespace Keeper

variable {k : Keeper}

theorem format_preview {w : WriteResult} (preview : w.applied = false) :
    (k.format d w).1 = d := by
  simp [format, preview]

theorem format_applied {w : WriteResult} (applied : w.applied = true) :
    (k.format d w).1 = (k.formatter d w.path).disk := by
  simp [format, applied]

theorem store_congr (local_ : k.formatter.Local)
    (a : WriteMode.Alike d d' path front base names n) (content told : String) (props : Nat)
    (outcome : WriteResult → Outcome) :
    (k.store d' path content told props outcome).result =
        (k.store d path content told props outcome).result ∧
      SameChange d (k.store d path content told props outcome).disk d'
        (k.store d' path content told props outcome).disk := by
  obtain ⟨formatted, run⟩ := local_
  obtain ⟨result, change⟩ := WriteMode.write_congr a k.mode content
  have here := (WriteMode.write_spread a.tree a.leads k.mode content).here
  have here' := (WriteMode.write_spread a.tree' a.leads' k.mode content).here
  have done (w : WriteResult) (h : (k.mode.write d path content).2 = .ok w) :=
    WriteMode.write_done k.mode content h
  have done' (w : WriteResult) (h : (k.mode.write d' path content).2 = .ok w) :=
    WriteMode.write_done k.mode content h
  unfold store
  generalize k.mode.write d path content = attempt at result change here done ⊢
  generalize k.mode.write d' path content = attempt' at result change here' done' ⊢
  obtain ⟨x, r⟩ := attempt
  obtain ⟨x', r'⟩ := attempt'
  obtain rfl : r' = r := result
  cases r' with
  | error e => exact ⟨rfl, change⟩
  | ok w =>
      refine ⟨rfl, ?_⟩
      change SameChange d (k.format x w).1 d' (k.format x' w).1
      obtain preview | ⟨applied, told, found⟩ := done w rfl
      · rw [format_preview preview, format_preview preview]
        exact change
      · obtain preview' | ⟨-, -, found'⟩ := done' w rfl
        · cases applied.symm.trans preview'
        · obtain ⟨-, at_⟩ := run x path _ found
          obtain ⟨-, at'⟩ := run x' path _ found'
          have end_ : x.destination path = base ++ (names ++ [n]) := by
            rw [Disk.destination, here, ← a.leads.destination, Disk.destination]
          have end' : x'.destination path = base ++ (names ++ [n]) := by
            rw [Disk.destination, here', ← a.leads'.destination, Disk.destination]
          rw [end_] at at_
          rw [end'] at at'
          rw [format_applied applied, format_applied applied, told]
          refine change.put a.same (fun q hq => ?_) (fun q hq => ?_) ?_
          · rw [at_, if_neg hq]
          · rw [at', if_neg hq]
          · rw [at_, at', if_pos rfl, if_pos rfl]

theorem store_spread (local_ : k.formatter.Local) (tree : d.IsTree)
    (l : Leads d path front base (names ++ [n])) (content told : String) (props : Nat)
    (outcome : WriteResult → Outcome) :
    Spread [d.destination path] d (k.store d path content told props outcome).disk := by
  obtain ⟨formatted, run⟩ := local_
  have spread := WriteMode.write_spread tree l k.mode content
  have done (w : WriteResult) (h : (k.mode.write d path content).2 = .ok w) :=
    WriteMode.write_done k.mode content h
  unfold store
  generalize k.mode.write d path content = attempt at spread done ⊢
  obtain ⟨x, r⟩ := attempt
  cases r with
  | error e => exact spread
  | ok w =>
      change Spread [d.destination path] d (k.format x w).1
      obtain preview | ⟨applied, told, found⟩ := done w rfl
      · rw [format_preview preview]
        exact spread
      · obtain ⟨here, at_⟩ := run x path _ found
        have end_ : x.destination path = d.destination path := by
          rw [Disk.destination, spread.here, Disk.destination]
        have file := (find_eq_ok_iff.1 found).2.1
        rw [end_] at at_ file
        rw [format_applied applied, told]
        refine spread.put here (fun q there => ?_) (fun q hq => by rw [at_, if_neg hq]) (by simp [file])
        have above : x.at? q.dropLast = some .directory := by
          refine spread.tree q ?_
          rw [at_] at there
          split at there
          next same => simp [same, file]
          next => exact there
        have other : q.dropLast ≠ d.destination path := by
          intro same
          rw [same, file] at above
          cases above
        rw [at_, if_neg other, above]

/-! ## Deleting -/

theorem erase_congr {e : Entry} (found : d.find path = .ok e) (found' : d'.find path = .ok e)
    (here : d'.here = d.here) :
    (k.erase d' path).result = (k.erase d path).result ∧
      SameChange d (k.erase d path).disk d' (k.erase d' path).disk := by
  have end_ : d'.destination path = d.destination path := by
    rw [Disk.destination, here, Disk.destination]
  unfold erase WriteMode.delete
  cases k.mode with
  | preview => exact ⟨rfl, .refl d d'⟩
  | real =>
      cases e with
      | directory =>
          have refused {x : Disk} (h : x.find path = .ok .directory) :
              x.removeFile path = .error .isADirectory := by
            simp [removeFile, (find_eq_ok_iff.1 h).1, h, bind, Except.bind]
          rw [refused found, refused found']
          exact ⟨rfl, .refl d d'⟩
      | file c =>
          have there := (find_eq_ok_iff.1 found).2.1
          have there' := (find_eq_ok_iff.1 found').2.1
          rw [end_] at there'
          have proper := ne_nil_of_at? (d := d) (p := d.destination path) (by simp [there])
          rw [removeFile_of_find found, removeFile_of_find found', end_]
          refine ⟨rfl, (SameChange.refl d d').put (there'.trans there.symm)
            (fun q hq => at?_remove_of_ne hq) (fun q hq => at?_remove_of_ne hq) ?_⟩
          rw [at?_remove_self proper, at?_remove_self proper]

theorem erase_spread (tree : d.IsTree) (path : Path) :
    Spread [d.destination path] d (k.erase d path).disk := by
  have unchanged : Spread [d.destination path] d d := (Spread.refl tree).mono (by simp)
  unfold erase WriteMode.delete
  cases k.mode with
  | preview => exact unchanged
  | real =>
      cases removed : d.removeFile path with
      | error x => exact unchanged
      | ok done =>
          obtain ⟨c, there, rfl⟩ := removeFile_eq_ok removed
          have file : d.at? (d.destination path) ≠ some .directory := by simp [there]
          exact unchanged.put rfl (tree.remove file) (fun q hq => at?_remove_of_ne hq) file

end Keeper

end PropStories
