import Mathlib.Data.List.Basic
import PropStories.Proofs.Component.Scan
import PropStories.Proofs.Disk.Ways

/-!
# Disks to which something has been added

What is added lies where nothing was; all else stays as it was, and so do the ways to it.
-/

namespace PropStories

namespace Disk

/-- A disk as file systems have them: a tree with proper names in which the current directory
exists and no entry is hidden behind another. -/
structure Sound (d : Disk) : Prop where
  tree : d.IsTree
  named : d.IsNamed
  here : d.at? d.here = some .directory
  counts : ∀ x ∈ d.entries, d.at? x.1 = some x.2

/-- A disk with something added; new files lie at the given places only. -/
structure Extends (files : Place → Prop) (d d' : Disk) : Prop where
  sound : d'.Sound
  here : d'.here = d.here
  entries : ∃ new, d'.entries = new ++ d.entries ∧
    ∀ x ∈ new, d.at? x.1 = none ∧ (x.2 ≠ .directory → files x.1)

variable {d d' d'' : Disk} {path : Path} {p q : Place} {e : Entry} {files more : Place → Prop}

/-! ## Names -/

theorem isName_of_mem_reach {parts : List PathPart} (h : ∀ n ∈ p, Path.IsName n)
    (named : ∀ n, .name n ∈ parts → Path.IsName n) : ∀ n ∈ reach p parts, Path.IsName n := by
  induction parts generalizing p with
  | nil => exact h
  | cons x rest ih =>
      have later (n : String) (hn : .name n ∈ rest) := named n (List.mem_cons_of_mem x hn)
      cases x with
      | root => exact ih (p := []) (by simp) later
      | here => exact ih h later
      | up => exact ih (fun n hn => h n (List.dropLast_subset p hn)) later
      | name m =>
          refine ih (fun n hn => ?_) later
          obtain hn | hn := List.mem_append.1 hn
          · exact h n hn
          · obtain rfl := List.mem_singleton.1 hn
            exact named _ List.mem_cons_self

theorem Sound.isName_of_mem (sound : d.Sound) (there : d.at? p ≠ none) :
    ∀ n ∈ p, Path.IsName n := by
  by_cases root : p = []
  · simp [root]
  · obtain ⟨e, found⟩ := Option.ne_none_iff_exists'.1 there
    simp only [at?, List.isEmpty_eq_false_iff.2 root] at found
    obtain ⟨front, back, whole, -⟩ := List.lookup_eq_some_iff.1 found
    exact sound.named (p, e) (by simp [whole])

theorem Sound.isName_of_mem_destination (sound : d.Sound) (path : Path) :
    ∀ n ∈ d.destination path, Path.IsName n :=
  isName_of_mem_reach (sound.isName_of_mem (by simp [sound.here])) fun _ => Path.isName_of_mem_parts

theorem at?_ne_none_of_mem (h : (p, e) ∈ d.entries) : d.at? p ≠ none := by
  by_cases root : p = []
  · simp [root, at?]
  · intro empty
    simp only [at?, List.isEmpty_eq_false_iff.2 root] at empty
    have other := List.lookup_eq_none_iff.1 empty (p, e) h
    simp at other

/-! ## Something new -/

theorem follow_dropLast (tree : d.IsTree) (above : d.at? p.dropLast = some .directory)
    {parts : List PathPart} (h : d.follow p parts = .ok q) :
    d.at? q.dropLast = some .directory := by
  induction parts generalizing p with
  | nil =>
      cases h
      exact above
  | cons x rest ih =>
      rw [follow_cons_eq_ok_iff] at h
      cases x with
      | root => exact ih (p := []) (at?_nil d) h
      | here => exact ih above h
      | up => exact ih (tree _ (by simp [above])) h.2
      | name n => exact ih (by rw [List.dropLast_concat, h.1]) h.2.2

theorem Sound.dropLast_of_placeOf (sound : d.Sound) (h : d.placeOf path = .ok p) :
    d.at? p.dropLast = some .directory :=
  follow_dropLast sound.tree (sound.tree _ (by simp [sound.here])) (placeOf_eq_ok_iff.1 h).2.2

theorem Sound.exists_name_of_placeOf (sound : d.Sound) (h : d.placeOf path = .ok p)
    (other : d.at? p ≠ some .directory) : ∃ n, path.parts.getLast? = some (.name n) := by
  have way := (placeOf_eq_ok_iff.1 h).2.2
  obtain none | ⟨front, x, parts⟩ := List.eq_nil_or_concat path.parts
  · rw [none] at way
    cases way
    exact absurd sound.here other
  · rw [List.concat_eq_append] at parts
    rw [parts, follow_append] at way
    cases reached : d.follow d.here front with
    | error e =>
        rw [reached] at way
        cases way
    | ok q =>
        rw [reached] at way
        replace way : d.follow q [x] = .ok p := way
        rw [follow_cons_eq_ok_iff] at way
        cases x with
        | name n => exact ⟨n, by simp [parts]⟩
        | root =>
            cases way
            exact absurd (at?_nil d) other
        | up =>
            obtain ⟨directory, way⟩ := way
            cases way
            exact absurd (sound.tree _ (by simp [directory])) other
        | here =>
            -- a dot counts as the first part only
            cases front with
            | nil =>
                cases reached
                cases way
                exact absurd sound.here other
            | cons y front =>
                have inside : .here ∈ path.parts.tail := by simp [parts]
                exact absurd rfl (Path.of_mem_tail inside).2

theorem set_entries (empty : d.at? p = none) : (d.set p e).entries = (p, e) :: d.entries := by
  have proper := ne_nil_of_at? (d := d) (p := p) (by simp [empty])
  simp only [at?, List.isEmpty_eq_false_iff.2 proper] at empty
  have absent : d.entries.filter (·.1 != p) = d.entries := by
    rw [List.filter_eq_self]
    intro x hx
    have other := List.lookup_eq_none_iff.1 empty x hx
    rw [bne_iff_ne] at other ⊢
    exact other.symm
  simp [set, remove, absent]

theorem Sound.set (sound : d.Sound) (empty : d.at? p = none)
    (above : d.at? p.dropLast = some .directory) (named : ∀ n ∈ p, Path.IsName n) :
    (d.set p e).Sound := by
  have proper := ne_nil_of_at? (d := d) (p := p) (by simp [empty])
  have kept {q : Place} (there : d.at? q ≠ none) : (d.set p e).at? q = d.at? q := by
    refine at?_set_of_ne ?_
    rintro rfl
    exact there empty
  refine ⟨sound.tree.set above (.inr (by simp [empty])) proper, ?_, ?_, ?_⟩
  · intro x hx
    rw [set_entries empty] at hx
    obtain rfl | hx := List.mem_cons.1 hx
    · exact named
    · exact sound.named x hx
  · exact (kept (q := d.here) (by simp [sound.here])).trans sound.here
  · intro x hx
    rw [set_entries empty] at hx
    obtain rfl | hx := List.mem_cons.1 hx
    · exact at?_set_self proper
    · rw [kept (by simp [sound.counts x hx]), sound.counts x hx]

namespace Extends

theorem refl (sound : d.Sound) : Extends files d d :=
  ⟨sound, rfl, [], rfl, by simp⟩

theorem put (sound : d.Sound) (place : d.placeOf path = .ok p) (empty : d.at? p = none)
    (file : e ≠ .directory → files p) : Extends files d (d.set p e) := by
  have named := sound.isName_of_mem_destination path
  rw [← placeOf_eq_destination place] at named
  refine ⟨sound.set empty (sound.dropLast_of_placeOf place) named, rfl, [(p, e)],
    set_entries empty, fun x hx => ?_⟩
  obtain rfl := List.mem_singleton.1 hx
  exact ⟨empty, file⟩

variable (h : Extends files d d')
include h

theorem at?_of_entry (there : d.at? p ≠ none) : d'.at? p = d.at? p := by
  obtain ⟨new, entries, added⟩ := h.entries
  by_cases root : p = []
  · rw [root]
    rfl
  · have absent : new.lookup p = none := by
      rw [List.lookup_eq_none_iff]
      intro x hx
      have empty := (added x hx).1
      rw [bne_iff_ne]
      rintro rfl
      exact there empty
    simp [at?, root, entries, List.lookup_append, absent]

theorem directory (there : d.at? p = some .directory) : d'.at? p = some .directory := by
  rw [h.at?_of_entry (by simp [there]), there]

theorem destination (path : Path) : d'.destination path = d.destination path := by
  rw [Disk.destination, Disk.destination, h.here]

theorem file {c : Content} (there : d'.at? p = some (.file c)) :
    d.at? p = some (.file c) ∨ d.at? p = none ∧ files p := by
  cases before : d.at? p with
  | some e =>
      rw [h.at?_of_entry (by simp [before]), before] at there
      exact .inl there
  | none =>
      obtain ⟨new, entries, added⟩ := h.entries
      have entry := mem_entries_of_at? there
      rw [entries] at entry
      obtain entry | entry := List.mem_append.1 entry
      · exact .inr ⟨rfl, (added _ entry).2 (by simp)⟩
      · exact absurd before (at?_ne_none_of_mem entry)

theorem find (found : d.find path = .ok e) : d'.find path = .ok e := by
  obtain ⟨place, there, plain⟩ := find_eq_ok_iff.1 found
  have kept := h.at?_of_entry (p := d.destination path) (by simp [there])
  exact find_mono h.here (fun _ => h.directory) (kept.trans there) plain place

theorem trans (later : Extends files d' d'') : Extends files d d'' := by
  -- what was added first is still there, so what came later lies elsewhere
  refine ⟨later.sound, later.here.trans h.here, ?_⟩
  obtain ⟨new, entries, added⟩ := h.entries
  obtain ⟨newer, entries', added'⟩ := later.entries
  refine ⟨newer ++ new, by rw [entries', entries, List.append_assoc], fun x hx => ?_⟩
  obtain hx | hx := List.mem_append.1 hx
  · obtain ⟨empty, file⟩ := added' x hx
    refine ⟨?_, file⟩
    cases before : d.at? x.1 with
    | none => rfl
    | some e =>
        rw [h.at?_of_entry (by simp [before]), before] at empty
        cases empty
  · exact added x hx

theorem mono (within : ∀ q, files q → more q) : Extends more d d' := by
  obtain ⟨new, entries, added⟩ := h.entries
  refine ⟨h.sound, h.here, new, entries, fun x hx => ?_⟩
  obtain ⟨empty, file⟩ := added x hx
  exact ⟨empty, fun other => within _ (file other)⟩

end Extends

/-! ## Paths to something that exists -/

def Occupied (d : Disk) (path : Path) : Prop :=
  ∃ front base names, Leads d path front base names ∧ d.at? (base ++ names) ≠ none

namespace Extends

variable (h : Extends files d d')
include h

theorem occupied (there : d.Occupied path) : d'.Occupied path := by
  obtain ⟨front, base, names, l, there⟩ := there
  exact ⟨front, base, names, l.mono h.here fun _ => h.directory, by rwa [h.at?_of_entry there]⟩

theorem readText_iff (tree : d.IsTree) (there : d.Occupied path) (source : String) :
    d'.readText path = .ok source ↔ d.readText path = .ok source := by
  obtain ⟨front, base, names, l, there⟩ := there
  have l' := l.mono h.here fun _ => h.directory
  rw [readText_eq_ok_iff, readText_eq_ok_iff]
  constructor
  · intro found
    have same := (find_eq_ok_iff.1 found).2.1
    rw [l'.destination, h.at?_of_entry there] at same
    exact l.find l' tree found same
  · exact h.find

end Extends

/-! ## Directories -/

theorem makeDirectory_extends (sound : d.Sound) (made : d.makeDirectory path = .ok d') :
    Extends files d d' := by
  obtain ⟨place, -⟩ := placed_eq_ok made
  obtain ⟨empty, rfl⟩ := makeDirectory_eq_ok made
  exact .put sound place empty (by simp)

theorem makeDirectories_extends (sound : d.Sound) (fuel : Nat) (path : Path) :
    Extends files d (d.makeDirectories fuel path).1 := by
  induction fuel generalizing path with
  | zero => exact .refl sound
  | succ fuel ih =>
      rw [makeDirectories]
      split
      next => exact .refl sound
      next =>
        split
        next made => exact makeDirectory_extends sound made
        next missing =>
          split
          next => exact .refl sound
          next parent _ =>
            have above := ih parent
            split
            next x _ h => exact h ▸ above
            next x h =>
              have above := h ▸ above
              split
              next made => exact above.trans (makeDirectory_extends above.sound made)
              next => exact above
        next => exact .refl sound

end Disk

end PropStories
