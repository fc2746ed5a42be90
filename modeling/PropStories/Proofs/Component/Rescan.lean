import PropStories.Proofs.Disk.Extension
import PropStories.Proofs.Lists
import PropStories.Proofs.Story.Pairing

/-!
# Scanning beside new stories

Files that are named like stories are no components and no ignore files. A disk to which only such
files and some directories have been added is scanned as before.
-/

namespace PropStories

open Disk

def Settings.StoryPlace (s : Settings) (q : Place) : Prop :=
  ∃ stem : String, stem ≠ "" ∧ q.getLast? = some (stem ++ s.storyEnding)

section

variable {s : Settings} {d d' : Disk} {files : Place → Prop} {usesGit : Bool} {q : Place}
  {kind : List String}

/-! ## Ignore files -/

theorem notMem_tail_of_kind (h : kind ∈ Ignore.kinds usesGit) :
    ∃ last, kind.getLast? = some last ∧ '.' ∉ last.toList.tail := by
  cases usesGit
  · obtain rfl : kind = [".ignore"] := by simpa [Ignore.kinds] using h
    exact ⟨_, rfl, by decide⟩
  · obtain rfl | rfl | rfl : kind = [".ignore"] ∨ kind = [".gitignore"] ∨
        kind = [".git", "info", "exclude"] := by simpa [Ignore.kinds] using h
    all_goals exact ⟨_, rfl, by decide⟩

/-- No ignore file is named like a story. -/
theorem not_storyPlace_of_kind (dotted : s.storyEnding.toList.head? = some '.')
    (h : kind ∈ Ignore.kinds usesGit) (dir : Place) : ¬ s.StoryPlace (dir ++ kind) := by
  rintro ⟨stem, nonempty, name⟩
  obtain ⟨last, isLast, plain⟩ := notMem_tail_of_kind h
  rw [List.getLast?_append, isLast, Option.some_or, Option.some.injEq] at name
  subst name
  cases letters : stem.toList with
  | nil => exact nonempty (String.toList_eq_nil_iff.1 letters)
  | cons c rest =>
      refine plain ?_
      rw [String.toList_append, letters, List.cons_append, List.tail_cons, List.mem_append]
      exact .inr (List.mem_of_mem_head? dotted)

section

variable (ext : Extends files d d') (named : ∀ q, files q → s.StoryPlace q)
  (dotted : s.storyEnding.toList.head? = some '.')

include ext named dotted

theorem rulesAt_extends (dir : Place) (h : kind ∈ Ignore.kinds usesGit) :
    Ignore.rulesAt d' dir kind = Ignore.rulesAt d dir kind := by
  unfold Ignore.rulesAt
  cases before : d.at? (dir ++ kind) with
  | some e => rw [ext.at?_of_entry (by simp [before]), before]
  | none =>
      split
      next c found =>
        obtain there | ⟨-, new⟩ := ext.file found
        · rw [before] at there
          cases there
        · exact absurd (named _ new) (not_storyPlace_of_kind dotted h dir)
      next => rfl

theorem isIgnored_extends {t : Scanner} {v : Visit} (there : d.at? v.place ≠ none) :
    t.isIgnored d' v = t.isIgnored d v := by
  have verdict (isDirectory : Bool) : Ignore.verdict? d' t.usesGit v.place isDirectory =
      Ignore.verdict? d t.usesGit v.place isDirectory := by
    refine Lists.findSome?_congr fun kind h => Lists.findSome?_congr fun x _ => ?_
    simp only [rulesAt_extends ext named dotted x.1 h]
  rw [Scanner.isIgnored, Scanner.isIgnored, Scanner.verdict?, Scanner.verdict?,
    ext.at?_of_entry there, verdict]

theorem faultsAbove_extends (dir : Place) :
    Ignore.faultsAbove d' usesGit dir = Ignore.faultsAbove d usesGit dir := by
  refine List.flatMap_congr fun x _ => List.flatMap_congr fun kind h => ?_
  rw [rulesAt_extends ext named dotted x.1 h]

end

/-! ## What is listed -/

theorem place_of_mem_way {v w : Visit} {names : List String} (h : w ∈ v.way names) :
    w.place <+: v.place ++ names := by
  induction names generalizing v with
  | nil => cases h
  | cons n rest ih =>
      rw [← List.singleton_append, ← List.append_assoc]
      obtain rfl | h := List.mem_cons.1 h
      · exact List.prefix_append _ _
      · exact ih h

/-- On the way to something that exists everything exists. -/
theorem at?_ne_none_of_mem_way (tree : d.IsTree) {v w : Visit} {names : List String}
    (there : d.at? (v.place ++ names) ≠ none) (h : w ∈ v.way names) : d.at? w.place ≠ none := by
  by_cases last : w.place = v.place ++ names
  · rwa [last]
  · simp [tree.above (place_of_mem_way h) last there]

end

namespace Scanner

variable {s : Scanner} {d d' : Disk} {files : Place → Prop} {p : Path}

theorem covers_of_listed (sound : d.Sound) (root : d.isDirectory s.filter.root = true)
    (listed : p ∈ s.listing d) : ∃ names, s.filter.Covers p ∧
      p.parts = s.filter.root.parts ++ names.map .name ∧
      d.at? (d.destination s.filter.root ++ names) ≠ none := by
  obtain ⟨accepted, names, below, rfl⟩ := mem_listing.1 listed
  obtain ⟨⟨e, entry, file⟩, -⟩ := mem_filesBelow.1 below
  have there := sound.counts _ entry
  simp only [start_place] at there
  have parts := parts_pathTo root fun n hn =>
    sound.named _ entry n (List.mem_append_right _ hn)
  refine ⟨names, ⟨accepted, ?_, ?_⟩, parts, by simp [there]⟩
  · rw [Path.startsWith_iff, parts]
    exact List.prefix_append _ _
  · intro same
    obtain rfl : names = [] := by simpa [parts] using same
    have directory := (find_eq_ok_iff.1 (isDirectory_iff.1 root)).2.1
    rw [List.append_nil, directory] at there
    exact file (Option.some.inj there).symm

theorem rejects_storyPlace (root : d.isDirectory s.filter.root = true) {names : List String}
    (nonempty : names ≠ []) (named : ∀ n ∈ names, Path.IsName n)
    (story : s.filter.settings.StoryPlace (d.destination s.filter.root ++ names)) :
    s.filter.accepts (s.pathTo names) = false := by
  obtain ⟨stem, -, last⟩ := story
  have parts := parts_pathTo root named
  obtain rfl | ⟨front, n, rfl⟩ := List.eq_nil_or_concat names
  · contradiction
  rw [List.concat_eq_append] at *
  obtain rfl : n = stem ++ s.filter.settings.storyEnding := by simpa [← List.append_assoc] using last
  have name : (s.pathTo (front ++ [stem ++ s.filter.settings.storyEnding])).fileName? =
      some (stem ++ s.filter.settings.storyEnding) := by
    rw [Path.fileName?_eq_some_iff, parts]
    simp
  have ends : Text.afterStart? s.filter.settings.storyEnding.toList.reverse
      (stem ++ s.filter.settings.storyEnding).toList.reverse = some stem.toList.reverse := by
    rw [Text.afterStart?_eq_some_iff, String.toList_append, List.reverse_append]
  have isStory : s.filter.isStory (s.pathTo (front ++ [stem ++ s.filter.settings.storyEnding])) =
      true := by
    simp only [ComponentFilter.isStory, name, Text.endsWith, Text.beforeEnd?, ends]
    rfl
  simp [ComponentFilter.accepts, isStory]

theorem filesBelow_extends (sound : d.Sound) (ext : Extends files d d')
    (named : ∀ q, files q → s.filter.settings.StoryPlace q)
    (dotted : s.filter.settings.storyEnding.toList.head? = some '.') (v : Visit) :
    ∃ more, s.filesBelow d' v = more ++ s.filesBelow d v ∧
      ∀ names ∈ more, d.at? (v.place ++ names) = none ∧ files (v.place ++ names) ∧
        d'.at? (v.place ++ names) ≠ none := by
  obtain ⟨new, entries, added⟩ := ext.entries
  rw [filesBelow, entries, List.filterMap_append]
  refine ⟨_, congrArg _ (List.filterMap_congr fun x hx => ?_), fun names h => ?_⟩
  · obtain ⟨p, e⟩ := x
    by_cases below : v.place <+: p
    · obtain ⟨names, rfl⟩ := below
      have there : d.at? (v.place ++ names) ≠ none := by simp [sound.counts _ hx]
      have same : ∀ w ∈ v.way names, s.isIgnored d' w = s.isIgnored d w := fun w hw =>
        isIgnored_extends ext named dotted (at?_ne_none_of_mem_way sound.tree there hw)
      have shown : (v.way names).all (fun w => !s.isIgnored d' w) =
          (v.way names).all (fun w => !s.isIgnored d w) := by
        rw [Bool.eq_iff_iff, List.all_eq_true, List.all_eq_true]
        exact forall₂_congr fun w hw => by rw [same w hw]
      simp only [List.drop_left, shown]
    · simp [below]
  · simp only [List.mem_filterMap, Option.ite_none_right_eq_some, Bool.and_eq_true, bne_iff_ne,
      List.isPrefixOf_iff_prefix] at h
    obtain ⟨⟨p, e⟩, mem, ⟨⟨file, rest, rfl⟩, -⟩, chosen⟩ := h
    obtain rfl : rest = names := by simpa using chosen
    obtain ⟨empty, place⟩ := added _ mem
    refine ⟨empty, place file, at?_ne_none_of_mem (e := e) ?_⟩
    rw [entries]
    exact List.mem_append_left _ mem

theorem listing_extends (sound : d.Sound) (ext : Extends files d d')
    (named : ∀ q, files q → s.filter.settings.StoryPlace q)
    (dotted : s.filter.settings.storyEnding.toList.head? = some '.')
    (root : d.isDirectory s.filter.root = true) : s.listing d' = s.listing d := by
  have root' := isDirectory_iff.2 (ext.find (isDirectory_iff.1 root))
  have directory := (find_eq_ok_iff.1 (isDirectory_iff.1 root)).2.1
  obtain ⟨more, below, new⟩ := filesBelow_extends sound ext named dotted (s.start d)
  have none : (more.map s.pathTo).filter s.filter.accepts = [] := by
    rw [List.filter_eq_nil_iff]
    intro p hp
    obtain ⟨names, hn, rfl⟩ := List.mem_map.1 hp
    obtain ⟨empty, place, there⟩ := new names hn
    have nonempty : names ≠ [] := by
      rintro rfl
      rw [List.append_nil, start_place, directory] at empty
      cases empty
    have areNames := ext.sound.isName_of_mem there
    simp [rejects_storyPlace root nonempty (fun n h => areNames n (List.mem_append_right _ h))
      (named _ place)]
  have start : s.start d' = s.start d := by rw [Scanner.start, Scanner.start, ext.destination]
  rw [listing, listing, start, below, List.map_append, List.filter_append, none,
    List.nil_append]

theorem scan_extends (sound : d.Sound) (ext : Extends files d d')
    (named : ∀ q, files q → s.filter.settings.StoryPlace q)
    (dotted : s.filter.settings.storyEnding.toList.head? = some '.') {found : Scanned}
    (scan : s.scan d = .ok found) :
    ∃ again, s.scan d' = .ok again ∧ again.components = found.components := by
  obtain ⟨root, read, listed⟩ := scan_components_iff.1 ⟨found, scan, rfl⟩
  refine scan_components_iff.2 ⟨isDirectory_iff.2 (ext.find (isDirectory_iff.1 root)), ?_, ?_⟩
  · rw [ext.destination, faultsAbove_extends ext named dotted, read]
  · rw [listing_extends sound ext named dotted root, listed]

end Scanner

end PropStories
