import PropStories.Proofs.Identity.Modules
import PropStories.Proofs.Identity.Names

/-!
# Which stories have one title

A title is made of the directories of a component and of its name, and both can be read off it. So
two components share a title just if they share both; two stories in one directory then do, when the
stems of their components are rewritten to one name.
-/

namespace PropStories

open Text Disk

namespace Identity

def directories (component root : Path) : List String :=
  ((located component root).parent?.map Path.names).getD []

theorem isName_of_mem_directories {component root : Path} {n : String}
    (h : n ∈ directories component root) : Path.IsName n := by
  unfold directories at h
  cases parent : (located component root).parent? with
  | none => simp [parent] at h
  | some directory =>
      simp only [parent, Option.map_some, Option.getD_some, Path.names] at h
      obtain ⟨x, hx, isName⟩ := List.mem_filterMap.1 h
      cases x <;> cases isName
      exact Path.isName_of_mem_parts hx

theorem storyTitle_eq (component root : Path) (name : DisplayName) :
    storyTitle component root name =
      "/".intercalate (directories component root ++ [name.text]) := by
  have named (n : String) (h : n ∈ directories component root) := isName_of_mem_directories h
  have whole : storyTitle component root name =
      if ("/".intercalate (directories component root)).isEmpty then name.text
      else "/".intercalate (directories component root) ++ "/" ++ name.text := rfl
  rw [whole]
  by_cases none : directories component root = []
  · rw [none, String.intercalate_nil, List.nil_append, String.intercalate_singleton]
    rfl
  · have nonempty : ("/".intercalate (directories component root)).isEmpty = false := by
      rw [← Bool.not_eq_true, String.isEmpty_iff]
      intro empty
      obtain ⟨w, ws, shape⟩ := List.exists_cons_of_ne_nil none
      obtain ⟨c, cs, hw⟩ := List.exists_cons_of_ne_nil (named w (shape ▸ List.mem_cons_self)).ne_nil
      have := congrArg String.toList empty
      cases ws <;> simp [shape, hw] at this
    rw [nonempty, String.intercalate_append_of_ne_nil none (by simp), String.intercalate_singleton]
    rfl

end Identity

theorem DisplayName.text_inj {m n : DisplayName} (hm : m.isFallback = false)
    (hn : n.isFallback = false) : m.text = n.text ↔ m = n := by
  cases m <;> cases n <;> simp_all [isFallback, text]

theorem noSlash_name (component root : Path) :
    ∀ c ∈ (Identity.displayName component root).text.toList, (c == '/') = false := by
  intro c hc
  rw [beq_eq_false_iff_ne]
  rintro rfl
  have := (Identity.displayName_text component root).2.1 '/' hc (by decide)
  revert this
  decide +kernel

/-- The directories and the name can be read off a title. -/
theorem storyTitle_eq_iff (root p q : Path) :
    Identity.storyTitle p root (Identity.displayName p root) =
        Identity.storyTitle q root (Identity.displayName q root) ↔
      Identity.directories p root = Identity.directories q root ∧
        (Identity.displayName p root).text = (Identity.displayName q root).text := by
  have pieces (p : Path) : splitWhere (· == '/')
      ("/".intercalate (Identity.directories p root ++ [(Identity.displayName p root).text])).toList =
      (Identity.directories p root ++ [(Identity.displayName p root).text]).map String.toList := by
    have noSlash : ∀ v ∈ Identity.directories p root ++ [(Identity.displayName p root).text],
        ∀ c ∈ v.toList, (c == '/') = false := by
      intro v hv
      obtain hv | hv := List.mem_append.1 hv
      · exact (Identity.isName_of_mem_directories hv).2.2
      · obtain rfl := List.mem_singleton.1 hv
        exact noSlash_name p root
    exact splitWhere_intercalate (by simp) noSlash
  rw [Identity.storyTitle_eq, Identity.storyTitle_eq]
  constructor
  · intro same
    have lists := congrArg (fun t => splitWhere (· == '/') t.toList) same
    simp only [pieces] at lists
    have lists := List.map_inj_right (fun _ _ h => String.toList_injective h) |>.1 lists
    have ⟨upper, last⟩ := List.append_inj' lists (by simp)
    exact ⟨upper, List.singleton_inj.1 last⟩
  · rintro ⟨upper, last⟩
    rw [upper, last]

/-! ## Components below their root -/

section

variable {s : Settings} {p q : Path}

theorem exists_directories {n : String} (named : p.fileName? = some n)
    (below : p.LiesBelow s.componentsRoot) : ∃ r directory,
      p.from? s.componentsRoot = some r ∧ r.parent? = some directory ∧
      r.fileName? = some n ∧ directory.isAbsolute = false ∧
      directory.parts.filter (· != .here) = (Identity.directories p s.componentsRoot).map .name ∧
      p.parts = s.componentsRoot.parts ++ directory.parts ++ [.name n] := by
  obtain ⟨r, found⟩ := below.exists_from
  obtain ⟨front, last, whole, onward⟩ := exists_front found below named
  obtain ⟨directory, parent⟩ : ∃ directory, r.parent? = some directory := by
    rw [← Option.ne_none_iff_exists']
    intro none
    obtain none | root := Path.parent?_eq_none_iff.1 none
    · simp [none] at last
    · simp [last] at root
  have parts : directory.parts = front := by
    rw [Path.parts_parent? parent, last, List.dropLast_concat]
  refine ⟨r, directory, found, parent, ?_, ?_, ?_, parts ▸ whole⟩
  · rw [Path.fileName?_eq_some_iff, last, List.getLast?_concat]
  · rw [← Bool.not_eq_true, Path.isAbsolute_iff, parts]
    exact fun root => (onward _ (List.mem_of_mem_head? root)).1 rfl
  · have names : Identity.directories p s.componentsRoot = directory.names := by
      rw [Identity.directories, Identity.located, found, Option.getD_some, parent]
      rfl
    rw [names, Path.names, parts]
    clear whole last parts
    induction front with
    | nil => rfl
    | cons x xs ih =>
        have rest := ih fun y hy => onward y (List.mem_cons_of_mem _ hy)
        obtain ⟨noRoot, noUp⟩ := onward x List.mem_cons_self
        cases x with
        | root => exact absurd rfl noRoot
        | up => exact absurd rfl noUp
        | here => exact rest
        | name m => exact congrArg (PathPart.name m :: ·) rest

theorem folder_of_below (handled : s.handles p = true) (below : p.LiesBelow s.componentsRoot) :
    p.folder = s.componentsRoot.parts.filter (· != .here) ++
      (Identity.directories p s.componentsRoot).map .name := by
  obtain ⟨⟨n, named⟩, -⟩ := handles_cases handled
  obtain ⟨r, directory, -, -, -, -, names, whole⟩ := exists_directories named below
  rw [Path.folder, whole, List.dropLast_concat, List.filter_append, names]

theorem storyOf_parts_of_below (handled : s.handles p = true)
    (below : p.LiesBelow s.componentsRoot) : (s.storyOf p).parts =
      s.storiesRoot.parts ++ (Identity.directories p s.componentsRoot).map .name ++ s.storyFile p := by
  obtain ⟨⟨n, named⟩, outside⟩ := handles_cases handled
  obtain ⟨r, directory, found, parent, sameName, relative, names, whole⟩ :=
    exists_directories named below
  obtain ⟨nonempty, noSlash⟩ := storyName_of_fileName named
  have stories : s.storiesRoot.parts ≠ [] := fun none => outside (none ▸ List.nil_prefix)
  have stem : (if Identity.isIndex ((r.fileStem?).getD "").toList then "index"
      else String.ofList ((r.fileStem?).getD "").toList) = String.ofList (storyName p) := by
    rw [storyName, Path.fileStem?, Path.fileStem?, sameName, named]
    split
    next => exact String.ofList_toList.symm
    next => rfl
  have path : s.storyOf p = (s.storiesRoot.join directory).join
      ⟨String.ofList (storyName p) ++ s.storyEnding⟩ := by
    rw [Settings.storyOf, Identity.artifactPath, found]
    simp only [Option.getD_some, stem, parent]
  have upper : (s.storiesRoot.join directory).parts =
      s.storiesRoot.parts ++ (Identity.directories p s.componentsRoot).map .name := by
    rw [Path.parts_join (Path.text_ne_empty stories) relative, Path.bodyParts_of_relative relative,
      names]
  rw [path, Path.parts_join (Path.text_ne_empty (by simp [upper, stories])), upper]
  · simp [Settings.storyFile]
  · exact Path.relative_append (by rwa [String.toList_ofList]) (by rwa [String.toList_ofList]) _

end

/-- The name of a component is its stem: nothing is cut off, joined, capitalized or taken from the
directory. -/
def Settings.KeepsStem (s : Settings) (p : Path) : Prop :=
  p.fileStem? = some (s.nameOf p).text

def Settings.titleOf (s : Settings) (p : Path) : String :=
  (s.template p (s.nameOf p)).title

/-- Titles tell components apart up to their directories and names. So components with stories of
their own that are called as their files are have different titles. -/
theorem titles_tell_apart (s : Settings) (p q : Path)
    (handled : s.handles p = true ∧ s.handles q = true)
    (below : p.LiesBelow s.componentsRoot ∧ q.LiesBelow s.componentsRoot)
    (apart : (s.storyOf p).parts ≠ (s.storyOf q).parts)
    (derived : (s.nameOf p).isFallback = false ∧ (s.nameOf q).isFallback = false) :
    (s.titleOf p = s.titleOf q ↔ p.folder = q.folder ∧ s.nameOf p = s.nameOf q) ∧
      (s.KeepsStem p → s.KeepsStem q → s.titleOf p ≠ s.titleOf q) := by
  have title (p : Path) : s.titleOf p =
      Identity.storyTitle p s.componentsRoot (Identity.displayName p s.componentsRoot) := by
    rw [Settings.titleOf, Settings.template, Settings.nameOf]
  have titles : s.titleOf p = s.titleOf q ↔
      Identity.directories p s.componentsRoot = Identity.directories q s.componentsRoot ∧
        (s.nameOf p).text = (s.nameOf q).text := by
    rw [title, title]
    exact storyTitle_eq_iff s.componentsRoot p q
  refine ⟨?_, fun keeps keeps' same => apart ?_⟩
  · rw [titles, folder_of_below handled.1 below.1, folder_of_below handled.2 below.2,
      List.append_cancel_left_eq, List.map_inj_right fun _ _ h => PathPart.name.inj h,
      DisplayName.text_inj derived.1 derived.2]
  · obtain ⟨upper, name⟩ := titles.1 same
    have stem : storyName p = storyName q := by
      rw [storyName, storyName, keeps, keeps', name]
    rw [storyOf_parts_of_below handled.1 below.1, storyOf_parts_of_below handled.2 below.2, upper,
      Settings.storyFile, Settings.storyFile, stem]

def projectSettings : Settings := { Settings.standard with projectRoot := ⟨"/project"⟩ }

theorem titles_tell_apart_button_and_card :
    projectSettings.titleOf ⟨"/project/src/components/Button.tsx"⟩ ≠
      projectSettings.titleOf ⟨"/project/src/components/forms/Card.tsx"⟩ :=
  (titles_tell_apart projectSettings ⟨"/project/src/components/Button.tsx"⟩
    ⟨"/project/src/components/forms/Card.tsx"⟩ ⟨by decide +kernel, by decide +kernel⟩
    ⟨⟨[.name "Button.tsx"], by decide +kernel⟩,
      ⟨[.name "forms", .name "Card.tsx"], by decide +kernel⟩⟩
    (by decide +kernel) ⟨by decide +kernel, by decide +kernel⟩).2
    (show _ = _ by decide +kernel) (show _ = _ by decide +kernel)

/-- What a stem says about the structure of the project is no part of a title. -/
theorem cards_share_title :
    let p : Path := ⟨"/project/src/components/Card.tsx"⟩
    let q : Path := ⟨"/project/src/components/Card.component.tsx"⟩
    let s := projectSettings
    p ≠ q ∧ (s.handles p = true ∧ s.handles q = true) ∧
      (p.LiesBelow s.componentsRoot ∧ q.LiesBelow s.componentsRoot) ∧
      (s.storyOf p).parts ≠ (s.storyOf q).parts ∧
      ((s.nameOf p).isFallback = false ∧ (s.nameOf q).isFallback = false) ∧
      s.titleOf p = s.titleOf q := by
  intro p q s
  exact ⟨by decide +kernel, by decide +kernel,
    ⟨⟨[.name "Card.tsx"], by decide +kernel⟩, ⟨[.name "Card.component.tsx"], by decide +kernel⟩⟩,
    by decide +kernel, by decide +kernel, by decide +kernel⟩

end PropStories
