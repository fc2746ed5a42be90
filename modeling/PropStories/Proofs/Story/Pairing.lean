import PropStories.Component.Filter
import PropStories.Proofs.Session
import PropStories.Proofs.Story.Keeping

/-!
# Which components share a story

The path of a story forgets the extension of its component and the case of an index file. So two
components share a story if they lie in one directory and nothing else tells their names apart;
what happens to one of them then happens to the story of the other.
-/

namespace PropStories

open Text Disk

/-! ## Names of stories -/

def storyName (component : Path) : List Char :=
  let stem := ((component.fileStem?).getD "").toList
  if Identity.isIndex stem then "index".toList else stem

namespace Path

theorem fileName?_eq_some_iff {p : Path} {n : String} :
    p.fileName? = some n ↔ p.parts.getLast? = some (.name n) := by
  unfold fileName?
  split
  next n' h => simp [h]
  next other => simpa using other n

theorem splitName_fst {n : List Char} (nonempty : n ≠ []) :
    (splitName n).1 ≠ [] ∧ ∀ c ∈ (splitName n).1, c ∈ n := by
  unfold splitName
  simp only
  split
  next => exact ⟨nonempty, fun _ h => h⟩
  next whole =>
    simp only [Bool.or_eq_true, not_or] at whole
    exact ⟨by simpa using whole.1, fun _ h => List.mem_of_mem_take h⟩

end Path

theorem storyName_of_fileName {p : Path} {n : String} (h : p.fileName? = some n) :
    storyName p ≠ [] ∧ ∀ c ∈ storyName p, (c == '/') = false := by
  have name := Path.isName_of_mem_parts (List.mem_of_getLast? (Path.fileName?_eq_some_iff.1 h))
  have noSlash := name.2.2
  have ⟨stem, within⟩ := Path.splitName_fst name.ne_nil
  unfold storyName
  simp only [Path.fileStem?, h, Option.map_some, Option.getD_some, String.toList_ofList]
  split
  · exact ⟨by simp, by simp⟩
  · exact ⟨stem, fun c hc => noSlash c (within c hc)⟩

/-! ## Paths of stories -/

def ComponentFilter.Covers (f : ComponentFilter) (p : Path) : Prop :=
  f.accepts p = true ∧ p.startsWith f.root = true ∧ p.parts ≠ f.root.parts

instance (f : ComponentFilter) (p : Path) : Decidable (f.Covers p) :=
  inferInstanceAs (Decidable (_ ∧ _ ∧ _))

def Settings.storyDirectory (s : Settings) (component : Path) : Path :=
  s.storiesRoot.join (((component.from? s.componentsRoot).bind Path.parent?).getD ⟨""⟩)

def Settings.storyFile (s : Settings) (component : Path) : List PathPart :=
  Path.bodyParts (storyName component ++ s.storyEnding.toList)

variable {f : ComponentFilter} {p q : Path}

theorem handles_cases {s : Settings} (handled : s.handles p = true) :
    (∃ n, p.fileName? = some n) ∧ ¬ s.storiesRoot.parts <+: p.parts := by
  simp only [Settings.handles, Bool.and_eq_true, Bool.not_eq_true'] at handled
  obtain ⟨component, outside⟩ := handled
  constructor
  · unfold Settings.isComponentFile Path.ending? at component
    cases named : p.fileName? with
    | none => simp [named] at component
    | some n => exact ⟨n, rfl⟩
  · rw [← Path.startsWith_iff, outside]
    simp

theorem accepts_cases (h : f.accepts p = true) :
    (∃ n, p.fileName? = some n) ∧ f.settings.handles p = true ∧
      f.settings.storyEnding.toList ≠ [] ∧ ¬ f.settings.storiesRoot.parts <+: p.parts := by
  simp only [ComponentFilter.accepts, ComponentFilter.hasExtension_eq, Bool.and_eq_true] at h
  obtain ⟨⟨⟨component, noStory⟩, outside⟩, -⟩ := h
  have handled : f.settings.handles p = true := by
    rw [Settings.handles, component, outside]
    rfl
  obtain ⟨⟨n, named⟩, apart⟩ := handles_cases handled
  refine ⟨⟨n, named⟩, handled, fun empty => ?_, apart⟩
  simp [ComponentFilter.isStory, named, empty, endsWith, beforeEnd?, afterStart?] at noStory

theorem exists_relative (h : f.Covers p) : ∃ r n, p.from? f.root = some r ∧
    p.parts = f.root.parts ++ r.parts ∧ r.parts.getLast? = some (.name n) ∧
      p.fileName? = some n := by
  obtain ⟨accepted, below, proper⟩ := h
  rw [← Path.isSome_from?, Option.isSome_iff_exists] at below
  obtain ⟨r, hr⟩ := below
  obtain ⟨n, named⟩ := (accepts_cases accepted).1
  have whole := Path.parts_from? hr
  refine ⟨r, n, hr, whole, ?_, named⟩
  have last := Path.fileName?_eq_some_iff.1 named
  rw [whole, List.getLast?_append] at last
  cases hlast : r.parts.getLast? with
  | none =>
      rw [List.getLast?_eq_none_iff.1 hlast, List.append_nil] at whole
      exact absurd whole proper
  | some x =>
      rw [hlast] at last
      exact last

theorem storiesRoot_ne_nil (h : f.accepts p = true) : f.settings.storiesRoot.parts ≠ [] := by
  intro none
  obtain ⟨-, -, -, outside⟩ := accepts_cases h
  exact outside (none ▸ List.nil_prefix)

/-- The directory of a story mirrors that of its component, unless this is an absolute path: then
it stays there. -/
theorem storyDirectory_parts (h : f.Covers p) {r : Path} (hr : p.from? f.root = some r) :
    (f.settings.storyDirectory p).parts =
      if r.parts.dropLast.head? = some .root then r.parts.dropLast
      else f.settings.storiesRoot.parts ++ r.parts.dropLast.filter (· != .here) := by
  obtain ⟨r', n, hr', -, last, -⟩ := exists_relative h
  obtain rfl : r = r' := Option.some.inj (hr.symm.trans hr')
  obtain ⟨directory, hdirectory⟩ : ∃ directory, r.parent? = some directory := by
    cases hparent : r.parent? with
    | some directory => exact ⟨directory, rfl⟩
    | none =>
        obtain none | root := Path.parent?_eq_none_iff.1 hparent
        · simp [none] at last
        · simp [root] at last
  have parts := Path.parts_parent? hdirectory
  have whole : f.settings.storyDirectory p = f.settings.storiesRoot.join directory := by
    have hr : p.from? f.settings.componentsRoot = some r := hr
    rw [Settings.storyDirectory, hr, Option.bind_some, hdirectory, Option.getD_some]
  rw [whole, ← parts]
  split
  next absolute => rw [Path.join_of_isAbsolute (Path.isAbsolute_iff.2 absolute)]
  next relative =>
    rw [← Path.isAbsolute_iff, Bool.not_eq_true] at relative
    rw [Path.parts_join (Path.text_ne_empty (storiesRoot_ne_nil h.1)) relative,
      Path.bodyParts_of_relative relative]

theorem storyOf_parts (h : f.Covers p) : (f.settings.storyOf p).parts =
    (f.settings.storyDirectory p).parts ++ f.settings.storyFile p := by
  obtain ⟨r, n, hr, -, last, named⟩ := exists_relative h
  obtain ⟨nonempty, noSlash⟩ := storyName_of_fileName named
  have sameName : r.fileName? = p.fileName? := by
    rw [named, Path.fileName?_eq_some_iff.2 last]
  have stem : (if Identity.isIndex ((r.fileStem?).getD "").toList then "index"
      else String.ofList ((r.fileStem?).getD "").toList) = String.ofList (storyName p) := by
    rw [storyName, Path.fileStem?, Path.fileStem?, sameName]
    split
    next => exact String.ofList_toList.symm
    next => rfl
  have path : f.settings.storyOf p = (f.settings.storyDirectory p).join
      ⟨String.ofList (storyName p) ++ f.settings.storyEnding⟩ := by
    have hr : p.from? f.settings.componentsRoot = some r := hr
    rw [Settings.storyOf, Identity.artifactPath, Settings.storyDirectory, hr]
    simp only [Option.getD_some, Option.bind_some, stem]
  have directory : (f.settings.storyDirectory p).text ≠ "" := by
    apply Path.text_ne_empty
    rw [storyDirectory_parts h hr]
    split
    next root =>
      intro none
      simp [none] at root
    next => simp [storiesRoot_ne_nil h.1]
  rw [path, Path.parts_join directory]
  · simp [Settings.storyFile]
  · rw [Path.isAbsolute, beq_eq_false_iff_ne]
    intro slash
    cases hname : storyName p with
    | nil => exact nonempty hname
    | cons c rest =>
        rw [hname] at slash noSlash
        simp only [String.toList_append, String.toList_ofList, List.cons_append, List.head?_cons,
          Option.some.injEq] at slash
        have := noSlash c List.mem_cons_self
        simp [slash] at this

/-! ## Equal stories -/

/-- The directory of a path, without a leading dot. -/
def Path.folder (p : Path) : List PathPart := p.parts.dropLast.filter (· != .here)

/-- Two components in one directory whose names differ in the extension only, or are both those of
index files. -/
def Twins (p q : Path) : Prop := p.folder = q.folder ∧ storyName p = storyName q

instance (p q : Path) : Decidable (Twins p q) := inferInstanceAs (Decidable (_ ∧ _))

/-- A component called by a dot alone, where the ending of stories begins with a slash: its story
lies in the directory of the story of `q`. -/
def Settings.Swallows (s : Settings) (p q : Path) : Prop :=
  s.storyEnding.toList.head? = some '/' ∧ storyName p = ['.'] ∧ storyName q ≠ ['.'] ∧
    (s.storyDirectory p).parts = (s.storyDirectory q).parts ++ [Path.partOf (storyName q)]

def Settings.Share (s : Settings) (p q : Path) : Prop :=
  Twins p q ∨ s.Swallows p q ∨ s.Swallows q p

/-- The directory of a story is that of the component, or mirrors it in the stories directory. -/
theorem storyDirectory_cases (h : f.Covers p) :
    (f.root.parts = [] ∧ p.folder.head? = some .root ∧ p.folder <+: p.parts ∧
      (f.settings.storyDirectory p).parts = p.folder) ∨
    ∃ below, .root ∉ below ∧ p.folder = f.root.parts.filter (· != .here) ++ below ∧
      (f.settings.storyDirectory p).parts = f.settings.storiesRoot.parts ++ below := by
  obtain ⟨r, n, hr, whole, last, -⟩ := exists_relative h
  have nonempty : r.parts ≠ [] := by
    intro none
    simp [none] at last
  have folder : p.folder =
      f.root.parts.filter (· != .here) ++ r.parts.dropLast.filter (· != .here) := by
    rw [Path.folder, whole, List.dropLast_append_of_ne_nil nonempty, List.filter_append]
  have behind {x : PathPart} (hx : x ∈ r.parts.dropLast.tail) : x ≠ .root ∧ x ≠ .here := by
    rw [List.tail_dropLast] at hx
    exact Path.of_mem_tail ((List.dropLast_subset _) hx)
  rw [storyDirectory_parts h hr]
  cases split : r.parts.dropLast with
  | nil => exact .inr ⟨[], by simp, by rw [folder, split]; rfl, by simp⟩
  | cons y rest =>
      rw [split] at behind folder
      by_cases root : y = .root
      · have noBase : f.root.parts = [] := by
          cases base : f.root.parts with
          | nil => rfl
          | cons x more =>
              have inside : y ∈ r.parts := List.dropLast_subset _ (split ▸ List.mem_cons_self)
              have later : y ∈ p.parts.tail := by simp [whole, base, inside]
              exact absurd root (Path.of_mem_tail later).1
        have noDot : (y :: rest).filter (· != .here) = y :: rest := by
          rw [List.filter_eq_self]
          intro x hx
          cases hx with
          | head => simp [root]
          | tail _ hx => simpa using (behind hx).2
        rw [noBase, noDot] at folder
        refine .inl ⟨noBase, ?_, ?_, ?_⟩
        · rw [folder, root]
          rfl
        · rw [folder, whole, noBase, List.filter_nil, ← split]
          exact List.dropLast_prefix _
        · rw [folder, if_pos (by simp [root])]
          rfl
      · refine .inr ⟨_, fun member => ?_, folder, by rw [if_neg (by simp [root])]⟩
        have member := (List.mem_filter.1 member).1
        cases member with
        | head => exact root rfl
        | tail _ member => exact (behind member).1 rfl

theorem storyDirectory_eq_iff (hp : f.Covers p) (hq : f.Covers q) :
    (f.settings.storyDirectory p).parts = (f.settings.storyDirectory q).parts ↔
      p.folder = q.folder := by
  have apart {p q : Path} (accepted : f.accepts p = true) (noBase : f.root.parts = [])
      (root : p.folder.head? = some .root) (above : p.folder <+: p.parts) {below : List PathPart}
      (onward : .root ∉ below) (folder : q.folder = f.root.parts.filter (· != .here) ++ below) :
      p.folder ≠ f.settings.storiesRoot.parts ++ below ∧ p.folder ≠ q.folder := by
    obtain ⟨-, -, -, outside⟩ := accepts_cases accepted
    constructor
    · intro same
      exact outside ((same ▸ List.prefix_append _ _ : _ <+: p.folder).trans above)
    · intro same
      rw [same, folder, noBase] at root
      exact onward (List.mem_of_mem_head? root)
  obtain ⟨noBase, root, above, directory⟩ | ⟨below, onward, folder, directory⟩ :=
    storyDirectory_cases hp
  · obtain ⟨-, -, -, directory'⟩ | ⟨below', onward', folder', directory'⟩ := storyDirectory_cases hq
    · rw [directory, directory']
    · obtain ⟨other, other'⟩ := apart hp.1 noBase root above onward' folder'
      rw [directory, directory']
      simp [other, other']
  · obtain ⟨noBase, root, above, directory'⟩ | ⟨below', onward', folder', directory'⟩ :=
      storyDirectory_cases hq
    · obtain ⟨other, other'⟩ := apart hq.1 noBase root above onward folder
      rw [directory, directory']
      simp [other.symm, other'.symm]
    · rw [directory, directory', folder, folder', List.append_cancel_left_eq,
        List.append_cancel_left_eq]

theorem storyFile_eq {s : Settings} (nonempty : storyName p ≠ [])
    (noSlash : ∀ c ∈ storyName p, (c == '/') = false) {first : List Char}
    {more : List (List Char)} (h : splitWhere (· == '/') s.storyEnding.toList = first :: more) :
    s.storyFile p =
      (if storyName p ++ first = ['.'] then [] else [Path.partOf (storyName p ++ first)]) ++
        (more.filter Path.counts).map Path.partOf := by
  rw [Settings.storyFile, Path.bodyParts, splitWhere_append_of_none noSlash h]
  by_cases dot : storyName p ++ first = ['.']
  · rw [if_pos dot, List.filter_cons_of_neg (by simp [Path.counts_iff, dot])]
    rfl
  · rw [if_neg dot, List.filter_cons_of_pos (Path.counts_iff.2 ⟨by simp [nonempty], dot⟩)]
    rfl

theorem partOf_inj {w v : List Char} (hw : Path.counts w = true) (hv : Path.counts v = true) :
    Path.partOf w = Path.partOf v ↔ w = v := by
  constructor
  · rw [Path.partOf_of_counts hw, Path.partOf_of_counts hv]
    split
    next up =>
      split
      next up' => simp [up, up']
      next => simp
    next =>
      split
      next => simp
      next =>
        intro same
        have texts := congrArg String.toList (PathPart.name.inj same)
        rwa [String.toList_ofList, String.toList_ofList] at texts
  · rintro rfl
    rfl

theorem splitWhere_slash {cs : List Char} (nonempty : cs ≠ []) :
    ∃ first more, splitWhere (· == '/') cs = first :: more ∧ (first = [] ↔ cs.head? = some '/') := by
  cases cs with
  | nil => exact absurd rfl nonempty
  | cons c cs =>
      rw [splitWhere]
      by_cases slash : c = '/'
      · exact ⟨[], _, by rw [if_pos (by simpa using slash)], by simp [slash]⟩
      · rw [if_neg (by simpa using slash)]
        split
        next => exact ⟨[c], [], rfl, by simp [slash]⟩
        next piece pieces _ => exact ⟨c :: piece, pieces, rfl, by simp [slash]⟩

theorem storyOf_eq_iff (hp : f.Covers p) (hq : f.Covers q) :
    (f.settings.storyOf p).parts = (f.settings.storyOf q).parts ↔ f.settings.Share p q := by
  obtain ⟨⟨n, named⟩, -, ending, -⟩ := accepts_cases hp.1
  obtain ⟨⟨n', named'⟩, -, -, -⟩ := accepts_cases hq.1
  obtain ⟨nonempty, noSlash⟩ := storyName_of_fileName named
  obtain ⟨nonempty', noSlash'⟩ := storyName_of_fileName named'
  obtain ⟨first, more, split, slash⟩ := splitWhere_slash ending
  rw [storyOf_parts hp, storyOf_parts hq, storyFile_eq nonempty noSlash split,
    storyFile_eq nonempty' noSlash' split, ← List.append_assoc, ← List.append_assoc,
    List.append_cancel_right_eq, Settings.Share, Twins, ← storyDirectory_eq_iff hp hq]
  unfold Settings.Swallows
  rw [← slash]
  have dot {w : List Char} (nonempty : w ≠ []) : w ++ first = ['.'] ↔ first = [] ∧ w = ['.'] := by
    constructor
    · intro whole
      have length := congrArg List.length whole
      have long := List.length_pos_iff.2 nonempty
      rw [List.length_append, List.length_singleton] at length
      have none : first = [] := List.length_eq_zero_iff.1 (by omega)
      rw [none, List.append_nil] at whole
      exact ⟨none, whole⟩
    · rintro ⟨rfl, rfl⟩
      rfl
  by_cases hdot : storyName p ++ first = ['.']
  · obtain ⟨none, name⟩ := (dot nonempty).1 hdot
    by_cases hdot' : storyName q ++ first = ['.']
    · obtain ⟨-, name'⟩ := (dot nonempty').1 hdot'
      simp [none, name, name']
    · have name' : storyName q ≠ ['.'] := fun name' => hdot' ((dot nonempty').2 ⟨none, name'⟩)
      simp [none, name, name', name'.symm]
  · by_cases hdot' : storyName q ++ first = ['.']
    · obtain ⟨none, name'⟩ := (dot nonempty').1 hdot'
      have name : storyName p ≠ ['.'] := fun name => hdot ((dot nonempty).2 ⟨none, name⟩)
      simp [none, name, name', eq_comm]
    · have counted := Path.counts_iff.2 ⟨by simp [nonempty], hdot⟩
      have counted' := Path.counts_iff.2 ⟨by simp [nonempty'], hdot'⟩
      have noSwallow : ¬ (first = [] ∧ storyName p = ['.']) := fun h => hdot ((dot nonempty).2 h)
      have noSwallow' : ¬ (first = [] ∧ storyName q = ['.']) :=
        fun h => hdot' ((dot nonempty').2 h)
      rw [if_neg hdot, if_neg hdot']
      constructor
      · intro same
        obtain ⟨directory, file⟩ := List.append_inj' same (by rw [List.length_singleton,
          List.length_singleton])
        have names := (partOf_inj counted counted').1 (List.cons_eq_cons.1 file).1
        exact .inl ⟨directory, List.append_cancel_right names⟩
      · rintro (⟨directory, name⟩ | ⟨none, name, -⟩ | ⟨none, name, -⟩)
        · rw [directory, name]
        · exact absurd ⟨none, name⟩ noSwallow
        · exact absurd ⟨none, name⟩ noSwallow'

/-! ## Places of stories -/

theorem reach_inj {xs ys : List PathPart} (hx : ∀ x ∈ xs, ∃ n, x = .name n)
    (hy : ∀ y ∈ ys, ∃ n, y = .name n) (p : Place) : reach p xs = reach p ys ↔ xs = ys := by
  obtain ⟨ns, rfl⟩ := exists_names hx
  obtain ⟨ms, rfl⟩ := exists_names hy
  rw [reach_names, reach_names, List.append_cancel_left_eq]
  constructor
  · rintro rfl
    rfl
  · intro same
    exact List.map_inj_right (fun _ _ h => PathPart.name.inj h) |>.1 same

/-- A story that never turns back is reached through names alone: from the root, if the component
is absolute and there is no components root, and else from the stories directory. -/
theorem storyOf_cases (h : f.Covers p) (onward : .up ∉ (f.settings.storyOf p).parts) :
    ∃ xs, (∀ x ∈ xs, ∃ n, x = .name n) ∧
      (f.root.parts = [] ∧ p.isAbsolute = true ∧ (f.settings.storyOf p).parts = .root :: xs ∨
        (f.root.parts = [] → p.isAbsolute = false) ∧
          (f.settings.storyOf p).parts = f.settings.storiesRoot.parts ++ xs) := by
  have named {x : PathPart} (hx : x ∈ (f.settings.storyOf p).parts.tail) : ∃ n, x = .name n := by
    have first := Path.of_mem_tail hx
    cases x with
    | root => exact absurd rfl first.1
    | here => exact absurd rfl first.2
    | up => exact absurd (List.mem_of_mem_tail hx) onward
    | name n => exact ⟨n, rfl⟩
  have parts := storyOf_parts h
  obtain ⟨noBase, root, above, directory⟩ | ⟨below, relative, folder, directory⟩ :=
    storyDirectory_cases h
  · rw [directory] at parts
    obtain ⟨rest, hrest⟩ : ∃ rest, p.folder = .root :: rest := List.head?_eq_some_iff.1 root
    rw [hrest, List.cons_append] at parts
    refine ⟨_, fun x hx => named (by rw [parts]; exact hx), .inl ⟨noBase, ?_, parts⟩⟩
    obtain ⟨more, whole⟩ := above
    rw [Path.isAbsolute_iff, ← whole, hrest]
    rfl
  · rw [directory, List.append_assoc] at parts
    refine ⟨_, fun x hx => named ?_, .inr ⟨fun noBase => ?_, parts⟩⟩
    · rw [parts, List.tail_append_of_ne_nil (storiesRoot_ne_nil h.1)]
      exact List.mem_append_right _ hx
    · -- An absolute path begins with the root, which its folder would hold.
      obtain ⟨r, n, -, whole, last, -⟩ := exists_relative h
      rw [← Bool.not_eq_true, Path.isAbsolute_iff]
      intro root
      obtain ⟨rest, hrest⟩ := List.head?_eq_some_iff.1 root
      rw [noBase, List.nil_append] at whole
      rw [noBase, List.filter_nil, List.nil_append] at folder
      have nonempty : rest ≠ [] := by
        rintro rfl
        rw [← whole, hrest] at last
        cases last
      apply relative
      rw [← folder, Path.folder, hrest, List.dropLast_cons_of_ne_nil nonempty]
      simp

def Settings.Meet (s : Settings) (d : Disk) (p q : Path) : Prop :=
  d.destination (s.storyOf p) = d.destination (s.storyOf q)

theorem meet_iff (hp : f.Covers p) (hq : f.Covers q) (level : p.isAbsolute = q.isAbsolute)
    (onward : .up ∉ (f.settings.storyOf p).parts) (onward' : .up ∉ (f.settings.storyOf q).parts)
    (d : Disk) : f.settings.Meet d p q ↔
      (f.settings.storyOf p).parts = (f.settings.storyOf q).parts := by
  obtain ⟨xs, hx, cases⟩ := storyOf_cases hp onward
  obtain ⟨ys, hy, cases'⟩ := storyOf_cases hq onward'
  unfold Settings.Meet Disk.destination
  obtain ⟨noBase, absolute, parts⟩ | ⟨relative, parts⟩ := cases
  · obtain ⟨-, -, parts'⟩ | ⟨relative', -⟩ := cases'
    · rw [parts, parts', List.cons_inj_right]
      exact reach_inj hx hy []
    · rw [level, relative' noBase] at absolute
      cases absolute
  · obtain ⟨noBase, absolute', -⟩ | ⟨-, parts'⟩ := cases'
    · rw [← level, relative noBase] at absolute'
      cases absolute'
    · rw [parts, parts', reach_append, reach_append, List.append_cancel_left_eq]
      exact reach_inj hx hy _

/-! ## Events of other components -/

theorem decide_of_unhandled {s : Settings} {d : Disk} {e : ComponentEvent}
    (unhandled : s.handles e.path = false) : (s.decide d e).decision = .ignore := by
  unfold Settings.decide
  simp [unhandled]

theorem handle_disk (k : Keeper) (d : Disk) (e : ComponentEvent) :
    (k.handle d e).disk = (k.carryOut d (k.settings.decide d e).decision).disk := by
  rw [Keeper.handle]

section

variable {k : Keeper} {d : Disk} {e : ComponentEvent}

/-- A file elsewhere than at the story of an event outlasts the event. -/
theorem handle_leaves (real : k.mode = .real) (idle : k.formatter.Idle) {p : Place} {c : Content}
    (elsewhere : k.settings.handles e.path = true → d.destination (k.settings.storyOf e.path) ≠ p)
    (there : d.at? p = some (.file c)) :
    (k.handle d e).disk.here = d.here ∧ (k.handle d e).disk.at? p = some (.file c) := by
  have careful := handle_careful (d := d) (e := e) real idle
  refine ⟨careful.here, ?_⟩
  cases handled : k.settings.handles e.path with
  | false =>
      rw [handle_disk, decide_of_unhandled handled]
      exact there
  | true =>
      obtain same | ⟨empty, -, -⟩ := careful.elsewhere p (elsewhere handled).symm
      · rw [same, there]
      · rw [there] at empty
        cases empty

theorem dispatchAll_leaves {t : Session} (real : t.keeper.mode = .real)
    (idle : t.keeper.formatter.Idle) {p : Place} {c : Content} (es : List ComponentEvent)
    (elsewhere : ∀ e ∈ es, t.keeper.settings.handles e.path = true →
      d.destination (t.keeper.settings.storyOf e.path) ≠ p)
    (there : d.at? p = some (.file c)) : (t.dispatchAll d es).disk.at? p = some (.file c) := by
  refine (Session.dispatchAll_preserves (P := fun x => x.here = d.here ∧ x.at? p = some (.file c))
    (fun x e he ⟨same, still⟩ => ?_) ⟨rfl, there⟩).2
  have away (handled : t.keeper.settings.handles e.path = true) :
      x.destination (t.keeper.settings.storyOf e.path) ≠ p := by
    rw [destination, same]
    exact elsewhere e he handled
  obtain ⟨here, kept⟩ := handle_leaves real idle away still
  exact ⟨here.trans same, kept⟩

theorem handle_deleted (real : k.mode = .real) {p : Path} (handled : k.settings.handles p = true)
    (file : d.isFile (k.settings.storyOf p) = true) :
    (k.handle d ⟨.deleted, p⟩).disk.at? (d.destination (k.settings.storyOf p)) = none := by
  obtain ⟨c, found⟩ := isFile_iff.1 file
  have decided : (k.settings.decide d ⟨.deleted, p⟩).decision = .delete (k.settings.storyOf p) := by
    unfold Settings.decide
    simp [handled, Settings.decideDeletion, exists?_iff.2 ⟨_, found⟩]
  have there := (find_eq_ok_iff.1 found).2.1
  rw [handle_disk, decided, Keeper.carryOut, Keeper.erase, real, WriteMode.delete,
    removeFile_of_find found]
  exact at?_remove_self (ne_nil_of_at? (d := d) (by simp [there]))

end

/-! ## The pairing -/

/-- Stories are paired with components up to twins. An event leaves the stories of all other
components alone, and only their stories: the deletion of a twin deletes the common story. -/
theorem stories_paired_up_to_twins (f : ComponentFilter) (p q : Path) (hp : f.Covers p)
    (hq : f.Covers q) :
    ((f.settings.storyOf p).parts = (f.settings.storyOf q).parts ↔ f.settings.Share p q) ∧
      (∀ d, p.isAbsolute = q.isAbsolute → .up ∉ (f.settings.storyOf p).parts →
        .up ∉ (f.settings.storyOf q).parts →
          (f.settings.Meet d p q ↔ f.settings.Share p q)) ∧
      ∀ (t : Session) (d : Disk) (c : Content), t.keeper.settings = f.settings →
        t.keeper.mode = .real → t.keeper.formatter.Idle →
        d.find (f.settings.storyOf q) = .ok (.file c) →
          (∀ es : List ComponentEvent,
            (∀ e ∈ es, f.settings.handles e.path = true → ¬ f.settings.Meet d e.path q) →
            (t.dispatchAll d es).disk.at? (d.destination (f.settings.storyOf q)) =
              some (.file c)) ∧
          (f.settings.Meet d p q → d.isFile (f.settings.storyOf p) = true →
            (t.dispatchAll d [⟨.deleted, p⟩]).disk.at? (d.destination (f.settings.storyOf q)) =
              none) := by
  refine ⟨storyOf_eq_iff hp hq, fun d level onward onward' => ?_,
    fun t d c settings real idle found => ⟨fun es elsewhere => ?_, fun meet file => ?_⟩⟩
  · rw [meet_iff hp hq level onward onward', storyOf_eq_iff hp hq]
  · rw [← settings] at elsewhere found ⊢
    exact dispatchAll_leaves real idle es elsewhere (find_eq_ok_iff.1 found).2.1
  · rw [← settings] at meet file ⊢
    have handled : t.keeper.settings.handles p = true := settings ▸ (accepts_cases hp.1).2.1
    rw [← meet, Session.disk_dispatchAll_singleton]
    exact handle_deleted real handled file

def standardSession : Session :=
  let settings := { Settings.standard with projectRoot := ⟨"/p"⟩ }
  ⟨⟨settings, .none, .real⟩, ⟨⟨settings, []⟩, true, Ignore.noUserRules⟩⟩

def withButton : Disk :=
  { entries :=
      [(["p"], .directory), (["p", "src"], .directory), (["p", "src", "stories"], .directory),
        (["p", "src", "stories", "Button.stories.tsx"], .file (.text "export const note = 1;\n"))]
    here := [] }

theorem stories_paired_up_to_twins_of_extensions :
    let tsx : Path := ⟨"/p/src/components/Button.tsx"⟩
    let jsx : Path := ⟨"/p/src/components/Button.jsx"⟩
    let story := ["p", "src", "stories", "Button.stories.tsx"]
    standardSession.scanner.filter.Covers tsx ∧ standardSession.scanner.filter.Covers jsx ∧
      tsx.parts ≠ jsx.parts ∧ (withButton.at? story).isSome ∧
      (standardSession.dispatchAll withButton [⟨.deleted, jsx⟩]).disk.at? story = none := by
  have hjsx : standardSession.scanner.filter.Covers ⟨"/p/src/components/Button.jsx"⟩ := by
    decide +kernel
  have htsx : standardSession.scanner.filter.Covers ⟨"/p/src/components/Button.tsx"⟩ := by
    decide +kernel
  have paired := stories_paired_up_to_twins _ _ _ hjsx htsx
  have share := paired.1.2 (.inl (by decide +kernel))
  have file : withButton.isFile
      (standardSession.keeper.settings.storyOf ⟨"/p/src/components/Button.tsx"⟩) = true := by
    decide +kernel
  have story : withButton.destination
      (standardSession.keeper.settings.storyOf ⟨"/p/src/components/Button.tsx"⟩) =
        ["p", "src", "stories", "Button.stories.tsx"] := by
    decide +kernel
  obtain ⟨c, found⟩ := isFile_iff.1 file
  have gone := (paired.2.2 standardSession withButton c rfl rfl (fun _ _ => rfl) found).2
    (congrArg (reach _) share) (by decide +kernel)
  rw [← story]
  exact ⟨htsx, hjsx, by decide +kernel, by decide +kernel, gone⟩

end PropStories
