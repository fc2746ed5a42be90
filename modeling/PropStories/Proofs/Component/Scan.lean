import PropStories.Proofs.Watch.Stream

/-!
# Which components a scan lists

A scan lists the accepted files that neither an ignore file nor a rule of the user excludes, in the
order of their paths. A watched project adds whatever file is accepted: the two see the same
components except where such rules have a say.
-/

namespace PropStories

open Disk

/-! ## Places and names -/

def Disk.IsNamed (d : Disk) : Prop := ∀ x ∈ d.entries, ∀ n ∈ x.1, Path.IsName n

instance (d : Disk) : Decidable d.IsNamed := inferInstanceAs (Decidable (∀ _ ∈ _, _))

namespace Scanner

def pathTo (s : Scanner) (names : List String) : Path :=
  names.foldl (fun p n => p.join ⟨n⟩) s.filter.root

def start (s : Scanner) (d : Disk) : Visit := ⟨s.filter.root, d.destination s.filter.root⟩

@[simp] theorem start_place (s : Scanner) (d : Disk) :
    (s.start d).place = d.destination s.filter.root := rfl

def listing (s : Scanner) (d : Disk) : List Path :=
  let files := (s.filesBelow d (s.start d)).map s.pathTo
  (files.filter s.filter.accepts).mergeSort Path.le

def Lists (s : Scanner) (d : Disk) (p : Path) : Prop :=
  ∃ found, s.scan d = .ok found ∧ ∃ q ∈ found.components, q.same p = true

/-- Whether the ignore files can be read, and neither they nor the user's rules exclude anything on
the way to the given names. -/
def Shows (s : Scanner) (d : Disk) (names : List String) : Prop :=
  d.isDirectory s.filter.root = true ∧
    Ignore.faultsAbove d s.usesGit (d.destination s.filter.root) = [] ∧
    ∀ v ∈ (s.start d).way names, s.isIgnored d v = false

end Scanner

section

variable {s : Scanner} {d : Disk} {p : Path} {names : List String}

theorem isDirectory_iff : d.isDirectory p = true ↔ d.find p = .ok .directory := by
  unfold isDirectory
  split
  next found => simp [found]
  next other => simpa using other

theorem mem_filesBelow {v : Visit} :
    names ∈ s.filesBelow d v ↔ (∃ e, (v.place ++ names, e) ∈ d.entries ∧ e ≠ .directory) ∧
      ∀ w ∈ v.way names, s.isIgnored d w = false := by
  simp only [Scanner.filesBelow, List.mem_filterMap, Option.ite_none_right_eq_some,
    Bool.and_eq_true, bne_iff_ne, List.isPrefixOf_iff_prefix, List.all_eq_true,
    Bool.not_eq_true', Option.some.injEq]
  constructor
  · rintro ⟨⟨place, e⟩, entry, ⟨⟨file, rest, rfl⟩, shown⟩, rfl⟩
    rw [List.drop_left] at shown ⊢
    exact ⟨⟨e, entry, file⟩, shown⟩
  · rintro ⟨⟨e, entry, file⟩, shown⟩
    refine ⟨(v.place ++ names, e), entry, ⟨⟨file, List.prefix_append v.place names⟩, ?_⟩,
      List.drop_left⟩
    rwa [List.drop_left]

theorem scan_components_iff {ps : List Path} :
    (∃ found, s.scan d = .ok found ∧ found.components = ps) ↔
      d.isDirectory s.filter.root = true ∧
        Ignore.faultsAbove d s.usesGit (d.destination s.filter.root) = [] ∧ s.listing d = ps := by
  unfold Scanner.scan Scanner.scanDirectory Scanner.files
  by_cases root : d.isDirectory s.filter.root = true
  · have there := isDirectory_iff.1 root
    have place := (find_eq_ok_iff.1 there).1
    simp only [root, there, place, if_true, true_and]
    cases Ignore.faultsAbove d s.usesGit (d.destination s.filter.root) with
    | nil =>
        simp only [bind, Except.bind, Except.ok.injEq, exists_eq_left', true_and]
        rfl
    | cons x xs => simp [bind, Except.bind]
  · simp [root]

theorem listing_sorted (s : Scanner) (d : Disk) :
    (s.listing d).Pairwise fun p q => p.le q = true := by
  have trans (p q r : Path) : p.le q = true → q.le r = true → p.le r = true := Path.le_trans
  unfold Scanner.listing
  exact List.pairwise_mergeSort trans Path.le_total _

theorem text_ne_empty_of_isDirectory (directory : d.isDirectory p = true) : p.text ≠ "" := by
  have place := (find_eq_ok_iff.1 (isDirectory_iff.1 directory)).1
  simpa using (placeOf_eq_ok_iff.1 place).1

theorem parts_pathTo (root : d.isDirectory s.filter.root = true)
    (named : ∀ n ∈ names, Path.IsName n) :
    (s.pathTo names).parts = s.filter.root.parts ++ names.map .name :=
  Path.parts_joinAll (text_ne_empty_of_isDirectory root) named

theorem isName_of_parts {front : List PathPart} (parts : p.parts = front ++ names.map .name) :
    ∀ n ∈ names, Path.IsName n := by
  intro n hn
  refine Path.isName_of_mem_parts (p := p) ?_
  rw [parts]
  exact List.mem_append_right _ (List.mem_map_of_mem hn)

theorem destination_below {root : Path} (parts : p.parts = root.parts ++ names.map .name) :
    d.destination p = d.destination root ++ names := by
  rw [destination, destination, parts, reach_append, reach_names]

theorem mem_entries_of_at? {place : Place} {c : Content} (h : d.at? place = some (.file c)) :
    (place, .file c) ∈ d.entries := by
  have below : place ≠ [] := ne_nil_of_at? (d := d) (by simp [h])
  simp only [at?, List.isEmpty_eq_false_iff.2 below] at h
  obtain ⟨front, back, whole, -⟩ := List.lookup_eq_some_iff.1 h
  simp [whole]

theorem mem_listing :
    p ∈ s.listing d ↔ s.filter.accepts p = true ∧
      ∃ names ∈ s.filesBelow d (s.start d), s.pathTo names = p := by
  simp only [Scanner.listing, List.mem_mergeSort, List.mem_filter, List.mem_map, and_comm]

theorem lists_iff (named : d.IsNamed) (file : d.isFile p = true) :
    s.Lists d p ↔ ∃ names, p.parts = s.filter.root.parts ++ names.map .name ∧
      s.filter.accepts (s.pathTo names) = true ∧ s.Shows d names := by
  constructor
  · rintro ⟨found, scan, q, member, same⟩
    obtain ⟨root, read, listed⟩ := scan_components_iff.1 ⟨found, scan, rfl⟩
    obtain ⟨accepted, names, below, rfl⟩ := mem_listing.1 (listed ▸ member)
    obtain ⟨⟨e, entry, -⟩, shown⟩ := mem_filesBelow.1 below
    have parts := parts_pathTo root fun n hn => named _ entry n (List.mem_append_right _ hn)
    exact ⟨names, (Path.same_iff.1 same).symm.trans parts, accepted, root, read, shown⟩
  · rintro ⟨names, parts, accepted, root, read, shown⟩
    obtain ⟨found, scan, components⟩ := scan_components_iff.2 ⟨root, read, rfl⟩
    obtain ⟨c, there⟩ := isFile_iff.1 file
    have entry := mem_entries_of_at? (find_eq_ok_iff.1 there).2.1
    rw [destination_below parts] at entry
    have below := mem_filesBelow.2 ⟨⟨.file c, entry, by simp⟩, shown⟩
    refine ⟨found, scan, s.pathTo names, components ▸ mem_listing.2 ⟨accepted, names, below, rfl⟩, ?_⟩
    rw [Path.same_iff, parts_pathTo root (isName_of_parts parts), parts]

theorem shows_of_unruled (root : d.isDirectory s.filter.root = true)
    (unruled : ∀ dir, ∀ kind ∈ Ignore.kinds s.usesGit, ∀ c, d.at? (dir ++ kind) ≠ some (.file c))
    (unasked : s.usesGit = true → ∀ p isDirectory, s.userRules p isDirectory = none)
    (names : List String) : s.Shows d names := by
  have none (dir : Place) (kind : List String) (h : kind ∈ Ignore.kinds s.usesGit) :
      Ignore.rulesAt d dir kind = ⟨[], []⟩ := by
    unfold Ignore.rulesAt
    split
    next c found => exact absurd found (unruled dir kind h c)
    next => rfl
  refine ⟨root, ?_, fun v _ => ?_⟩
  · simp only [Ignore.faultsAbove, List.flatMap_eq_nil_iff, List.map_eq_nil_iff]
    intro x _ kind h
    rw [none x.1 kind h]
  · have silent (isDirectory : Bool) : Ignore.verdict? d s.usesGit v.place isDirectory =
        Option.none := by
      simp only [Ignore.verdict?, List.findSome?_eq_none_iff]
      intro kind h x _
      rw [none x.1 kind h]
      rfl
    have user (isDirectory : Bool) : (if s.usesGit then s.userRules v.path isDirectory else .none) =
        Option.none := by
      split
      next git => exact unasked git _ _
      next => rfl
    rw [Scanner.isIgnored, Scanner.verdict?, silent, user]
    rfl

end

/-! ## Scanning and watching -/

def Session.Adds (s : Session) (d : Disk) (k : KnownComponents) (p : Path) : Prop :=
  ∃ n, s.notice d k p = .ok n ∧ ⟨.added, p⟩ ∈ n.events

section

variable {s : Session} {d : Disk} {k : KnownComponents} {p : Path}

theorem adds_iff (file : d.isFile p = true) (new : k.contains p = false) :
    s.Adds d k p ↔ s.scanner.filter.accepts p = true := by
  obtain ⟨c, there⟩ := isFile_iff.1 file
  have other : d.isDirectory p = false := by simp [isDirectory, there]
  have exists_ : d.exists? p = true := exists?_iff.2 ⟨_, there⟩
  unfold Session.Adds Session.notice
  by_cases accepted : s.scanner.filter.accepts p = true
  · simp [other, accepted, file, KnownComponents.classify, new]
  · simp [other, accepted, exists_]

/-- A touched file that is not known yet is added just if the filter accepts it, and a scan lists it
just if, besides, the ignore files and the user's rules show it. So the two agree on the accepted
files that are shown, and everywhere if there are no such rules; an accepted file that is excluded
is added but not listed. -/
theorem adds_and_lists (named : d.IsNamed) (file : d.isFile p = true)
    (new : k.contains p = false) :
    (s.Adds d k p ↔ s.scanner.filter.accepts p = true) ∧
      (s.scanner.Lists d p ↔ ∃ names, p.parts = s.scanner.filter.root.parts ++ names.map .name ∧
        s.scanner.filter.accepts (s.scanner.pathTo names) = true ∧ s.scanner.Shows d names) ∧
      ∀ names, (∀ n ∈ names, Path.IsName n) → p = s.scanner.pathTo names →
        ((s.Adds d k p ↔ s.scanner.Lists d p) ↔
          (s.scanner.filter.accepts p = true → s.scanner.Shows d names)) ∧
        (d.isDirectory s.scanner.filter.root = true →
          (∀ dir, ∀ kind ∈ Ignore.kinds s.scanner.usesGit,
            ∀ c, d.at? (dir ++ kind) ≠ some (.file c)) →
          (s.scanner.usesGit = true → ∀ q isDirectory, s.scanner.userRules q isDirectory = none) →
          (s.Adds d k p ↔ s.scanner.Lists d p)) := by
  have adds := adds_iff (s := s) file new
  have lists := lists_iff (s := s.scanner) named file
  refine ⟨adds, lists, ?_⟩
  rintro names areNames rfl
  have parts (root : d.isDirectory s.scanner.filter.root = true) :=
    parts_pathTo (s := s.scanner) root areNames
  have listed : s.scanner.Lists d (s.scanner.pathTo names) ↔
      s.scanner.filter.accepts (s.scanner.pathTo names) = true ∧ s.scanner.Shows d names := by
    rw [lists]
    constructor
    · rintro ⟨names', parts', accepted, shown⟩
      rw [parts shown.1, List.append_cancel_left_eq,
        List.map_inj_right fun _ _ => PathPart.name.inj] at parts'
      cases parts'
      exact ⟨accepted, shown⟩
    · rintro ⟨accepted, shown⟩
      exact ⟨names, parts shown.1, accepted, shown⟩
  have agree : (s.Adds d k (s.scanner.pathTo names) ↔ s.scanner.Lists d (s.scanner.pathTo names)) ↔
      (s.scanner.filter.accepts (s.scanner.pathTo names) = true → s.scanner.Shows d names) := by
    rw [adds, listed]
    exact iff_self_and
  exact ⟨agree, fun root unruled unasked =>
    agree.2 fun _ => shows_of_unruled root unruled unasked names⟩

def excludedComponent : Disk :=
  { entries :=
      [(["p"], .directory), (["p", "src"], .directory), (["p", "src", "components"], .directory),
        (["p", "src", "components", ".gitignore"], .file (.text "Legacy.tsx\n")),
        (["p", "src", "components", "Legacy.tsx"], .file (.text ""))]
    here := [] }

def withoutButtons : Session :=
  let rules := (Ignore.Rules.ofContent (.text "Button.tsx\n")).ofUser ⟨"/p"⟩
  { watchedSession with scanner := { watchedSession.scanner with userRules := rules } }

theorem adds_and_lists_of_excluded :
    let legacy : Path := ⟨"/p/src/components/Legacy.tsx"⟩
    let button : Path := ⟨"/p/src/components/Button.tsx"⟩
    (excludedComponent.IsNamed ∧ excludedComponent.isFile legacy = true ∧
      KnownComponents.empty.contains legacy = false ∧
      watchedSession.Adds excludedComponent .empty legacy ∧
      ¬ watchedSession.scanner.Lists excludedComponent legacy) ∧
    withComponent.IsNamed ∧ withComponent.isFile button = true ∧
      KnownComponents.empty.contains button = false ∧
      withoutButtons.Adds withComponent .empty button ∧
      ¬ withoutButtons.scanner.Lists withComponent button := by
  intro legacy button
  have differ {s : Session} {d : Disk} {p : Path} {n : String} (named : d.IsNamed)
      (file : d.isFile p = true) (isName : Path.IsName n) (path : p = s.scanner.pathTo [n])
      (accepted : s.scanner.filter.accepts p = true) {v : Visit}
      (passed : v ∈ (s.scanner.start d).way [n]) (excluded : s.scanner.isIgnored d v = true) :
      s.Adds d .empty p ∧ ¬ s.scanner.Lists d p := by
    obtain ⟨adds, -, agree⟩ := adds_and_lists (s := s) (k := .empty) named file rfl
    have added := adds.2 accepted
    refine ⟨added, fun listed => ?_⟩
    have shown :=
      (agree [n] (by simpa using isName) path).1.1 ⟨fun _ => listed, fun _ => added⟩ accepted
    rw [shown.2.2 v passed] at excluded
    contradiction
  have named : excludedComponent.IsNamed := by decide +kernel
  have named' : withComponent.IsNamed := by decide +kernel
  have file : excludedComponent.isFile legacy = true := by decide +kernel
  have file' : withComponent.isFile button = true := by decide +kernel
  refine ⟨⟨named, file, rfl, ?_⟩, named', file', rfl, ?_⟩
  · exact differ (n := "Legacy.tsx") (v := ⟨legacy, ["p", "src", "components", "Legacy.tsx"]⟩) named
      file (by decide) (by decide +kernel) (by decide +kernel) (by decide +kernel) (by decide +kernel)
  · exact differ (n := "Button.tsx") (v := ⟨button, ["p", "src", "components", "Button.tsx"]⟩) named'
      file' (by decide) (by decide +kernel) (by decide +kernel) (by decide +kernel) (by decide +kernel)

end

end PropStories
