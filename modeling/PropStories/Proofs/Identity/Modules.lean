import PropStories.Proofs.Story.Pairing

/-!
# Where imports lead

A story imports its component by a reference. Below the alias root the reference leads to the
component once the mark is read as that root. Elsewhere it goes up once and then down from the
project root, and so leads to the component from the directories that lie in the project root
itself, whichever directory the story is in.
-/

namespace PropStories

open Text Disk

/-! ## Joined names -/

namespace Text

/-- Pieces without a slash are found again between the slashes that join them. -/
theorem splitWhere_intercalate {ws : List String} (nonempty : ws ≠ [])
    (noSlash : ∀ v ∈ ws, ∀ c ∈ v.toList, (c == '/') = false) :
    splitWhere (· == '/') ("/".intercalate ws).toList = ws.map String.toList := by
  induction ws with
  | nil => exact absurd rfl nonempty
  | cons w ws ih =>
      have first := splitWhere_of_none (noSlash w List.mem_cons_self)
      cases ws with
      | nil =>
          rw [String.intercalate_singleton]
          exact first
      | cons v ws =>
          have rest := ih (by simp) fun u hu => noSlash u (List.mem_cons_of_mem _ hu)
          rw [String.intercalate_cons_cons, String.toList_append, String.toList_append,
            show ("/" : String).toList = ['/'] from rfl, List.append_assoc, List.singleton_append,
            splitWhere_append rfl, first, rest]
          rfl

end Text

namespace Path

theorem bodyParts_intercalate {ws : List String}
    (noSlash : ∀ v ∈ ws, ∀ c ∈ v.toList, (c == '/') = false) :
    bodyParts ("/".intercalate ws).toList = ws.flatMap fun v => bodyParts v.toList := by
  by_cases nonempty : ws = []
  · rw [nonempty]
    rfl
  have split (v : String) (hv : v ∈ ws) : bodyParts v.toList =
      ([v.toList].filter counts).map partOf := by
    rw [bodyParts, splitWhere_of_none (noSlash v hv)]
  rw [bodyParts, splitWhere_intercalate nonempty noSlash]
  clear noSlash nonempty
  induction ws with
  | nil => rfl
  | cons v vs ih =>
      rw [List.flatMap_cons, split v List.mem_cons_self,
        ← ih fun u hu => split u (List.mem_cons_of_mem _ hu), List.map_cons]
      cases h : counts v.toList <;> simp [h]

theorem flatMap_bodyParts {names : List String} (named : ∀ n ∈ names, IsName n) :
    names.flatMap (fun n => bodyParts n.toList) = names.map .name := by
  induction names with
  | nil => rfl
  | cons n names ih =>
      rw [List.flatMap_cons, (named n List.mem_cons_self).bodyParts,
        ih fun m hm => named m (List.mem_cons_of_mem _ hm)]
      rfl

theorem relative_append {w : String} (nonempty : w.toList ≠ [])
    (noSlash : ∀ c ∈ w.toList, (c == '/') = false) (v : String) :
    (Path.mk (w ++ v)).isAbsolute = false := by
  obtain ⟨c, cs, hw⟩ := List.exists_cons_of_ne_nil nonempty
  have first := noSlash c (hw ▸ List.mem_cons_self)
  rw [isAbsolute, String.toList_append, hw, beq_eq_false_iff_ne]
  simpa using first

theorem relative_intercalate {w : String} (ws : List String) (nonempty : w.toList ≠ [])
    (noSlash : ∀ c ∈ w.toList, (c == '/') = false) :
    (Path.mk ("/".intercalate (w :: ws))).isAbsolute = false := by
  cases ws with
  | nil =>
      rw [String.intercalate_singleton, ← String.append_empty (s := w)]
      exact relative_append nonempty noSlash ""
  | cons v ws =>
      rw [String.intercalate_cons_cons, String.append_assoc]
      exact relative_append nonempty noSlash _

/-- What a component is imported as: its path without the extension, or its directory if it is an
index file. -/
def module (p : Path) : Path :=
  let directory := (p.parent?).getD ⟨""⟩
  let stem := (p.fileStem?).getD ""
  if Identity.isIndex stem.toList then directory else directory.join ⟨stem⟩

/-- The path lies below another one, and the way there does not turn back. -/
def LiesBelow (p base : Path) : Prop :=
  ∃ rest, rest ≠ [] ∧ p.parts = base.parts ++ rest ∧ ∀ x ∈ rest, x ≠ .root ∧ x ≠ .up

theorem LiesBelow.exists_from {p base : Path} (h : p.LiesBelow base) : ∃ r, p.from? base = some r := by
  obtain ⟨rest, -, whole, -⟩ := h
  rw [← Option.isSome_iff_exists, isSome_from?, startsWith_iff, whole]
  exact List.prefix_append _ _

/-- Seen from `base`, the reference leads to the module of the component; `here` is where relative
paths begin. -/
def Finds (component : Path) (here : Place) (base : Path) (reference : String) : Prop :=
  reach here (base.join ⟨reference⟩).parts = reach here component.module.parts

end Path

/-! ## Places -/

namespace Disk

theorem reach_filter_here (p : Place) (xs : List PathPart) :
    reach p (xs.filter (· != .here)) = reach p xs := by
  induction xs generalizing p with
  | nil => rfl
  | cons x xs ih => cases x <;> exact ih _

theorem reach_bodyParts {q : Path} (relative : q.isAbsolute = false) (p : Place) :
    reach p (Path.bodyParts q.text.toList) = reach p q.parts := by
  rw [Path.bodyParts_of_relative relative, reach_filter_here]

theorem reach_join (here : Place) (p q : Path) :
    reach here (p.join q).parts = reach (reach here p.parts) q.parts := by
  cases absolute : q.isAbsolute with
  | true =>
      obtain ⟨rest, root⟩ := List.head?_eq_some_iff.1 (Path.isAbsolute_iff.1 absolute)
      rw [Path.join_of_isAbsolute absolute, root]
      rfl
  | false =>
      by_cases empty : p.text = ""
      · have whole : p.join q = q := by simp [Path.join, absolute, empty]
        have none : p.parts = [] := by rw [Path.parts_eq, empty]; rfl
        rw [whole, none]
        rfl
      · rw [Path.parts_join empty absolute, reach_append, reach_bodyParts absolute]

theorem reach_onward {xs : List PathPart} (onward : ∀ x ∈ xs, x ≠ .root ∧ x ≠ .up) (p : Place) :
    reach p xs = p ++ xs.filterMap fun
      | .name n => some n
      | _ => none := by
  induction xs generalizing p with
  | nil => simp [reach]
  | cons x xs ih =>
      have rest := ih fun y hy => onward y (List.mem_cons_of_mem _ hy)
      obtain ⟨noRoot, noUp⟩ := onward x List.mem_cons_self
      cases x with
      | root => exact absurd rfl noRoot
      | up => exact absurd rfl noUp
      | here => simp [reach, rest]
      | name n => simp [reach, rest]

end Disk

/-! ## References -/

section

variable {r p base : Path} {front rest : List PathPart} {n : String}

theorem segments_of_last (last : r.parts = front ++ [.name n]) (D : Place)
    (onward : ∀ x ∈ front, x ≠ .root ∧ x ≠ .up) (named : Path.IsName n) :
    let reference : Path := ⟨"/".intercalate (Identity.moduleSegments r.names)⟩
    let stem := (Path.splitName n.toList).1
    reference.isAbsolute = false ∧
      reach D reference.parts = reach (reach D front)
        (if Identity.isIndex stem then [] else (Path.mk (String.ofList stem)).parts) := by
  intro reference stem
  let directories := front.filterMap fun
    | .name n => some n
    | _ => none
  have names : r.names = directories ++ [n] := by
    rw [Path.names, last, List.filterMap_append]
    rfl
  have segments : Identity.moduleSegments r.names =
      directories ++ if Identity.isIndex stem then [] else [String.ofList stem] := by
    rw [names, Identity.moduleSegments, List.getLast?_concat]
    simp only [List.dropLast_concat, Identity.moduleName]
    rw [show (Path.splitName n.toList).1 = stem from rfl]
    cases Identity.isIndex stem with
    | true => exact (List.append_nil _).symm
    | false => rfl
  obtain ⟨nonempty, within⟩ := Path.splitName_fst named.ne_nil
  have parts_of {m : String} (hm : m ∈ directories) : PathPart.name m ∈ r.parts := by
    obtain ⟨x, hx, isName⟩ := List.mem_filterMap.1 hm
    rw [last]
    cases x <;> cases isName
    exact List.mem_append_left _ hx
  have piece {m : String} (hm : m ∈ Identity.moduleSegments r.names) :
      m.toList ≠ [] ∧ ∀ c ∈ m.toList, (c == '/') = false := by
    rw [segments, List.mem_append] at hm
    obtain hm | hm := hm
    · have := Path.isName_of_mem_parts (parts_of hm)
      exact ⟨this.ne_nil, this.2.2⟩
    · split at hm
      · cases hm
      · obtain rfl := List.mem_singleton.1 hm
        rw [String.toList_ofList]
        exact ⟨nonempty, fun c hc => named.2.2 c (within c hc)⟩
  have whole : Path.bodyParts reference.text.toList =
      (Identity.moduleSegments r.names).flatMap fun v => Path.bodyParts v.toList :=
    Path.bodyParts_intercalate fun v hv => (piece hv).2
  have relative : reference.isAbsolute = false := by
    cases shape : Identity.moduleSegments r.names with
    | nil => simp only [reference, shape]; rfl
    | cons w ws =>
        have first := piece (shape ▸ List.mem_cons_self)
        simp only [reference, shape]
        exact Path.relative_intercalate ws first.1 first.2
  refine ⟨relative, ?_⟩
  have upper : directories.flatMap (fun v => Path.bodyParts v.toList) = directories.map .name :=
    Path.flatMap_bodyParts fun m hm => Path.isName_of_mem_parts (parts_of hm)
  have way : reach D (directories.map .name) = reach D front := by
    rw [reach_names, reach_onward onward]
  rw [← reach_bodyParts relative, whole, segments, List.flatMap_append, upper, reach_append, way]
  split
  next => rfl
  next =>
    have relative : (Path.mk (String.ofList stem)).isAbsolute = false := by
      rw [← String.append_empty (s := String.ofList stem)]
      refine Path.relative_append ?_ ?_ ""
      · rwa [String.toList_ofList]
      · rw [String.toList_ofList]
        exact fun c hc => named.2.2 c (within c hc)
    rw [List.flatMap_singleton, reach_bodyParts relative]

theorem exists_reach_stem {w : List Char} (nonempty : w ≠ [])
    (noSlash : ∀ c ∈ w, (c == '/') = false) (onward : w ≠ ['.', '.']) :
    ∃ names, ∀ D, reach D (Path.mk (String.ofList w)).parts = D ++ names := by
  by_cases dot : w = ['.']
  · exact ⟨[], fun D => by rw [dot, List.append_nil]; rfl⟩
  · have named : Path.IsName (String.ofList w) := by
      rw [Path.IsName, String.toList_ofList]
      exact ⟨Path.counts_iff.2 ⟨nonempty, dot⟩, onward, noSlash⟩
    refine ⟨[String.ofList w], fun D => ?_⟩
    rw [← reach_bodyParts named.relative, named.bodyParts]
    rfl

/-- A component is imported as what its stem, below its directory, leads to. -/
theorem reach_module (named : p.fileName? = some n) (last : p.parts = front ++ [.name n])
    (here : Place) :
    let stem := (Path.splitName n.toList).1
    reach here p.module.parts = reach (reach here front)
      (if Identity.isIndex stem then [] else (Path.mk (String.ofList stem)).parts) := by
  intro stem
  obtain ⟨directory, hdirectory⟩ : ∃ directory, p.parent? = some directory := by
    rw [← Option.ne_none_iff_exists']
    intro none
    obtain none | root := Path.parent?_eq_none_iff.1 none
    · simp [none] at last
    · simp [last] at root
  have parts : directory.parts = front := by
    rw [Path.parts_parent? hdirectory, last, List.dropLast_concat]
  have stemText : p.fileStem? = some (String.ofList stem) := by
    rw [Path.fileStem?, named]
    rfl
  rw [Path.module, hdirectory, stemText]
  simp only [Option.getD_some, String.toList_ofList]
  split
  · rw [parts]
    rfl
  · rw [reach_join, parts]

/-- A reference is the start and the segments, or, without segments, the start without slashes at
its end. -/
theorem importPath_eq (component project aliasRoot : Path) (aliasMark start : String)
    (h : component.from? aliasRoot = some r ∧ start = aliasMark ∨
      component.from? aliasRoot = none ∧ component.from? project = some r ∧ start = "../") :
    Identity.importPath component project aliasRoot aliasMark =
        start ++ "/".intercalate (Identity.moduleSegments r.names) ∨
      "/".intercalate (Identity.moduleSegments r.names) = "" ∧
        Identity.importPath component project aliasRoot aliasMark =
          String.ofList (dropEndWhile (· == '/') start.toList) := by
  unfold Identity.importPath
  obtain ⟨found, rfl⟩ | ⟨outside, found, rfl⟩ := h
  · simp only [found]
    cases Identity.moduleSegments r.names with
    | nil => exact .inr ⟨rfl, rfl⟩
    | cons w ws => exact .inl rfl
  · simp only [outside, found, Option.getD_some]
    cases Identity.moduleSegments r.names with
    | nil => exact .inr ⟨rfl, rfl⟩
    | cons w ws => exact .inl rfl

theorem reach_upward {tail : String} (relative : (Path.mk tail).isAbsolute = false) (D : Place) :
    reach D (Path.mk ("../" ++ tail)).parts = reach D.dropLast (Path.mk tail).parts := by
  have parts : (Path.mk ("../" ++ tail)).parts = .up :: Path.bodyParts tail.toList := by
    rw [Path.parts_eq, String.toList_append]
    exact Path.partsOf_append (by simp : ['.', '.'] ≠ []) tail.toList
  rw [parts]
  exact reach_bodyParts relative D.dropLast

variable (relative : p.from? base = some r) (below : p.LiesBelow base) (named : p.fileName? = some n)

include relative below named in
theorem exists_front : ∃ front, r.parts = front ++ [.name n] ∧
    p.parts = (base.parts ++ front) ++ [.name n] ∧ ∀ x ∈ front, x ≠ .root ∧ x ≠ .up := by
  obtain ⟨rest, nonempty, whole, onward⟩ := below
  obtain rfl : r.parts = rest :=
    List.append_cancel_left ((Path.parts_from? relative).symm.trans whole)
  obtain none | ⟨front, x, split⟩ := List.eq_nil_or_concat r.parts
  · exact absurd none nonempty
  rw [List.concat_eq_append] at split
  rw [split, ← List.append_assoc] at whole
  have last := Path.fileName?_eq_some_iff.1 named
  rw [whole, List.getLast?_concat] at last
  obtain rfl := Option.some.inj last
  exact ⟨front, split, whole, fun y hy => onward y (split ▸ List.mem_append_left _ hy)⟩

include relative below named in
theorem segments_find :
    let tail := "/".intercalate (Identity.moduleSegments r.names)
    (Path.mk tail).isAbsolute = false ∧
      ∀ here, reach (reach here base.parts) (Path.mk tail).parts = reach here p.module.parts := by
  intro tail
  obtain ⟨front, last, whole, onward⟩ := exists_front relative below named
  have name := Path.isName_of_mem_parts (List.mem_of_getLast? (Path.fileName?_eq_some_iff.1 named))
  refine ⟨(segments_of_last last [] onward name).1, fun here => ?_⟩
  rw [(segments_of_last last (reach here base.parts) onward name).2, reach_module named whole here,
    reach_append]

end

/-! ## Imports of stories -/

section

variable {s : Settings} {p : Path}

theorem template_importPath (name : DisplayName) : (s.template p name).importPath =
    Identity.importPath p s.projectRoot s.aliasRoot s.shortForm.mark := by
  rw [Settings.template]

/-- Below the alias root, the mark of a reference stands for that root. -/
theorem finds_through_alias {n : String} (named : p.fileName? = some n)
    (below : p.LiesBelow s.aliasRoot) (here : Place) :
    let mark := s.shortForm.mark
    let reference := (s.template p (s.nameOf p)).importPath
    ∃ tail, (reference = mark ++ tail ∨
        tail = "" ∧ reference = String.ofList (dropEndWhile (· == '/') mark.toList)) ∧
      p.Finds here s.aliasRoot tail := by
  intro mark reference
  obtain ⟨r, found⟩ := below.exists_from
  refine ⟨"/".intercalate (Identity.moduleSegments r.names), ?_, ?_⟩
  · rw [show reference = _ from template_importPath _]
    exact importPath_eq p s.projectRoot s.aliasRoot mark mark (.inl ⟨found, rfl⟩)
  rw [Path.Finds, reach_join]
  exact (segments_find found below named).2 here

/-- Elsewhere a reference leads to the component from the directories in the project root. -/
theorem finds_upward {n : String} (named : p.fileName? = some n)
    (outside : p.startsWith s.aliasRoot = false) (below : p.LiesBelow s.projectRoot) (here : Place)
    (base : Path) :
    let reference := (s.template p (s.nameOf p)).importPath
    ((reach here base.parts).dropLast = reach here s.projectRoot.parts → p.Finds here base reference) ∧
      (p.fileStem? ≠ some ".." → p.Finds here base reference →
        (reach here base.parts).dropLast = reach here s.projectRoot.parts) := by
  intro reference
  obtain ⟨r, found⟩ := below.exists_from
  obtain ⟨relative, finds⟩ := segments_find found below named
  obtain ⟨front, last, whole, onward⟩ := exists_front found below named
  have name := Path.isName_of_mem_parts (List.mem_of_getLast? (Path.fileName?_eq_some_iff.1 named))
  have missing : p.from? s.aliasRoot = none := by
    rw [← Option.not_isSome_iff_eq_none, Path.isSome_from?, outside]
    exact Bool.false_ne_true
  have upward : reach here (base.join ⟨reference⟩).parts = reach (reach here base.parts).dropLast
      (Path.mk ("/".intercalate (Identity.moduleSegments r.names))).parts := by
    rw [reach_join, ← reach_upward relative, show reference = _ from template_importPath _]
    obtain whole | ⟨none, whole⟩ := importPath_eq p s.projectRoot s.aliasRoot s.shortForm.mark "../"
      (.inr ⟨missing, found, rfl⟩)
    · rw [whole]
    · rw [whole, none]
      rfl
  rw [Path.Finds, upward, ← finds here]
  refine ⟨fun same => by rw [same], fun stem same => ?_⟩
  rw [(segments_of_last last _ onward name).2, (segments_of_last last _ onward name).2,
    reach_onward onward, reach_onward onward] at same
  split at same
  next => exact List.append_cancel_right same
  next =>
    obtain ⟨nonempty, within⟩ := Path.splitName_fst name.ne_nil
    obtain ⟨names, adds⟩ := exists_reach_stem nonempty (fun c hc => name.2.2 c (within c hc))
      fun up => stem (by rw [Path.fileStem?, named, Option.map_some, up])
    rw [adds, adds] at same
    exact List.append_cancel_right (List.append_cancel_right same)

end

/-- The import of a story leads to its component: through the alias for a component below the alias
root, and for another one below the project root just if the directory of the story lies in the
project root itself. -/
theorem import_finds_component (s : Settings) (p : Path) (handled : s.handles p = true)
    (here : Place) :
    let mark := s.shortForm.mark
    let reference := (s.template p (s.nameOf p)).importPath
    (p.LiesBelow s.aliasRoot → ∃ tail, (reference = mark ++ tail ∨
        tail = "" ∧ reference = String.ofList (dropEndWhile (· == '/') mark.toList)) ∧
      p.Finds here s.aliasRoot tail) ∧
    (p.startsWith s.aliasRoot = false → p.LiesBelow s.projectRoot →
      ∀ directory, (s.storyOf p).parent? = some directory →
        ((reach here directory.parts).dropLast = reach here s.projectRoot.parts →
          p.Finds here directory reference) ∧
        (p.fileStem? ≠ some ".." → p.Finds here directory reference →
          (reach here directory.parts).dropLast = reach here s.projectRoot.parts)) := by
  obtain ⟨n, named⟩ := (handles_cases handled).1
  exact ⟨fun below => finds_through_alias named below here,
    fun outside below directory _ => finds_upward named outside below here directory⟩

def librarySettings (stories : String) : Settings :=
  { Settings.standard with
    projectRoot := ⟨"/project"⟩
    componentsDir := ⟨"lib/ui"⟩
    storiesDir := ⟨stories⟩ }

theorem import_finds_component_of_badge :
    let s := librarySettings "stories"
    Path.Finds ⟨"/project/lib/ui/Badge.tsx"⟩ [] ⟨"/project/stories"⟩ "../lib/ui/Badge" ∧
      ∃ tail, ("@/components/Card" = s.shortForm.mark ++ tail ∨ tail = "" ∧
          "@/components/Card" = String.ofList (dropEndWhile (· == '/') s.shortForm.mark.toList)) ∧
        Path.Finds ⟨"/project/src/components/Card.tsx"⟩ [] s.aliasRoot tail := by
  intro s
  have badge := (import_finds_component s ⟨"/project/lib/ui/Badge.tsx"⟩ (by decide +kernel) []).2
    (by decide +kernel) ⟨[.name "lib", .name "ui", .name "Badge.tsx"], by decide +kernel⟩
    ⟨"/project/stories"⟩ (by decide +kernel)
  have card := (import_finds_component s ⟨"/project/src/components/Card.tsx"⟩ (by decide +kernel) []).1
    ⟨[.name "components", .name "Card.tsx"], by decide +kernel⟩
  have reference : (s.template ⟨"/project/lib/ui/Badge.tsx"⟩
      (s.nameOf ⟨"/project/lib/ui/Badge.tsx"⟩)).importPath = "../lib/ui/Badge" := by decide +kernel
  have reference' : (s.template ⟨"/project/src/components/Card.tsx"⟩
      (s.nameOf ⟨"/project/src/components/Card.tsx"⟩)).importPath = "@/components/Card" := by
    decide +kernel
  rw [reference] at badge
  rw [reference'] at card
  exact ⟨badge.1 (by decide +kernel), card⟩

/-- From a story deeper in the project, one step up does not lead to the project root. Nor does the
alias lead to a component on whose path a directory is left again. -/
theorem import_misses_component :
    let s := librarySettings "src/stories"
    let badge : Path := ⟨"/project/lib/ui/Badge.tsx"⟩
    let card : Path := ⟨"/project/src/ui/../Card.tsx"⟩
    (s.handles badge = true ∧ badge.startsWith s.aliasRoot = false ∧ badge.LiesBelow s.projectRoot ∧
      (s.storyOf badge).parent? = some ⟨"/project/src/stories"⟩ ∧
      ¬ badge.Finds [] ⟨"/project/src/stories"⟩ (s.template badge (s.nameOf badge)).importPath) ∧
    (s.handles card = true ∧ card.startsWith s.aliasRoot = true ∧
      (s.template card (s.nameOf card)).importPath = s.shortForm.mark ++ "ui/Card" ∧
      ¬ card.Finds [] s.aliasRoot "ui/Card") := by
  intro s badge card
  refine ⟨⟨by decide +kernel, by decide +kernel, ?_, by decide +kernel, ?_⟩, by decide +kernel,
    by decide +kernel, by decide +kernel, ?_⟩
  · exact ⟨[.name "lib", .name "ui", .name "Badge.tsx"], by decide +kernel⟩
  · rw [Path.Finds]
    decide +kernel
  · rw [Path.Finds]
    decide +kernel

end PropStories
