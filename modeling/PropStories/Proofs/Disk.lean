import PropStories.Proofs.Path
import PropStories.Story.Writer

/-!
# What operations do to a disk

A path leads to one place, whatever the disk holds. Writing and removing a file change this place
alone; making directories fills empty places on the way.
-/

namespace PropStories

namespace Disk

/-! ## Single places -/

theorem lookup_filter_ne (entries : List (Place × Entry)) {p q : Place} (h : q ≠ p) :
    (entries.filter (·.1 != p)).lookup q = entries.lookup q := by
  induction entries with
  | nil => rfl
  | cons x entries ih =>
      obtain ⟨r, e⟩ := x
      by_cases hr : r = p
      · have hq : (q == r) = false := by simpa [hr] using h
        rw [List.filter_cons_of_neg (by simpa using hr), List.lookup_cons, hq, ih]
      · rw [List.filter_cons_of_pos (by simpa using hr), List.lookup_cons, List.lookup_cons, ih]

theorem lookup_filter_self (entries : List (Place × Entry)) (p : Place) :
    (entries.filter (·.1 != p)).lookup p = none := by
  rw [List.lookup_eq_none_iff]
  intro x hx
  have other : x.1 ≠ p := by simpa using (List.mem_filter.1 hx).2
  simpa using other.symm

theorem at?_set_of_ne {d : Disk} {p q : Place} {e : Entry} (h : q ≠ p) :
    (d.set p e).at? q = d.at? q := by
  have hq : (q == p) = false := by simpa using h
  simp only [at?, set, remove, List.lookup_cons, hq, lookup_filter_ne _ h]

theorem at?_set_self {d : Disk} {p : Place} {e : Entry} (h : p ≠ []) :
    (d.set p e).at? p = some e := by
  simp [at?, set, h]

theorem at?_remove_of_ne {d : Disk} {p q : Place} (h : q ≠ p) : (d.remove p).at? q = d.at? q := by
  simp only [at?, remove, lookup_filter_ne _ h]

theorem at?_remove_self {d : Disk} {p : Place} (h : p ≠ []) : (d.remove p).at? p = none := by
  simp [at?, remove, h, lookup_filter_self]

theorem at?_nil (d : Disk) : d.at? [] = some .directory := rfl

/-! ## The place that a path leads to -/

/-- The place that parts lead to from another, if all directories on the way exist. -/
def reach : Place → List PathPart → Place
  | p, [] => p
  | _, .root :: rest => reach [] rest
  | p, .here :: rest => reach p rest
  | p, .up :: rest => reach p.dropLast rest
  | p, .name n :: rest => reach (p ++ [n]) rest

theorem reach_append (p : Place) (xs ys : List PathPart) :
    reach p (xs ++ ys) = reach (reach p xs) ys := by
  induction xs generalizing p with
  | nil => rfl
  | cons x xs ih => cases x <;> exact ih _

theorem reach_names (p : Place) (names : List String) :
    reach p (names.map .name) = p ++ names := by
  induction names generalizing p with
  | nil => simp [reach]
  | cons n names ih => simp [reach, ih]

theorem exists_names {xs : List PathPart} (h : ∀ x ∈ xs, ∃ n, x = .name n) :
    ∃ names : List String, xs = names.map .name := by
  induction xs with
  | nil => exact ⟨[], rfl⟩
  | cons x xs ih =>
      obtain ⟨n, rfl⟩ := h x List.mem_cons_self
      obtain ⟨names, rfl⟩ := ih fun y hy => h y (List.mem_cons_of_mem _ hy)
      exact ⟨n :: names, rfl⟩

def destination (d : Disk) (path : Path) : Place := reach d.here path.parts

theorem follow_cons_eq_ok_iff {d : Disk} {p q : Place} {x : PathPart} {rest : List PathPart} :
    d.follow p (x :: rest) = .ok q ↔
      match x with
      | .root => d.follow [] rest = .ok q
      | .here => d.follow p rest = .ok q
      | .up => d.at? p = some .directory ∧ d.follow p.dropLast rest = .ok q
      | .name n => d.at? p = some .directory ∧ n.utf8ByteSize ≤ nameLimit ∧
          d.follow (p ++ [n]) rest = .ok q := by
  cases x with
  | root => rfl
  | here => rfl
  | up =>
      rw [follow]
      split <;> simp_all
  | name n =>
      rw [follow]
      split
      · split
        · simp only [reduceCtorEq, false_iff]
          omega
        · simp_all
      · simp_all
      · simp_all

theorem follow_eq_reach {d : Disk} {p q : Place} {parts : List PathPart}
    (h : d.follow p parts = .ok q) : q = reach p parts := by
  induction parts generalizing p with
  | nil =>
      cases h
      rfl
  | cons x rest ih =>
      rw [follow_cons_eq_ok_iff] at h
      cases x with
      | root => exact ih h
      | here => exact ih h
      | up => exact ih h.2
      | name n => exact ih h.2.2

theorem placeOf_eq_ok_iff {d : Disk} {path : Path} {p : Place} :
    d.placeOf path = .ok p ↔
      path.text.isEmpty = false ∧ path.text.toList.contains '\x00' = false ∧
        d.follow d.here path.parts = .ok p := by
  unfold placeOf
  split
  · simp_all
  · split <;> simp_all

theorem placeOf_eq_destination {d : Disk} {path : Path} {p : Place} (h : d.placeOf path = .ok p) :
    p = d.destination path :=
  follow_eq_reach (placeOf_eq_ok_iff.1 h).2.2

theorem placed_eq_ok {α : Type} {d : Disk} {path : Path} {f : Place → Except DiskError α} {a : α}
    (h : d.placeOf path >>= f = .ok a) :
    d.placeOf path = .ok (d.destination path) ∧ f (d.destination path) = .ok a := by
  cases place : d.placeOf path with
  | error x =>
      rw [place] at h
      cases h
  | ok p =>
      rw [place] at h
      rw [← placeOf_eq_destination place]
      exact ⟨rfl, h⟩

theorem find_eq_ok_iff {d : Disk} {path : Path} {e : Entry} :
    d.find path = .ok e ↔
      d.placeOf path = .ok (d.destination path) ∧ d.at? (d.destination path) = some e ∧
        (meansDirectory path → e = .directory) := by
  constructor
  · intro h
    obtain ⟨place, h⟩ := placed_eq_ok h
    refine ⟨place, ?_⟩
    split at h
    next => cases h
    next found =>
      cases h
      exact ⟨found, fun _ => rfl⟩
    next c found =>
      split at h
      next => cases h
      next plain =>
        cases h
        exact ⟨found, fun h => absurd h plain⟩
  · rintro ⟨place, found, plain⟩
    unfold find
    rw [place]
    simp only [bind, Except.bind, found]
    cases e with
    | directory => rfl
    | file c =>
        have plain : ¬ meansDirectory path = true := fun h => nomatch plain h
        simp only [if_neg plain]

theorem exists?_iff {d : Disk} {path : Path} :
    d.exists? path = true ↔ ∃ e, d.find path = .ok e := by
  unfold exists?
  cases d.find path <;> simp [Except.isOk, Except.toBool]

theorem isFile_iff {d : Disk} {path : Path} :
    d.isFile path = true ↔ ∃ c, d.find path = .ok (.file c) := by
  unfold isFile
  split
  next c found => simp [found]
  next other => simpa using fun c found => other c found

/-! ## Reading -/

theorem readText_eq_ok_iff {d : Disk} {path : Path} {source : String} :
    d.readText path = .ok source ↔ d.find path = .ok (.file (.text source)) := by
  unfold readText
  cases d.find path with
  | error x => simp [bind, Except.bind]
  | ok entry =>
      cases entry with
      | directory => simp [bind, Except.bind]
      | file c => cases c <;> simp [bind, Except.bind]

/-! ## Writing and removing -/

theorem ne_nil_of_at? {d : Disk} {p : Place} (h : d.at? p ≠ some .directory) : p ≠ [] := by
  rintro rfl
  exact h d.at?_nil

theorem write_eq_ok {d d' : Disk} {path : Path} {c : Content} (h : d.write path c = .ok d') :
    d.placeOf path = .ok (d.destination path) ∧ meansDirectory path = false ∧
      d.at? (d.destination path) ≠ some .directory ∧
      d' = d.set (d.destination path) (.file c) := by
  obtain ⟨place, h⟩ := placed_eq_ok h
  split at h
  next => cases h
  next refused =>
    cases h
    simp only [Bool.or_eq_true, beq_iff_eq, not_or, Bool.not_eq_true] at refused
    exact ⟨place, refused.1, refused.2, rfl⟩

theorem find_of_write {d d' : Disk} {path : Path} {c old : Content} (h : d.write path c = .ok d')
    (there : d.at? (d.destination path) = some (.file old)) : d.find path = .ok (.file old) := by
  obtain ⟨place, plain, -, -⟩ := write_eq_ok h
  exact find_eq_ok_iff.2 ⟨place, there, by simp [plain]⟩

theorem write_of_find {d : Disk} {path : Path} {c : Content} (new : Content)
    (h : d.find path = .ok (.file c)) :
    d.write path new = .ok (d.set (d.destination path) (.file new)) := by
  obtain ⟨place, found, plain⟩ := find_eq_ok_iff.1 h
  have plain : meansDirectory path = false := by simpa using plain
  simp [write, place, bind, Except.bind, plain, found]

theorem removeFile_eq_ok {d d' : Disk} {path : Path} (h : d.removeFile path = .ok d') :
    ∃ c, d.at? (d.destination path) = some (.file c) ∧ d' = d.remove (d.destination path) := by
  obtain ⟨-, h⟩ := placed_eq_ok h
  cases found : d.find path with
  | error x =>
      rw [found] at h
      cases h
  | ok e =>
      rw [found] at h
      cases e with
      | directory => cases h
      | file c =>
          cases h
          exact ⟨c, (find_eq_ok_iff.1 found).2.1, rfl⟩

theorem removeFile_of_find {d : Disk} {path : Path} {c : Content}
    (h : d.find path = .ok (.file c)) :
    d.removeFile path = .ok (d.remove (d.destination path)) := by
  simp [removeFile, (find_eq_ok_iff.1 h).1, bind, Except.bind, h]

theorem makeDirectory_eq_ok {d d' : Disk} {path : Path} (h : d.makeDirectory path = .ok d') :
    d.at? (d.destination path) = none ∧ d' = d.set (d.destination path) .directory := by
  obtain ⟨-, h⟩ := placed_eq_ok h
  split at h
  next => cases h
  next empty =>
    cases h
    exact ⟨empty, rfl⟩

/-! ## New directories -/

/-- Whether a place holds what it held, or a new directory where nothing was, on a way. -/
def Kept (way : List PathPart) (d d' : Disk) (p : Place) : Prop :=
  d'.at? p = d.at? p ∨
    d.at? p = none ∧ d'.at? p = some .directory ∧ ∃ n < way.length, p = reach d.here (way.take n)

/-- A disk with nothing new but directories on a way. -/
structure Grown (way : List PathPart) (d d' : Disk) : Prop where
  here : d'.here = d.here
  kept : ∀ p, Kept way d d' p

variable {way : List PathPart} {d d' d'' : Disk}

theorem Grown.refl : Grown way d d := ⟨rfl, fun _ => .inl rfl⟩

theorem Grown.trans (first : Grown way d d') (second : Grown way d' d'') : Grown way d d'' := by
  refine ⟨second.here.trans first.here, fun p => ?_⟩
  have onWay := first.here
  obtain same | ⟨empty, made, on⟩ := second.kept p
  · obtain same' | ⟨empty', made', on'⟩ := first.kept p
    · exact .inl (same.trans same')
    · exact .inr ⟨empty', same.trans made', on'⟩
  · obtain same' | ⟨empty', made', on'⟩ := first.kept p
    · exact .inr ⟨same'.symm.trans empty, made, onWay ▸ on⟩
    · rw [made'] at empty
      cases empty

theorem Grown.directory (h : Grown way d d') {p : Place} (at_ : d.at? p = some .directory) :
    d'.at? p = some .directory := by
  obtain same | ⟨empty, -, -⟩ := h.kept p
  · rw [same, at_]
  · rw [at_] at empty
    cases empty

theorem Grown.file_after (h : Grown way d d') {p : Place} {c : Content}
    (at_ : d.at? p = some (.file c)) : d'.at? p = some (.file c) := by
  obtain same | ⟨empty, -, -⟩ := h.kept p
  · rw [same, at_]
  · rw [at_] at empty
    cases empty

theorem Grown.file (h : Grown way d d') {p : Place} {c : Content} (at_ : d'.at? p = some (.file c)) :
    d.at? p = some (.file c) := by
  obtain same | ⟨-, made, -⟩ := h.kept p
  · rw [← same, at_]
  · rw [at_] at made
    cases made

theorem Grown.destination (h : Grown way d d') (path : Path) :
    d'.destination path = d.destination path := by
  rw [Disk.destination, Disk.destination, h.here]

theorem makeDirectory_grown {path : Path} {n : Nat} (short : n < way.length)
    (on : path.parts = way.take n) (h : d.makeDirectory path = .ok d') : Grown way d d' := by
  obtain ⟨empty, rfl⟩ := makeDirectory_eq_ok h
  refine ⟨rfl, fun p => ?_⟩
  by_cases hp : p = d.destination path
  · refine .inr ⟨hp ▸ empty, ?_, n, short, by rw [hp, Disk.destination, on]⟩
    rw [hp]
    exact at?_set_self (ne_nil_of_at? (d := d) (by simp [empty]))
  · exact .inl (at?_set_of_ne hp)

theorem makeDirectories_grown {fuel : Nat} {path : Path} {n : Nat} (short : n < way.length)
    (on : path.parts = way.take n) : Grown way d (d.makeDirectories fuel path).1 := by
  induction fuel generalizing path n with
  | zero => exact .refl
  | succ fuel ih =>
      rw [makeDirectories]
      split
      next => exact .refl
      next =>
        split
        next made => exact makeDirectory_grown short on made
        next missing =>
          split
          next => exact .refl
          next parent hparent =>
            have onParent : parent.parts = way.take (n - 1) := by
              rw [Path.parts_parent? hparent, on, List.dropLast_take short]
            have above := ih (by omega) onParent
            split
            next x _ h => exact h ▸ above
            next x h =>
              have above := h ▸ above
              split
              next made => exact above.trans (makeDirectory_grown short on made)
              next => exact above
        next => exact .refl

/-! ## Trees -/

def IsTree (d : Disk) : Prop := ∀ p, d.at? p ≠ none → d.at? p.dropLast = some .directory

theorem isTree_of_entries {d : Disk}
    (h : ∀ x ∈ d.entries, d.at? x.1.dropLast = some .directory) : d.IsTree := by
  intro p there
  by_cases root : p = []
  · rw [root]
    exact d.at?_nil
  · obtain ⟨e, found⟩ := Option.ne_none_iff_exists'.1 there
    simp only [at?, List.isEmpty_eq_false_iff.2 root] at found
    obtain ⟨front, back, whole, -⟩ := List.lookup_eq_some_iff.1 found
    exact h (p, e) (by simp [whole])

theorem IsTree.above (tree : d.IsTree) {p q : Place} (above : p <+: q) (proper : p ≠ q)
    (there : d.at? q ≠ none) : d.at? p = some .directory := by
  obtain ⟨rest, rfl⟩ := above
  induction h : rest.length generalizing rest with
  | zero =>
      cases List.length_eq_zero_iff.1 h
      exact absurd (List.append_nil p).symm proper
  | succ n ih =>
      have parent := tree _ there
      rw [List.dropLast_append_of_ne_nil (by rintro rfl; cases h)] at parent
      by_cases last : p ++ rest.dropLast = p
      · rwa [last] at parent
      · exact ih rest.dropLast (fun h => last h.symm) (by simp [parent]) (by simp [h])

/-- In a tree, a way that never turns back is open as soon as something is at its end. -/
theorem IsTree.follow (tree : d.IsTree) {parts : List PathPart} (onward : .up ∉ parts)
    (relative : .root ∉ parts) {p q : Place} (h : d'.follow p parts = .ok q)
    (there : d.at? q ≠ none) : d.follow p parts = .ok q ∧ p <+: q := by
  induction parts generalizing p with
  | nil =>
      cases h
      exact ⟨rfl, List.prefix_refl _⟩
  | cons x rest ih =>
      simp only [List.mem_cons, not_or] at onward relative
      rw [follow_cons_eq_ok_iff] at h ⊢
      cases x with
      | root => exact absurd rfl relative.1
      | here => exact ih onward.2 relative.2 h
      | up => exact absurd rfl onward.1
      | name n =>
          obtain ⟨-, short, h⟩ := h
          obtain ⟨behind, above⟩ := ih onward.2 relative.2 h
          have strict : p <+: q ∧ p ≠ q := by
            obtain ⟨more, rfl⟩ := above
            rw [List.append_assoc]
            exact ⟨List.prefix_append _ _, by simp⟩
          exact ⟨⟨tree.above strict.1 strict.2 there, short, behind⟩, strict.1⟩

end Disk

end PropStories
