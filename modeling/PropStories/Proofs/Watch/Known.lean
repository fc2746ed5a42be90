import PropStories.Proofs.Path
import PropStories.Watch.Known

/-!
# Known components as a set

What is added, erased and forgotten is stated through `contains`, which sees the parts of paths
only. A set goes from one to another along events, each of which fits the set that it finds.
-/

namespace PropStories

theorem Path.same_iff {p q : Path} : p.same q = true ↔ p.parts = q.parts := beq_iff_eq

namespace KnownComponents

variable {k k' k'' : KnownComponents} {dir p q : Path} {e : ComponentEvent}
  {es es' : List ComponentEvent}

/-! ## Members -/

theorem contains_iff : k.contains p = true ↔ ∃ q ∈ k.paths, q.parts = p.parts := by
  simp [contains, Path.same_iff]

theorem not_contains_iff : k.contains p = false ↔ ∀ q ∈ k.paths, q.parts ≠ p.parts := by
  rw [← Bool.not_eq_true, contains_iff]
  simp

theorem contains_congr (same : p.parts = q.parts) : k.contains p = k.contains q := by
  rw [Bool.eq_iff_iff, contains_iff, contains_iff, same]

theorem isBelow_iff : isBelow dir p = true ↔ dir.parts <+: p.parts ∧ p.parts ≠ dir.parts := by
  rw [isBelow, Bool.and_eq_true, Path.startsWith_iff, Bool.not_eq_true', ← Bool.not_eq_true,
    Path.same_iff]

theorem insert_perm (k : KnownComponents) (p : Path) :
    (k.insert p).paths.Perm (p :: k.paths.filter fun q => !q.same p) := by
  unfold insert
  refine List.perm_middle.trans (.cons p ?_)
  rw [List.takeWhile_append_dropWhile]

theorem mem_insert : q ∈ (k.insert p).paths ↔ q = p ∨ q ∈ k.paths ∧ q.parts ≠ p.parts := by
  rw [(insert_perm k p).mem_iff, List.mem_cons, List.mem_filter, Bool.not_eq_true',
    ← Bool.not_eq_true, Path.same_iff]

theorem mem_erase : q ∈ (k.erase p).paths ↔ q ∈ k.paths ∧ q.parts ≠ p.parts := by
  rw [erase, List.mem_filter, Bool.not_eq_true', ← Bool.not_eq_true, Path.same_iff]

theorem contains_insert :
    (k.insert p).contains q = true ↔ p.parts = q.parts ∨ k.contains q = true := by
  simp only [contains_iff, mem_insert]
  constructor
  · rintro ⟨r, rfl | ⟨member, -⟩, same⟩
    · exact .inl same
    · exact .inr ⟨r, member, same⟩
  · rintro (same | ⟨r, member, same⟩)
    · exact ⟨p, .inl rfl, same⟩
    · by_cases again : r.parts = p.parts
      · exact ⟨p, .inl rfl, again.symm.trans same⟩
      · exact ⟨r, .inr ⟨member, again⟩, same⟩

theorem contains_erase :
    (k.erase p).contains q = true ↔ k.contains q = true ∧ p.parts ≠ q.parts := by
  simp only [contains_iff, mem_erase]
  constructor
  · rintro ⟨r, ⟨member, other⟩, same⟩
    exact ⟨⟨r, member, same⟩, same ▸ other.symm⟩
  · rintro ⟨⟨r, member, same⟩, other⟩
    exact ⟨r, ⟨member, same ▸ other.symm⟩, same⟩

theorem contains_forgetBelow :
    (k.forgetBelow dir).1.contains q = true ↔ k.contains q = true ∧ isBelow dir q = false := by
  have congr {r : Path} (same : r.parts = q.parts) : isBelow dir r = isBelow dir q := by
    rw [Bool.eq_iff_iff, isBelow_iff, isBelow_iff, same]
  simp only [contains_iff, forgetBelow, List.mem_filter, Bool.not_eq_true']
  constructor
  · rintro ⟨r, ⟨member, outside⟩, same⟩
    exact ⟨⟨r, member, same⟩, congr same ▸ outside⟩
  · rintro ⟨⟨r, member, same⟩, outside⟩
    exact ⟨r, ⟨member, (congr same).trans outside⟩, same⟩

/-! ## Sets -/

def IsSet (k : KnownComponents) : Prop := k.paths.Pairwise fun p q => p.parts ≠ q.parts

theorem isSet_empty : empty.IsSet := .nil

theorem IsSet.filter (set : k.IsSet) (f : Path → Bool) : IsSet ⟨k.paths.filter f⟩ :=
  List.Pairwise.filter f set

theorem IsSet.insert (set : k.IsSet) (p : Path) : (k.insert p).IsSet := by
  unfold IsSet
  rw [(insert_perm k p).pairwise_iff fun h => h.symm, List.pairwise_cons]
  refine ⟨fun q member => ?_, set.filter _⟩
  rw [List.mem_filter, Bool.not_eq_true', ← Bool.not_eq_true, Path.same_iff] at member
  exact Ne.symm member.2

theorem isSet_foldl (set : k.IsSet) (ps : List Path) :
    (ps.foldl KnownComponents.insert k).IsSet := by
  induction ps generalizing k with
  | nil => exact set
  | cons p ps ih => exact ih (set.insert p)

theorem isSet_ofList (ps : List Path) : (ofList ps).IsSet := isSet_foldl isSet_empty ps

theorem mem_of_mem_foldl {ps : List Path} (h : q ∈ (ps.foldl insert k).paths) :
    q ∈ k.paths ∨ q ∈ ps := by
  induction ps generalizing k with
  | nil => exact .inl h
  | cons p ps ih =>
      obtain inside | later := ih h
      · obtain rfl | ⟨old, -⟩ := mem_insert.1 inside
        · exact .inr List.mem_cons_self
        · exact .inl old
      · exact .inr (List.mem_cons_of_mem _ later)

theorem mem_of_mem_ofList {ps : List Path} (h : q ∈ (ofList ps).paths) : q ∈ ps :=
  (mem_of_mem_foldl h).resolve_left List.not_mem_nil

/-! ## Events -/

def record (k : KnownComponents) (e : ComponentEvent) : KnownComponents :=
  match e.kind with
  | .added => k.insert e.path
  | .changed => k
  | .deleted => k.erase e.path

def Fits (k : KnownComponents) (e : ComponentEvent) : Prop :=
  e.kind = .added ↔ k.contains e.path = false

theorem contains_record (fits : k.Fits e) (p : Path) :
    (k.record e).contains p = if e.path.same p then e.kind != .deleted else k.contains p := by
  obtain ⟨kind, path⟩ := e
  by_cases same : path.parts = p.parts
  · rw [if_pos (Path.same_iff.2 same), ← contains_congr same]
    cases kind with
    | added => exact contains_insert.2 (.inl rfl)
    | changed =>
        have known : k.contains path = true := by simpa [Fits] using fits
        rw [record, known]
        rfl
    | deleted => simp [record, ← Bool.not_eq_true, contains_erase]
  · rw [if_neg fun h => same (Path.same_iff.1 h), Bool.eq_iff_iff]
    cases kind with
    | added => simp [record, contains_insert, same]
    | changed => rfl
    | deleted => simp [record, contains_erase, same]

/-- A run from one set to another, along events each of which fits the set that it finds. -/
inductive Records : KnownComponents → List ComponentEvent → KnownComponents → Prop where
  | nil (k : KnownComponents) : Records k [] k
  | cons {k k' : KnownComponents} {e : ComponentEvent} {es : List ComponentEvent} (fits : k.Fits e)
      (rest : Records (k.record e) es k') : Records k (e :: es) k'

theorem Records.append (first : Records k es k') (second : Records k' es' k'') :
    Records k (es ++ es') k'' := by
  induction first with
  | nil => exact second
  | cons fits _ ih => exact .cons fits (ih second)

theorem Records.split (h : Records k (es ++ es') k'') :
    ∃ k', Records k es k' ∧ Records k' es' k'' := by
  induction es generalizing k with
  | nil => exact ⟨k, .nil k, h⟩
  | cons e es ih =>
      cases h with
      | cons fits rest =>
          obtain ⟨k', first, second⟩ := ih rest
          exact ⟨k', .cons fits first, second⟩

theorem IsSet.record (set : k.IsSet) (e : ComponentEvent) : (k.record e).IsSet := by
  unfold KnownComponents.record
  split
  · exact set.insert e.path
  · exact set
  · exact set.filter _

theorem Records.isSet (h : Records k es k') (set : k.IsSet) : k'.IsSet := by
  induction h with
  | nil => exact set
  | @cons k k' e es fits rest ih => exact ih (set.record e)

theorem mem_of_mem_record (h : q ∈ (k.record e).paths) : q ∈ k.paths ∨ q = e.path := by
  unfold record at h
  split at h
  · exact (mem_insert.1 h).symm.imp_left And.left
  · exact .inl h
  · exact .inl (mem_erase.1 h).1

theorem Records.mem (h : Records k es k') (member : q ∈ k'.paths) :
    q ∈ k.paths ∨ ∃ e ∈ es, e.path = q := by
  induction h with
  | nil => exact .inl member
  | @cons k k' e es fits rest ih =>
      obtain old | ⟨e', he', path⟩ := ih member
      · obtain old | new := mem_of_mem_record old
        · exact .inl old
        · exact .inr ⟨e, List.mem_cons_self, new.symm⟩
      · exact .inr ⟨e', List.mem_cons_of_mem e he', path⟩

/-! ## Histories -/

/-- Whether the last event of a component left it known; without any, whether it was known. -/
def knownAfter (k : KnownComponents) (es : List ComponentEvent) (p : Path) : Bool :=
  match es.reverse.find? (·.path.same p) with
  | none => k.contains p
  | some e => e.kind != .deleted

theorem Records.contains_eq (h : Records k es k') (p : Path) :
    k'.contains p = k.knownAfter es p := by
  induction h with
  | nil => rfl
  | @cons k k' e es fits rest ih =>
      rw [ih, knownAfter, knownAfter, List.reverse_cons, List.find?_append]
      cases es.reverse.find? (·.path.same p) with
      | some last => rfl
      | none =>
          rw [contains_record fits]
          cases same : e.path.same p <;> simp [same]

theorem Records.fits (h : Records k (es ++ e :: es') k') :
    e.kind = .added ↔ k.knownAfter es e.path = false := by
  obtain ⟨before, first, second⟩ := h.split
  rw [← first.contains_eq]
  cases second with
  | cons fits rest => exact fits

end KnownComponents

end PropStories
