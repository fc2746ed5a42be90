import PropStories.Contract.Type

/-!
# Merged properties

Merging lists of properties keeps, of one name, the first property and nothing else, in order.
-/

namespace PropStories

def DistinctNames (ps : List Property) : Prop := (ps.map Property.name).Nodup

theorem DistinctNames.nil : DistinctNames [] := List.nodup_nil

namespace Property

/-! ## The first of each name -/

def firstOfEachName : List Property → List Property
  | [] => []
  | p :: ps => p :: (firstOfEachName ps).filter (·.name != p.name)

variable {p : Property} {ps first : List Property}

theorem firstOfEachName_sublist (ps : List Property) : (firstOfEachName ps).Sublist ps := by
  induction ps with
  | nil => exact .slnil
  | cons p ps ih => exact (List.filter_sublist.trans ih).cons_cons p

theorem distinct_firstOfEachName (ps : List Property) : DistinctNames (firstOfEachName ps) := by
  induction ps with
  | nil => exact .nil
  | cons p ps ih =>
      rw [firstOfEachName, DistinctNames, List.map_cons, List.nodup_cons]
      refine ⟨fun mem => ?_, ih.sublist (List.filter_sublist.map _)⟩
      obtain ⟨q, hq, same⟩ := List.mem_map.1 mem
      simpa [same] using (List.mem_filter.1 hq).2

theorem mem_firstOfEachName : p ∈ firstOfEachName ps ↔ ps.find? (·.name == p.name) = some p := by
  induction ps with
  | nil => simp [firstOfEachName]
  | cons q qs ih =>
      rw [firstOfEachName, List.mem_cons, List.mem_filter]
      by_cases same : q.name = p.name
      · simp [same, eq_comm]
      · have other : p ≠ q := fun eq => same (eq ▸ rfl)
        rw [List.find?_cons_of_neg (by simpa using same), ← ih]
        simp [other, Ne.symm same]

theorem filter_firstOfEachName (name : String) (ps : List Property) :
    (firstOfEachName ps).filter (·.name != name) =
      firstOfEachName (ps.filter (·.name != name)) := by
  induction ps with
  | nil => rfl
  | cons p ps ih =>
      by_cases same : p.name = name
      · rw [firstOfEachName, List.filter_cons_of_neg (by simpa using same),
          List.filter_cons_of_neg (by simpa using same), List.filter_filter, ← ih]
        simp [same]
      · rw [firstOfEachName, List.filter_cons_of_pos (by simpa using same),
          List.filter_cons_of_pos (by simpa using same), firstOfEachName, ← ih, List.filter_filter,
          List.filter_filter]
        simp only [Bool.and_comm]

theorem firstOfEachName_of_distinct (h : DistinctNames ps) : firstOfEachName ps = ps := by
  induction ps with
  | nil => rfl
  | cons p ps ih =>
      rw [DistinctNames, List.map_cons, List.nodup_cons] at h
      rw [firstOfEachName, ih h.2, List.filter_eq_self.2 fun q hq => ?_]
      rw [bne_iff_ne]
      exact fun same => h.1 (List.mem_map.2 ⟨q, hq, same⟩)

theorem firstOfEachName_map {f : Property → Property} (name : ∀ p, (f p).name = p.name)
    (ps : List Property) : firstOfEachName (ps.map f) = (firstOfEachName ps).map f := by
  induction ps with
  | nil => rfl
  | cons p ps ih =>
      rw [List.map_cons, firstOfEachName, firstOfEachName, List.map_cons, ih, List.filter_map]
      simp only [Function.comp_def, name]

theorem firstOfEachName_append (first ps : List Property) :
    firstOfEachName (firstOfEachName first ++ ps) = firstOfEachName (first ++ ps) := by
  induction first with
  | nil => rfl
  | cons p first ih =>
      simp only [firstOfEachName, List.cons_append]
      rw [filter_firstOfEachName, List.filter_append, List.filter_filter]
      simp only [Bool.and_self]
      rw [← List.filter_append, ← filter_firstOfEachName, ih]

theorem firstOfEachName_append_cons (h : first.any (·.name == p.name) = true) (ps : List Property) :
    firstOfEachName (first ++ p :: ps) = firstOfEachName (first ++ ps) := by
  induction first with
  | nil => cases h
  | cons q first ih =>
      rw [List.cons_append, List.cons_append, firstOfEachName, firstOfEachName]
      by_cases same : q.name = p.name
      · rw [filter_firstOfEachName, filter_firstOfEachName, List.filter_append, List.filter_append,
          List.filter_cons_of_neg (by simp [same])]
      · rw [List.any_cons, Bool.or_eq_true, beq_iff_eq] at h
        rw [ih (h.resolve_left same)]

/-! ## Merging -/

theorem merge_cons (first ps : List Property) (p : Property) :
    merge first (p :: ps) =
      merge (if first.any (·.name == p.name) then first else first ++ [p]) ps :=
  rfl

theorem distinct_concat (h : DistinctNames first) (fresh : ¬ first.any (·.name == p.name) = true) :
    DistinctNames (first ++ [p]) := by
  rw [DistinctNames, List.map_append, List.nodup_append]
  refine ⟨h, by simp, ?_⟩
  rintro n hn m hm rfl
  rw [List.map_singleton, List.mem_singleton] at hm
  obtain ⟨q, hq, name⟩ := List.mem_map.1 hn
  exact fresh (List.any_eq_true.2 ⟨q, hq, by simp [name, hm]⟩)

theorem merge_eq (h : DistinctNames first) (second : List Property) :
    merge first second = firstOfEachName (first ++ second) := by
  -- Whether the next property is appended or dropped, the first list keeps distinct names.
  induction second generalizing first with
  | nil => rw [List.append_nil, firstOfEachName_of_distinct h, merge, List.foldl_nil]
  | cons q qs ih =>
      rw [merge_cons]
      split
      next known => rw [ih h, firstOfEachName_append_cons known]
      next fresh =>
        rw [ih (distinct_concat h fresh), List.append_assoc, List.singleton_append]

theorem distinct_merge (h : DistinctNames first) (second : List Property) :
    DistinctNames (merge first second) := by
  rw [merge_eq h]
  exact distinct_firstOfEachName _

theorem mem_merge {second : List Property} (h : p ∈ merge first second) :
    p ∈ first ∨ p ∈ second := by
  induction second generalizing first with
  | nil => exact .inl h
  | cons q qs ih =>
      rw [merge_cons] at h
      rcases ih h with h | h
      · split at h
        · exact .inl h
        · rcases List.mem_append.1 h with h | h
          · exact .inl h
          · exact .inr (List.mem_singleton.1 h ▸ List.mem_cons_self)
      · exact .inr (List.mem_cons_of_mem _ h)

theorem foldl_merge (first : List Property) (lists : List (List Property)) :
    lists.foldl merge first = merge first lists.flatten := by
  unfold merge
  rw [List.foldl_flatten]

end Property

end PropStories
