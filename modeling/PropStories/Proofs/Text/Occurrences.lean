import PropStories.Text.Blank

/-!
# Occurrences of a text in another

A text occurs in another that is put together from pieces just if it occurs in a piece, as long as
what separates the pieces is not part of it.
-/

namespace PropStories.Text

variable {α : Type} {part xs ys : List α} {c : α}

theorem startsWith_iff {start cs : List Char} : startsWith start cs = true ↔ start <+: cs := by
  rw [startsWith, Option.isSome_iff_exists]
  simp only [afterStart?_eq_some_iff]
  exact ⟨fun ⟨rest, eq⟩ => ⟨rest, eq.symm⟩, fun ⟨rest, eq⟩ => ⟨rest, eq.symm⟩⟩

theorem occursIn_iff {part cs : List Char} : occursIn part cs = true ↔ part <:+: cs := by
  induction cs with
  | nil => rw [occursIn, List.isEmpty_iff, List.infix_nil]
  | cons c cs ih => rw [occursIn, Bool.or_eq_true, startsWith_iff, ih, List.infix_cons_iff]

/-! ## Pieces -/

theorem prefix_append_cons (apart : c ∉ part) : part <+: xs ++ c :: ys ↔ part <+: xs := by
  induction xs generalizing part with
  | nil =>
      cases part with
      | nil => simp
      | cons d part =>
          have other : d ≠ c := fun eq => apart (eq ▸ List.mem_cons_self)
          simp [List.cons_prefix_cons, other]
  | cons x xs ih =>
      cases part with
      | nil => simp
      | cons d part =>
          rw [List.cons_append, List.cons_prefix_cons, List.cons_prefix_cons,
            ih fun member => apart (List.mem_cons_of_mem _ member)]

theorem infix_append_cons (apart : c ∉ part) :
    part <:+: xs ++ c :: ys ↔ part <:+: xs ∨ part <:+: ys := by
  induction xs with
  | nil =>
      have none_ : part <+: [] ++ c :: ys ↔ part <+: [] := prefix_append_cons apart
      rw [List.nil_append] at none_ ⊢
      rw [List.infix_cons_iff, none_, List.prefix_nil, List.infix_nil]
  | cons x xs ih =>
      rw [List.cons_append, List.infix_cons_iff, ← List.cons_append, prefix_append_cons apart, ih,
        List.infix_cons_iff, or_assoc]

theorem infix_cons_of_apart (some_ : part ≠ []) (apart : c ∉ part) :
    part <:+: c :: ys ↔ part <:+: ys := by
  have split : part <:+: [] ++ c :: ys ↔ part <:+: [] ∨ part <:+: ys := infix_append_cons apart
  rwa [List.nil_append, List.infix_nil, or_iff_right some_] at split

theorem infix_append_of_apart (some_ : part ≠ []) (apart : ∀ d ∈ xs, d ∉ part) :
    part <:+: xs ++ ys ↔ part <:+: ys := by
  induction xs with
  | nil => rfl
  | cons x xs ih =>
      rw [List.cons_append, infix_cons_of_apart some_ (apart x List.mem_cons_self),
        ih fun d hd => apart d (List.mem_cons_of_mem _ hd)]

theorem infix_intercalate_iff {sep : List α} (some_ : part ≠ []) (apart : ∀ d ∈ c :: sep, d ∉ part)
    (pieces : List (List α)) :
    part <:+: (c :: sep).intercalate pieces ↔ ∃ xs ∈ pieces, part <:+: xs := by
  induction pieces with
  | nil => simp [some_]
  | cons xs pieces ih =>
      cases pieces with
      | nil => simp
      | cons ys pieces =>
          rw [List.intercalate_cons_cons, List.append_assoc, List.cons_append,
            infix_append_cons (apart c List.mem_cons_self),
            infix_append_of_apart some_ fun d hd => apart d (List.mem_cons_of_mem _ hd), ih]
          simp

end PropStories.Text
