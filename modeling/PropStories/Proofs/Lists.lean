import Mathlib.Data.List.Basic

/-!
# Lists

Facts about lists of anything.
-/

namespace PropStories.Lists

variable {α β : Type}

theorem findSome?_congr {f g : α → Option β} {l : List α} (same : ∀ a ∈ l, f a = g a) :
    l.findSome? f = l.findSome? g := by
  induction l with
  | nil => rfl
  | cons a l ih =>
      rw [List.findSome?_cons, List.findSome?_cons, same a List.mem_cons_self,
        ih fun b hb => same b (List.mem_cons_of_mem a hb)]

theorem eq_of_length_le_one {l : List α} (h : l.length ≤ 1) {a b : α} (ha : a ∈ l)
    (hb : b ∈ l) : a = b := by
  match l, h with
  | [c], _ => rw [List.mem_singleton.1 ha, List.mem_singleton.1 hb]

theorem mem_intercalate {sep : List α} {xs : List (List α)} {x : α}
    (h : x ∈ sep.intercalate xs) : x ∈ sep ∨ ∃ ys ∈ xs, x ∈ ys := by
  induction xs with
  | nil => cases h
  | cons ys xs ih =>
      cases xs with
      | nil => exact .inr ⟨ys, List.mem_cons_self, by simpa using h⟩
      | cons zs xs =>
          rw [List.intercalate_cons_cons, List.mem_append, List.mem_append] at h
          obtain (h | h) | h := h
          · exact .inr ⟨ys, List.mem_cons_self, h⟩
          · exact .inl h
          · exact (ih h).imp_right fun ⟨zs, hz, h⟩ => ⟨zs, List.mem_cons_of_mem _ hz, h⟩

theorem infix_intercalate {sep x : List α} {xs : List (List α)} (h : x ∈ xs) :
    x <:+: sep.intercalate xs := by
  induction xs with
  | nil => cases h
  | cons y ys ih =>
      cases ys with
      | nil =>
          obtain rfl := List.mem_singleton.1 h
          exact ⟨[], [], by simp⟩
      | cons z zs =>
          rw [List.intercalate_cons_cons]
          obtain rfl | h := List.mem_cons.1 h
          · exact ⟨[], sep ++ sep.intercalate (z :: zs), by simp⟩
          · exact (ih h).trans (List.suffix_append _ _).isInfix

end PropStories.Lists
