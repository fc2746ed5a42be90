import PropStories.Proofs.Tsx.Nesting
import PropStories.Story.Locate

/-!
# Where the object literals of a story stand

The literals of two variables lie apart, and all that is found in a literal lies between its
braces.
-/

namespace PropStories.Story

open Tsx

variable {x : Syntax} {source : List Char}

/-! ## Ways down a tree -/

theorem fits_of_mem_children {t c : Tree} (h : Fits source t) (hc : c ∈ t.children) :
    Fits source c ∧ t.start ≤ c.start ∧ c.stop ≤ t.stop :=
  h.lined.mem hc

theorem fits_of_child? {t c : Tree} {l : Label} (h : Fits source t) (hc : t.child? l = some c) :
    Fits source c ∧ t.start ≤ c.start ∧ c.stop ≤ t.stop :=
  fits_of_mem_children h (Tree.mem_children_of_child? hc)

theorem lined_sublist {a b : Nat} {ts us : List Tree} (h : Lined source a ts b)
    (sub : us.Sublist ts) : Lined source a us b := by
  induction sub generalizing a with
  | slnil => exact h
  | cons t _ ih =>
      rw [lined_cons] at h
      exact (ih h.2.2).mono (Nat.le_trans h.1 h.2.1.start_le_stop) (Nat.le_refl b)
  | cons_cons t _ ih =>
      rw [lined_cons] at h ⊢
      exact ⟨h.1, h.2.1, ih h.2.2⟩

theorem lined_flatMap {a b : Nat} {ts : List Tree} {f : Tree → List Tree}
    (h : Lined source a ts b)
    (inside : ∀ t, Fits source t → Lined source t.start (f t) t.stop) :
    Lined source a (ts.flatMap f) b := by
  induction ts generalizing a with
  | nil => exact h
  | cons t ts ih =>
      rw [lined_cons] at h
      rw [List.flatMap_cons]
      exact lined_append.2 ⟨t.stop, (inside t h.2.1).mono h.1 (Nat.le_refl _), ih h.2.2⟩

/-- Two trees of a line are the same, or one ends before the other begins. -/
theorem apart_of_mem {a b : Nat} {ts : List Tree} {t u : Tree} (h : Lined source a ts b)
    (ht : t ∈ ts) (hu : u ∈ ts) : t = u ∨ t.stop ≤ u.start ∨ u.stop ≤ t.start := by
  obtain ⟨i, hi, rfl⟩ := List.getElem_of_mem ht
  obtain ⟨j, hj, rfl⟩ := List.getElem_of_mem hu
  have order := List.pairwise_iff_getElem.1 h.pairwise
  rcases Nat.lt_trichotomy i j with lt | rfl | gt
  · exact .inr (.inl (order i j hi hj lt))
  · exact .inl rfl
  · exact .inr (.inr (order j i hj hi gt))

/-! ## Declarations -/

theorem lined_declarators {statement : Tree} (h : Fits source statement) :
    Lined source statement.start (declarators statement) statement.stop := by
  have below {d : Tree} (fits : Fits source d) :
      Lined source d.start (d.namedChildren.filter (·.kind == .variableDeclarator)) d.stop :=
    lined_sublist fits.lined (List.filter_sublist.trans List.filter_sublist)
  have none : Lined source statement.start [] statement.stop := lined_nil.2 h.start_le_stop
  unfold declarators
  simp only
  split
  · exact none
  · rename_i d hd
    split
    · split at hd
      · obtain ⟨fits, left, right⟩ := fits_of_child? h hd
        exact (below fits).mono left right
      · obtain rfl := Option.some.inj hd
        exact below h
    · exact none

theorem kind_of_mem_declarators {statement d : Tree} (h : d ∈ declarators statement) :
    d.kind = .variableDeclarator := by
  unfold declarators at h
  simp only at h
  split at h
  · contradiction
  · split at h
    · simpa using (List.mem_filter.1 h).2
    · contradiction

mutual

theorem fits_of_bare? : {t v : Tree} → Fits source t → bare? t = some v →
    Fits source v ∧ t.start ≤ v.start ∧ v.stop ≤ t.stop
  | .node k l s e cs, v, h, hv => by
      unfold bare? at hv
      have inside := fits_of_bareAmong? (v := v) h.lined
      split at hv
      · exact inside hv
      · exact inside hv
      · exact inside hv
      · obtain rfl := Option.some.inj hv
        exact ⟨h, Nat.le_refl _, Nat.le_refl _⟩

theorem fits_of_bareAmong? : {a b : Nat} → {ts : List Tree} → {v : Tree} →
    Lined source a ts b → bareAmong? ts = some v → Fits source v ∧ a ≤ v.start ∧ v.stop ≤ b
  | _, _, [], _, _, hv => by
      rw [bareAmong?] at hv
      contradiction
  | _, _, t :: ts, v, h, hv => by
      rw [lined_cons] at h
      rw [bareAmong?] at hv
      have here := fits_of_bare? (v := v) h.2.1
      have behind := fits_of_bareAmong? (v := v) h.2.2
      have order := h.2.1.start_le_stop
      have bound := h.2.2.le
      split at hv
      · obtain ⟨fits, left, right⟩ := here hv
        exact ⟨fits, by omega, by omega⟩
      · obtain ⟨fits, left, right⟩ := behind hv
        exact ⟨fits, by omega, by omega⟩

end

def declared (x : Syntax) : List Tree := x.root.namedChildren.flatMap declarators

theorem kind_of_mem_declared {d : Tree} (h : d ∈ declared x) : d.kind = .variableDeclarator := by
  obtain ⟨statement, -, hd⟩ := List.mem_flatMap.1 h
  exact kind_of_mem_declarators hd

theorem lined_declared {b : Nat} (h : Lined source 0 x.root.children b) :
    Lined source 0 (declared x) b :=
  lined_flatMap (lined_sublist h List.filter_sublist) fun _ => lined_declarators

theorem objectOf?_eq_some {name : String} {t : Tree} (h : objectOf? x name = some t) :
    ∃ d value, (declared x).find? (fun d => ((d.child? .name).map x.stringOf) == some name) =
        some d ∧ d.child? .value = some value ∧ bare? value = some t ∧ t.kind = .object := by
  unfold objectOf? at h
  simp only [Option.bind_eq_bind, Option.bind_eq_some_iff] at h
  obtain ⟨d, hd, value, hv, t', ht, h⟩ := h
  split at h
  · rename_i kind
    obtain rfl := Option.some.inj h
    exact ⟨d, value, hd, hv, ht, by simpa using kind⟩
  · contradiction

theorem declared_of_objectOf? {b : Nat} (lined : Lined source 0 x.root.children b)
    {name : String} {t : Tree} (h : objectOf? x name = some t) :
    ∃ d ∈ declared x, (d.child? .name).map x.stringOf = some name ∧ t.kind = .object ∧
      Fits source t ∧ d.start ≤ t.start ∧ t.stop ≤ d.stop := by
  obtain ⟨d, value, hd, hv, ht, kind⟩ := objectOf?_eq_some h
  have mem := List.mem_of_find?_eq_some hd
  have named : (d.child? .name).map x.stringOf = some name := by
    simpa using List.find?_some hd
  obtain ⟨valueFits, valueLeft, valueRight⟩ := fits_of_child? ((lined_declared lined).mem mem).1 hv
  obtain ⟨fits, left, right⟩ := fits_of_bare? valueFits ht
  exact ⟨d, mem, named, kind, fits, by omega, by omega⟩

theorem objects_apart {b : Nat} (lined : Lined source 0 x.root.children b) {m n : String}
    (different : m ≠ n) {t u : Tree} (ht : objectOf? x m = some t) (hu : objectOf? x n = some u) :
    t.stop ≤ u.start ∨ u.stop ≤ t.start := by
  obtain ⟨d, hd, dName, -, -, dLeft, dRight⟩ := declared_of_objectOf? lined ht
  obtain ⟨e, he, eName, -, -, eLeft, eRight⟩ := declared_of_objectOf? lined hu
  obtain rfl | order := apart_of_mem (lined_declared lined) hd he
  · rw [dName] at eName
    exact absurd (Option.some.inj eName) different
  · omega

/-! ## Braces -/

structure IsLiteral (source : List Char) (object : Tree) : Prop where
  fits : Fits source object
  kind : object.kind = .object

theorem fits_token {t : Tree} {w : String} (h : Fits source t) (kind : t.kind = .token w) :
    t.stop = t.start + w.length ∧ Text.slice source t.start t.stop = w.toList := by
  have token := h.kindFits
  rwa [kind] at token

theorem getElem?_of_slice {a b : Nat} {c : Char} {source : List Char}
    (h : Text.slice source a b = [c]) : source[a]? = some c := by
  have head : (Text.slice source a b)[0]? = some c := by rw [h]; rfl
  rw [Text.slice, List.getElem?_take] at head
  split at head
  · rwa [List.getElem?_drop, Nat.add_zero] at head
  · contradiction

namespace IsLiteral

variable {object : Tree}

theorem braces (h : IsLiteral source object) :
    ∃ opening inner closing, object.children = opening :: (inner ++ [closing]) ∧
      opening.kind = .token "\x7b" ∧ closing.kind = .token "\x7d" ∧
      Lined source (object.start + 1) inner (object.stop - 1) ∧
      object.start + 2 ≤ object.stop ∧
      source[object.start]? = some '\x7b' ∧ source[object.stop - 1]? = some '\x7d' := by
  have kind := h.fits.kindFits
  rw [h.kind] at kind
  obtain ⟨opening, inner, closing, children, openingKind, closingKind, start_eq, stop_eq⟩ := kind
  have lined := h.fits.lined
  rw [children, lined_cons, lined_append] at lined
  obtain ⟨-, openingFits, m, middle, ending⟩ := lined
  rw [lined_singleton] at ending
  obtain ⟨openingStop, openingText⟩ := fits_token openingFits openingKind
  obtain ⟨closingStop, closingText⟩ := fits_token ending.2.1 closingKind
  have openingLength : "\x7b".length = 1 := rfl
  have closingLength : "\x7d".length = 1 := rfl
  have order := middle.le
  refine ⟨opening, inner, closing, children, openingKind, closingKind,
    middle.mono (by omega) (by omega), by omega, ?_, ?_⟩
  · rw [← start_eq]
    exact getElem?_of_slice openingText
  · rw [show object.stop - 1 = closing.start by omega]
    exact getElem?_of_slice closingText

theorem inside (h : IsLiteral source object) {c : Tree} (hc : c ∈ object.children)
    (opening : c.kind ≠ .token "\x7b") (closing : c.kind ≠ .token "\x7d") :
    Fits source c ∧ object.start < c.start ∧ c.stop < object.stop := by
  obtain ⟨o, inner, d, children, oKind, dKind, lined, length, -, -⟩ := h.braces
  rw [children] at hc
  rcases List.mem_cons.1 hc with rfl | hc
  · exact absurd oKind opening
  rcases List.mem_append.1 hc with hc | hc
  · obtain ⟨fits, left, right⟩ := lined.mem hc
    exact ⟨fits, by omega, by omega⟩
  · obtain rfl := List.mem_singleton.1 hc
    exact absurd dKind closing

theorem inside_of_named (h : IsLiteral source object) {c : Tree}
    (hc : c ∈ object.namedChildren) :
    Fits source c ∧ object.start < c.start ∧ c.stop < object.stop := by
  obtain ⟨mem, named⟩ := List.mem_filter.1 hc
  have notToken (w : String) : c.kind ≠ .token w := by
    intro kind
    rw [kind] at named
    contradiction
  exact h.inside mem (notToken _) (notToken _)

end IsLiteral

theorem isLiteral_of_objectOf? {b : Nat} (lined : Lined source 0 x.root.children b)
    {name : String} {t : Tree} (h : objectOf? x name = some t) : IsLiteral source t := by
  obtain ⟨d, -, -, kind, fits, -, -⟩ := declared_of_objectOf? lined h
  exact ⟨fits, kind⟩

end PropStories.Story
