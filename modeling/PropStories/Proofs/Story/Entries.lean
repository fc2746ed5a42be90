import PropStories.Proofs.Story.Courses
import PropStories.Proofs.Story.Renewal

/-!
# The entries of a reconciled literal

In the literal of a region that was written or removed, the entries around the edit keep their
keys. The entry of the region is found if it was written, and it is not found if it was removed.
-/

namespace PropStories.Reconciliation

open Story Tsx
open Edit (place placeFrom spliceFrom)
open Text (slice)

variable {x y : Syntax} {props : List Synth.PropDescriptor} {o : ReconcileOptions}
  {written : Region → Tree}

/-! ## Keys -/

def isEntry (x : Syntax) (key : String) (m : Tree) : Bool :=
  m.kind == .pair && ((m.child? .key).map x.keyName) == some key

theorem pairOf?_eq (x : Syntax) (object : Tree) (key : String) :
    pairOf? x object key = object.namedChildren.find? (isEntry x key) := rfl

theorem isEntry_eq_true {key : String} {m : Tree} :
    isEntry x key m = true ↔
      m.kind = .pair ∧ ∃ k, m.child? .key = some k ∧ x.keyName k = key := by
  unfold isEntry
  rw [Bool.and_eq_true, beq_iff_eq, beq_iff_eq, Option.map_eq_some_iff]

theorem isEntry_congr {key : String} {c c' : Tree} {f : Tree → Tree} (kind : c'.kind = c.kind)
    (children : c.kind = .pair → c'.children = c.children.map f)
    (label : ∀ k, (f k).label? = k.label?)
    (text : ∀ k ∈ c.children, y.textOf (f k) = x.textOf k) :
    isEntry y key c' = isEntry x key c := by
  unfold isEntry
  rw [kind]
  by_cases pair : c.kind = .pair
  · rw [Tree.child?_map (children pair) label]
    cases found : c.child? .key with
    | none => rfl
    | some k =>
        have same : y.keyName (f k) = x.keyName k := by
          unfold Syntax.keyName
          rw [text k (Tree.mem_children_of_child? found)]
        rw [Option.map_some, Option.map_some, Option.map_some, same]
  · rw [beq_eq_false_iff_ne.2 pair, Bool.false_and, Bool.false_and]

namespace Renewal

variable (h : Renewal x props o written y)

include h

theorem isEntry {c : Tree} (fits : Fits x.source c) (outside : Outside x props o c.start c.stop)
    (key : String) : isEntry y key (rebuilt x props o written c) = isEntry x key c := by
  refine isEntry_congr (h.kind c) (fun pair => h.children ?_) h.label? fun k hk => ?_
  · rw [pair]
    decide
  · obtain ⟨kFits, left, right⟩ := fits_of_mem_children fits hk
    exact h.textOf (outside.mono left right) kFits.start_le_stop

/-- What lies in a node that no edit reaches into keeps its text. -/
theorem slice_carried {c : Tree} (untouched : Edit.Untouched (edits x props o) c.start c.stop)
    {i j : Nat} (hi : c.start ≤ i) (hij : i ≤ j) (hj : j ≤ c.stop) :
    slice y.source (place (edits x props o) c.start + (i - c.start))
      (place (edits x props o) c.start + (j - c.start)) = slice x.source i j := by
  rw [h.source]
  exact Edit.slice_spliceFrom h.inOrder (Nat.zero_le _) untouched hi hij hj

theorem isEntry_carried {c : Tree} (fits : Fits x.source c)
    (untouched : Edit.Untouched (edits x props o) c.start c.stop) (key : String) :
    Reconciliation.isEntry y key (carried (edits x props o) c) =
      Reconciliation.isEntry x key c := by
  refine isEntry_congr (Tree.kind_mapPlaces _ c) (fun _ => Tree.children_mapPlaces _ c)
    (Tree.label?_mapPlaces _) fun k hk => ?_
  obtain ⟨kFits, left, right⟩ := fits_of_mem_children fits hk
  show slice y.source (Tree.mapPlaces _ k).start (Tree.mapPlaces _ k).stop =
    slice x.source k.start k.stop
  rw [Tree.start_mapPlaces, Tree.stop_mapPlaces]
  exact h.slice_carried untouched left kFits.start_le_stop right

theorem textOf_carried {c : Tree} (untouched : Edit.Untouched (edits x props o) c.start c.stop)
    (range : c.start ≤ c.stop) : y.textOf (carried (edits x props o) c) = x.textOf c := by
  show slice y.source (Tree.mapPlaces _ c).start (Tree.mapPlaces _ c).stop =
    slice x.source c.start c.stop
  rw [Tree.start_mapPlaces, Tree.stop_mapPlaces]
  exact h.slice_carried untouched (Nat.le_refl _) range (Nat.le_refl _)

theorem pairOf?_of_outside {object : Tree} (fits : Fits x.source object)
    (outside : Outside x props o object.start object.stop) (key : String) :
    pairOf? y (rebuilt x props o written object) key =
      (pairOf? x object key).map (rebuilt x props o written) := by
  have children : (rebuilt x props o written object).children =
      object.children.map (rebuilt x props o written) := by
    rw [rebuilt, Tree.substitute_of_none (h.new?_of_outside outside)]
    rfl
  rw [pairOf?_eq, pairOf?_eq, Tree.namedChildren_map children h.kind, List.find?_map]
  refine congrArg _ (List.find?_congr fun c hc => ?_)
  obtain ⟨cFits, left, right⟩ :=
    fits_of_mem_children fits (Tree.mem_children_of_mem_namedChildren hc)
  exact h.isEntry cFits (outside.mono left right) key

end Renewal

/-! ## The literal of a region -/

structure Edited (x : Syntax) (props : List Synth.PropDescriptor) (o : ReconcileOptions)
    (r : Region) (object : Tree) (change : Change) (e : Edit) : Prop where
  found : objectOf? x (owner o r) = some object
  planned : (plan x props o r).edit = some (change, e)

section

variable {r : Region} {object : Tree} {change : Change} {e : Edit}

namespace Renewal

variable (h : Renewal x props o written y) (edited : Edited x props o r object change e)

include h edited

theorem inBraces : InBraces x.source object e ∧ Range x object r e.start e.stop := by
  obtain ⟨b, lined⟩ := h.lined
  obtain ⟨object', found, inside⟩ := editOf_plan lined edited.planned
  rw [edited.found] at found
  obtain rfl := Option.some.inj found
  exact inside

theorem others_apart {f : Edit} (hf : f ∈ edits x props o) :
    f = e ∨ f.stop < object.start ∨ object.stop < f.start := by
  obtain ⟨b, lined⟩ := h.lined
  obtain ⟨s, other, planned⟩ := mem_edits.1 hf
  by_cases same : r = s
  · rw [← same, edited.planned] at planned
    exact .inl (Prod.mk.inj (Option.some.inj planned)).2.symm
  · obtain ⟨object', found, braces, -⟩ := editOf_plan lined planned
    have := objects_apart lined (owner_ne h.named same) edited.found found
    have := braces.left
    have := braces.right
    omega

theorem untouched {p q : Nat} (left : object.start ≤ p) (right : q ≤ object.stop)
    (apart : q ≤ e.start ∨ e.stop ≤ p) : Edit.Untouched (edits x props o) p q := by
  intro f hf
  obtain rfl | order := h.others_apart edited hf
  · exact apart
  · omega

theorem new?_object : new? x props o written object = some (written r) := by
  obtain ⟨b, lined⟩ := h.lined
  have edit : (plan x props o r).edit.isSome = true := by
    rw [edited.planned]
    rfl
  cases new : new? x props o written object with
  | none =>
      rw [new?, List.findSome?_eq_none_iff] at new
      have none := new r (by cases r <;> simp)
      rw [if_pos ⟨edited.found, edit⟩] at none
      contradiction
  | some u =>
      obtain ⟨s, found, -, rfl⟩ := new?_eq_some new
      by_cases same : s = r
      · rw [same]
      · obtain ⟨-, -, -, -, -, -, -, length, -, -⟩ := (h.isLiteral found).braces
        have := objects_apart lined (owner_ne h.named same) found edited.found
        omega

theorem objectOf?_written : Story.objectOf? y (owner o r) = some (written r) := by
  rw [h.objectOf?, edited.found, Option.map_some, rebuilt,
    Tree.substitute_of_new (h.new?_object edited)]

theorem slice_text {i j : Nat} (hj : j ≤ e.text.length) :
    slice y.source (textPlace (edits x props o) object e + i)
      (textPlace (edits x props o) object e + j) = slice e.text i j := by
  obtain ⟨braces, -⟩ := h.inBraces edited
  have left := braces.left
  have right := braces.right
  rw [h.source]
  refine Edit.slice_text h.inOrder (mem_edits.2 ⟨r, change, edited.planned⟩) (Nat.zero_le _) left
    (fun f hf => ?_) hj
  obtain same | order := h.others_apart edited hf
  · exact .inl same
  · omega

/-! ### Entries around the edit -/

theorem isEntry_child {c : Tree} (hc : c ∈ object.children)
    (apart : c.stop ≤ e.start ∨ e.stop ≤ c.start) (key : String) :
    Reconciliation.isEntry y key (carried (edits x props o) c) =
      Reconciliation.isEntry x key c := by
  obtain ⟨fits, left, right⟩ := fits_of_mem_children (h.isLiteral edited.found).fits hc
  exact h.isEntry_carried fits (h.untouched edited left right apart) key

theorem pairOf?_reopened (ts us : List Tree) {p : Tree}
    (front : ∀ c ∈ object.namedChildren, c.stop ≤ e.start →
      Reconciliation.isEntry x r.key c = false)
    (tokens : ∀ t ∈ ts, t.kind.isNamed = false)
    (entry : Reconciliation.isEntry y r.key p = true) :
    pairOf? y (reopened (edits x props o) e object (ts ++ p :: us)) r.key = some p := by
  have named : p.kind.isNamed = true := by
    rw [(isEntry_eq_true.1 entry).1]
    rfl
  rw [pairOf?_eq, Tree.namedChildren, List.find?_filter, List.find?_eq_some_iff_append]
  refine ⟨by simp [named, entry],
    (object.children.filter (·.stop ≤ e.start)).map (carried (edits x props o)) ++ ts,
    us ++ (object.children.filter (e.stop ≤ ·.start)).map (carried (edits x props o)), ?_, ?_⟩
  · simp only [reopened, Tree.children, List.append_assoc, List.cons_append]
  intro t ht
  rcases List.mem_append.1 ht with ht | ht
  · obtain ⟨c, hc, rfl⟩ := List.mem_map.1 ht
    obtain ⟨mem, before⟩ := List.mem_filter.1 hc
    rw [decide_eq_true_eq] at before
    by_cases cNamed : c.kind.isNamed = true
    · have none := front c (List.mem_filter.2 ⟨mem, cNamed⟩) before
      simp [h.isEntry_child edited mem (.inl before), none]
    · simp [carried, Tree.movedTo, cNamed]
  · simp [tokens t ht]

theorem pairOf?_of_removed
    (others : ∀ c ∈ object.namedChildren, c.stop ≤ e.start ∨ e.stop ≤ c.start →
      Reconciliation.isEntry x r.key c = false) :
    pairOf? y (reopened (edits x props o) e object []) r.key = none := by
  rw [pairOf?_eq, List.find?_eq_none]
  intro t ht
  obtain ⟨ht, named⟩ := List.mem_filter.1 ht
  have mem : ∃ c ∈ object.children, (c.stop ≤ e.start ∨ e.stop ≤ c.start) ∧
      t = carried (edits x props o) c := by
    rcases List.mem_append.1 ht with ht | ht
    · rw [List.append_nil] at ht
      obtain ⟨c, hc, rfl⟩ := List.mem_map.1 ht
      obtain ⟨mem, before⟩ := List.mem_filter.1 hc
      exact ⟨c, mem, .inl (by simpa using before), rfl⟩
    · obtain ⟨c, hc, rfl⟩ := List.mem_map.1 ht
      obtain ⟨mem, behind⟩ := List.mem_filter.1 hc
      exact ⟨c, mem, .inr (by simpa using behind), rfl⟩
  obtain ⟨c, hc, apart, rfl⟩ := mem
  rw [carried, Tree.movedTo, Tree.kind_mapPlaces] at named
  rw [h.isEntry_child edited hc apart, others c (List.mem_filter.2 ⟨hc, named⟩) apart]
  exact Bool.false_ne_true

/-! ### The entry of the region -/

omit h edited in
/-- Around the children that a replaced range meets, the others are carried along. -/
theorem children_reopened_of_split (es : List Edit) {t : Tree} {front met behind : List Tree}
    (inner : List Tree) (fits : Fits x.source t) (split : t.children = front ++ (met ++ behind))
    (proper : e.start < e.stop) (before : ∀ c ∈ front, c.stop ≤ e.start)
    (meets : ∀ c ∈ met, e.start < c.stop ∧ c.start < e.stop)
    (after : ∀ c ∈ behind, e.stop ≤ c.start) :
    (reopened es e t inner).children =
      front.map (carried es) ++ (inner ++ behind.map (carried es)) := by
  have range {c : Tree} (hc : c ∈ t.children) : c.start ≤ c.stop :=
    (fits.lined.mem hc).1.start_le_stop
  rw [split] at range
  have kept : t.children.filter (·.stop ≤ e.start) = front := by
    rw [split, List.filter_append, List.filter_eq_self.2, List.filter_eq_nil_iff.2,
      List.append_nil]
    · intro c hc
      simp only [decide_eq_true_eq]
      rcases List.mem_append.1 hc with hc | hc
      · have := meets c hc
        omega
      · have := after c hc
        have := range (List.mem_append_right _ (List.mem_append_right _ hc))
        omega
    · intro c hc
      simpa using before c hc
  have behindKept : t.children.filter (e.stop ≤ ·.start) = behind := by
    rw [split, List.filter_append, List.filter_eq_nil_iff.2, List.nil_append, List.filter_append,
      List.filter_eq_nil_iff.2, List.nil_append, List.filter_eq_self.2]
    · intro c hc
      simpa using after c hc
    · intro c hc
      have := meets c hc
      simp only [decide_eq_true_eq]
      omega
    · intro c hc
      have := before c hc
      have := range (List.mem_append_left _ hc)
      simp only [decide_eq_true_eq]
      omega
  rw [reopened, kept, behindKept, Tree.children, List.append_assoc]

omit h edited in
/-- Around a child in which a range is replaced, the other children are carried along. -/
theorem children_reopened (es : List Edit) {t v : Tree} {front behind : List Tree}
    (inner : List Tree) (fits : Fits x.source t) (split : t.children = front ++ v :: behind)
    (proper : e.start < e.stop) (start : v.start ≤ e.start) (stop : e.stop ≤ v.stop) :
    (reopened es e t inner).children =
      front.map (carried es) ++ (inner ++ behind.map (carried es)) := by
  have order := fits.lined.pairwise
  rw [split, List.pairwise_append, List.pairwise_cons] at order
  refine children_reopened_of_split es inner fits
    (show t.children = front ++ ([v] ++ behind) from split) proper (fun c hc => ?_)
    (fun c hc => ?_) fun c hc => ?_
  · have := order.2.2 c hc v List.mem_cons_self
    omega
  · rw [List.mem_singleton.1 hc]
    omega
  · have := order.2.1.1 c hc
    omega

theorem isEntry_reopened {pair value : Tree} (new : Tree) (first : pairOf? x object r.key = some pair)
    (named : pair.child? .value = some value) (literal : value.kind = .object)
    (start : e.start = value.start) (stop : e.stop = value.stop)
    (label : new.label? = some .value) :
    Reconciliation.isEntry y r.key (reopened (edits x props o) e pair [new]) = true ∧
      (reopened (edits x props o) e pair [new]).child? .value = some new := by
  have isLiteral := h.isLiteral edited.found
  obtain ⟨pairFits, left, right⟩ := isLiteral.inside_of_named (List.mem_of_find?_eq_some first)
  obtain ⟨valueFits, valueLeft, valueRight⟩ := fits_of_child? pairFits named
  obtain ⟨-, -, -, -, -, -, -, proper, -, -⟩ := (IsLiteral.mk valueFits literal).braces
  obtain ⟨isValue, front, behind, split, noValue⟩ := List.find?_eq_some_iff_append.1 named
  have children := children_reopened (edits x props o) [new] pairFits split (by omega)
    (Nat.le_of_eq start.symm) (Nat.le_of_eq stop)
  obtain ⟨kind, k, keyed, name⟩ := isEntry_eq_true.1 (List.find?_some first)
  rw [beq_iff_eq] at isValue
  have sameLabel (l : Label) (c : Tree) :
      ((carried (edits x props o) c).label? == some l) = (c.label? == some l) := by
    rw [carried, Tree.movedTo, Tree.label?_mapPlaces]
  have key : (front ++ behind).find? (·.label? == some .key) = some k := by
    rwa [Tree.child?, split, List.find?_append, List.find?_cons_of_neg (by simp [isValue]),
      ← List.find?_append] at keyed
  have newKey : (reopened (edits x props o) e pair [new]).child? .key =
      some (carried (edits x props o) k) := by
    rw [Tree.child?, children, List.find?_append, List.find?_append,
      List.find?_cons_of_neg (by simp [label]), List.find?_nil, Option.none_or,
      ← List.find?_append, ← List.map_append, List.find?_map]
    simp only [Function.comp_def, sameLabel]
    rw [key, Option.map_some]
  have kMem : k ∈ pair.children := Tree.mem_children_of_child? keyed
  obtain ⟨kFits, kLeft, kRight⟩ := fits_of_mem_children pairFits kMem
  have apart : k.stop ≤ value.start ∨ value.stop ≤ k.start := by
    obtain rfl | order :=
      apart_of_mem pairFits.lined kMem (Tree.mem_children_of_child? named)
    · have isKey := List.find?_some keyed
      rw [beq_iff_eq, isValue] at isKey
      contradiction
    · exact order
  have untouched : Edit.Untouched (edits x props o) k.start k.stop :=
    h.untouched edited (by omega) (by omega) (by omega)
  refine ⟨isEntry_eq_true.2 ⟨kind, _, newKey, ?_⟩, ?_⟩
  · rw [← name, Syntax.keyName, Syntax.keyName, h.textOf_carried untouched kFits.start_le_stop]
  · rw [Tree.child?, children, List.find?_eq_some_iff_append]
    refine ⟨by simp [label], _, _, rfl, fun c hc => ?_⟩
    obtain ⟨d, hd, rfl⟩ := List.mem_map.1 hc
    rw [sameLabel]
    exact noValue d hd

end Renewal

end

end PropStories.Reconciliation
