import PropStories.Proofs.Text.Slice
import PropStories.Tsx.Tree

/-!
# Trees that fit their source

The children of a node lie inside it, one behind the other; a word or mark covers its own text; an
object literal runs from its opening brace to its closing one. The ways in which trees are put
together keep this up.
-/

namespace PropStories.Tsx

open Text (slice)

/-! ## Faults -/

/-- Neither an error nor a missing token is among the trees or below them. -/
def Clear (ts : List Tree) : Prop := Tree.firstFaultAmong? ts = none

@[simp] theorem clear_nil : Clear [] := by simp [Clear, Tree.firstFaultAmong?]

theorem clear_cons {t : Tree} {ts : List Tree} :
    Clear (t :: ts) ↔ t.firstFault? = none ∧ Clear ts := by
  unfold Clear
  rw [Tree.firstFaultAmong?]
  cases h : t.firstFault? <;> simp

theorem clear_append {xs ys : List Tree} : Clear (xs ++ ys) ↔ Clear xs ∧ Clear ys := by
  induction xs with
  | nil => simp
  | cons x xs ih => simp only [List.cons_append, clear_cons, ih, and_assoc]

theorem firstFault?_node {k : Kind} {l : Option Label} {s e : Nat} {cs : List Tree} :
    (Tree.node k l s e cs).firstFault? = none ↔ k.isFault = false ∧ Clear cs := by
  unfold Clear
  rw [Tree.firstFault?]
  cases k.isFault <;> simp

theorem firstFault?_withLabel (t : Tree) (l : Option Label) :
    (t.withLabel l).firstFault? = t.firstFault? := by
  cases t
  simp [Tree.withLabel, Tree.firstFault?]

/-! ## Fitting trees -/

def KindFits (source : List Char) (k : Kind) (start : Nat) (cs : List Tree) (stop : Nat) : Prop :=
  match k with
  | .token w => stop = start + w.length ∧ slice source start stop = w.toList
  | .object => ∃ opening inner closing, cs = opening :: (inner ++ [closing]) ∧
      opening.kind = .token "\x7b" ∧ closing.kind = .token "\x7d" ∧
      opening.start = start ∧ closing.stop = stop
  | _ => True

mutual

def Fits (source : List Char) : Tree → Prop
  | .node k _ s e cs => Lined source s cs e ∧ KindFits source k s cs e

/-- The trees fit and lie one behind the other between two places. -/
def Lined (source : List Char) : Nat → List Tree → Nat → Prop
  | a, [], b => a ≤ b
  | a, t :: ts, b => a ≤ t.start ∧ Fits source t ∧ Lined source t.stop ts b

end

variable {source : List Char}

mutual

theorem Fits.start_le_stop : {t : Tree} → Fits source t → t.start ≤ t.stop
  | .node _ _ _ _ _, h => by
      rw [Fits] at h
      exact h.1.le

theorem Lined.le : {a b : Nat} → {ts : List Tree} → Lined source a ts b → a ≤ b
  | _, _, [], h => by rwa [Lined] at h
  | _, _, t :: _, h => by
      rw [Lined] at h
      have inside := Fits.start_le_stop h.2.1
      have behind := Lined.le h.2.2
      exact Nat.le_trans h.1 (Nat.le_trans inside behind)

end

theorem Fits.lined {t : Tree} (h : Fits source t) : Lined source t.start t.children t.stop := by
  cases t
  rw [Fits] at h
  exact h.1

theorem Fits.kindFits {t : Tree} (h : Fits source t) :
    KindFits source t.kind t.start t.children t.stop := by
  cases t
  rw [Fits] at h
  exact h.2

theorem fits_withLabel {t : Tree} {l : Option Label} :
    Fits source (t.withLabel l) ↔ Fits source t := by
  cases t
  simp only [Tree.withLabel, Fits]

theorem lined_nil {a b : Nat} : Lined source a [] b ↔ a ≤ b := by rw [Lined]

theorem lined_cons {a b : Nat} {t : Tree} {ts : List Tree} :
    Lined source a (t :: ts) b ↔ a ≤ t.start ∧ Fits source t ∧ Lined source t.stop ts b := by
  rw [Lined]

theorem Lined.mono {a a' b b' : Nat} {ts : List Tree} (h : Lined source a ts b) (ha : a' ≤ a)
    (hb : b ≤ b') : Lined source a' ts b' := by
  induction ts generalizing a a' with
  | nil =>
      rw [lined_nil] at h ⊢
      omega
  | cons t ts ih =>
      rw [lined_cons] at h ⊢
      exact ⟨Nat.le_trans ha h.1, h.2.1, ih h.2.2 (Nat.le_refl _)⟩

theorem lined_append {a b : Nat} {xs ys : List Tree} :
    Lined source a (xs ++ ys) b ↔ ∃ m, Lined source a xs m ∧ Lined source m ys b := by
  induction xs generalizing a with
  | nil =>
      simp only [List.nil_append, lined_nil]
      exact ⟨fun h => ⟨a, Nat.le_refl a, h⟩, fun ⟨m, hm, h⟩ => h.mono hm (Nat.le_refl b)⟩
  | cons x xs ih =>
      simp only [List.cons_append, lined_cons, ih]
      constructor
      · rintro ⟨ha, hx, m, hm, hy⟩
        exact ⟨m, ⟨ha, hx, hm⟩, hy⟩
      · rintro ⟨m, ⟨ha, hx, hm⟩, hy⟩
        exact ⟨ha, hx, m, hm, hy⟩

theorem lined_singleton {a b : Nat} {t : Tree} :
    Lined source a [t] b ↔ a ≤ t.start ∧ Fits source t ∧ t.stop ≤ b := by
  rw [lined_cons, lined_nil]

theorem Lined.mem {a b : Nat} {ts : List Tree} {t : Tree} (h : Lined source a ts b)
    (ht : t ∈ ts) : Fits source t ∧ a ≤ t.start ∧ t.stop ≤ b := by
  obtain ⟨xs, ys, rfl⟩ := List.append_of_mem ht
  obtain ⟨m, hx, hy⟩ := lined_append.1 h
  rw [lined_cons] at hy
  exact ⟨hy.2.1, Nat.le_trans hx.le hy.1, hy.2.2.le⟩

theorem Lined.pairwise {a b : Nat} {ts : List Tree} (h : Lined source a ts b) :
    ts.Pairwise fun t u => t.stop ≤ u.start := by
  induction ts generalizing a with
  | nil => exact .nil
  | cons t ts ih =>
      rw [lined_cons] at h
      exact .cons (fun u hu => (h.2.2.mem hu).2.1) (ih h.2.2)

/-! ## Building -/

theorem lined_labelled {a b : Nat} {l : Option Label} {ts : List Tree} :
    Lined source a (ts.map fun t => if t.isExtra then t else t.withLabel l) b ↔
      Lined source a ts b := by
  have start_withLabel (t : Tree) : (t.withLabel l).start = t.start := by cases t; rfl
  have stop_withLabel (t : Tree) : (t.withLabel l).stop = t.stop := by cases t; rfl
  induction ts generalizing a with
  | nil => rfl
  | cons t ts ih =>
      simp only [List.map_cons, lined_cons, ih]
      split
      · rfl
      · rw [start_withLabel, stop_withLabel, fits_withLabel]

theorem clear_labelled {l : Option Label} {ts : List Tree} :
    Clear (ts.map fun t => if t.isExtra then t else t.withLabel l) ↔ Clear ts := by
  induction ts with
  | nil => rfl
  | cons t ts ih =>
      rw [List.map_cons, clear_cons, clear_cons, ih]
      split
      · rfl
      · rw [firstFault?_withLabel]

def Kind.isFree : Kind → Bool
  | .token _ | .object => false
  | _ => true

theorem kindFits_of_isFree {k : Kind} (h : k.isFree = true) (s e : Nat) (cs : List Tree) :
    KindFits source k s cs e := by
  cases k <;> first | exact absurd h (by decide) | trivial

/-- The trees that a node is made of, without the extras in front. -/
theorem lined_dropWhile {a b : Nat} {ts rest : List Tree} {first : Tree}
    (h : Lined source a ts b) (hd : ts.dropWhile Tree.isExtra = first :: rest) :
    ∃ m, Lined source a (ts.takeWhile Tree.isExtra) m ∧ m ≤ first.start ∧
      Lined source first.start (first :: rest) ((rest.getLast?).getD first).stop ∧
      ((rest.getLast?).getD first).stop ≤ b := by
  rw [← List.takeWhile_append_dropWhile (p := Tree.isExtra) (l := ts), hd, lined_append] at h
  obtain ⟨m, front, behind⟩ := h
  rw [lined_cons] at behind
  refine ⟨m, front, behind.1, ?_⟩
  rw [lined_cons]
  obtain ⟨-, fits, behind⟩ := behind
  rcases List.eq_nil_or_concat rest with rfl | ⟨rest, last, rfl⟩
  · exact ⟨⟨Nat.le_refl _, fits, lined_nil.2 (Nat.le_refl _)⟩, behind.le⟩
  · rw [List.concat_eq_append] at behind ⊢
    obtain ⟨q, inner, ending⟩ := lined_append.1 behind
    rw [lined_singleton] at ending
    simp only [List.getLast?_concat, Option.getD_some]
    exact ⟨⟨Nat.le_refl _, fits, lined_append.2 ⟨q, inner, lined_singleton.2
      ⟨ending.1, ending.2.1, Nat.le_refl _⟩⟩⟩, ending.2.2⟩

theorem takeWhile_of_dropWhile_eq_nil {p : Tree → Bool} {ts : List Tree}
    (h : ts.dropWhile p = []) : ts.takeWhile p = ts := by
  have whole := List.takeWhile_append_dropWhile (p := p) (l := ts)
  rwa [h, List.append_nil] at whole

theorem wrap_eq (k : Kind) (place : Nat) (ts : List Tree) :
    ∃ s e cs, Tree.wrap k place ts = ts.takeWhile Tree.isExtra ++ [.node k none s e cs] := by
  unfold Tree.wrap
  split
  · rename_i h
    exact ⟨_, _, _, by rw [takeWhile_of_dropWhile_eq_nil h]⟩
  · exact ⟨_, _, _, rfl⟩

theorem clear_of_wrap {k : Kind} {place : Nat} {ts : List Tree}
    (h : Clear (Tree.wrap k place ts)) : Clear ts := by
  unfold Tree.wrap at h
  split at h
  · exact (clear_append.1 h).1
  · rename_i first rest hd
    rw [clear_append, clear_cons, firstFault?_node] at h
    rw [← List.takeWhile_append_dropWhile (p := Tree.isExtra) (l := ts), hd, clear_append]
    exact ⟨h.1, h.2.1.2⟩

theorem Lined.wrap {a b : Nat} {ts : List Tree} {k : Kind} (h : Lined source a ts b)
    (empty : ts.dropWhile Tree.isExtra = [] → ∀ p, KindFits source k p [] p)
    (full : ∀ first rest, ts.dropWhile Tree.isExtra = first :: rest →
      KindFits source k first.start (first :: rest) ((rest.getLast?).getD first).stop) :
    Lined source a (Tree.wrap k a ts) b := by
  unfold Tree.wrap
  split
  · rename_i hd
    have fits (p : Nat) : Fits source (.node k none p p []) := by
      rw [Fits]
      exact ⟨lined_nil.2 (Nat.le_refl p), empty hd p⟩
    rcases List.eq_nil_or_concat ts with rfl | ⟨ts, last, rfl⟩
    · exact lined_singleton.2 ⟨Nat.le_refl a, fits a, h.le⟩
    · rw [List.concat_eq_append] at h ⊢
      obtain ⟨m, front, ending⟩ := lined_append.1 h
      rw [lined_singleton] at ending
      simp only [List.getLast?_concat, Option.map_some, Option.getD_some, List.append_assoc]
      refine lined_append.2 ⟨m, front, lined_cons.2 ⟨ending.1, ending.2.1, ?_⟩⟩
      exact lined_singleton.2 ⟨Nat.le_refl _, fits _, ending.2.2⟩
  · rename_i first rest hd
    obtain ⟨m, front, hm, inner, hb⟩ := lined_dropWhile h hd
    refine lined_append.2 ⟨m, front, lined_singleton.2 ⟨hm, ?_, hb⟩⟩
    rw [Fits]
    exact ⟨inner, full first rest hd⟩

theorem Lined.wrap_isFree {a b : Nat} {ts : List Tree} {k : Kind} (h : Lined source a ts b)
    (free : k.isFree = true) : Lined source a (Tree.wrap k a ts) b :=
  h.wrap (fun _ _ => kindFits_of_isFree free _ _ _) fun _ _ _ => kindFits_of_isFree free _ _ _

/-- A line of extras and one node behind them, of a kind that says nothing about its text. -/
def EndsFree (ts : List Tree) : Prop :=
  ∃ xs k l s e cs, ts = xs ++ [.node k l s e cs] ∧ xs.all Tree.isExtra = true ∧
    k.isExtra = false ∧ k.isFree = true

theorem endsFree_wrap {k : Kind} {place : Nat} {ts : List Tree} (free : k.isFree = true)
    (proper : k.isExtra = false) : EndsFree (Tree.wrap k place ts) := by
  obtain ⟨s, e, cs, eq⟩ := wrap_eq k place ts
  exact ⟨_, k, none, s, e, cs, eq, List.all_takeWhile, proper, free⟩

/-! ## Adopting -/

theorem adopt_eq {head xs cs : List Tree} {k : Kind} {l : Option Label} {s e : Nat}
    (extras : xs.all Tree.isExtra = true) (proper : k.isExtra = false) :
    Tree.adopt head (xs ++ [.node k l s e cs]) =
      match head.dropWhile Tree.isExtra with
      | first :: rest => head.takeWhile Tree.isExtra ++ [.node k l first.start e
          (((first :: rest).map fun t => if t.isExtra then t else t.withLabel k.headLabel) ++
            xs ++ cs)]
      | [] => head ++ (xs ++ [.node k l s e cs]) := by
  have all : ∀ x ∈ xs, x.isExtra = true := List.all_eq_true.1 extras
  have node : (Tree.node k l s e cs).isExtra = false := proper
  unfold Tree.adopt
  rw [List.dropWhile_append_of_pos all, List.takeWhile_append_of_pos all]
  cases head.dropWhile Tree.isExtra <;> simp [node]

theorem Lined.adopt {a m b : Nat} {head grown : List Tree} (shape : EndsFree grown)
    (h : Lined source a head m) (g : Lined source m grown b) :
    Lined source a (Tree.adopt head grown) b := by
  obtain ⟨xs, k, l, s, e, cs, rfl, extras, proper, free⟩ := shape
  rw [adopt_eq extras proper]
  split
  · rename_i first rest hd
    obtain ⟨q, front, hq, core, hm⟩ := lined_dropWhile h hd
    obtain ⟨p, gap, node⟩ := lined_append.1 g
    rw [lined_singleton, Fits] at node
    obtain ⟨hp, ⟨inner, -⟩, hb⟩ := node
    refine lined_append.2 ⟨q, front, lined_singleton.2 ⟨hq, ?_, hb⟩⟩
    rw [Fits, List.append_assoc]
    have core := (lined_labelled (l := k.headLabel)).2 (core.mono (Nat.le_refl _) hm)
    exact ⟨lined_append.2 ⟨m, core, lined_append.2 ⟨p, gap, inner.mono hp (Nat.le_refl e)⟩⟩,
      kindFits_of_isFree free _ _ _⟩
  · exact lined_append.2 ⟨m, h, g⟩

theorem clear_of_adopt {head grown : List Tree} (shape : EndsFree grown)
    (h : Clear (Tree.adopt head grown)) : Clear head ∧ Clear grown := by
  obtain ⟨xs, k, l, s, e, cs, rfl, extras, proper, -⟩ := shape
  rw [adopt_eq extras proper] at h
  split at h
  · rename_i first rest hd
    rw [← List.takeWhile_append_dropWhile (p := Tree.isExtra) (l := head), hd]
    simp only [clear_append, clear_cons, firstFault?_node, clear_labelled] at h ⊢
    obtain ⟨front, ⟨kind, ⟨core, gap⟩, inner⟩, -⟩ := h
    exact ⟨⟨front, core⟩, gap, ⟨kind, inner⟩, clear_nil⟩
  · exact clear_append.1 h

end PropStories.Tsx
