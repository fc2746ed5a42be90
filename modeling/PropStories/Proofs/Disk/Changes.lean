import PropStories.Proofs.Disk.Ways

/-!
# The same change on two disks

A disk that has been changed elsewhere still holds what it held on the way to a place, apart from
new directories. A change to what lies there comes out the same on both disks.
-/

namespace PropStories

namespace Disk

variable {d d' x x' y y' : Disk} {p q : Place} {names : List String}

/-- Whether a place holds what it held, or a directory where nothing was. -/
def Holds (d d' : Disk) (p : Place) : Prop :=
  d'.at? p = d.at? p ∨ d.at? p = none ∧ d'.at? p = some .directory

/-- Whether `d'` has become `x'` by what has made `x` of `d`. -/
def SameChange (d x d' x' : Disk) : Prop :=
  ∀ q, x'.at? q = if x.at? q = d.at? q then d'.at? q else x.at? q

theorem SameChange.refl (d d' : Disk) : SameChange d d d' d' := by
  intro q
  rw [if_pos rfl]

theorem SameChange.put (h : SameChange d x d' x') (agree : d'.at? p = d.at? p)
    (only : ∀ q, q ≠ p → y.at? q = x.at? q) (only' : ∀ q, q ≠ p → y'.at? q = x'.at? q)
    (same : y'.at? p = y.at? p) : SameChange d y d' y' := by
  intro q
  by_cases hq : q = p
  · rw [hq, same, agree]
    split
    next old => exact old
    next => rfl
  · rw [only q hq, only' q hq, h q]

theorem pave_congr (holds : ∀ q, p <+: q → q <+: p ++ names → Holds d d' q) :
    (d'.pave p names).2 = (d.pave p names).2 ∧
      SameChange d (d.pave p names).1 d' (d'.pave p names).1 := by
  induction names generalizing d d' p with
  | nil => exact ⟨rfl, .refl d d'⟩
  | cons n rest ih =>
      have here := holds (p ++ [n]) (List.prefix_append p [n]) (by simp)
      have later (q : Place) (above : p ++ [n] <+: q) (below : q <+: p ++ [n] ++ rest) :
          Holds d d' q :=
        holds q ((List.prefix_append p [n]).trans above) (by simpa using below)
      rw [pave, pave]
      split
      · exact ⟨rfl, .refl d d'⟩
      · cases old : d.at? (p ++ [n]) with
        | some e =>
            obtain same | ⟨empty, -⟩ := here
            · rw [same, old]
              cases e with
              | directory => exact ih later
              | file c => exact ⟨rfl, .refl d d'⟩
            · rw [old] at empty
              cases empty
        | none =>
            have there : (d.set (p ++ [n]) .directory).at? (p ++ [n]) = some .directory :=
              at?_set_self (by simp)
            -- The directory is new on one disk at least, and there on both from then on.
            have onward (e' : Disk) (elsewhere : ∀ q, q ≠ p ++ [n] → e'.at? q = d'.at? q)
                (there' : e'.at? (p ++ [n]) = some .directory) :
                (e'.pave (p ++ [n]) rest).2 =
                    ((d.set (p ++ [n]) .directory).pave (p ++ [n]) rest).2 ∧
                  SameChange d ((d.set (p ++ [n]) .directory).pave (p ++ [n]) rest).1 d'
                    (e'.pave (p ++ [n]) rest).1 := by
              have holds' (q : Place) (above : p ++ [n] <+: q) (below : q <+: p ++ [n] ++ rest) :
                  Holds (d.set (p ++ [n]) .directory) e' q := by
                by_cases hq : q = p ++ [n]
                · exact .inl (by rw [hq, there, there'])
                · unfold Holds
                  rw [elsewhere q hq, at?_set_of_ne hq]
                  exact later q above below
              obtain ⟨result, change⟩ := ih holds'
              refine ⟨result, fun q => ?_⟩
              rw [change q]
              by_cases hq : q = p ++ [n]
              · rw [hq, pave_keeps _ (p ++ [n]) rest there, there', there, old]
                rfl
              · rw [at?_set_of_ne hq, elsewhere q hq]
            obtain same | ⟨-, new⟩ := here
            · rw [same, old]
              exact onward _ (fun q hq => at?_set_of_ne hq) (at?_set_self (by simp))
            · rw [new]
              exact onward d' (fun q _ => rfl) new

/-! ## Other disks -/

/-- Whether a disk has been changed only at some places, but for new directories above them. -/
structure Spread (ps : List Place) (d d' : Disk) : Prop where
  here : d'.here = d.here
  tree : d'.IsTree
  directories : ∀ q, d.at? q = some .directory → d'.at? q = some .directory
  elsewhere : ∀ q, q ∉ ps → d'.at? q = d.at? q ∨
    d.at? q = none ∧ d'.at? q = some .directory ∧ ∃ p ∈ ps, q <+: p

theorem Spread.refl (tree : d.IsTree) : Spread [] d d :=
  ⟨rfl, tree, fun _ h => h, fun _ _ => .inl rfl⟩

theorem Spread.mono {ps qs : List Place} (h : Spread ps d d') (within : ∀ p ∈ ps, p ∈ qs) :
    Spread qs d d' where
  here := h.here
  tree := h.tree
  directories := h.directories
  elsewhere q hq := by
    obtain same | ⟨empty, made, p, hp, below⟩ := h.elsewhere q fun member => hq (within q member)
    · exact .inl same
    · exact .inr ⟨empty, made, p, within p hp, below⟩

theorem Spread.put (h : Spread [p] d x) (here : y.here = x.here) (tree : y.IsTree)
    (only : ∀ q, q ≠ p → y.at? q = x.at? q) (free : x.at? p ≠ some .directory) :
    Spread [p] d y where
  here := here.trans h.here
  tree := tree
  directories q directory := by
    have kept := h.directories q directory
    have other : q ≠ p := by
      rintro rfl
      exact free kept
    rw [only q other, kept]
  elsewhere q hq := by
    rw [only q (by simpa using hq)]
    exact h.elsewhere q hq

theorem Spread.trans {ps qs : List Place} (first : Spread ps d d') (second : Spread qs d' x) :
    Spread (qs ++ ps) d x := by
  refine ⟨second.here.trans first.here, second.tree,
    fun q h => second.directories q (first.directories q h), fun q hq => ?_⟩
  simp only [List.mem_append, not_or] at hq
  obtain same | ⟨empty, made, p, hp, below⟩ := second.elsewhere q hq.1
  · obtain same' | ⟨empty', made', p, hp, below⟩ := first.elsewhere q hq.2
    · exact .inl (same.trans same')
    · exact .inr ⟨empty', same.trans made', p, List.mem_append_right qs hp, below⟩
  · obtain same' | ⟨empty', made', -⟩ := first.elsewhere q hq.2
    · exact .inr ⟨same'.symm.trans empty, made, p, List.mem_append_left ps hp, below⟩
    · rw [made'] at empty
      cases empty

theorem pave_spread (tree : d.IsTree) (directory : d.at? p = some .directory)
    (names : List String) (n : String) : Spread [p ++ (names ++ [n])] d (d.pave p names).1 where
  here := pave_here d p names
  tree := tree.pave directory names
  directories _ := pave_keeps d p names
  elsewhere q _ := by
    obtain same | ⟨empty, made, below⟩ := pave_at d p names q
    · exact .inl same
    · refine .inr ⟨empty, made, _, List.mem_singleton_self _, below.trans ?_⟩
      rw [← List.append_assoc]
      exact List.prefix_append _ _

end Disk

end PropStories
