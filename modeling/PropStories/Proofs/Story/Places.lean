import PropStories.Proofs.Story.Splice

/-!
# Where a text comes to stand

Edits move the text behind them. A stretch that no edit reaches into is found again at its new
place, and so is the text of each edit.
-/

namespace PropStories.Edit

open Text

variable {source : List Char}

/-- Where the character at `p` comes to stand if the edits behind `a` are made and the text in
front of `a` is left out. -/
def placeFrom : Nat → List Edit → Nat → Nat
  | a, [], p => p - a
  | a, e :: es, p =>
      if p < e.stop then p - a else e.start - a + e.text.length + placeFrom e.stop es p

def place (es : List Edit) (p : Nat) : Nat := placeFrom 0 es p

def Untouched (es : List Edit) (a b : Nat) : Prop := ∀ e ∈ es, b ≤ e.start ∨ e.stop ≤ a

theorem Untouched.tail {e : Edit} {es : List Edit} {a b : Nat} (h : Untouched (e :: es) a b) :
    Untouched es a b := fun f hf => h f (List.mem_cons_of_mem e hf)

theorem slice_spliceFrom {a p q : Nat} {es : List Edit} (order : InOrder source.length a es)
    (hap : a ≤ p) (untouched : Untouched es p q) {i j : Nat}
    (hi : p ≤ i) (hij : i ≤ j) (hj : j ≤ q) :
    slice (spliceFrom source a es) (placeFrom a es p + (i - p)) (placeFrom a es p + (j - p)) =
      slice source i j := by
  induction es generalizing a with
  | nil =>
      rw [spliceFrom, slice_drop, placeFrom, show a + (p - a + (i - p)) = i by omega,
        show a + (p - a + (j - p)) = j by omega]
  | cons e es ih =>
      obtain ⟨front, range, rest⟩ := order
      have bounded := rest.le
      have frontLength : (slice source a e.start).length = e.start - a := length_slice (by omega)
      rw [spliceFrom, placeFrom, List.append_assoc]
      obtain before | behind := untouched e List.mem_cons_self
      · by_cases inside : p < e.stop
        · rw [if_pos inside, slice_append_left (by omega), slice_slice _ (by omega)]
          rw [show a + (p - a + (i - p)) = i by omega, show a + (p - a + (j - p)) = j by omega]
        · rw [slice_of_le _ (by omega), slice_of_le _ (by omega)]
      · rw [if_neg (by omega), ← frontLength]
        simp only [Nat.add_assoc _ (placeFrom _ _ _)]
        rw [slice_append_append_right]
        exact ih rest behind untouched.tail

theorem place_zero {es : List Edit} (h : ∀ e ∈ es, 0 < e.stop) : place es 0 = 0 := by
  cases es with
  | nil => rfl
  | cons e es => rw [place, placeFrom, if_pos (h e List.mem_cons_self)]

theorem placeFrom_add {a p q : Nat} {es : List Edit} (order : InOrder source.length a es)
    (hap : a ≤ p) (hpq : p ≤ q) (apart : ∀ e ∈ es, q < e.stop ∨ e.stop ≤ p) :
    placeFrom a es q = placeFrom a es p + (q - p) := by
  induction es generalizing a with
  | nil =>
      rw [placeFrom, placeFrom]
      omega
  | cons e es ih =>
      obtain ⟨front, range, rest⟩ := order
      rw [placeFrom, placeFrom]
      obtain before | behind := apart e List.mem_cons_self
      · rw [if_pos before, if_pos (by omega)]
        omega
      · rw [if_neg (by omega), if_neg (by omega),
          ih rest behind fun f hf => apart f (List.mem_cons_of_mem e hf)]
        omega

theorem slice_text {a p : Nat} {e : Edit} {es : List Edit} (order : InOrder source.length a es)
    (mem : e ∈ es) (hap : a ≤ p) (hp : p < e.start)
    (apart : ∀ f ∈ es, f = e ∨ f.stop ≤ p ∨ e.stop < f.start) {i j : Nat}
    (hj : j ≤ e.text.length) :
    slice (spliceFrom source a es) (placeFrom a es p + (e.start - p) + i)
      (placeFrom a es p + (e.start - p) + j) = slice e.text i j := by
  induction es generalizing a with
  | nil => contradiction
  | cons f es ih =>
      obtain ⟨front, range, rest⟩ := order
      have bounded := rest.le
      have frontLength : (slice source a f.start).length = f.start - a := length_slice (by omega)
      rw [spliceFrom, placeFrom, List.append_assoc]
      by_cases same : f = e
      · subst same
        rw [if_pos (by omega), show p - a + (f.start - p) = f.start - a by omega, ← frontLength,
          slice_append_right, slice_append_left hj]
      · have mem : e ∈ es := (List.mem_cons.1 mem).resolve_left (Ne.symm same)
        have inside := rest.mem mem
        obtain eq | before | behind := apart f List.mem_cons_self
        · contradiction
        · have found := ih rest mem before fun g hg => apart g (List.mem_cons_of_mem f hg)
          rw [if_neg (by omega), ← frontLength]
          simp only [Nat.add_assoc] at found ⊢
          simp only [← Nat.add_assoc (slice source a f.start).length]
          rw [slice_append_append_right]
          exact found
        · omega

end PropStories.Edit
