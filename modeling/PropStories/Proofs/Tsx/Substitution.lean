import PropStories.Tsx.Tree

/-!
# Trees of a changed source

Where a source is changed, some nodes of its tree are replaced and the rest is moved. Nodes keep
their kinds and labels, so they are found under the same labels as before.
-/

namespace PropStories.Tsx

namespace Tree

mutual

def decEq : (t u : Tree) → Decidable (t = u)
  | node k l s e cs, node k' l' s' e' cs' =>
      if h : k = k' ∧ l = l' ∧ s = s' ∧ e = e' then
        match decEqAmong cs cs' with
        | isTrue hc => isTrue (by rw [h.1, h.2.1, h.2.2.1, h.2.2.2, hc])
        | isFalse hc => isFalse fun eq => hc (by injection eq)
      else isFalse fun eq => h (by injection eq with hk hl hs he; exact ⟨hk, hl, hs, he⟩)

def decEqAmong : (ts us : List Tree) → Decidable (ts = us)
  | [], [] => isTrue rfl
  | [], _ :: _ => isFalse nofun
  | _ :: _, [] => isFalse nofun
  | t :: ts, u :: us =>
      match decEq t u, decEqAmong ts us with
      | isTrue h, isTrue hs => isTrue (by rw [h, hs])
      | isFalse h, _ => isFalse fun eq => h (List.cons.inj eq).1
      | _, isFalse hs => isFalse fun eq => hs (List.cons.inj eq).2

end

instance : DecidableEq Tree := decEq

/-! ## Moved trees -/

mutual

def mapPlaces (f : Nat → Nat) : Tree → Tree
  | node k l s e cs => node k l (f s) (f e) (mapPlacesAmong f cs)

def mapPlacesAmong (f : Nat → Nat) : List Tree → List Tree
  | [] => []
  | t :: ts => mapPlaces f t :: mapPlacesAmong f ts

end

def movedTo (n : Nat) (t : Tree) : Tree := t.mapPlaces fun p => n + (p - t.start)

theorem mapPlacesAmong_eq_map (f : Nat → Nat) (ts : List Tree) :
    mapPlacesAmong f ts = ts.map (mapPlaces f) := by
  induction ts with
  | nil => rfl
  | cons t ts ih => rw [mapPlacesAmong, ih, List.map_cons]

@[simp] theorem kind_mapPlaces (f : Nat → Nat) (t : Tree) : (t.mapPlaces f).kind = t.kind := by
  cases t
  rfl

@[simp] theorem label?_mapPlaces (f : Nat → Nat) (t : Tree) :
    (t.mapPlaces f).label? = t.label? := by
  cases t
  rfl

@[simp] theorem start_mapPlaces (f : Nat → Nat) (t : Tree) : (t.mapPlaces f).start = f t.start := by
  cases t
  rfl

@[simp] theorem stop_mapPlaces (f : Nat → Nat) (t : Tree) : (t.mapPlaces f).stop = f t.stop := by
  cases t
  rfl

theorem children_mapPlaces (f : Nat → Nat) (t : Tree) :
    (t.mapPlaces f).children = t.children.map (mapPlaces f) := by
  cases t
  exact mapPlacesAmong_eq_map f _

/-! ## Replaced trees -/

mutual

/-- The tree with its nodes replaced as `new?` says, and all places outside them moved. -/
def substitute (place : Nat → Nat) (new? : Tree → Option Tree) : Tree → Tree
  | node k l s e cs =>
      match new? (node k l s e cs) with
      | some t => t
      | none => node k l (place s) (place e) (substituteAmong place new? cs)

def substituteAmong (place : Nat → Nat) (new? : Tree → Option Tree) : List Tree → List Tree
  | [] => []
  | t :: ts => substitute place new? t :: substituteAmong place new? ts

end

section

variable {place : Nat → Nat} {new? : Tree → Option Tree}

theorem substituteAmong_eq_map (ts : List Tree) :
    substituteAmong place new? ts = ts.map (substitute place new?) := by
  induction ts with
  | nil => rfl
  | cons t ts ih => rw [substituteAmong, ih, List.map_cons]

theorem substitute_of_new {t u : Tree} (h : new? t = some u) : t.substitute place new? = u := by
  cases t
  rw [substitute, h]

theorem substitute_of_none {t : Tree} (h : new? t = none) :
    t.substitute place new? =
      node t.kind t.label? (place t.start) (place t.stop)
        (t.children.map (substitute place new?)) := by
  cases t
  rw [substitute, h]
  exact congrArg _ (substituteAmong_eq_map _)

def OnLiterals (new? : Tree → Option Tree) : Prop :=
  ∀ t u, new? t = some u → t.kind = .object ∧ u.kind = .object ∧ u.label? = t.label?

theorem kind_substitute (h : OnLiterals new?) (t : Tree) :
    (t.substitute place new?).kind = t.kind := by
  cases hn : new? t with
  | none => rw [substitute_of_none hn, kind]
  | some u =>
      obtain ⟨old, new, -⟩ := h t u hn
      rw [substitute_of_new hn, old, new]

theorem label?_substitute (h : OnLiterals new?) (t : Tree) :
    (t.substitute place new?).label? = t.label? := by
  cases hn : new? t with
  | none => rw [substitute_of_none hn, label?]
  | some u =>
      obtain ⟨-, -, same⟩ := h t u hn
      rw [substitute_of_new hn, same]

theorem children_substitute (h : OnLiterals new?) {t : Tree} (proper : t.kind ≠ .object) :
    (t.substitute place new?).children = t.children.map (substitute place new?) := by
  cases hn : new? t with
  | none => rw [substitute_of_none hn, children]
  | some u => exact absurd (h t u hn).1 proper

end

/-! ## Nodes whose children are carried over -/

variable {t u : Tree} {f : Tree → Tree}

theorem child?_map (children : u.children = t.children.map f)
    (label : ∀ c, (f c).label? = c.label?) (l : Label) : u.child? l = (t.child? l).map f := by
  rw [child?, child?, children, List.find?_map]
  simp only [Function.comp_def, label]

theorem namedChildren_map (children : u.children = t.children.map f)
    (kind : ∀ c, (f c).kind = c.kind) : u.namedChildren = t.namedChildren.map f := by
  rw [namedChildren, namedChildren, children, List.filter_map]
  simp only [Function.comp_def, kind]

theorem firstPart?_map (children : u.children = t.children.map f)
    (kind : ∀ c, (f c).kind = c.kind) : u.firstPart? = t.firstPart?.map f := by
  rw [firstPart?, firstPart?, parts, parts, namedChildren_map children kind, List.filter_map,
    List.head?_map]
  simp only [Function.comp_def, kind]

end Tree

end PropStories.Tsx
