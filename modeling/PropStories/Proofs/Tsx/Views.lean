import PropStories.Tsx.Tree

/-!
# Trees wherever they stand

What a node shows is its kind, its label, its text and what its children show. Places and the text
around it do not matter, so nodes of two files can show the same.
-/

namespace PropStories.Tsx

inductive View where
  | node (kind : Kind) (label : Option Label) (text : List Char) (children : List View)

namespace View

def kind : View → Kind
  | node k _ _ _ => k

def label? : View → Option Label
  | node _ l _ _ => l

def text : View → List Char
  | node _ _ s _ => s

def children : View → List View
  | node _ _ _ cs => cs

def namedChildren (v : View) : List View := v.children.filter (·.kind.isNamed)

def parts (v : View) : List View := v.namedChildren.filter (·.kind != .comment)

mutual

def decEq : (v w : View) → Decidable (v = w)
  | .node k l s vs, .node k' l' s' ws =>
      if h : k = k' ∧ l = l' ∧ s = s' then
        match decEqAmong vs ws with
        | isTrue hvs => isTrue (by rw [h.1, h.2.1, h.2.2, hvs])
        | isFalse hvs => isFalse fun eq => hvs (View.node.inj eq).2.2.2
      else isFalse fun eq =>
        h ⟨(View.node.inj eq).1, (View.node.inj eq).2.1, (View.node.inj eq).2.2.1⟩

def decEqAmong : (vs ws : List View) → Decidable (vs = ws)
  | [], [] => isTrue rfl
  | [], _ :: _ => isFalse nofun
  | _ :: _, [] => isFalse nofun
  | v :: vs, w :: ws =>
      match decEq v w, decEqAmong vs ws with
      | isTrue h, isTrue hvs => isTrue (by rw [h, hvs])
      | isFalse h, _ => isFalse fun eq => h (List.cons.inj eq).1
      | _, isFalse hvs => isFalse fun eq => hvs (List.cons.inj eq).2

end

instance : DecidableEq View := decEq

end View

namespace Syntax

variable {x y : Syntax} {t u : Tree}

mutual

def view (x : Syntax) : Tree → View
  | .node k l s e cs => .node k l (x.textOf (.node k l s e cs)) (viewAmong x cs)

def viewAmong (x : Syntax) : List Tree → List View
  | [] => []
  | t :: ts => view x t :: viewAmong x ts

end

theorem viewAmong_eq_map (x : Syntax) (ts : List Tree) : x.viewAmong ts = ts.map x.view := by
  induction ts with
  | nil => rfl
  | cons t ts ih => rw [viewAmong, ih, List.map_cons]

/-! ## What can be seen -/

@[simp] theorem kind_view (x : Syntax) (t : Tree) : (x.view t).kind = t.kind := by
  cases t
  rfl

@[simp] theorem label?_view (x : Syntax) (t : Tree) : (x.view t).label? = t.label? := by
  cases t
  rfl

@[simp] theorem text_view (x : Syntax) (t : Tree) : (x.view t).text = x.textOf t := by
  cases t
  rfl

@[simp] theorem children_view (x : Syntax) (t : Tree) :
    (x.view t).children = t.children.map x.view := by
  cases t
  exact viewAmong_eq_map x _

theorem namedChildren_view (x : Syntax) (t : Tree) :
    (x.view t).namedChildren = t.namedChildren.map x.view := by
  rw [View.namedChildren, children_view, List.filter_map, Tree.namedChildren]
  simp only [Function.comp_def, kind_view]

theorem parts_view (x : Syntax) (t : Tree) : (x.view t).parts = t.parts.map x.view := by
  rw [View.parts, namedChildren_view, List.filter_map, Tree.parts]
  simp only [Function.comp_def, kind_view]

/-! ## What is found -/

theorem option_bind_eq_of_view {α : Type} {f g : Tree → Option α} {t? u? : Option Tree}
    (same : t?.map x.view = u?.map y.view)
    (h : ∀ t, t? = some t → ∀ u, x.view t = y.view u → f t = g u) : t?.bind f = u?.bind g := by
  cases t? with
  | none =>
      obtain rfl := Option.map_eq_none_iff.1 same.symm
      rfl
  | some t =>
      obtain ⟨u, rfl, eq⟩ := Option.map_eq_some_iff.1 same.symm
      exact h t rfl u eq.symm

theorem option_map_eq_of_view {α : Type} {f g : Tree → α} {t? u? : Option Tree}
    (same : t?.map x.view = u?.map y.view)
    (h : ∀ t, t? = some t → ∀ u, x.view t = y.view u → f t = g u) : t?.map f = u?.map g := by
  rw [Option.map_eq_bind, Option.map_eq_bind]
  exact option_bind_eq_of_view same fun t ht u shown => congrArg some (h t ht u shown)

theorem option_bind_of_view {f g : Tree → Option Tree} {t? u? : Option Tree}
    (same : t?.map x.view = u?.map y.view)
    (h : ∀ t u, x.view t = y.view u → (f t).map x.view = (g u).map y.view) :
    (t?.bind f).map x.view = (u?.bind g).map y.view := by
  rw [Option.map_bind, Option.map_bind]
  exact option_bind_eq_of_view same fun t _ u => h t u

/-! ## Nodes that show the same -/

section

variable (same : x.view t = y.view u)

include same

theorem kind_eq_of_view : t.kind = u.kind := by
  rw [← kind_view x, same, kind_view]

theorem textOf_eq_of_view : x.textOf t = y.textOf u := by
  rw [← text_view, same, text_view]

theorem stringOf_eq_of_view : x.stringOf t = y.stringOf u := by
  rw [stringOf, textOf_eq_of_view same, stringOf]

theorem keyName_eq_of_view : x.keyName t = y.keyName u := by
  rw [keyName, textOf_eq_of_view same, keyName]

theorem namedChildren_of_view : t.namedChildren.map x.view = u.namedChildren.map y.view := by
  rw [← namedChildren_view, same, namedChildren_view]

theorem parts_of_view : t.parts.map x.view = u.parts.map y.view := by
  rw [← parts_view, same, parts_view]

theorem firstPart?_of_view : t.firstPart?.map x.view = u.firstPart?.map y.view := by
  rw [Tree.firstPart?, Tree.firstPart?, ← List.head?_map, ← List.head?_map, parts_of_view same]

theorem child?_of_view (l : Label) : (t.child? l).map x.view = (u.child? l).map y.view := by
  have child (x : Syntax) (t : Tree) :
      (t.child? l).map x.view = (x.view t).children.find? (·.label? == some l) := by
    rw [children_view, List.find?_map, Tree.child?]
    simp only [Function.comp_def, label?_view]
  rw [child, child, same]

theorem childPart?_of_view (l : Label) : ((t.child? l).bind Tree.firstPart?).map x.view =
    ((u.child? l).bind Tree.firstPart?).map y.view :=
  option_bind_of_view (child?_of_view same l) fun _ _ => firstPart?_of_view

theorem hasToken_of_view (text : String) : t.hasToken text = u.hasToken text := by
  have token (x : Syntax) (t : Tree) :
      t.hasToken text = (x.view t).children.any (·.kind == .token text) := by
    rw [children_view, List.any_map, Tree.hasToken]
    simp only [Function.comp_def, kind_view]
  rw [token x, token y, same]

end

/-! ## Functions of what is shown -/

/-- Lists that look the same through `v` and `w` look the same through functions of that. -/
theorem map_eq_of_map_eq {α β γ δ : Type} {v : α → γ} {w : β → γ} {f : α → δ} {g : β → δ}
    {as : List α} {bs : List β} (same : as.map v = bs.map w)
    (h : ∀ a ∈ as, ∀ b, v a = w b → f a = g b) : as.map f = bs.map g := by
  induction as generalizing bs with
  | nil =>
      obtain rfl := List.map_eq_nil_iff.1 same.symm
      rfl
  | cons a as ih =>
      obtain ⟨b, bs, rfl, first, rest⟩ := List.map_eq_cons_iff.1 same.symm
      rw [List.map_cons, List.map_cons, h a List.mem_cons_self b first.symm,
        ih rest.symm fun a ha => h a (List.mem_cons_of_mem _ ha)]

theorem filterMap_eq_of_map_eq {α β γ δ : Type} {v : α → γ} {w : β → γ} {f : α → Option δ}
    {g : β → Option δ} {as : List α} {bs : List β} (same : as.map v = bs.map w)
    (h : ∀ a ∈ as, ∀ b, v a = w b → f a = g b) : as.filterMap f = bs.filterMap g := by
  have values {ε : Type} (k : ε → Option δ) (es : List ε) :
      es.filterMap k = (es.map k).filterMap id := by
    rw [List.filterMap_map]
    rfl
  rw [values f, values g, map_eq_of_map_eq same h]

end Syntax

end PropStories.Tsx
