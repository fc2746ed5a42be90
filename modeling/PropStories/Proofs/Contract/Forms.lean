import PropStories.Contract.Analysis
import PropStories.Proofs.Contract.Lowering

/-!
# What holds of every form in a type

The parts of a lowered type are lowered from smaller trees, and classification only passes them on
and merges lists of properties. So a predicate on forms that holds of what is lowered from the trees
of a file, and that merging keeps, holds at every depth of its types, shapes and contracts.
-/

namespace PropStories

open Tsx

variable {P : TypeForm → Prop}

/-! ## Types -/

def TypeForm.parts : TypeForm → List TypeRef
  | .array e => [e]
  | .union ms | .intersection ms => ms
  | .object ps => ps.map Property.type
  | .named _ arguments => arguments
  | _ => []

inductive TypeRef.All (P : TypeForm → Prop) : TypeRef → Prop
  | mk {f : TypeForm} {text : String} (here : P f) (parts : ∀ t ∈ f.parts, All P t) :
      All P (.mk f text)

structure AllProperties (P : TypeForm → Prop) (ps : List Property) : Prop where
  here : P (.object ps)
  types : ∀ p ∈ ps, p.type.All P

structure Merges (P : TypeForm → Prop) : Prop where
  empty : P (.object [])
  merge : ∀ {first second}, P (.object first) → P (.object second) →
    P (.object (Property.merge first second))

namespace TypeRef.All

variable {t u : TypeRef}

theorem form (h : t.All P) : P t.form := by
  cases h with
  | mk here _ => exact here

theorem part (h : t.All P) (hu : u ∈ t.form.parts) : u.All P := by
  cases h with
  | mk _ parts => exact parts u hu

theorem properties {ps : List Property} (h : t.All P) (form : t.form = .object ps) :
    AllProperties P ps :=
  ⟨form ▸ h.form, fun p hp => h.part (by rw [form]; exact List.mem_map_of_mem hp)⟩

theorem of_plain {f : TypeForm} (here : P f) (parts : f.parts = []) (text : String) :
    (TypeRef.mk f text).All P :=
  .mk here fun t h => by rw [parts] at h; cases h

end TypeRef.All

namespace Merges

variable {first second : List Property}

theorem nil (hP : Merges P) : AllProperties P [] := ⟨hP.empty, nofun⟩

theorem append (hP : Merges P) (hf : AllProperties P first) (hs : AllProperties P second) :
    AllProperties P (Property.merge first second) :=
  ⟨hP.merge hf.here hs.here, fun p hp => (Property.mem_merge hp).elim (hf.types p) (hs.types p)⟩

theorem foldl (hP : Merges P) {lists : List (List Property)} (hf : AllProperties P first)
    (hl : ∀ ps ∈ lists, AllProperties P ps) :
    AllProperties P (lists.foldl Property.merge first) := by
  induction lists generalizing first with
  | nil => exact hf
  | cons ps lists ih =>
      exact ih (hP.append hf (hl ps List.mem_cons_self)) fun qs hq =>
        hl qs (List.mem_cons_of_mem _ hq)

end Merges

/-! ## Declarations and shapes -/

def Declaration.All (P : TypeForm → Prop) : Declaration → Prop
  | .interface ps bases => AllProperties P ps ∧ ∀ b ∈ bases, b.All P
  | .aliasOf t => t.All P

def Shape.All (P : TypeForm → Prop) : Shape → Prop
  | .array (some e) => e.All P
  | .literals (.strings vs) => ∀ v ∈ vs, P (.stringLiteral v)
  | .literals (.numbers vs) => ∀ v ∈ vs, P (.numberLiteral v)
  | .object ps => AllProperties P ps
  | _ => True

namespace Declarations

variable {ds : Declarations}

def All (P : TypeForm → Prop) (ds : Declarations) : Prop := ∀ n d, ds.lookup n = some d → d.All P

theorem keywordShape_all (hP : Merges P) (w : String) : (keywordShape w).All P := by
  unfold keywordShape
  split
  case h_5 => exact hP.nil
  all_goals trivial

theorem literalsOf_all {shapes : List Shape} (h : ∀ s ∈ shapes, s.All P) {ss ns : List String}
    (literals : literalsOf shapes = some (ss, ns)) :
    (∀ v ∈ ss, P (.stringLiteral v)) ∧ ∀ v ∈ ns, P (.numberLiteral v) := by
  induction shapes generalizing ss ns with
  | nil =>
      obtain ⟨rfl, rfl⟩ := Prod.mk.inj (Option.some.inj literals)
      exact ⟨nofun, nofun⟩
  | cons s shapes ih =>
      have hs : s.All P := h s List.mem_cons_self
      have rest : ∀ t ∈ shapes, t.All P := fun t ht => h t (List.mem_cons_of_mem _ ht)
      have joined {f : String → TypeForm} {vs more : List String} (hv : ∀ v ∈ vs, P (f v))
          (hm : ∀ v ∈ more, P (f v)) : ∀ v ∈ vs ++ more, P (f v) :=
        fun v mem => (List.mem_append.1 mem).elim (hv v) (hm v)
      unfold literalsOf at literals
      split at literals
      · cases ‹_ :: _ = []›
      · rename_i vs more eq
        obtain ⟨rfl, rfl⟩ := List.cons.inj eq
        obtain ⟨⟨strings, numbers⟩, found, eq⟩ := Option.map_eq_some_iff.1 literals
        obtain ⟨rfl, rfl⟩ := Prod.mk.inj eq
        exact ⟨joined hs (ih rest found).1, (ih rest found).2⟩
      · rename_i vs more eq
        obtain ⟨rfl, rfl⟩ := List.cons.inj eq
        obtain ⟨⟨strings, numbers⟩, found, eq⟩ := Option.map_eq_some_iff.1 literals
        obtain ⟨rfl, rfl⟩ := Prod.mk.inj eq
        exact ⟨(ih rest found).1, joined hs (ih rest found).2⟩
      · cases literals

theorem unionShape_all {shapes : List Shape} (h : ∀ s ∈ shapes, s.All P) :
    (unionShape shapes).All P := by
  unfold unionShape
  split
  · trivial
  · split
    · rename_i literals
      exact (literalsOf_all h literals).1
    · rename_i literals
      exact (literalsOf_all h literals).2
    · trivial

theorem propertiesOf?_all {s : Shape} {ps : List Property} (h : s.All P)
    (properties : propertiesOf? s = some ps) : AllProperties P ps := by
  cases s with
  | object qs =>
      obtain rfl := Option.some.inj properties
      exact h
  | _ => cases properties

theorem intersectionShape_all (hP : Merges P) {shapes : List Shape} (h : ∀ s ∈ shapes, s.All P) :
    (intersectionShape shapes).All P := by
  unfold intersectionShape
  split
  · trivial
  · refine hP.foldl hP.nil fun ps hp => ?_
    obtain ⟨s, hs, properties⟩ := List.mem_filterMap.1 hp
    exact propertiesOf?_all (h s hs) properties

theorem wellKnown_all (hP : Merges P) {name : String} {arguments : List TypeRef} {s : Shape}
    (h : ∀ t ∈ arguments, t.All P) (known : wellKnown name arguments = .shape s) : s.All P := by
  unfold wellKnown at known
  split at known
  · obtain rfl := WellKnown.shape.inj known
    trivial
  · split at known
    case h_1 | h_2 =>
      obtain rfl := WellKnown.shape.inj known
      cases arguments with
      | nil => trivial
      | cons t more => exact h t List.mem_cons_self
    case h_7 =>
      obtain rfl := WellKnown.shape.inj known
      exact hP.nil
    all_goals first
    | obtain rfl := WellKnown.shape.inj known
      trivial
    | cases known

theorem classifyWithin_all (hP : Merges P) (hd : ds.All P) (steps : Nat) {t : TypeRef}
    (h : t.All P) : (classifyWithin ds steps t).All P := by
  induction steps generalizing t with
  | zero => trivial
  | succ steps ih =>
      -- A shape is the form itself, or put together from shapes of parts and of declared types.
      have parts (u : TypeRef) (hu : u ∈ t.form.parts) : (classifyWithin ds steps u).All P :=
        ih (h.part hu)
      have here := h.form
      rw [classifyWithin]
      split
      case h_1 => exact keywordShape_all hP _
      case h_2 v form => exact fun w hw => List.mem_singleton.1 hw ▸ form ▸ here
      case h_3 v form => exact fun w hw => List.mem_singleton.1 hw ▸ form ▸ here
      case h_8 element form => exact h.part (by rw [form]; exact List.mem_singleton_self _)
      case h_9 members form =>
        have proper : ∀ u ∈ members.filter (!·.isNullish), (classifyWithin ds steps u).All P :=
          fun u hu => parts u (by rw [form]; exact (List.mem_filter.1 hu).1)
        split
        · trivial
        · rename_i u eq
          exact proper u (by rw [eq]; exact List.mem_singleton_self _)
        · refine unionShape_all fun s hs => ?_
          obtain ⟨u, hu, rfl⟩ := List.mem_map.1 hs
          exact proper u hu
      case h_10 members form =>
        refine intersectionShape_all hP fun s hs => ?_
        obtain ⟨u, hu, rfl⟩ := List.mem_map.1 hs
        exact parts u (by rw [form]; exact hu)
      case h_11 ps form => exact h.properties form
      case h_13 name arguments form =>
        have given : ∀ u ∈ arguments, u.All P := fun u hu => h.part (by rw [form]; exact hu)
        split
        · rename_i s known
          exact wellKnown_all hP given known
        · cases arguments with
          | nil => trivial
          | cons inner more => exact ih (given inner List.mem_cons_self)
        · split
          · rename_i target declared
            exact ih (hd _ _ declared)
          · rename_i own bases declared
            obtain ⟨hown, hbases⟩ := hd _ _ declared
            refine hP.foldl hown fun ps hp => ?_
            obtain ⟨b, hb, properties⟩ := List.mem_filterMap.1 hp
            exact propertiesOf?_all (ih (hbases b hb)) properties
          · trivial
      all_goals trivial

theorem classify_all (hP : Merges P) (hd : ds.All P) {t : TypeRef} (h : t.All P) :
    (ds.classify t).All P := classifyWithin_all hP hd _ h

end Declarations

/-! ## Lowering -/

structure Lowers (x : Syntax) (T : Tree → Prop) (P : TypeForm → Prop) : Prop extends Merges P where
  child : ∀ {t u}, T t → u ∈ t.children → T u
  form : ∀ {t}, T t → P (Lower.form x t)
  members : ∀ {t}, T t → P (.object (Lower.members x t))
  other : P .other
  function : P .function
  any : P (.keyword "any")

namespace Lower

variable {x : Syntax} {T : Tree → Prop} {t : Tree}

theorem literalForm_parts (x : Syntax) (t : Tree) :
    (literalForm x t).parts = [] ∧ ∀ ps, literalForm x t ≠ .object ps := by
  unfold literalForm
  split <;> exact ⟨rfl, fun _ h => by cases h⟩

theorem wordForm_parts (w : String) :
    (wordForm w).parts = [] ∧ ∀ ps, wordForm w ≠ .object ps := by
  unfold wordForm
  split <;> exact ⟨rfl, fun _ h => by cases h⟩

theorem distinct_of_form {ps : List Property} (h : form x t = .object ps) : DistinctNames ps := by
  unfold form at h
  split at h
  case h_2 =>
    cases first : t.firstPart? with
    | none =>
        rw [first] at h
        exact absurd h ((wordForm_parts _).2 ps)
    | some c =>
        rw [first] at h
        exact absurd h ((literalForm_parts x c).2 ps)
  case h_7 => split at h <;> cases h
  case h_10 =>
    split at h
    · cases h
    · exact TypeForm.object.inj h ▸ distinct_members x t
  all_goals cases h

theorem mem_operands {k : Kind} {u : Tree} (child : ∀ {t u}, T t → u ∈ t.children → T u) (h : T t)
    (hu : u ∈ operands k t) : T u := by
  induction t using operands.induct with
  | case1 t ih =>
      unfold operands at hu
      obtain ⟨⟨c, hc⟩, -, hu⟩ := List.mem_flatMap.1 hu
      have part := child h (Tree.mem_children_of_mem_parts hc)
      dsimp only at hu
      split at hu
      · exact ih c hc part hu
      · exact List.mem_singleton.1 hu ▸ part

theorem members_all (hx : Lowers x T P) (h : T t)
    (smaller : ∀ u, sizeOf u < sizeOf t → T u → (type x u).All P) :
    AllProperties P (members x t) := by
  refine ⟨hx.members h, fun p hp => ?_⟩
  rw [members_eq] at hp
  obtain ⟨m, hm, found⟩ :=
    List.mem_filterMap.1 ((Property.firstOfEachName_sublist _).subset hp)
  have member := Tree.mem_children_of_mem_namedChildren (mem_of_mem_documented hm)
  obtain ⟨name, -, found⟩ := Option.bind_eq_some_iff.1 found
  obtain ⟨r, declared, rfl⟩ := Option.map_eq_some_iff.1 found
  unfold memberType? at declared
  split at declared
  · obtain rfl := Option.some.inj declared
    cases ascribed : (m.1.child? .type).bind Tree.firstPart? with
    | none => exact .of_plain hx.any rfl _
    | some u =>
        obtain ⟨ascription, hl, hu⟩ := Option.bind_eq_some_iff.1 ascribed
        exact smaller u (Nat.lt_trans (Tree.sizeOf_lt_of_firstPart? hu)
          (Nat.lt_trans (Tree.sizeOf_lt_of_child? hl) (Tree.sizeOf_lt_of_mem_children member)))
          (hx.child (hx.child (hx.child h member) (Tree.mem_children_of_child? hl))
            (Tree.mem_children_of_firstPart? hu))
  · obtain rfl := Option.some.inj declared
    exact .of_plain hx.function rfl _
  · cases declared

theorem form_parts_all (hx : Lowers x T P) (h : T t)
    (smaller : ∀ u, sizeOf u < sizeOf t → T u → (type x u).All P) :
    ∀ u ∈ (form x t).parts, u.All P := by
  have plain {f : TypeForm} (parts : f.parts = []) : ∀ u ∈ f.parts, u.All P := by
    rw [parts]
    exact List.forall_mem_nil _
  unfold form
  split
  case h_2 =>
    cases t.firstPart? with
    | none => exact plain (wordForm_parts _).1
    | some c => exact plain (literalForm_parts x c).1
  case h_6 =>
    intro u hu
    simp only [TypeForm.parts] at hu
    split at hu
    · rename_i arguments hl
      obtain ⟨⟨c, hc⟩, -, rfl⟩ := List.mem_map.1 hu
      exact smaller c (Nat.lt_trans (Tree.sizeOf_lt_of_mem_parts hc) (Tree.sizeOf_lt_of_child? hl))
        (hx.child (hx.child h (Tree.mem_children_of_child? hl)) (Tree.mem_children_of_mem_parts hc))
    · cases hu
  case h_7 =>
    split
    · rename_i element first
      intro u hu
      rw [List.mem_singleton.1 hu]
      exact smaller element (Tree.sizeOf_lt_of_firstPart? first)
        (hx.child h (Tree.mem_children_of_firstPart? first))
    · exact plain rfl
  case h_8 | h_9 =>
    intro u hu
    obtain ⟨⟨c, hc⟩, -, rfl⟩ := List.mem_map.1 hu
    exact smaller c (sizeOf_lt_of_mem_operands hc) (mem_operands hx.child h hc)
  case h_10 =>
    split
    · exact plain rfl
    · exact List.forall_mem_map.2 (members_all hx h smaller).types
  all_goals exact plain rfl

theorem type_all (hx : Lowers x T P) (h : T t) : (type x t).All P := by
  -- On the size, since lowering goes down past labels, operands and members at once.
  induction size : sizeOf t using Nat.strongRecOn generalizing t with
  | ind n ih =>
      have smaller (u : Tree) (hu : sizeOf u < sizeOf t) (hT : T u) : (type x u).All P :=
        ih _ (size ▸ hu) hT rfl
      unfold type
      split
      case h_3 => exact .mk (hx.form h) (form_parts_all hx h smaller)
      all_goals
        split
        · rename_i inner first
          exact smaller inner (Tree.sizeOf_lt_of_firstPart? first)
            (hx.child h (Tree.mem_children_of_firstPart? first))
        · exact .of_plain hx.other rfl _

theorem body_all (hx : Lowers x T P) (h : T t) : AllProperties P (members x t) :=
  members_all hx h fun _ _ hT => type_all hx hT

end Lower

/-! ## The items of a file -/

def Tsx.Syntax.declarations (x : Syntax) : Declarations :=
  FileItem.declarations (FileItem.ofFile x)

def FileItem.All (P : TypeForm → Prop) : FileItem → Prop
  | .type _ d _ => d.All P
  | .component _ t _ _ => t.All P
  | .defaultName _ => True
  | .defaultFunction t => t.All P

namespace Lowers

variable {x : Syntax} {T : Tree → Prop} {t u : Tree} {r : TypeRef} {l : Label}

theorem of_child? (hx : Lowers x T P) (h : T t) (hu : t.child? l = some u) : T u :=
  hx.child h (Tree.mem_children_of_child? hu)

theorem of_firstPart? (hx : Lowers x T P) (h : T t) (hu : t.firstPart? = some u) : T u :=
  hx.child h (Tree.mem_children_of_firstPart? hu)

theorem of_mem_parts (hx : Lowers x T P) (h : T t) (hu : u ∈ t.parts) : T u :=
  hx.child h (Tree.mem_children_of_mem_parts hu)

theorem of_mem_namedChildren (hx : Lowers x T P) (h : T t) (hu : u ∈ t.namedChildren) : T u :=
  hx.child h (Tree.mem_children_of_mem_namedChildren hu)

end Lowers

namespace Component

variable {x : Syntax} {T : Tree → Prop} {t : Tree} {r : TypeRef} (hx : Lowers x T P)

include hx

theorem firstParameterType?_all (h : T t) (found : firstParameterType? x t = some r) : r.All P := by
  simp only [firstParameterType?, Option.bind_eq_bind, Option.bind_eq_some_iff] at found
  obtain ⟨parameters, hp, first, hf, ascription, ha, u, hu, eq⟩ := found
  obtain rfl := Option.some.inj eq
  have inner := hx.of_firstPart? (hx.of_child? h hp) hf
  exact Lower.type_all hx (hx.of_firstPart? (hx.of_child? inner ha) hu)

theorem ascribedType?_all (h : T t) (found : ascribedType? x t = some r) : r.All P := by
  simp only [ascribedType?, Option.bind_eq_bind, Option.bind_eq_some_iff] at found
  obtain ⟨u, hu, found⟩ := found
  split at found
  · cases found
  · obtain ⟨name, hn, found⟩ := Option.bind_eq_some_iff.1 found
    split at found
    · cases found
    · simp only [Option.bind_eq_some_iff] at found
      obtain ⟨arguments, ha, first, hf, eq⟩ := found
      obtain rfl := Option.some.inj eq
      exact Lower.type_all hx (hx.of_firstPart? (hx.of_child? (hx.of_firstPart? h hu) ha) hf)

theorem expressionType?_all (h : T t) (found : expressionType? x t = some r) : r.All P := by
  induction size : sizeOf t using Nat.strongRecOn generalizing t with
  | ind n ih =>
      have smaller (u : Tree) (hu : sizeOf u < sizeOf t) (hT : T u)
          (found : expressionType? x u = some r) : r.All P := ih _ (size ▸ hu) hT found rfl
      unfold expressionType? at found
      split at found
      · exact firstParameterType?_all hx h found
      · split at found
        · split at found
          · rename_i inner hi
            exact smaller inner (Tree.sizeOf_lt_of_firstPart? hi) (hx.of_firstPart? h hi) found
          · cases found
        · split at found
          · cases found
          · dsimp only at found
            split at found
            · rename_i properties given
              obtain rfl := Option.some.inj found
              split at given
              · obtain ⟨u, hu, rfl⟩ := Option.map_eq_some_iff.1 given
                obtain ⟨arguments, ha, part⟩ := Option.bind_eq_some_iff.1 hu
                exact Lower.type_all hx
                  (hx.of_mem_parts (hx.of_child? h ha) (List.mem_of_getElem? part))
              · cases given
            · split at found
              · split at found
                · cases found
                · rename_i arguments ha
                  split at found
                  · rename_i first hf
                    exact smaller first
                      (Nat.lt_trans (Tree.sizeOf_lt_of_firstPart? hf) (Tree.sizeOf_lt_of_child? ha))
                      (hx.of_firstPart? (hx.of_child? h ha) hf) found
                  · cases found
              · cases found
        · cases found

theorem declaratorType?_all (h : T t) (found : declaratorType? x t = some r) : r.All P := by
  simp only [declaratorType?, Option.orElse_eq_orElse, Option.orElse_eq_or,
    Option.or_eq_some_iff] at found
  obtain found | ⟨-, found⟩ := found
  · obtain ⟨ascription, ha, found⟩ := Option.bind_eq_some_iff.1 found
    exact ascribedType?_all hx (hx.of_child? h ha) found
  · obtain ⟨value, hv, found⟩ := Option.bind_eq_some_iff.1 found
    exact expressionType?_all hx (hx.of_child? h hv) found

end Component

namespace FileItem

open Component

section

variable {x : Syntax} {T : Tree → Prop} {t : Tree} (hx : Lowers x T P)

include hx

theorem interface?_all (h : T t) {n : String} {d : Declaration}
    (found : interface? x t = some (n, d)) : d.All P := by
  obtain ⟨name, -, eq⟩ := Option.map_eq_some_iff.1 found
  obtain ⟨rfl, rfl⟩ := Prod.mk.inj eq
  refine ⟨?_, fun b hb => ?_⟩
  · cases body : t.child? .body with
    | none => exact hx.nil
    | some u => exact Lower.body_all hx (hx.of_child? h body)
  · obtain ⟨u, hu, rfl⟩ := List.mem_map.1 hb
    obtain ⟨clause, hc, part⟩ := List.mem_flatMap.1 hu
    have clause_ := hx.of_mem_namedChildren h (List.mem_filter.1 hc).1
    exact Lower.type_all hx (hx.of_mem_parts clause_ part)

theorem aliased?_all (h : T t) {n : String} {d : Declaration}
    (found : aliased? x t = some (n, d)) : d.All P := by
  simp only [aliased?, Option.bind_eq_bind, Option.bind_eq_some_iff] at found
  obtain ⟨name, -, value, hv, eq⟩ := found
  obtain ⟨rfl, rfl⟩ := Prod.mk.inj (Option.some.inj eq)
  exact Lower.type_all hx (hx.of_child? h hv)

theorem ofDeclaration_all (h : T t) {exported isDefault : Bool} :
    ∀ i ∈ ofDeclaration x t exported isDefault, i.All P := by
  intro i hi
  unfold ofDeclaration at hi
  split at hi
  · obtain ⟨⟨n, d⟩, found, rfl⟩ := Option.map_eq_some_iff.1 (Option.mem_toList.1 hi)
    exact interface?_all hx h found
  · obtain ⟨⟨n, d⟩, found, rfl⟩ := Option.map_eq_some_iff.1 (Option.mem_toList.1 hi)
    exact aliased?_all hx h found
  · have found := Option.mem_toList.1 hi
    simp only [Option.bind_eq_bind, Option.bind_eq_some_iff] at found
    obtain ⟨name, -, properties, hp, eq⟩ := found
    obtain rfl := Option.some.inj eq
    exact firstParameterType?_all hx h hp
  · obtain ⟨d, hd, found⟩ := List.mem_filterMap.1 hi
    simp only [Option.bind_eq_bind, Option.bind_eq_some_iff] at found
    obtain ⟨name, -, properties, hp, eq⟩ := found
    obtain rfl := Option.some.inj eq
    exact declaratorType?_all hx (hx.of_mem_namedChildren h (List.mem_filter.1 hd).1) hp
  · cases hi

theorem ofStatement_all (h : T t) : ∀ i ∈ ofStatement x t, i.All P := by
  intro i hi
  unfold ofStatement at hi
  split at hi
  · split at hi
    · rename_i d hd
      exact ofDeclaration_all hx (hx.of_child? h hd) i hi
    · split at hi
      · cases hi
      · rename_i v hv
        split at hi
        · obtain rfl := List.mem_singleton.1 hi
          trivial
        · split at hi
          · obtain ⟨r, found, rfl⟩ := Option.map_eq_some_iff.1 (Option.mem_toList.1 hi)
            exact firstParameterType?_all hx (hx.of_child? h hv) found
          · cases hi
  · exact ofDeclaration_all hx h i hi

theorem ofFile_all (h : T x.root) : ∀ i ∈ ofFile x, i.All P := by
  intro i hi
  obtain ⟨t, ht, hi⟩ := List.mem_flatMap.1 hi
  exact ofStatement_all hx (hx.of_mem_namedChildren h ht) i hi

end

variable {items : List FileItem} (h : ∀ i ∈ items, i.All P)

include h

theorem declarations_all : (declarations items).All P := by
  intro n d found
  obtain ⟨front, back, eq, -⟩ := List.lookup_eq_some_iff.1 found
  have mem : (n, d) ∈ declarations items := by
    rw [eq]
    exact List.mem_append_right _ List.mem_cons_self
  obtain ⟨i, hi, found⟩ := List.mem_filterMap.1 (List.mem_reverse.1 mem)
  cases i with
  | type m e exported =>
      obtain ⟨rfl, rfl⟩ := Prod.mk.inj (Option.some.inj found)
      exact h _ hi
  | _ => cases found

theorem componentTypes_all : ∀ c ∈ componentTypes items, c.2.All P := by
  rintro ⟨n, t⟩ hc
  rcases List.mem_append.1 hc with hc | hc
  · obtain ⟨i, hi, found⟩ := List.mem_filterMap.1 (List.mem_reverse.1 hc)
    cases i with
    | defaultFunction r =>
        obtain ⟨rfl, rfl⟩ := Prod.mk.inj (Option.some.inj found)
        exact h _ hi
    | _ => cases found
  · obtain ⟨m, -, found⟩ := List.mem_filterMap.1 hc
    obtain ⟨r, given, eq⟩ := Option.map_eq_some_iff.1 found
    obtain ⟨rfl, rfl⟩ := Prod.mk.inj eq
    obtain ⟨front, back, eq, -⟩ := List.lookup_eq_some_iff.1 given
    have mem : (m, r) ∈ components items := by
      rw [eq]
      exact List.mem_append_right _ List.mem_cons_self
    obtain ⟨i, hi, found⟩ := List.mem_filterMap.1 (List.mem_reverse.1 mem)
    cases i with
    | component n' r' exported isDefault =>
        obtain ⟨rfl, rfl⟩ := Prod.mk.inj (Option.some.inj found)
        exact h _ hi
    | _ => cases found

end FileItem

/-! ## Contracts -/

theorem Analysis.ofItems_all (hP : Merges P) (name : ∀ n, P (.named n [])) {items : List FileItem}
    (h : ∀ i ∈ items, i.All P) : ∀ c ∈ (ofItems items).contracts, AllProperties P c.properties := by
  have declared := FileItem.declarations_all h
  have shape {t : TypeRef} (ht : t.All P) {ps : List Property}
      (properties :
        Declarations.propertiesOf? ((FileItem.declarations items).classify t) = some ps) :
      AllProperties P ps :=
    Declarations.propertiesOf?_all (Declarations.classify_all hP declared ht) properties
  intro c hc
  unfold ofItems at hc
  dsimp only at hc
  split at hc
  · obtain ⟨⟨n, t⟩, ht, found⟩ := List.mem_filterMap.1 hc
    obtain ⟨ps, properties, rfl⟩ := Option.map_eq_some_iff.1 found
    exact shape (FileItem.componentTypes_all h _ ht) properties
  · obtain ⟨n, -, rfl⟩ := List.mem_map.1 hc
    cases properties :
        Declarations.propertiesOf? ((FileItem.declarations items).classify (.ofName n)) with
    | none => exact hP.nil
    | some ps => exact shape (.of_plain (name n) rfl _) properties

end PropStories
