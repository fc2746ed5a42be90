import PropStories.Proofs.Contract.Forms
import PropStories.Proofs.Contract.Resolution
import PropStories.Proofs.Tsx.Reading
import PropStories.Proofs.Tsx.Substitution
import PropStories.Synth.Prop

/-!
# Choices between literals

A type that is put together from literals, `null` and `undefined` by unions, parentheses and aliases
offers a choice between its literals. Main statement: exactly where each union reaches, besides
members that are `null` or `undefined` themselves, only groups and aliases that offer something, and
no alias has a well-known name, the shape of the type is the literals as written, from left to
right, and its control selects among them.
-/

namespace PropStories

open Tsx

inductive LiteralSort where
  | string | number

namespace LiteralSort

def form : LiteralSort → String → TypeForm
  | string => .stringLiteral
  | number => .numberLiteral

def union : LiteralSort → List String → LiteralUnion
  | string => .strings
  | number => .numbers

/-- Whether a node of this kind is a literal of the sort; a number may have a sign. -/
def reads : LiteralSort → Kind → Bool
  | string, k => k == .string
  | number, k => k == .number || k == .unary

def split : LiteralSort → List String → List String × List String
  | string, vs => (vs, [])
  | number, vs => ([], vs)

@[simp] theorem values_union (sort : LiteralSort) (vs : List String) :
    (sort.union vs).values = vs := by
  cases sort <;> rfl

end LiteralSort

/-! ## Choices as written and as lowered -/

/-- The type that a node shows is made of the literals, of `null` and `undefined`. -/
inductive Tsx.Syntax.Offers (x : Syntax) (sort : LiteralSort) : Tree → List String → Prop
  | literal {t c : Tree} (kind : t.kind = .literalType) (first : t.firstPart? = some c)
      (literal : sort.reads c.kind = true) : Offers x sort t [x.stringOf c]
  | nullish {t c : Tree} (kind : t.kind = .literalType) (first : t.firstPart? = some c)
      (nullish : c.kind = .null ∨ c.kind = .undefined) : Offers x sort t []
  | parenthesized {t u : Tree} {vs : List String} (kind : t.kind = .parenthesizedType)
      (first : t.firstPart? = some u) (inner : Offers x sort u vs) : Offers x sort t vs
  | union {t : Tree} {members : List (Tree × List String)} (kind : t.kind = .unionType)
      (parts : members.map Prod.fst = t.parts) (inner : ∀ m ∈ members, Offers x sort m.1 m.2) :
      Offers x sort t (members.flatMap Prod.snd)
  | name {t u : Tree} {vs : List String} (kind : t.kind = .typeIdentifier)
      (proper : x.stringOf t ≠ "undefined" ∧ x.stringOf t ≠ "null")
      (declared : x.declarations.lookup (x.stringOf t) = some (.aliasOf (Lower.type x u)))
      (target : Offers x sort u vs) : Offers x sort t vs

/-- The same of a lowered type, in which parentheses have left no trace. -/
inductive TypeRef.Offers (ds : Declarations) (sort : LiteralSort) : TypeRef → List String → Prop
  | literal {t : TypeRef} {v : String} (form : t.form = sort.form v) : Offers ds sort t [v]
  | nullish {t : TypeRef} (form : t.form = .null ∨ t.form = .undefined) : Offers ds sort t []
  | union {t : TypeRef} {members : List (TypeRef × List String)}
      (form : t.form = .union (members.map Prod.fst))
      (inner : ∀ m ∈ members, Offers ds sort m.1 m.2) :
      Offers ds sort t (members.flatMap Prod.snd)
  | name {t u : TypeRef} {name : String} {vs : List String} (form : t.form = .named name [])
      (proper : t.isNullish = false) (declared : ds.lookup name = some (.aliasOf u))
      (target : Offers ds sort u vs) : Offers ds sort t vs

/-- The type offers something wherever that is looked for. -/
inductive TypeRef.Selectable (ds : Declarations) (sort : LiteralSort) : TypeRef → Prop
  | literal {t : TypeRef} {v : String} (form : t.form = sort.form v) : Selectable ds sort t
  | union {t : TypeRef} {members : List TypeRef} (form : t.form = .union members)
      (some_ : ∃ m ∈ members, m.isNullish = false)
      (inner : ∀ m ∈ members, m.isNullish = false → Selectable ds sort m) : Selectable ds sort t
  | name {t u : TypeRef} {name : String} (form : t.form = .named name [])
      (plain : Declarations.wellKnown (Declarations.unqualified name) [] = .none)
      (declared : ds.lookup name = some (.aliasOf u)) (target : Selectable ds sort u) :
      Selectable ds sort t

variable {x : Syntax} {sort : LiteralSort} {ds : Declarations} {t : TypeRef} {vs : List String}

/-! ## What a type offers, by its form -/

theorem LiteralSort.form_ne (sort : LiteralSort) (v : String) :
    sort.form v ≠ .null ∧ sort.form v ≠ .undefined ∧ (∀ members, sort.form v ≠ .union members) ∧
      ∀ name arguments, sort.form v ≠ .named name arguments := by
  cases sort <;> exact ⟨nofun, nofun, nofun, nofun⟩

namespace TypeRef.Offers

theorem of_literal (h : t.Offers ds sort vs) {v : String} (form : t.form = sort.form v) :
    vs = [v] := by
  obtain ⟨null, undefined, union, named⟩ := sort.form_ne v
  rw [← form] at null undefined union named
  cases h with
  | literal form' =>
      rw [form] at form'
      cases sort <;> cases form' <;> rfl
  | nullish form' => exact absurd form' (not_or.2 ⟨null, undefined⟩)
  | union form' => exact absurd form' (union _)
  | name form' => exact absurd form' (named _ _)

theorem members (h : t.Offers ds sort vs) {us : List TypeRef} (form : t.form = .union us) :
    ∃ members : List (TypeRef × List String), members.map Prod.fst = us ∧
      (∀ m ∈ members, m.1.Offers ds sort m.2) ∧ members.flatMap Prod.snd = vs := by
  cases h with
  | @literal _ v form' => exact absurd (form'.symm.trans form) ((sort.form_ne v).2.2.1 us)
  | nullish form' =>
      rw [form] at form'
      obtain form' | form' := form' <;> cases form'
  | @union _ members form' inner =>
      exact ⟨members, TypeForm.union.inj (form'.symm.trans form), inner, rfl⟩
  | name form' => cases form'.symm.trans form

theorem target (h : t.Offers ds sort vs) {name : String} (form : t.form = .named name []) :
    ∃ u, ds.lookup name = some (.aliasOf u) ∧ u.Offers ds sort vs := by
  cases h with
  | @literal _ v form' => exact absurd (form'.symm.trans form) ((sort.form_ne v).2.2.2 name [])
  | nullish form' =>
      rw [form] at form'
      obtain form' | form' := form' <;> cases form'
  | union form' => cases form'.symm.trans form
  | @name _ u name' _ form' _ declared target =>
      obtain ⟨rfl, -⟩ := TypeForm.named.inj (form'.symm.trans form)
      exact ⟨u, declared, target⟩

theorem of_nullish (h : t.Offers ds sort vs) (nullish : t.isNullish = true) : vs = [] := by
  cases h with
  | nullish => rfl
  | name form proper => exact absurd nullish (by simp [proper])
  | literal form =>
      rw [isNullish, form] at nullish
      cases sort <;> cases nullish
  | union form =>
      rw [isNullish, form] at nullish
      cases nullish

theorem flatMap_proper {members : List (TypeRef × List String)}
    (offers : ∀ m ∈ members, m.1.Offers ds sort m.2) :
    (members.filter (!·.1.isNullish)).flatMap Prod.snd = members.flatMap Prod.snd := by
  induction members with
  | nil => rfl
  | cons m members ih =>
      rw [List.flatMap_cons, ← ih fun m hm => offers m (List.mem_cons_of_mem _ hm)]
      cases nullish : m.1.isNullish with
      | true =>
          rw [(offers m List.mem_cons_self).of_nullish nullish,
            List.filter_cons_of_neg (by simp [nullish]), List.nil_append]
      | false => rw [List.filter_cons_of_pos (by simp [nullish]), List.flatMap_cons]

end TypeRef.Offers

theorem TypeRef.Selectable.ne_nil (h : t.Selectable ds sort) (offers : t.Offers ds sort vs) :
    vs ≠ [] := by
  induction h generalizing vs with
  | literal form =>
      rw [offers.of_literal form]
      exact List.cons_ne_nil _ _
  | union form some_ _ ih =>
      obtain ⟨members, rfl, inner, rfl⟩ := offers.members form
      obtain ⟨_, mem, proper⟩ := some_
      obtain ⟨m, hm, rfl⟩ := List.mem_map.1 mem
      exact fun none => ih m.1 mem proper (inner m hm) (List.flatMap_eq_nil_iff.1 none m hm)
  | name form _ declared _ ih =>
      obtain ⟨u, declared', target⟩ := offers.target form
      rw [declared] at declared'
      obtain rfl := Declaration.aliasOf.inj (Option.some.inj declared')
      exact ih target

namespace TypeRef

theorem selectable_union {us : List TypeRef} (form : t.form = .union us) :
    t.Selectable ds sort ↔ us.filter (!·.isNullish) ≠ [] ∧
      ∀ u ∈ us.filter (!·.isNullish), u.Selectable ds sort := by
  have proper {u : TypeRef} : u ∈ us.filter (!·.isNullish) ↔ u ∈ us ∧ u.isNullish = false := by
    rw [List.mem_filter, Bool.not_eq_true']
  constructor
  · intro h
    cases h with
    | @literal _ v form' => exact absurd (form'.symm.trans form) ((sort.form_ne v).2.2.1 us)
    | name form' => cases form'.symm.trans form
    | union form' some_ inner =>
        obtain rfl := TypeForm.union.inj (form'.symm.trans form)
        obtain ⟨u, hu⟩ := some_
        exact ⟨List.ne_nil_of_mem (proper.2 hu),
          fun u hu => inner u (proper.1 hu).1 (proper.1 hu).2⟩
  · rintro ⟨some_, inner⟩
    obtain ⟨u, hu⟩ := List.exists_mem_of_ne_nil _ some_
    exact .union form ⟨u, proper.1 hu⟩ fun u hu nullish => inner u (proper.2 ⟨hu, nullish⟩)

theorem selectable_name {name : String} {u : TypeRef} (form : t.form = .named name [])
    (declared : ds.lookup name = some (.aliasOf u)) : t.Selectable ds sort ↔
      Declarations.wellKnown (Declarations.unqualified name) [] = .none ∧
        u.Selectable ds sort := by
  constructor
  · intro h
    cases h with
    | @literal _ v form' => exact absurd (form'.symm.trans form) ((sort.form_ne v).2.2.2 name [])
    | union form' => cases form'.symm.trans form
    | name form' plain declared' target =>
        obtain ⟨rfl, -⟩ := TypeForm.named.inj (form'.symm.trans form)
        rw [declared] at declared'
        obtain rfl := Declaration.aliasOf.inj (Option.some.inj declared')
        exact ⟨plain, target⟩
  · exact fun h => .name form h.1 declared h.2

end TypeRef

/-! ## Lowering -/

theorem offers_operands {members : List (Tree × List String)}
    (inner : ∀ m ∈ members, (Lower.type x m.1).Offers ds sort m.2) :
    ∃ flat : List (TypeRef × List String),
      flat.map Prod.fst = ((members.map Prod.fst).flatMap fun c =>
        if c.kind == .unionType then Lower.operands .unionType c else [c]).map (Lower.type x) ∧
      (∀ m ∈ flat, m.1.Offers ds sort m.2) ∧ flat.flatMap Prod.snd = members.flatMap Prod.snd := by
  induction members with
  | nil => exact ⟨[], rfl, nofun, rfl⟩
  | cons m members ih =>
      obtain ⟨flat, parts, offers, values⟩ := ih fun m hm => inner m (List.mem_cons_of_mem _ hm)
      have first := inner m List.mem_cons_self
      rw [List.map_cons, List.flatMap_cons, List.map_append, ← parts, List.flatMap_cons, ← values]
      by_cases kind : m.1.kind = .unionType
      -- A union directly inside gives its place to its own operands, which offer the same.
      · have form : (Lower.type x m.1).form =
            .union ((Lower.operands .unionType m.1).map (Lower.type x)) := by
          rw [Lower.type_of_plain (by simp [kind]), TypeRef.form, Lower.form_of_union kind]
        obtain ⟨front, parts', offers', values'⟩ := first.members form
        refine ⟨front ++ flat, ?_, ?_, ?_⟩
        · rw [List.map_append, parts', if_pos (by simp [kind])]
        · exact List.forall_mem_append.2 ⟨offers', offers⟩
        · rw [List.flatMap_append, values']
      · refine ⟨(Lower.type x m.1, m.2) :: flat, ?_, ?_, ?_⟩
        · rw [if_neg (by simpa using kind)]
          rfl
        · exact List.forall_mem_cons.2 ⟨first, offers⟩
        · rw [List.flatMap_cons]

theorem literalForm_of_reads {c : Tree} (literal : sort.reads c.kind = true) :
    Lower.literalForm x c = sort.form (x.stringOf c) := by
  rw [Lower.literalForm]
  cases sort with
  | string =>
      rw [beq_iff_eq.1 literal]
      rfl
  | number =>
      obtain kind | kind := (Bool.or_eq_true_iff.1 literal).imp beq_iff_eq.1 beq_iff_eq.1
      all_goals
        rw [kind]
        rfl

theorem Tsx.Syntax.Offers.lowered {t : Tree} (h : x.Offers sort t vs) :
    (Lower.type x t).Offers x.declarations sort vs := by
  induction h with
  | literal kind first literal =>
      refine .literal ?_
      rw [Lower.type_of_plain (by simp [kind]), TypeRef.form, Lower.form_of_literal kind, first]
      exact literalForm_of_reads literal
  | nullish kind first nullish =>
      refine .nullish ?_
      rw [Lower.type_of_plain (by simp [kind]), TypeRef.form, Lower.form_of_literal kind, first]
      obtain nullish | nullish := nullish
      all_goals
        rw [Option.map_some, Option.getD_some, Lower.literalForm, nullish]
        simp
  | parenthesized kind first inner ih =>
      rw [Lower.type_of_parenthesized (.inl kind), first]
      exact ih
  | @union t members kind parts inner ih =>
      obtain ⟨flat, parts', offers, values⟩ := offers_operands ih
      rw [← values]
      refine .union ?_ offers
      rw [Lower.type_of_plain (by simp [kind]), TypeRef.form, Lower.form_of_union kind,
        Lower.operands_eq, ← parts, parts']
  | @name t u vs kind proper declared target ih =>
      have form : (Lower.type x t).form = .named (x.stringOf t) [] := by
        rw [Lower.type_of_plain (by simp [kind]), TypeRef.form, Lower.form_of_name kind]
      refine .name form ?_ declared ih
      rw [TypeRef.isNullish, form]
      simp [proper]

/-! ## Unions of shapes -/

namespace Declarations

theorem literalsOf_union (lists : List (List String)) :
    literalsOf (lists.map fun vs => .literals (sort.union vs)) =
      some (sort.split lists.flatten) := by
  induction lists with
  | nil => cases sort <;> rfl
  | cons vs lists ih =>
      cases sort
      all_goals
        rw [List.map_cons, List.flatten_cons]
        simp only [LiteralSort.union] at ih ⊢
        rw [literalsOf, ih]
        rfl

theorem unionShape_literals {lists : List (List String)} (some_ : lists.flatten ≠ []) :
    unionShape (lists.map fun vs => .literals (sort.union vs)) =
      .literals (sort.union lists.flatten) := by
  have mixed : (lists.map fun vs => Shape.literals (sort.union vs)).all isBoolean = false := by
    cases lists with
    | nil => exact absurd rfl some_
    | cons vs lists => rfl
  rw [unionShape, mixed, literalsOf_union]
  cases values : lists.flatten with
  | nil => exact absurd values some_
  | cons v vs => cases sort <;> rfl

theorem isLiteral_of_unionShape {shapes : List Shape} {u : LiteralUnion}
    (h : unionShape shapes = .literals u) : ∀ s ∈ shapes, ∃ u, s = .literals u := by
  have literals {shapes : List Shape} {found : List String × List String}
      (h : literalsOf shapes = some found) : ∀ s ∈ shapes, ∃ u, s = .literals u := by
    induction shapes generalizing found with
    | nil => nofun
    | cons s shapes ih =>
        cases s with
        | literals u =>
            refine List.forall_mem_cons.2 ⟨⟨u, rfl⟩, ?_⟩
            cases u
            all_goals
              rw [literalsOf, Option.map_eq_some_iff] at h
              obtain ⟨rest, h, -⟩ := h
              exact ih h
        | _ => cases h
  unfold unionShape at h
  split at h
  · cases h
  · split at h
    · exact literals ‹_›
    · exact literals ‹_›
    · cases h

theorem not_literals_of_wellKnown {name : String} {u : LiteralUnion} :
    wellKnown name [] ≠ .shape (.literals u) := by
  intro h
  unfold wellKnown at h
  split at h
  · cases h
  · split at h <;> cases h

end Declarations

/-! ## Classification -/

/-- The shape of a type that offers the literals: the choice between them if it is selectable, and
otherwise no choice. -/
def ShowsChoice (ds : Declarations) (sort : LiteralSort) (t : TypeRef) (vs : List String)
    (s : Shape) : Prop :=
  (t.Selectable ds sort → s = .literals (sort.union vs)) ∧
    ∀ u, s = .literals u → t.Selectable ds sort

section

variable {members : List (TypeRef × List String)} {shape : TypeRef → Shape}
  (shapes : ∀ m ∈ members, ShowsChoice ds sort m.1 m.2 (shape m.1))
  (selectable : t.Selectable ds sort ↔ members.map Prod.fst ≠ [] ∧
    ∀ u ∈ members.map Prod.fst, u.Selectable ds sort)
  (some_ : t.Selectable ds sort → members.flatMap Prod.snd ≠ [])

include shapes selectable some_

theorem showsChoice_unionShape (proper : members ≠ []) :
    ShowsChoice ds sort t (members.flatMap Prod.snd)
      (Declarations.unionShape ((members.map Prod.fst).map shape)) := by
  rw [List.forall_mem_map] at selectable
  constructor
  · intro h
    have chosen : (members.map Prod.fst).map shape =
        (members.map Prod.snd).map fun vs => .literals (sort.union vs) := by
      rw [List.map_map, List.map_map]
      exact List.map_congr_left fun m hm => (shapes m hm).1 ((selectable.1 h).2 m hm)
    rw [chosen, List.flatMap_def]
    exact Declarations.unionShape_literals (List.flatMap_def ▸ some_ h)
  · intro u literals
    refine selectable.2 ⟨fun none => proper (List.map_eq_nil_iff.1 none), fun m hm => ?_⟩
    obtain ⟨u, eq⟩ := Declarations.isLiteral_of_unionShape literals (shape m.1)
      (List.mem_map_of_mem (List.mem_map_of_mem hm))
    exact (shapes m hm).2 u eq

theorem showsChoice_union : ShowsChoice ds sort t (members.flatMap Prod.snd)
    (match members.map Prod.fst with
    | [] => .unknown
    | [single] => shape single
    | some_ => Declarations.unionShape (some_.map shape)) := by
  match members with
  | [] => exact ⟨fun h => absurd rfl (some_ h), nofun⟩
  -- A single member has its shape passed on, so it may be anything.
  | [m] =>
      obtain ⟨chosen, literals⟩ := shapes m (List.mem_singleton_self m)
      rw [List.flatMap_singleton]
      refine ⟨fun h => chosen ((selectable.1 h).2 m.1 (List.mem_singleton_self _)), fun u eq => ?_⟩
      exact selectable.2 ⟨nofun, fun u' hu => List.mem_singleton.1 hu ▸ literals u eq⟩
  | m :: m' :: members => exact showsChoice_unionShape shapes selectable some_ nofun

end

theorem TypeRef.Offers.level (h : t.Offers ds sort vs) {shape : TypeRef → Shape}
    (inner : ∀ u ∈ ds.followed t, ∀ vs, u.Offers ds sort vs → ShowsChoice ds sort u vs (shape u)) :
    ShowsChoice ds sort t vs (ds.level shape t) := by
  cases h with
  | @literal _ v form =>
      refine ⟨fun _ => ?_, fun _ _ => .literal form⟩
      rw [Declarations.level, form]
      cases sort <;> rfl
  | nullish form =>
      have shape : ds.level shape t = .unknown := by
        rw [Declarations.level]
        obtain form | form := form <;> rw [form]
      refine ⟨fun selectable => ?_, fun u literals => by rw [shape] at literals; cases literals⟩
      exact absurd rfl (selectable.ne_nil (.nullish form))
  | @union _ members form offers =>
      have proper : (members.map Prod.fst).filter (!·.isNullish) =
          (members.filter (!·.1.isNullish)).map Prod.fst := List.filter_map
      have followed : ds.followed t = (members.filter (!·.1.isNullish)).map Prod.fst := by
        rw [Declarations.followed, form, ← proper]
      have shapes : ∀ m ∈ members.filter (!·.1.isNullish),
          ShowsChoice ds sort m.1 m.2 (shape m.1) := fun m hm =>
        inner m.1 (followed ▸ List.mem_map_of_mem hm) m.2 (offers m (List.mem_filter.1 hm).1)
      have selectable := @selectable_union sort ds t _ form
      rw [proper] at selectable
      have some_ (h : t.Selectable ds sort) := h.ne_nil (.union form offers)
      rw [← flatMap_proper offers] at some_ ⊢
      rw [Declarations.level, form]
      simp only [proper]
      exact showsChoice_union shapes selectable some_
  | @name _ u name _ form proper declared target =>
      have selectable := @selectable_name sort ds t name u form declared
      rw [Declarations.level, form]
      -- A well-known name hides the alias, and none of them is a choice.
      cases known : Declarations.wellKnown (Declarations.unqualified name) [] with
      | none =>
          have followed : ds.followed t = [u] := by
            rw [Declarations.followed, form]
            simp only [known, declared]
          rw [known] at selectable
          simp only [declared, known]
          rw [ShowsChoice, selectable, and_iff_right rfl]
          exact inner u (by rw [followed]; exact List.mem_singleton_self u) vs target
      | shape s =>
          simp only [known]
          refine ⟨fun h => (nomatch known.symm.trans (selectable.1 h).1), fun u literals => ?_⟩
          exact absurd (known.trans (congrArg _ literals)) Declarations.not_literals_of_wellKnown
      | first =>
          simp only [known]
          exact ⟨fun h => (nomatch known.symm.trans (selectable.1 h).1), nofun⟩

theorem TypeRef.Offers.classifyWithin {n : Nat} (h : t.Offers ds sort vs) (near : ds.Settles n t) :
    ShowsChoice ds sort t vs (Declarations.classifyWithin ds (n + 1) t) := by
  induction n generalizing t vs with
  | zero =>
      rw [Declarations.classifyWithin_succ]
      refine h.level fun u hu => ?_
      obtain ⟨m, eq, -⟩ := near.followed hu
      cases eq
  | succ n ih =>
      rw [Declarations.classifyWithin_succ]
      refine h.level fun u hu vs offers => ih offers ?_
      obtain ⟨m, eq, settles⟩ := near.followed hu
      obtain rfl := Nat.succ.inj eq
      exact settles

/-! ## The statement -/

/-- A type of the file that is made of literals of one sort, `null` and `undefined`, with no chain
of hops that exceeds the limit, is a choice between the literals as written, from left to right, and
its control selects among them, if each union that it comes to has a member besides `null` and
`undefined`, each other member offers something in turn, and each alias has a name of its own. In
all other cases it is no choice at all. -/
theorem literals_stay_choices {x : Syntax} {sort : LiteralSort} {t : Tree} {vs : List String}
    (built : x.Offers sort t vs)
    (near : x.declarations.Settles Declarations.stepLimit (Lower.type x t)) :
    ((Lower.type x t).Selectable x.declarations sort →
      vs ≠ [] ∧ x.declarations.classify (Lower.type x t) = .literals (sort.union vs) ∧
        ∀ options p, p.type = Lower.type x t →
          (Synth.describe options x.declarations p).control = ⟨.select, vs⟩) ∧
    (¬ (Lower.type x t).Selectable x.declarations sort →
      (∀ u, x.declarations.classify (Lower.type x t) ≠ .literals u) ∧
        ∀ options p, p.type = Lower.type x t →
          (Synth.describe options x.declarations p).control.kind ≠ .select) := by
  obtain ⟨chosen, literals⟩ := built.lowered.classifyWithin near
  refine ⟨fun h => ⟨h.ne_nil built.lowered, chosen h, fun options p type => ?_⟩,
    fun h => ⟨fun u eq => h (literals u eq), fun options p type select => ?_⟩⟩
  · change Synth.controlOf (x.declarations.classify p.type) = _
    rw [type, Declarations.classify, chosen h, Synth.controlOf, LiteralSort.values_union]
  · change (Synth.controlOf (x.declarations.classify p.type)).kind = .select at select
    rw [type] at select
    unfold Synth.controlOf at select
    split at select
    case h_5 u eq => exact h (literals u eq)
    all_goals cases select

/-! ## A choice with an alias and a group -/

def choiceFirst : Tree := .node .literalType none 7 10 [.node .string none 7 10 []]

def choiceName : Tree := .node .typeIdentifier none 11 12 []

def choiceUnion : Tree :=
  .node .unionType (some .value) 7 12 [choiceFirst, .node (.token "|") none 10 11 [], choiceName]

def choiceNull : Tree := .node .literalType none 21 25 [.node .null none 21 25 []]

def choiceSecond : Tree := .node .literalType none 26 29 [.node .string none 26 29 []]

def choiceInner : Tree :=
  .node .unionType none 21 29 [choiceNull, .node (.token "|") none 25 26 [], choiceSecond]

def choiceGroup : Tree :=
  .node .parenthesizedType (some .value) 20 30
    [.node (.token "(") none 20 21 [], choiceInner, .node (.token ")") none 29 30 []]

def choiceSyntax : Syntax where
  source := "type T='a'|U;type U=(null|'b')".toList
  root :=
    .node .program none 0 30
      [.node .typeAliasDeclaration none 0 13
        [.node (.token "type") none 0 4 [], .node .typeIdentifier (some .name) 5 6 [],
          .node (.token "=") none 6 7 [], choiceUnion, .node (.token ";") none 12 13 []],
        .node .typeAliasDeclaration none 13 30
          [.node (.token "type") none 13 17 [], .node .typeIdentifier (some .name) 18 19 [],
            .node (.token "=") none 19 20 [], choiceGroup]]

def literalType (text : String) : TypeRef := .mk (.stringLiteral text) text

def choiceType : TypeRef := .mk (.union [literalType "'a'", .ofName "U"]) "'a'|U"

def groupType : TypeRef := .mk (.union [.mk .null "null", literalType "'b'"]) "null|'b'"

theorem type_choiceUnion : Lower.type choiceSyntax choiceUnion = choiceType := by
  have first : Lower.type choiceSyntax choiceFirst = literalType "'a'" := by
    rw [Lower.type_of_plain (by decide), Lower.form_of_literal rfl]
    rfl
  have name : Lower.type choiceSyntax choiceName = .ofName "U" := by
    rw [Lower.type_of_plain (by decide), Lower.form_of_name rfl]
    rfl
  rw [Lower.type_of_plain (by decide), Lower.form_of_union rfl, Lower.operands_eq, choiceType,
    ← first, ← name]
  rfl

theorem type_choiceGroup : Lower.type choiceSyntax choiceGroup = groupType := by
  have null : Lower.type choiceSyntax choiceNull = .mk .null "null" := by
    rw [Lower.type_of_plain (by decide), Lower.form_of_literal rfl]
    rfl
  have second : Lower.type choiceSyntax choiceSecond = literalType "'b'" := by
    rw [Lower.type_of_plain (by decide), Lower.form_of_literal rfl]
    rfl
  have inner : Lower.type choiceSyntax choiceInner = groupType := by
    rw [Lower.type_of_plain (by decide), Lower.form_of_union rfl, Lower.operands_eq, groupType,
      ← null, ← second]
    rfl
  rw [Lower.type_of_parenthesized (.inl rfl), ← inner]
  rfl

theorem declarations_choiceSyntax :
    choiceSyntax.declarations = [("U", .aliasOf groupType), ("T", .aliasOf choiceType)] := by
  rw [← type_choiceUnion, ← type_choiceGroup]
  rfl

theorem offers_choiceUnion : choiceSyntax.Offers .string choiceUnion ["'a'", "'b'"] := by
  have first : choiceSyntax.Offers .string choiceFirst ["'a'"] :=
    @Syntax.Offers.literal _ _ _ (.node .string none 7 10 []) rfl rfl rfl
  have null : choiceSyntax.Offers .string choiceNull [] := .nullish rfl rfl (.inl rfl)
  have second : choiceSyntax.Offers .string choiceSecond ["'b'"] :=
    @Syntax.Offers.literal _ _ _ (.node .string none 26 29 []) rfl rfl rfl
  have inner : choiceSyntax.Offers .string choiceInner ["'b'"] :=
    @Syntax.Offers.union _ _ _ [(choiceNull, []), (choiceSecond, ["'b'"])] rfl rfl (by simp [*])
  have name : choiceSyntax.Offers .string choiceName ["'b'"] :=
    .name rfl (by decide) rfl (.parenthesized rfl rfl inner)
  exact @Syntax.Offers.union _ _ _ [(choiceFirst, ["'a'"]), (choiceName, ["'b'"])] rfl rfl
    (by simp [*])

theorem selectable_choiceType : choiceType.Selectable choiceSyntax.declarations .string := by
  rw [declarations_choiceSyntax]
  have group : groupType.Selectable
      [("U", .aliasOf groupType), ("T", .aliasOf choiceType)] .string := by
    refine (TypeRef.selectable_union rfl).2 ⟨nofun, ?_⟩
    exact List.forall_mem_singleton.2 (.literal rfl)
  refine (TypeRef.selectable_union rfl).2 ⟨nofun, ?_⟩
  exact List.forall_mem_cons.2 ⟨.literal rfl,
    List.forall_mem_singleton.2 ((TypeRef.selectable_name rfl rfl).2 ⟨rfl, group⟩)⟩

theorem literals_stay_choices_of_group :
    parse choiceSyntax.source = choiceSyntax ∧
      choiceSyntax.declarations.classify choiceType = .literals (.strings ["'a'", "'b'"]) ∧
      (Synth.describe ⟨3, true⟩ choiceSyntax.declarations
        (.mk "tone" choiceType true none)).control = ⟨.select, ["'a'", "'b'"]⟩ := by
  have near : choiceSyntax.declarations.Settles Declarations.stepLimit
      (Lower.type choiceSyntax choiceUnion) := by
    rw [declarations_choiceSyntax, type_choiceUnion]
    decide +kernel
  have selectable := selectable_choiceType
  rw [← type_choiceUnion] at selectable
  obtain ⟨-, shape, control⟩ := (literals_stay_choices offers_choiceUnion near).1 selectable
  rw [type_choiceUnion] at shape control
  exact ⟨parse_eq (by decide +kernel), shape, control _ _ rfl⟩

end PropStories
