import Mathlib.Order.Basic
import PropStories.Contract.Classify

/-!
# Resolution with and without a bound

The shape of a type is put together from the shapes of the types that it follows: the members of a
union or intersection, an argument, what a name stands for, the bases of an interface. Resolution
does this to the end, so a type that follows itself has no shape; evaluation with a limit cuts off
what is too many hops away. Main statement: evaluation always has one result, a limit that cuts
nothing off decides nothing, and classification is resolution where no chain of hops is too long.
-/

namespace PropStories.Declarations

variable {ds : Declarations} {t u : TypeRef} {s : Shape} {limit n steps : Nat}

/-! ## One level -/

/-- The types whose shapes decide the shape of a type: one hop leads to each of them. -/
def followed (ds : Declarations) (t : TypeRef) : List TypeRef :=
  match t.form with
  | .union members => members.filter (!·.isNullish)
  | .intersection members => members
  | .named name arguments =>
      match wellKnown (unqualified name) arguments with
      | .shape _ => []
      | .first => arguments.take 1
      | .none =>
          match ds.lookup name with
          | some (.aliasOf target) => [target]
          | some (.interface _ bases) => bases
          | none => []
  | _ => []

def level (ds : Declarations) (shape : TypeRef → Shape) (t : TypeRef) : Shape :=
  match t.form with
  | .keyword w => keywordShape w
  | .stringLiteral v => .literals (.strings [v])
  | .numberLiteral v => .literals (.numbers [v])
  | .booleanLiteral _ => .boolean
  | .null | .undefined | .other => .unknown
  | .array e => .array (some e)
  | .union members =>
      match members.filter (!·.isNullish) with
      | [] => .unknown
      | [single] => shape single
      | some_ => unionShape (some_.map shape)
  | .intersection members => intersectionShape (members.map shape)
  | .object ps => .object ps
  | .function => .function
  | .named name arguments =>
      match wellKnown (unqualified name) arguments with
      | .shape s => s
      | .first =>
          match arguments with
          | inner :: _ => shape inner
          | [] => .unknown
      | .none =>
          match ds.lookup name with
          | some (.aliasOf target) => shape target
          | some (.interface own bases) =>
              .object ((bases.filterMap fun b => propertiesOf? (shape b)).foldl Property.merge own)
          | none => .unknown

theorem classifyWithin_succ (ds : Declarations) (steps : Nat) (t : TypeRef) :
    classifyWithin ds (steps + 1) t = level ds (classifyWithin ds steps) t := by
  rw [classifyWithin]
  rfl

theorem classifyWithin_alias {name : String} {arguments : List TypeRef}
    (form : t.form = .named name arguments)
    (plain : wellKnown (unqualified name) arguments = .none)
    (declared : ds.lookup name = some (.aliasOf u)) (steps : Nat) :
    classifyWithin ds (steps + 1) t = classifyWithin ds steps u := by
  rw [classifyWithin]
  simp only [form, plain, declared]

theorem level_congr {f g : TypeRef → Shape} (h : ∀ u ∈ ds.followed t, f u = g u) :
    ds.level f t = ds.level g t := by
  unfold level
  unfold followed at h
  -- Only unions, intersections and names look at the shapes of other types.
  cases form : t.form with
  | union members =>
      simp only [form] at h ⊢
      split
      · rfl
      · rename_i single eq
        exact h single (by rw [eq]; exact List.mem_singleton_self _)
      · exact congrArg unionShape (List.map_congr_left h)
  | intersection members =>
      simp only [form] at h ⊢
      exact congrArg intersectionShape (List.map_congr_left h)
  | named name arguments =>
      simp only [form] at h ⊢
      cases known : wellKnown (unqualified name) arguments with
      | shape s => rfl
      | first =>
          simp only [known] at h ⊢
          cases arguments with
          | nil => rfl
          | cons inner more => exact h inner List.mem_cons_self
      | none =>
          simp only [known] at h ⊢
          cases declared : ds.lookup name with
          | none => rfl
          | some d =>
              simp only [declared] at h ⊢
              cases d with
              | aliasOf target => exact h target (List.mem_singleton_self _)
              | interface own bases =>
                  have shapes : bases.map f = bases.map g := List.map_congr_left h
                  have given (k : TypeRef → Shape) :
                      (bases.filterMap fun b => propertiesOf? (k b)) =
                        (bases.map k).filterMap propertiesOf? := by
                    rw [List.filterMap_map]
                    rfl
                  simp only [given, shapes]
  | _ => rfl

/-! ## Resolution and evaluation -/

/-- The shape of a type where all that it follows is followed to the end. -/
inductive Resolves (ds : Declarations) : TypeRef → Shape → Prop
  | level {t : TypeRef} (shape : TypeRef → Shape)
      (inner : ∀ u ∈ ds.followed t, Resolves ds u (shape u)) :
      Resolves ds t (ds.level shape t)

/-- The result of a type that is `steps` hops away, where nothing more than `limit` hops away is
looked at, and whether anything was cut off for that reason. -/
inductive Evaluates (ds : Declarations) (limit : Nat) : Nat → TypeRef → Shape → Bool → Prop
  | cut {steps : Nat} {t : TypeRef} (far : limit < steps) :
      Evaluates ds limit steps t .unknown true
  | level {steps : Nat} {t : TypeRef} (near : steps ≤ limit) (shape : TypeRef → Shape)
      (isCut : TypeRef → Bool)
      (inner : ∀ u ∈ ds.followed t, Evaluates ds limit (steps + 1) u (shape u) (isCut u)) :
      Evaluates ds limit steps t (ds.level shape t) ((ds.followed t).any isCut)

theorem Resolves.unique {s s' : Shape} (h : ds.Resolves t s) (h' : ds.Resolves t s') : s = s' := by
  induction h generalizing s' with
  | level shape inner ih =>
      cases h' with
      | level shape' inner' => exact level_congr fun u hu => ih u hu (inner' u hu)

theorem Evaluates.unique {s s' : Shape} {isCut isCut' : Bool}
    (h : ds.Evaluates limit steps t s isCut) (h' : ds.Evaluates limit steps t s' isCut') :
    s = s' ∧ isCut = isCut' := by
  induction h generalizing s' isCut' with
  | cut far =>
      cases h' with
      | cut => exact ⟨rfl, rfl⟩
      | level near => exact absurd far (Nat.not_lt.2 near)
  | level near shape isCut inner ih =>
      cases h' with
      | cut far => exact absurd far (Nat.not_lt.2 near)
      | level _ shape' isCut' inner' =>
          have same u hu := ih u hu (inner' u hu)
          refine ⟨level_congr fun u hu => (same u hu).1, ?_⟩
          rw [Bool.eq_iff_iff, List.any_eq_true, List.any_eq_true]
          exact exists_congr fun u => and_congr_right fun hu => by rw [(same u hu).2]

/-! ## Chains of hops -/

inductive Hops (ds : Declarations) (t : TypeRef) : Nat → TypeRef → Prop
  | here : Hops ds t 0 t
  | next {n : Nat} {u v : TypeRef} (chain : Hops ds t n u) (hop : v ∈ ds.followed u) :
      Hops ds t (n + 1) v

def Settles (ds : Declarations) (n : Nat) (t : TypeRef) : Prop := ∀ m u, ds.Hops t m u → m ≤ n

def isFar (ds : Declarations) : Nat → TypeRef → Bool
  | 0, _ => true
  | n + 1, t => (ds.followed t).any (isFar ds n)

namespace Hops

variable {m : Nat} {v : TypeRef}

theorem cons (hop : u ∈ ds.followed t) (chain : ds.Hops u m v) : ds.Hops t (m + 1) v := by
  induction chain with
  | here => exact .next .here hop
  | next _ last ih => exact .next ih last

theorem uncons (chain : ds.Hops t (m + 1) v) : ∃ u ∈ ds.followed t, ds.Hops u m v := by
  induction m generalizing v with
  | zero =>
      cases chain with
      | next first hop =>
          cases first
          exact ⟨v, hop, .here⟩
  | succ m ih =>
      cases chain with
      | next chain hop =>
          obtain ⟨u, hu, rest⟩ := ih chain
          exact ⟨u, hu, .next rest hop⟩

theorem shorten (chain : ds.Hops t m v) (h : n ≤ m) : ∃ u, ds.Hops t n u := by
  induction chain with
  | here => exact ⟨t, Nat.le_zero.1 h ▸ .here⟩
  | next chain hop ih =>
      rcases Nat.le_succ_iff.1 h with h | rfl
      · exact ih h
      · exact ⟨_, .next chain hop⟩

end Hops

theorem isFar_iff : ds.isFar n t = true ↔ ∃ u, ds.Hops t n u := by
  induction n generalizing t with
  | zero => exact iff_of_true rfl ⟨t, .here⟩
  | succ n ih =>
      rw [isFar, List.any_eq_true]
      constructor
      · rintro ⟨u, hu, far⟩
        obtain ⟨v, chain⟩ := ih.1 far
        exact ⟨v, chain.cons hu⟩
      · rintro ⟨v, chain⟩
        obtain ⟨u, hu, rest⟩ := chain.uncons
        exact ⟨u, hu, ih.2 ⟨v, rest⟩⟩

theorem settles_iff : ds.Settles n t ↔ ds.isFar (n + 1) t = false := by
  rw [← Bool.not_eq_true, isFar_iff, not_exists]
  refine ⟨fun h u chain => absurd (h _ u chain) (Nat.not_succ_le_self n), fun h m u chain => ?_⟩
  by_contra long
  obtain ⟨v, short⟩ := chain.shorten (Nat.lt_of_not_le long)
  exact h v short

instance (ds : Declarations) (n : Nat) (t : TypeRef) : Decidable (ds.Settles n t) :=
  decidable_of_iff _ settles_iff.symm

theorem Settles.followed (h : ds.Settles n t) (hu : u ∈ ds.followed t) :
    ∃ m, n = m + 1 ∧ ds.Settles m u := by
  cases n with
  | zero => exact absurd (h 1 u (.next .here hu)) (by decide)
  | succ n => exact ⟨n, rfl, fun m v chain => Nat.le_of_succ_le_succ (h _ v (chain.cons hu))⟩

/-- A type that follows itself is not resolved. -/
theorem Resolves.acyclic (h : ds.Resolves t s) : ¬ ds.Hops t (n + 1) t := by
  induction h with
  | level shape inner ih =>
      intro chain
      obtain ⟨u, hu, rest⟩ := chain.uncons
      exact ih u hu (rest.next hu)

/-! ## Classification -/

/-- Classification evaluates, and cuts something off just if some chain of hops is that long. -/
theorem evaluates_classifyWithin (t : TypeRef) (h : limit + 1 = steps + n) :
    ds.Evaluates limit steps t (classifyWithin ds n t) (ds.isFar n t) := by
  induction n generalizing steps t with
  | zero => exact .cut (Nat.lt_of_succ_le (Nat.le_of_eq h))
  | succ n ih =>
      rw [classifyWithin_succ, isFar]
      exact .level (by omega) _ _ fun u _ => ih u (by omega)

theorem classifyWithin_of_settles (h : ds.Settles n t) (more : Nat) :
    classifyWithin ds (n + more + 1) t = classifyWithin ds (n + 1) t := by
  induction n generalizing t with
  | zero =>
      rw [classifyWithin_succ, classifyWithin_succ]
      refine level_congr fun u hu => ?_
      obtain ⟨m, eq, -⟩ := h.followed hu
      cases eq
  | succ n ih =>
      rw [Nat.succ_add, classifyWithin_succ, classifyWithin_succ _ (n + 1)]
      refine level_congr fun u hu => ih ?_
      obtain ⟨m, eq, settles⟩ := h.followed hu
      obtain rfl := Nat.succ.inj eq
      exact settles

theorem resolves_of_settles (h : ds.Settles n t) : ds.Resolves t (classifyWithin ds (n + 1) t) := by
  induction n generalizing t with
  | zero =>
      rw [classifyWithin_succ]
      refine .level _ fun u hu => ?_
      obtain ⟨m, eq, -⟩ := h.followed hu
      cases eq
  | succ n ih =>
      rw [classifyWithin_succ]
      refine .level _ fun u hu => ?_
      obtain ⟨m, eq, settles⟩ := h.followed hu
      obtain rfl := Nat.succ.inj eq
      exact ih settles

/-- A limit only cuts off. Evaluation with a limit has exactly one result, the shape that
classification gives, and cuts something off just if some chain of hops exceeds the limit; if it
does not, every higher limit gives the same shape; and the shape of a type from which no chain
exceeds the limit of classification is the one that resolution gives. -/
theorem limit_only_cuts (ds : Declarations) (t : TypeRef) :
    (∀ limit s isCut, ds.Evaluates limit 0 t s isCut ↔
      s = classifyWithin ds (limit + 1) t ∧ isCut = ds.isFar (limit + 1) t) ∧
    (∀ limit, ds.Evaluates limit 0 t (classifyWithin ds (limit + 1) t) false →
      ∀ higher, limit ≤ higher →
        classifyWithin ds (higher + 1) t = classifyWithin ds (limit + 1) t) ∧
    (ds.Settles stepLimit t → ∀ s, ds.Resolves t s ↔ s = ds.classify t) := by
  have evaluates limit := @evaluates_classifyWithin ds limit (limit + 1) 0 t (Nat.zero_add _).symm
  refine ⟨fun limit s isCut => ?_, fun limit uncut higher le => ?_, ?_⟩
  · exact ⟨fun h => h.unique (evaluates limit), by rintro ⟨rfl, rfl⟩; exact evaluates limit⟩
  · have settles := settles_iff.2 (uncut.unique (evaluates limit)).2.symm
    obtain ⟨more, rfl⟩ := Nat.exists_eq_add_of_le le
    exact classifyWithin_of_settles settles more
  · intro settles s
    exact ⟨fun h => h.unique (resolves_of_settles settles),
      fun eq => eq ▸ resolves_of_settles settles⟩

/-! ## A file with bases, an alias and a union -/

def textType : TypeRef := .mk (.keyword "string") "string"

def cardDeclarations : Declarations :=
  [("CardProps", .interface [.mk "title" textType false none]
      [.mk (.named "Partial" [.ofName "Look"]) "Partial<Look>", .ofName "CardProps2"]),
    ("CardProps2", .interface [.mk "id" textType false none] []),
    ("Look", .aliasOf (.mk (.intersection
      [.ofName "CardProps2", .mk (.union [.mk .null "null", .ofName "Tone"]) "null | Tone"])
      "CardProps2 & (null | Tone)")),
    ("Tone", .aliasOf (.mk (.object [.mk "tone" textType true none]) "\x7b tone?: string \x7d"))]

/-- Six hops lead to the object type behind `Tone`. -/
theorem limit_only_cuts_card :
    let ps : List Property := [.mk "title" textType false none, .mk "id" textType false none,
      .mk "tone" textType true none]
    cardDeclarations.Evaluates 6 0 (.ofName "CardProps") (.object ps) false ∧
      classifyWithin cardDeclarations 1000 (.ofName "CardProps") = .object ps ∧
      cardDeclarations.Settles stepLimit (.ofName "CardProps") ∧
      cardDeclarations.Resolves (.ofName "CardProps") (.object ps) := by
  intro ps
  obtain ⟨finishes, steady, resolved⟩ := limit_only_cuts cardDeclarations (.ofName "CardProps")
  have within : classifyWithin cardDeclarations 7 (.ofName "CardProps") = .object ps := rfl
  have uncut : cardDeclarations.Evaluates 6 0 (.ofName "CardProps") (.object ps) false :=
    (finishes 6 _ _).2 ⟨within.symm, by decide +kernel⟩
  have settles : cardDeclarations.Settles stepLimit (.ofName "CardProps") := by decide +kernel
  refine ⟨uncut, ?_, settles, (resolved settles _).2 ?_⟩
  · rw [← within]
    exact steady 6 (within ▸ uncut) 999 (by decide)
  · rw [← within]
    exact (steady 6 (within ▸ uncut) 16 (by decide)).symm

end PropStories.Declarations
