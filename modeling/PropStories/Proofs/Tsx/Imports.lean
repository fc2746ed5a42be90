import PropStories.Proofs.Tsx.Everywhere

/-!
# The names in import statements

An import statement has no nodes of its own below it besides its clause and the object with its
attributes. Main statement: a name that occurs in an import statement is bound by it, or stands in
front of the name that it is bound as, or stands among the attributes.
-/

namespace PropStories.Tsx

open Grammar

variable {source : List Char} {kinds : List Kind} {P : Tree → Prop}

/-! ## Rules without nodes -/

def Rule.isFlat (kinds : List Kind) : Rule → Bool
  | node k _ => kinds.contains k
  | seq a b | alt a b => a.isFlat kinds && b.isFlat kinds
  | opt a | many a | label _ a => a.isFlat kinds
  | empty | token _ _ | sameLine | follows _ | without _ => true
  | ref _ | grow _ _ _ => false

def Flat (kinds : List Kind) (t : Tree) : Prop :=
  t.isExtra = true ∨ t.children = [] ∨ t.kind ∈ kinds

theorem Flat.withLabel {t : Tree} (h : Flat kinds t) (l : Option Label) :
    Flat kinds (t.withLabel l) := by
  cases t
  exact h

theorem consume_flat {c c' : Cursor} {k : Kind} {found : Cursor.Found} {ts : List Tree}
    (extras : c.gap.all Tree.isExtra = true) (h : c.consume k found = some (ts, c')) :
    ∀ t ∈ ts, Flat kinds t := by
  have leaf (k : Kind) (s e : Nat) : ∀ t ∈ [Tree.node k none s e []], Flat kinds t := fun t ht =>
    .inr (.inl (by rw [List.mem_singleton.1 ht]; rfl))
  cases found <;> simp only [Cursor.consume] at h
  case nothing => cases h
  case place =>
    obtain ⟨rfl, -⟩ := Prod.mk.inj (Option.some.inj h)
    exact List.forall_mem_nil _
  case supplied =>
    obtain ⟨rfl, -⟩ := Prod.mk.inj (Option.some.inj h)
    exact leaf _ _ _
  case token n =>
    obtain ⟨rfl, -⟩ := Prod.mk.inj (Option.some.inj h)
    intro t ht
    rcases List.mem_append.1 ht with ht | ht
    · exact .inl (List.all_eq_true.1 extras t ht)
    · split at ht
      · cases ht
      · exact leaf _ _ _ t ht
  case adjacent n =>
    obtain ⟨rfl, -⟩ := Prod.mk.inj (Option.some.inj h)
    exact leaf _ _ _

variable {limit : Nat} {rec : Nonterminal → Cursor → Outcome}

theorem run_flat (hrec : ∀ n c, c.Stands source → Reads source c (rec n c)) (r : Rule)
    (orderly : r.isOrderly = true) (flat : r.isFlat kinds = true) {c c' : Cursor}
    {ts : List Tree} (hc : c.Stands source)
    (hr : (Rule.run limit rec r c).result = some (ts, c')) (clear : Clear ts) :
    ∀ t ∈ ts, Flat kinds t := by
  induction r generalizing c c' ts with
  | empty => exact nothing_forall (.inl rfl) hr
  | token t k =>
      rw [Rule.run] at hr
      split at hr
      · rename_i us d consumed
        obtain ⟨rfl, rfl⟩ := Prod.mk.inj (Option.some.inj hr)
        exact consume_flat hc.extras consumed
      · cases hr
  | sameLine =>
      rw [Rule.run] at hr
      refine nothing_forall (c := c) ?_ hr
      split <;> simp
  | follows a =>
      rw [Rule.run] at hr
      refine nothing_forall (c := c) ?_ hr
      split <;> simp
  | without a =>
      rw [Rule.run] at hr
      refine nothing_forall (c := c) ?_ hr
      split <;> simp
  | seq a b iha ihb =>
      rw [Rule.isOrderly, Bool.and_eq_true] at orderly
      rw [Rule.isFlat, Bool.and_eq_true] at flat
      obtain ⟨front, m, behind, ha, hb, rfl⟩ := run_seq hr
      rw [clear_append] at clear
      have stands := (run_reads hrec a orderly.1 hc _ _ ha).1
      exact fun t ht => (List.mem_append.1 ht).elim (iha orderly.1 flat.1 hc ha clear.1 t)
        (ihb orderly.2 flat.2 stands hb clear.2 t)
  | alt a b iha ihb =>
      rw [Rule.isOrderly, Bool.and_eq_true] at orderly
      rw [Rule.isFlat, Bool.and_eq_true] at flat
      rw [Rule.run] at hr
      split at hr
      · exact ihb orderly.2 flat.2 hc hr clear
      · exact iha orderly.1 flat.1 hc hr clear
  | opt a ih =>
      rw [Rule.run] at hr
      split at hr
      · obtain ⟨rfl, -⟩ := Prod.mk.inj (Option.some.inj hr)
        exact List.forall_mem_nil _
      · exact ih orderly flat hc hr clear
  | many a ih =>
      rw [Rule.run] at hr
      exact repeated_forall (fun c hc => run_reads hrec a orderly hc)
        (fun c c' ts hc hr clear => ih orderly flat hc hr clear) limit hc hr clear
  | label l a ih =>
      rw [Rule.run] at hr
      obtain ⟨⟨inner, d⟩, run, eq⟩ := Option.map_eq_some_iff.1 hr
      obtain ⟨rfl, rfl⟩ := Prod.mk.inj eq
      intro t ht
      obtain ⟨u, hu, rfl⟩ := List.mem_map.1 ht
      have inside := ih orderly flat hc run (clear_labelled.1 clear) u hu
      split
      · exact inside
      · exact inside.withLabel _
  | node k a =>
      obtain ⟨inner, -, rfl⟩ := run_node hr
      obtain ⟨s, e, cs, eq⟩ := wrap_eq k c.place inner
      rw [eq]
      intro t ht
      rcases List.mem_append.1 ht with ht | ht
      · exact .inl (List.all_eq_true.1 List.all_takeWhile t ht)
      · rw [List.mem_singleton.1 ht]
        exact .inr (.inr (List.contains_iff_mem.1 flat))
  | ref n => cases flat
  | grow base heads suffix => cases flat

/-! ## The grammar -/

theorem grammar_makes_clauses (n : Nonterminal) :
    (grammar n).makes .importClause (Rule.isFlat []) = true := by
  cases n <;> decide +kernel

theorem grammar_makes_imports (n : Nonterminal) :
    (grammar n).makes .importStatement (Rule.isFlat [.importClause, .object]) = true := by
  cases n <;> decide +kernel

theorem grammar_makes_no_comment (n : Nonterminal) :
    (grammar n).makes .comment (fun _ => false) = true := by
  cases n <;> decide +kernel

theorem parse_flat {kind : Kind} (made : ∀ n, (grammar n).makes kind (Rule.isFlat kinds) = true)
    (inner : kind ≠ .program) (clear : (parse source).root.firstFault? = none) :
    Everywhere kind (Flat kinds) (parse source).root := by
  refine parse_everywhere (fun limit rec r c c' ts hrec orderly flat hc hr clear t ht => ?_)
    made inner clear
  exact run_flat hrec r orderly flat hc hr clear t ((List.dropWhile_suffix _).mem ht)

/-- No rule gives a comment, so comments are leaves. -/
theorem parse_comment (clear : (parse source).root.firstFault? = none) :
    Everywhere .comment (fun _ => False) (parse source).root := by
  have gives : Gives source (fun _ => False) (fun _ => false) :=
    fun _ _ _ _ _ _ _ _ good => nomatch good
  exact parse_everywhere gives grammar_makes_no_comment (by decide) clear

/-! ## Leaves -/

structure Sound (t : Tree) : Prop where
  clear : t.firstFault? = none
  comments : Everywhere .comment (fun _ => False) t

theorem Clear.mem {ts : List Tree} {t : Tree} (h : Clear ts) (ht : t ∈ ts) :
    t.firstFault? = none := by
  induction ts with
  | nil => cases ht
  | cons u ts ih =>
      rw [clear_cons] at h
      rcases List.mem_cons.1 ht with rfl | ht
      · exact h.1
      · exact ih h.2 ht

theorem Sound.child {t c : Tree} (h : Sound t) (hc : c ∈ t.children) : Sound c := by
  refine ⟨?_, h.comments.child hc⟩
  cases t with
  | node k l s e cs => exact (firstFault?_node.1 h.clear).2.mem hc

theorem eq_comment {k : Kind} (extra : k.isExtra = true) (clear : k.isFault = false) :
    k = .comment := by
  unfold Kind.isExtra at extra
  split at extra
  next => rfl
  next => cases clear
  next => cases extra

theorem Sound.leaf {t : Tree} (h : Sound t) (flat : Flat kinds t) (other : t.kind ∉ kinds) :
    t.children = [] := by
  obtain extra | leaf | kind := flat
  · have comment : t.kind = .comment := by
      obtain ⟨clear, -⟩ := h
      cases t with
      | node k l s e cs =>
          exact eq_comment extra (firstFault?_node.1 clear).1
    cases children : t.children with
    | nil => rfl
    | cons u us => exact (h.comments.holds_child comment (children ▸ List.mem_cons_self)).elim
  · exact leaf
  · exact absurd kind other

theorem containsAmong_eq (p : Tree → Bool) (ts : List Tree) :
    Tree.containsAmong p ts = ts.any (Tree.contains p) := by
  induction ts with
  | nil => rfl
  | cons t ts ih => rw [Tree.containsAmong, ih, List.any_cons]

theorem contains_iff {p : Tree → Bool} {t : Tree} :
    t.contains p = true ↔ p t = true ∨ ∃ c ∈ t.children, c.contains p = true := by
  cases t with
  | node k l s e cs => rw [Tree.contains, Bool.or_eq_true, containsAmong_eq, List.any_eq_true]; rfl

theorem contains_leaf {p : Tree → Bool} {t : Tree} (leaf : t.children = []) :
    t.contains p = true ↔ p t = true := by
  rw [contains_iff, leaf, or_iff_left (by simp)]

/-! ## Names -/

def isRenamed (behind : List Tree) : Bool :=
  (behind.find? fun t => !t.isExtra).any (·.kind == .token "as")

/-- The names among the trees, each with whether another name takes its place. -/
def names : List Tree → List (Tree × Bool)
  | [] => []
  | t :: ts => if t.kind == .identifier then (t, isRenamed ts) :: names ts else names ts

theorem exists_mem_names {ts : List Tree} {t : Tree} :
    (∃ renamed, (t, renamed) ∈ names ts) ↔ t ∈ ts ∧ t.kind = .identifier := by
  induction ts with
  | nil => simp [names]
  | cons u ts ih =>
      rw [names]
      split
      next identifier =>
        rw [beq_iff_eq] at identifier
        constructor
        · rintro ⟨renamed, member⟩
          rcases List.mem_cons.1 member with eq | member
          · obtain rfl := (Prod.mk.inj eq).1
            exact ⟨List.mem_cons_self, identifier⟩
          · exact (ih.1 ⟨renamed, member⟩).imp_left (List.mem_cons_of_mem _)
        · rintro ⟨member, kind⟩
          rcases List.mem_cons.1 member with rfl | member
          · exact ⟨_, List.mem_cons_self⟩
          · obtain ⟨renamed, member⟩ := ih.2 ⟨member, kind⟩
            exact ⟨renamed, List.mem_cons_of_mem _ member⟩
      next other =>
        rw [ih]
        refine and_congr_left fun kind => ⟨List.mem_cons_of_mem _, fun member => ?_⟩
        refine (List.mem_cons.1 member).resolve_left ?_
        rintro rfl
        exact other (beq_iff_eq.2 kind)

/-- The names of an import statement: that of a module it requires, and those in its clause. -/
def importNames (i : Tree) : List (Tree × Bool) :=
  names i.children ++
    (i.children.filter (·.kind == .importClause)).flatMap fun c => names c.children

namespace Syntax

variable (x : Syntax) (n : String)

def isNamed (t : Tree) : Bool := t.kind == .identifier && x.stringOf t == n

def Binds : Prop :=
  ∃ i ∈ x.root.namedChildren, i.kind = .importStatement ∧
    ∃ t, (t, false) ∈ importNames i ∧ x.stringOf t = n

/-- An import statement imports what has the name and binds it as something else. -/
def Renames : Prop :=
  ∃ i ∈ x.root.namedChildren, i.kind = .importStatement ∧
    ∃ t, (t, true) ∈ importNames i ∧ x.stringOf t = n

def Attributes : Prop :=
  ∃ i ∈ x.root.namedChildren, i.kind = .importStatement ∧
    ∃ o ∈ i.children, o.kind = .object ∧ o.contains (x.isNamed n) = true

variable {x n}

theorem isNamed_iff {t : Tree} :
    x.isNamed n t = true ↔ t.kind = .identifier ∧ x.stringOf t = n := by
  rw [isNamed, Bool.and_eq_true, beq_iff_eq, beq_iff_eq]

theorem not_isNamed {t : Tree} (other : t.kind ≠ .identifier) : ¬ x.isNamed n t = true :=
  fun named => other (isNamed_iff.1 named).1

theorem exists_mem_importNames {i t : Tree} : (∃ renamed, (t, renamed) ∈ importNames i) ↔
    (t ∈ i.children ∧ t.kind = .identifier) ∨
      ∃ c ∈ i.children, c.kind = .importClause ∧ t ∈ c.children ∧ t.kind = .identifier := by
  simp only [importNames, List.mem_append, exists_or, exists_mem_names, List.mem_flatMap,
    List.mem_filter, beq_iff_eq]
  refine or_congr_right ⟨?_, ?_⟩
  · rintro ⟨renamed, c, ⟨member, clause⟩, named⟩
    exact ⟨c, member, clause, exists_mem_names.1 ⟨renamed, named⟩⟩
  · rintro ⟨c, member, clause, named⟩
    obtain ⟨renamed, named⟩ := exists_mem_names.2 named
    exact ⟨renamed, c, ⟨member, clause⟩, named⟩

/-- Where a name can stand in an import statement of a source without a fault. -/
theorem import_contains_iff {i : Tree} (sound : Sound i) (statement : i.kind = .importStatement)
    (flat : Everywhere .importStatement (Flat [.importClause, .object]) i)
    (clauses : Everywhere .importClause (Flat []) i) :
    i.contains (x.isNamed n) = true ↔
      (∃ t renamed, (t, renamed) ∈ importNames i ∧ x.stringOf t = n) ∨
        ∃ o ∈ i.children, o.kind = .object ∧ o.contains (x.isNamed n) = true := by
  have inClause {c d : Tree} (hc : c ∈ i.children) (clause : c.kind = .importClause)
      (hd : d ∈ c.children) : d.contains (x.isNamed n) = true ↔ x.isNamed n d = true :=
    contains_leaf (((sound.child hc).child hd).leaf
      ((clauses.child hc).holds_child clause hd) List.not_mem_nil)
  rw [contains_iff, or_iff_right (not_isNamed (by rw [statement]; decide))]
  constructor
  · rintro ⟨c, hc, inside⟩
    -- A child is the clause, whose children are leaves, or the object, or a leaf itself.
    by_cases clause : c.kind = .importClause
    · obtain named | ⟨d, hd, inside⟩ := contains_iff.1 inside
      · exact absurd named (not_isNamed (by rw [clause]; decide))
      · obtain ⟨kind, text⟩ := isNamed_iff.1 ((inClause hc clause hd).1 inside)
        obtain ⟨renamed, member⟩ := exists_mem_importNames.2 (.inr ⟨c, hc, clause, hd, kind⟩)
        exact .inl ⟨d, renamed, member, text⟩
    · by_cases object : c.kind = .object
      · exact .inr ⟨c, hc, object, inside⟩
      · have leaf := (sound.child hc).leaf (flat.holds_child statement hc)
          (by simp [clause, object])
        obtain ⟨kind, text⟩ := isNamed_iff.1 ((contains_leaf leaf).1 inside)
        obtain ⟨renamed, member⟩ := exists_mem_importNames.2 (.inl ⟨hc, kind⟩)
        exact .inl ⟨c, renamed, member, text⟩
  · rintro (⟨t, renamed, member, text⟩ | ⟨o, ho, -, inside⟩)
    · obtain ⟨ht, kind⟩ | ⟨c, hc, clause, ht, kind⟩ := exists_mem_importNames.1 ⟨renamed, member⟩
      · exact ⟨t, ht, contains_iff.2 (.inl (isNamed_iff.2 ⟨kind, text⟩))⟩
      · exact ⟨c, hc, contains_iff.2 (.inr ⟨t, ht,
          (inClause hc clause ht).2 (isNamed_iff.2 ⟨kind, text⟩)⟩)⟩
    · exact ⟨o, ho, inside⟩

end Syntax

/-- A name in an import statement is bound, or renamed, or among the attributes. -/
theorem exists_import_iff {n : String} (clear : (parse source).root.firstFault? = none) :
    (∃ i ∈ (parse source).root.namedChildren, i.kind = .importStatement ∧
      i.contains ((parse source).isNamed n) = true) ↔
      (parse source).Binds n ∨ (parse source).Renames n ∨ (parse source).Attributes n := by
  have sound : Sound (parse source).root := ⟨clear, parse_comment clear⟩
  have flat := parse_flat grammar_makes_imports (by decide) clear
  have clauses := parse_flat grammar_makes_clauses (by decide) clear
  generalize parse source = x at sound flat clauses ⊢
  have inside {i : Tree} (hi : i ∈ x.root.namedChildren) (statement : i.kind = .importStatement) :=
    have child := Tree.mem_children_of_mem_namedChildren hi
    Syntax.import_contains_iff (x := x) (n := n) (sound.child child) statement
      (flat.child child) (clauses.child child)
  constructor
  · rintro ⟨i, hi, statement, contained⟩
    obtain ⟨t, renamed, member, text⟩ | shown := (inside hi statement).1 contained
    · cases renamed with
      | false => exact .inl ⟨i, hi, statement, t, member, text⟩
      | true => exact .inr (.inl ⟨i, hi, statement, t, member, text⟩)
    · exact .inr (.inr ⟨i, hi, statement, shown⟩)
  · rintro (⟨i, hi, statement, t, named⟩ | ⟨i, hi, statement, t, named⟩ |
      ⟨i, hi, statement, shown⟩)
    · exact ⟨i, hi, statement, (inside hi statement).2 (.inl ⟨t, _, named⟩)⟩
    · exact ⟨i, hi, statement, (inside hi statement).2 (.inl ⟨t, _, named⟩)⟩
    · exact ⟨i, hi, statement, (inside hi statement).2 (.inr shown)⟩

end PropStories.Tsx
