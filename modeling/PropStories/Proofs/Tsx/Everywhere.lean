import PropStories.Proofs.Tsx.Reading

/-!
# What holds of the children of all nodes of a kind

If whatever a rule reads for the inside of a node of some kind satisfies a predicate, the children
of every node of that kind satisfy it in the tree of a source without a fault. This asks two things
of the grammar, which are checked rule by rule: such nodes are made by such rules, and none of them
adopts what stands before it.
-/

namespace PropStories.Tsx

variable {source : List Char} {kind : Kind} {P : Tree → Prop}

/-! ## Trees -/

inductive Everywhere (kind : Kind) (P : Tree → Prop) : Tree → Prop
  | node {k : Kind} {l : Option Label} {s e : Nat} {cs : List Tree}
      (here : k = kind → ∀ t ∈ cs, P t) (below : ∀ t ∈ cs, Everywhere kind P t) :
      Everywhere kind P (.node k l s e cs)

namespace Everywhere

variable {t u : Tree} {ts : List Tree}

theorem leaf (k : Kind) (l : Option Label) (s e : Nat) :
    Everywhere kind P (.node k l s e []) := .node (fun _ => nofun) nofun

theorem child (h : Everywhere kind P t) (hu : u ∈ t.children) : Everywhere kind P u := by
  cases h with
  | node _ below => exact below u hu

theorem of_child? {l : Label} (h : Everywhere kind P t) (hu : t.child? l = some u) :
    Everywhere kind P u := h.child (Tree.mem_children_of_child? hu)

theorem of_mem_namedChildren (h : Everywhere kind P t) (hu : u ∈ t.namedChildren) :
    Everywhere kind P u := h.child (Tree.mem_children_of_mem_namedChildren hu)

theorem holds_child (h : Everywhere kind P t) (same : t.kind = kind) (hu : u ∈ t.children) :
    P u := by
  cases h with
  | node here _ => exact here same u hu

theorem withLabel (h : Everywhere kind P t) (l : Option Label) :
    Everywhere kind P (t.withLabel l) := by
  cases h with
  | node here below => exact .node here below

theorem labelled (h : ∀ t ∈ ts, Everywhere kind P t) (l : Option Label) :
    ∀ t ∈ ts.map (fun t => if t.isExtra then t else t.withLabel l), Everywhere kind P t := by
  intro t ht
  obtain ⟨u, hu, rfl⟩ := List.mem_map.1 ht
  split
  · exact h u hu
  · exact (h u hu).withLabel l

theorem wrap {k : Kind} {place : Nat} (h : ∀ t ∈ ts, Everywhere kind P t)
    (here : k = kind → ∀ t ∈ ts.dropWhile Tree.isExtra, P t) :
    ∀ t ∈ Tree.wrap k place ts, Everywhere kind P t := by
  intro t ht
  unfold Tree.wrap at ht
  split at ht
  · rcases List.mem_append.1 ht with ht | ht
    · exact h t ht
    · rw [List.mem_singleton.1 ht]
      exact .leaf ..
  · rename_i first rest hd
    rcases List.mem_append.1 ht with ht | ht
    · exact h t ((List.takeWhile_prefix _).mem ht)
    · rw [List.mem_singleton.1 ht]
      rw [hd] at here
      exact .node here fun u hu => h u ((List.dropWhile_suffix _).mem (hd ▸ hu))

theorem adopt {head xs cs : List Tree} {k : Kind} {l : Option Label} {s e : Nat}
    (extras : xs.all Tree.isExtra = true) (proper : k.isExtra = false) (other : k ≠ kind)
    (hh : ∀ t ∈ head, Everywhere kind P t)
    (hg : ∀ t ∈ xs ++ [.node k l s e cs], Everywhere kind P t) :
    ∀ t ∈ Tree.adopt head (xs ++ [.node k l s e cs]), Everywhere kind P t := by
  intro t ht
  rw [adopt_eq extras proper] at ht
  split at ht
  · rename_i first rest hd
    rcases List.mem_append.1 ht with ht | ht
    · exact hh t ((List.takeWhile_prefix _).mem ht)
    · rw [List.mem_singleton.1 ht]
      refine .node (fun same => absurd same other) fun u hu => ?_
      rcases List.mem_append.1 hu with hu | hu
      · rcases List.mem_append.1 hu with hu | hu
        · exact labelled (fun v hv => hh v ((List.dropWhile_suffix _).mem (hd ▸ hv))) _ u hu
        · exact hg u (List.mem_append_left _ hu)
      · exact (hg _ (List.mem_append_right _ (List.mem_singleton_self _))).child hu
  · rcases List.mem_append.1 ht with ht | ht
    · exact hh t ht
    · exact hg t ht

end Everywhere

/-! ## Rules -/

namespace Rule

def endsOther (kind : Kind) : Rule → Bool
  | node k _ => k != kind
  | alt a b => a.endsOther kind && b.endsOther kind
  | seq sameLine b => b.endsOther kind
  | _ => false

/-- The nodes of the kind are made by good rules, and what adopts the trees before it is of another
kind. -/
def makes (kind : Kind) (good : Rule → Bool) : Rule → Bool
  | seq a b | alt a b => a.makes kind good && b.makes kind good
  | opt a | many a | label _ a => a.makes kind good
  | node k a => a.makes kind good && (k != kind || good a)
  | grow base _ suffix =>
      base.makes kind good && suffix.makes kind good && suffix.endsOther kind
  | empty | token _ _ | sameLine | ref _ | follows _ | without _ => true

end Rule

variable {limit : Nat} {rec : Nonterminal → Cursor → Outcome}

theorem endsOther_run {r : Rule} (h : r.endsOther kind = true) {c c' : Cursor} {ts : List Tree}
    (hr : (Rule.run limit rec r c).result = some (ts, c')) :
    ∀ t, ts.getLast? = some t → t.kind ≠ kind := by
  induction r generalizing c ts with
  | node k a =>
      obtain ⟨inner, -, rfl⟩ := run_node hr
      obtain ⟨s, e, cs, eq⟩ := wrap_eq k c.place inner
      intro t last
      rw [eq, List.getLast?_concat] at last
      obtain rfl := Option.some.inj last
      exact bne_iff_ne.1 h
  | alt a b iha ihb =>
      rw [Rule.endsOther, Bool.and_eq_true] at h
      rw [Rule.run] at hr
      split at hr
      · exact ihb h.2 hr
      · exact iha h.1 hr
  | seq a b iha ihb =>
      obtain ⟨front, m, behind, ha, hb, rfl⟩ := run_seq hr
      cases a <;> try contradiction
      have front_eq : front = [] := by
        rw [Rule.run] at ha
        split at ha
        · contradiction
        · exact (Prod.mk.inj (Option.some.inj ha)).1.symm
      rw [front_eq, List.nil_append]
      exact ihb h hb
  | _ => contradiction

theorem repeated_forall {step : Cursor → Outcome}
    (reads : ∀ c, c.Stands source → Reads source c (step c))
    (hs : ∀ c c' ts, c.Stands source → (step c).result = some (ts, c') → Clear ts →
      ∀ t ∈ ts, P t) (limit : Nat) {c c' : Cursor} {ts : List Tree}
    (hc : c.Stands source) (hr : (Rule.repeated step limit c).result = some (ts, c'))
    (clear : Clear ts) : ∀ t ∈ ts, P t := by
  induction limit generalizing c ts with
  | zero =>
      obtain ⟨rfl, -⟩ := Prod.mk.inj (Option.some.inj hr)
      nofun
  | succ limit ih =>
      unfold Rule.repeated at hr
      simp only at hr
      split at hr
      · obtain ⟨rfl, -⟩ := Prod.mk.inj (Option.some.inj hr)
        nofun
      · rename_i front m run
        split at hr
        · obtain ⟨⟨behind, d⟩, more, eq⟩ := Option.map_eq_some_iff.1 hr
          obtain ⟨rfl, rfl⟩ := Prod.mk.inj eq
          rw [clear_append] at clear
          intro t ht
          rcases List.mem_append.1 ht with ht | ht
          · exact hs c m front hc run clear.1 t ht
          · exact ih (reads c hc _ _ run).1 more clear.2 t ht
        · obtain ⟨rfl, -⟩ := Prod.mk.inj (Option.some.inj hr)
          nofun

theorem nothing_forall {o : Outcome} {c c' : Cursor} {ts : List Tree}
    (still : o = .success [] c 0 ∨ o = .failure 0) (hr : o.result = some (ts, c')) :
    ∀ t ∈ ts, P t := by
  rcases still with rfl | rfl
  · obtain ⟨rfl, -⟩ := Prod.mk.inj (Option.some.inj hr)
    nofun
  · contradiction

/-- What a good rule reads satisfies `P`, apart from the extras in front. -/
def Gives (source : List Char) (P : Tree → Prop) (good : Rule → Bool) : Prop :=
  ∀ (limit : Nat) (rec : Nonterminal → Cursor → Outcome) (r : Rule) (c c' : Cursor)
    (ts : List Tree), (∀ n c, c.Stands source → Reads source c (rec n c)) → r.isOrderly = true →
      good r = true → c.Stands source → (Rule.run limit rec r c).result = some (ts, c') →
        Clear ts → ∀ t ∈ ts.dropWhile Tree.isExtra, P t

/-! ## Outcomes -/

/-- The cursor stands in the source, and `P` holds where it should in the gap in front of it. -/
structure Cursor.Tidy (source : List Char) (kind : Kind) (P : Tree → Prop) (c : Cursor) : Prop where
  stands : c.Stands source
  gap : ∀ t ∈ c.gap, Everywhere kind P t

theorem everywhere_scanGap (repairs : List Repair) (inside n : Nat) (cs : List Char) (br : Bool) :
    ∀ t ∈ (Cursor.scanGap repairs inside n cs br).trees, Everywhere kind P t := by
  fun_induction Cursor.scanGap repairs inside n cs br with
  | case1 => exact List.forall_mem_nil _
  | case2 _ _ _ _ _ ih => exact ih
  | case3 _ _ _ _ _ _ _ ih =>
      intro t ht
      rcases List.mem_cons.1 ht with rfl | ht
      · exact .leaf ..
      · exact ih t ht
  | case4 _ _ _ _ _ _ ih => exact ih
  | case5 _ _ _ _ _ _ _ _ _ ih =>
      intro t ht
      rcases List.mem_cons.1 ht with rfl | ht
      · exact .leaf ..
      · exact ih t ht
  | case6 => exact List.forall_mem_nil _

theorem everywhere_gap (repairs : List Repair) (supplied : Bool) (place : Nat)
    (rest : List Char) :
    ∀ t ∈ (Cursor.after repairs supplied place rest).gap, Everywhere kind P t :=
  everywhere_scanGap _ _ _ _ _

/-- `P` holds where it should in what has been read, unless there is a fault in it. -/
def Yields (kind : Kind) (P : Tree → Prop) (o : Outcome) : Prop :=
  ∀ ts c', o.result = some (ts, c') →
    (∀ t ∈ c'.gap, Everywhere kind P t) ∧ (Clear ts → ∀ t ∈ ts, Everywhere kind P t)

namespace Yields

theorem success {ts : List Tree} (h : Clear ts → ∀ t ∈ ts, Everywhere kind P t) {c : Cursor}
    (hc : c.Tidy source kind P) (n : Nat) : Yields kind P (.success ts c n) := by
  rintro us c' eq
  obtain ⟨rfl, rfl⟩ := Prod.mk.inj (Option.some.inj eq)
  exact ⟨hc.gap, h⟩

theorem nothing {c : Cursor} (hc : c.Tidy source kind P) (n : Nat) :
    Yields kind P (.success [] c n) :=
  success (fun _ _ h => absurd h List.not_mem_nil) hc n

theorem failure (n : Nat) : Yields kind P (.failure n) := nofun

theorem andThen {front : List Tree} {o : Outcome} (n : Nat)
    (hf : Clear front → ∀ t ∈ front, Everywhere kind P t) (ho : Yields kind P o) :
    Yields kind P ((o.mapTrees (front ++ ·)).reaching n) := by
  rintro ts c' h
  obtain ⟨⟨behind, c''⟩, hr, eq⟩ := Option.map_eq_some_iff.1 h
  obtain ⟨rfl, rfl⟩ := Prod.mk.inj eq
  obtain ⟨gap, holds⟩ := ho _ _ hr
  refine ⟨gap, fun clear t ht => ?_⟩
  rw [clear_append] at clear
  rcases List.mem_append.1 ht with ht | ht
  · exact hf clear.1 t ht
  · exact holds clear.2 t ht

variable {step : Cursor → Outcome} (hr : ∀ c, c.Stands source → Reads source c (step c))
  (hs : ∀ c, c.Tidy source kind P → Yields kind P (step c))

include hr hs

theorem tidy {c c' : Cursor} {ts : List Tree} (hc : c.Tidy source kind P)
    (run : (step c).result = some (ts, c')) : c'.Tidy source kind P :=
  ⟨(hr c hc.stands _ _ run).1, (hs c hc _ _ run).1⟩

theorem repeated (limit : Nat) {c : Cursor} (hc : c.Tidy source kind P) :
    Yields kind P (Rule.repeated step limit c) := by
  induction limit generalizing c with
  | zero => exact nothing hc 0
  | succ limit ih =>
      unfold Rule.repeated
      simp only
      split
      · exact nothing hc _
      · rename_i ts c' run
        split
        · exact andThen _ (hs c hc _ _ run).2 (ih (tidy hr hs hc run))
        · exact nothing hc _

theorem grown (shape : ∀ c ts c', (step c).result = some (ts, c') →
      EndsFree ts ∧ ∀ t, ts.getLast? = some t → t.kind ≠ kind)
    (heads : List Kind) (limit : Nat) {c : Cursor} {ts : List Tree} (hc : c.Tidy source kind P)
    (ht : Clear ts → ∀ t ∈ ts, Everywhere kind P t) :
    Yields kind P (Rule.grown step heads limit ts c) := by
  induction limit generalizing c ts with
  | zero => exact success ht hc 0
  | succ limit ih =>
      unfold Rule.grown
      simp only
      split
      · split
        · exact success ht hc _
        · rename_i more c' run
          split
          · obtain ⟨free, other⟩ := shape c _ _ run
            refine ih (tidy hr hs hc run) fun clear => ?_
            have clear := clear_of_adopt free clear
            obtain ⟨xs, k, l, s, e, cs, rfl, extras, proper, -⟩ := free
            exact Everywhere.adopt extras proper (other _ List.getLast?_concat) (ht clear.1)
              ((hs c hc _ _ run).2 clear.2)
          · exact success ht hc _
      · exact success ht hc 0

end Yields

theorem consume_yields {c : Cursor} {k : Kind} {found : Cursor.Found}
    (hc : c.Tidy source kind P) {ts : List Tree} {c' : Cursor}
    (h : c.consume k found = some (ts, c')) :
    (∀ t ∈ c'.gap, Everywhere kind P t) ∧ ∀ t ∈ ts, Everywhere kind P t := by
  have single (k : Kind) (s e : Nat) : ∀ t ∈ [Tree.node k none s e []], Everywhere kind P t := by
    intro t ht
    rw [List.mem_singleton.1 ht]
    exact .leaf ..
  cases found <;> simp only [Cursor.consume] at h
  case nothing => cases h
  case place =>
    obtain ⟨rfl, rfl⟩ := Prod.mk.inj (Option.some.inj h)
    exact ⟨hc.gap, List.forall_mem_nil _⟩
  case supplied =>
    obtain ⟨rfl, rfl⟩ := Prod.mk.inj (Option.some.inj h)
    exact ⟨everywhere_gap _ _ _ _, single _ _ _⟩
  case token n =>
    obtain ⟨rfl, rfl⟩ := Prod.mk.inj (Option.some.inj h)
    refine ⟨everywhere_gap _ _ _ _, fun t ht => ?_⟩
    rcases List.mem_append.1 ht with ht | ht
    · exact hc.gap t ht
    · split at ht
      · cases ht
      · exact single _ _ _ t ht
  case adjacent n =>
    obtain ⟨rfl, rfl⟩ := Prod.mk.inj (Option.some.inj h)
    exact ⟨everywhere_gap _ _ _ _, single _ _ _⟩

/-! ## Runs -/

section

variable {good : Rule → Bool} (gives : Gives source P good)

include gives

theorem run_yields (hr : ∀ n c, c.Stands source → Reads source c (rec n c))
    (hs : ∀ n c, c.Tidy source kind P → Yields kind P (rec n c)) (r : Rule)
    (orderly : r.isOrderly = true) (made : r.makes kind good = true) {c : Cursor}
    (hc : c.Tidy source kind P) : Yields kind P (Rule.run limit rec r c) := by
  induction r generalizing c with
  | empty =>
      rw [Rule.run]
      exact .nothing hc 0
  | token t k =>
      rw [Rule.run]
      split
      · rename_i us d consumed
        rintro ts c' h
        obtain ⟨rfl, rfl⟩ := Prod.mk.inj (Option.some.inj h)
        obtain ⟨gap, holds⟩ := consume_yields hc consumed
        exact ⟨gap, fun _ => holds⟩
      · exact .failure _
  | sameLine =>
      rw [Rule.run]
      split
      · exact .failure 0
      · exact .nothing hc 0
  | ref n =>
      rw [Rule.run]
      exact hs n c hc
  | seq a b iha ihb =>
      rw [Rule.isOrderly, Bool.and_eq_true] at orderly
      rw [Rule.makes, Bool.and_eq_true] at made
      rw [Rule.run]
      split
      · rename_i none
        rintro ts c' h
        rw [none] at h
        contradiction
      · rename_i front m run
        obtain ⟨gap, holds⟩ := iha orderly.1 made.1 hc _ _ run
        exact .andThen _ holds (ihb orderly.2 made.2
          ⟨(run_reads hr a orderly.1 hc.stands _ _ run).1, gap⟩)
  | alt a b iha ihb =>
      rw [Rule.isOrderly, Bool.and_eq_true] at orderly
      rw [Rule.makes, Bool.and_eq_true] at made
      rw [Rule.run]
      split
      · exact ihb orderly.2 made.2 hc
      · exact iha orderly.1 made.1 hc
  | opt a ih =>
      rw [Rule.run]
      split
      · exact .nothing hc _
      · exact ih orderly made hc
  | many a ih =>
      rw [Rule.run]
      exact .repeated (fun c hc => run_reads hr a orderly hc) (fun c hc => ih orderly made hc)
        limit hc
  | follows a ih =>
      rw [Rule.run]
      split
      · exact .nothing hc 0
      · exact .failure 0
  | without a ih =>
      rw [Rule.run]
      split
      · exact .failure 0
      · exact .nothing hc 0
  | node k a ih =>
      rw [Rule.isOrderly, Bool.and_eq_true] at orderly
      rw [Rule.makes, Bool.and_eq_true, Bool.or_eq_true, bne_iff_ne] at made
      rintro ts c' h
      obtain ⟨inner, run, rfl⟩ := run_node h
      obtain ⟨gap, holds⟩ := ih orderly.1 made.1 hc _ _ run
      refine ⟨gap, fun clear => ?_⟩
      have clear := clear_of_wrap clear
      exact Everywhere.wrap (holds clear) fun same =>
        gives _ _ _ _ _ _ hr orderly.1 (made.2.resolve_left (absurd same)) hc.stands run clear
  | label l a ih =>
      rw [Rule.run]
      rintro ts c' h
      obtain ⟨⟨inner, c''⟩, run, eq⟩ := Option.map_eq_some_iff.1 h
      obtain ⟨rfl, rfl⟩ := Prod.mk.inj eq
      obtain ⟨gap, holds⟩ := ih orderly made hc _ _ run
      exact ⟨gap, fun clear => Everywhere.labelled (holds (clear_labelled.1 clear)) _⟩
  | grow base heads suffix ihb ihs =>
      simp only [Rule.isOrderly, Rule.makes, Bool.and_eq_true] at orderly made
      obtain ⟨⟨hb, ho⟩, shape⟩ := orderly
      obtain ⟨⟨lb, lo⟩, other⟩ := made
      rw [Rule.run]
      split
      · rename_i none
        rintro ts c' h
        rw [none] at h
        contradiction
      · rename_i ts m run
        obtain ⟨gap, holds⟩ := ihb hb lb hc _ _ run
        exact Yields.grown (fun c hc => run_reads hr suffix ho hc) (fun c hc => ihs ho lo hc)
          (fun _ _ _ hr => ⟨endsFree_run shape hr, endsOther_run other hr⟩) heads limit
          ⟨(run_reads hr base hb hc.stands _ _ run).1, gap⟩ holds

variable (made : ∀ n, (grammar n).makes kind good = true)

include made

theorem read_yields (fuel : Nat) (n : Nonterminal) {c : Cursor} (hc : c.Tidy source kind P) :
    Yields kind P (Rule.read grammar limit fuel n c) := by
  induction fuel generalizing n c with
  | zero =>
      rw [Rule.read]
      exact .failure 0
  | succ fuel ih =>
      rw [Rule.read]
      exact run_yields gives (fun n c hc => read_reads fuel n hc) (fun n c hc => ih n hc)
        (grammar n) (grammar_isOrderly n) (made n) hc

variable (inner : kind ≠ .program)

include inner

theorem wholeTree?_everywhere {repairs : List Repair} {t : Tree}
    (h : wholeTree? source (readProgram source repairs) = some t)
    (clear : t.firstFault? = none) : Everywhere kind P t := by
  obtain ⟨⟨ts, c'⟩, run, rfl⟩ := Option.map_eq_some_iff.1 h
  have start : (Cursor.ofSource source repairs).Tidy source kind P :=
    ⟨stands_ofSource source repairs, everywhere_gap _ _ _ _⟩
  exact .node (fun same => absurd same.symm inner)
    ((read_yields gives made _ _ start _ _ run).2 (firstFault?_node.1 clear).2)

theorem search_everywhere {fuel : Nat} {plans : List Repair.Plan} {t : Tree}
    (h : Repair.search source fuel plans = some t) (clear : t.firstFault? = none) :
    Everywhere kind P t := by
  induction fuel generalizing plans with
  | zero => simp [Repair.search] at h
  | succ fuel ih =>
      cases plans with
      | nil => simp [Repair.search] at h
      | cons plan plans =>
          rw [Repair.search] at h
          split at h
          · rename_i whole
            obtain rfl := Option.some.inj h
            exact wholeTree?_everywhere gives made inner whole clear
          · exact ih h

theorem parse_everywhere (clear : (parse source).root.firstFault? = none) :
    Everywhere kind P (parse source).root := by
  unfold parse at clear ⊢
  split at clear
  · rename_i t found
    exact search_everywhere gives made inner found clear
  · rw [firstFault?_node, clear_cons, firstFault?_node] at clear
    exact absurd clear.2.1.1 (by decide)

end

end PropStories.Tsx
