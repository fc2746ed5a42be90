import PropStories.Proofs.Tsx.Reading

/-!
# Sources that are read without a repair

Faults in a tree come from repairs alone: the rules themselves give no error, and a missing token
only in a place without text. Main statement: a source that is read to its end without a repair has
the syntax that was read, and no fault in it.
-/

namespace PropStories.Tsx

/-! ## Rules without a fault -/

/-- What has no text and so gives no node, whatever its kind. -/
def Terminal.isTextless : Terminal → Bool
  | .ending _ | .endOfInput => true
  | _ => false

def Rule.isFaultless : Rule → Bool
  | token t k => t.isTextless || !k.isFault
  | node k a => !k.isFault && a.isFaultless
  | seq a b | alt a b | grow a _ b => a.isFaultless && b.isFaultless
  | opt a | many a | label _ a => a.isFaultless
  | empty | sameLine | ref _ | follows _ | without _ => true

theorem grammar_isFaultless (n : Nonterminal) : (grammar n).isFaultless = true := by
  cases n <;> decide

/-! ## Cursors without repairs -/

/-- Nothing is repaired from the cursor on, and there is no fault in front of its next token. -/
structure Cursor.Unrepaired (c : Cursor) : Prop where
  repairs : c.repairs = []
  gap : Clear c.gap

theorem clear_scanGap (inside n : Nat) (cs : List Char) (br : Bool) :
    Clear (Cursor.scanGap [] inside n cs br).trees := by
  fun_induction Cursor.scanGap [] inside n cs br with
  | case1 => exact clear_nil
  | case2 _ _ _ _ _ ih => exact ih
  | case3 _ _ _ _ _ found => cases found
  | case4 _ _ _ _ _ _ ih => exact ih
  | case5 _ _ _ _ _ _ _ _ _ ih =>
      exact clear_cons.2 ⟨firstFault?_node.2 ⟨rfl, clear_nil⟩, ih⟩
  | case6 => exact clear_nil

theorem unrepaired_after (supplied : Bool) (place : Nat) (rest : List Char) :
    (Cursor.after [] supplied place rest).Unrepaired :=
  ⟨rfl, clear_scanGap _ _ _ _⟩

/-- What was read has no fault, and neither will what follows have one by a repair. -/
def Outcome.Faultless (o : Outcome) : Prop :=
  ∀ ts c, o.result = some (ts, c) → Clear ts ∧ c.Unrepaired

namespace Outcome.Faultless

theorem of_none {o : Outcome} (h : o.result = none) : o.Faultless := by
  intro ts c eq
  rw [h] at eq
  cases eq

theorem nothing {c : Cursor} (hc : c.Unrepaired) (reach : Nat) :
    (Outcome.success [] c reach).Faultless := by
  intro ts c' eq
  obtain ⟨rfl, rfl⟩ := Prod.mk.inj (Option.some.inj eq)
  exact ⟨clear_nil, hc⟩

theorem mapTrees {o : Outcome} (h : o.Faultless) {f : List Tree → List Tree}
    (keeps : ∀ ts, Clear ts → Clear (f ts)) : (o.mapTrees f).Faultless := by
  intro ts c eq
  obtain ⟨⟨us, d⟩, result, eq⟩ := Option.map_eq_some_iff.1 eq
  obtain ⟨rfl, rfl⟩ := Prod.mk.inj eq
  exact (h us d result).imp_left (keeps us)

end Outcome.Faultless

/-! ## What rules give -/

theorem clear_leaf {k : Kind} (h : k.isFault = false) (s e : Nat) :
    Clear [.node k none s e []] :=
  clear_cons.2 ⟨firstFault?_node.2 ⟨h, clear_nil⟩, clear_nil⟩

theorem clear_wrap {k : Kind} {ts : List Tree} (h : Clear ts) (kind : k.isFault = false)
    (place : Nat) : Clear (Tree.wrap k place ts) := by
  unfold Tree.wrap
  split
  · exact clear_append.2 ⟨h, clear_leaf kind _ _⟩
  · rename_i first rest eq
    rw [← List.takeWhile_append_dropWhile (p := Tree.isExtra) (l := ts), eq, clear_append] at h
    exact clear_append.2 ⟨h.1, clear_cons.2 ⟨firstFault?_node.2 ⟨kind, h.2⟩, clear_nil⟩⟩

theorem clear_adopt {head grown : List Tree} (h : Clear head) (g : Clear grown) :
    Clear (Tree.adopt head grown) := by
  unfold Tree.adopt
  split
  · rename_i first rest k l s e cs more eq eq'
    rw [← List.takeWhile_append_dropWhile (p := Tree.isExtra) (l := head), eq, clear_append] at h
    rw [← List.takeWhile_append_dropWhile (p := Tree.isExtra) (l := grown), eq', clear_append,
      clear_cons, firstFault?_node] at g
    obtain ⟨extras, ⟨kind, inside⟩, -⟩ := g
    refine clear_append.2 ⟨h.1, clear_cons.2 ⟨firstFault?_node.2 ⟨kind, ?_⟩, clear_nil⟩⟩
    exact clear_append.2 ⟨clear_append.2 ⟨clear_labelled.2 h.2, extras⟩, inside⟩
  · exact clear_append.2 ⟨h, g⟩

theorem find_ne_supplied (c : Cursor) (t : Terminal) : c.find t ≠ .supplied := by
  have ofLength (n : Option Nat) : Cursor.ofLength? n ≠ .supplied := by
    unfold Cursor.ofLength?
    split
    · split <;> simp
    · simp
  cases t <;> simp only [Cursor.find]
  case word | mark | name | privateName | jsxName | number | string | regex | jsxString
      | markupComment => exact ofLength _
  case hashBang =>
    split
    · exact ofLength _
    · simp
  case ternaryMark =>
    split
    · simp
    · split <;> simp
    · simp
    · simp
  case templateText => split <;> simp
  case jsxText =>
    split
    · split <;> simp
    · simp
  case entity | ending | endOfInput => split <;> simp

theorem Cursor.Unrepaired.read {c : Cursor} (hc : c.Unrepaired) (t : Terminal) :
    c.read t = c.find t := by
  have supplies : c.supplies t = false := by simp [Cursor.supplies, hc.repairs]
  rw [Cursor.read]
  split
  · rename_i none
    rw [none, supplies]
    rfl
  · rfl

theorem consume_faultless {c c' : Cursor} (hc : c.Unrepaired) {found : Cursor.Found} {k : Kind}
    {ts : List Tree} (real : found ≠ .supplied)
    (kind : k.isFault = false ∨ found = .place ∨ found = .token 0)
    (h : c.consume k found = some (ts, c')) : Clear ts ∧ c'.Unrepaired := by
  have after (n : Nat) (cs : List Char) : (Cursor.after c.repairs false n cs).Unrepaired :=
    hc.repairs ▸ unrepaired_after false n cs
  cases found with
  | nothing => cases h
  | supplied => exact absurd rfl real
  | place =>
      obtain ⟨rfl, rfl⟩ := Prod.mk.inj (Option.some.inj h)
      exact ⟨clear_nil, hc⟩
  | token n =>
      obtain ⟨rfl, rfl⟩ := Prod.mk.inj (Option.some.inj h)
      refine ⟨clear_append.2 ⟨hc.gap, ?_⟩, after _ _⟩
      split
      · exact clear_nil
      next some_ =>
        obtain kind | place | zero := kind
        · exact clear_leaf kind _ _
        · cases place
        · obtain rfl := Cursor.Found.token.inj zero
          exact absurd rfl some_
  | adjacent n =>
      obtain ⟨rfl, rfl⟩ := Prod.mk.inj (Option.some.inj h)
      obtain kind | place | zero := kind
      · exact ⟨clear_leaf kind _ _, after _ _⟩
      · cases place
      · cases zero

theorem find_of_isTextless {c : Cursor} {t : Terminal} (h : t.isTextless = true) :
    c.find t = .nothing ∨ c.find t = .place ∨ c.find t = .token 0 := by
  cases t <;> try cases h
  all_goals
    rw [Cursor.find]
    split <;> simp

section

variable {limit : Nat} {rec : Nonterminal → Cursor → Outcome} {step : Cursor → Outcome}

theorem repeated_faultless (hstep : ∀ c, c.Unrepaired → (step c).Faultless) (times : Nat)
    {c : Cursor} (hc : c.Unrepaired) : (Rule.repeated step times c).Faultless := by
  induction times generalizing c with
  | zero => exact .nothing hc 0
  | succ times ih =>
      rw [Rule.repeated]
      split
      · exact .nothing hc _
      · rename_i ts d result
        obtain ⟨clear, hd⟩ := hstep c hc ts d result
        split
        · exact (ih hd).mapTrees fun us h => clear_append.2 ⟨clear, h⟩
        · exact .nothing hc _

theorem grown_faultless (hstep : ∀ c, c.Unrepaired → (step c).Faultless) (heads : List Kind)
    (times : Nat) {ts : List Tree} (hts : Clear ts) {c : Cursor} (hc : c.Unrepaired) :
    (Rule.grown step heads times ts c).Faultless := by
  have still {ts : List Tree} (hts : Clear ts) {c : Cursor} (hc : c.Unrepaired) (reach : Nat) :
      (Outcome.success ts c reach).Faultless := by
    intro us d eq
    obtain ⟨rfl, rfl⟩ := Prod.mk.inj (Option.some.inj eq)
    exact ⟨hts, hc⟩
  induction times generalizing ts c with
  | zero => exact still hts hc 0
  | succ times ih =>
      rw [Rule.grown]
      split
      · simp only
        split
        · exact still hts hc _
        · rename_i us d result
          obtain ⟨clear, hd⟩ := hstep c hc us d result
          split
          · exact ih (clear_adopt hts clear) hd
          · exact still hts hc _
      · exact still hts hc 0

theorem run_faultless (hrec : ∀ n c, c.Unrepaired → (rec n c).Faultless) (r : Rule)
    (faultless : r.isFaultless = true) {c : Cursor} (hc : c.Unrepaired) :
    (Rule.run limit rec r c).Faultless := by
  induction r generalizing c with
  | empty => exact .nothing hc 0
  | token t k =>
      rw [Rule.run]
      split
      · rename_i ts d consumed
        intro us e eq
        obtain ⟨rfl, rfl⟩ := Prod.mk.inj (Option.some.inj eq)
        rw [hc.read] at consumed
        have real := find_ne_supplied c t
        rw [Rule.isFaultless, Bool.or_eq_true, Bool.not_eq_true'] at faultless
        obtain textless | kind := faultless
        · obtain none | place := find_of_isTextless (c := c) textless
          · rw [none] at consumed
            cases consumed
          · exact consume_faultless hc real (.inr place) consumed
        · exact consume_faultless hc real (.inl kind) consumed
      · exact .of_none rfl
  | sameLine =>
      rw [Rule.run]
      split
      · exact .of_none rfl
      · exact .nothing hc 0
  | ref n => exact hrec n c hc
  | seq a b iha ihb =>
      rw [Rule.isFaultless, Bool.and_eq_true] at faultless
      rw [Rule.run]
      split
      · exact .of_none ‹_›
      · rename_i ts d result
        obtain ⟨clear, hd⟩ := iha faultless.1 hc ts d result
        exact (ihb faultless.2 hd).mapTrees fun us h => clear_append.2 ⟨clear, h⟩
  | alt a b iha ihb =>
      rw [Rule.isFaultless, Bool.and_eq_true] at faultless
      rw [Rule.run]
      split
      · exact ihb faultless.2 hc
      · exact iha faultless.1 hc
  | opt a ih =>
      rw [Rule.run]
      split
      · exact .nothing hc _
      · exact ih faultless hc
  | many a ih => exact repeated_faultless (fun _ hd => ih faultless hd) limit hc
  | follows a =>
      rw [Rule.run]
      split
      · exact .nothing hc 0
      · exact .of_none rfl
  | without a =>
      rw [Rule.run]
      split
      · exact .of_none rfl
      · exact .nothing hc 0
  | node k a ih =>
      rw [Rule.isFaultless, Bool.and_eq_true, Bool.not_eq_true'] at faultless
      exact (ih faultless.2 hc).mapTrees fun ts h => clear_wrap h faultless.1 _
  | label l a ih => exact (ih faultless hc).mapTrees fun ts h => clear_labelled.2 h
  | grow base heads suffix ihb ihs =>
      rw [Rule.isFaultless, Bool.and_eq_true] at faultless
      rw [Rule.run]
      split
      · exact .of_none ‹_›
      · rename_i ts d result
        obtain ⟨clear, hd⟩ := ihb faultless.1 hc ts d result
        exact grown_faultless (fun _ he => ihs faultless.2 he) heads limit clear hd

theorem read_faultless (fuel : Nat) (n : Nonterminal) {c : Cursor} (hc : c.Unrepaired) :
    (Rule.read grammar limit fuel n c).Faultless := by
  induction fuel generalizing n c with
  | zero => exact .of_none rfl
  | succ fuel ih => exact run_faultless (fun m d hd => ih m hd) _ (grammar_isFaultless n) hc

end

/-- A source that is read without a repair has no fault, and its syntax is what was read. -/
theorem parse_of_strict {source : List Char} {x : Syntax} (h : parseStrict? source = some x) :
    parse source = x ∧ x.root.firstFault? = none := by
  obtain ⟨t, whole, rfl⟩ := Option.map_eq_some_iff.1 h
  constructor
  · rw [parse, planLimit, Repair.search]
    simp only [whole]
  · obtain ⟨⟨ts, c⟩, result, rfl⟩ := Option.map_eq_some_iff.1 whole
    exact firstFault?_node.2
      ⟨rfl, (read_faultless _ _ (unrepaired_after false 0 source) ts c result).1⟩

end PropStories.Tsx
