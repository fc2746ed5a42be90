import PropStories.Proofs.Tsx.Everywhere
import PropStories.Proofs.Tsx.Values

/-!
# Literals in types

A literal type of a source without a fault covers a string, a number, or a number with its sign;
each of them is a value, wherever it is written. The rules for literal types are checked to be made
of these tokens.
-/

namespace PropStories.Tsx

open Text (slice)

variable {source : List Char}

/-! ## Spelled trees -/

def LiteralFits (source : List Char) (t : Tree) : Prop :=
  match t.kind with
  | .string | .number | .unary => IsValue (slice source t.start t.stop)
  | _ => True

abbrev Spelled (source : List Char) : Tree → Prop :=
  Everywhere .literalType (LiteralFits source)

/-! ## Tokens of a literal -/

variable {limit : Nat} {rec : Nonterminal → Cursor → Outcome}

/-! ## Rules of literals -/

namespace Rule

def isSign : Rule → Bool
  | token (.mark m _) k => k == .token m && (m == "-" || m == "+")
  | _ => false

def isLiteral : Rule → Bool
  | alt a b => a.isLiteral && b.isLiteral
  | token t k => k != .unary && (k != .string || t == .string) && (k != .number || t == .number)
  | node k (seq (alt a b) (token t _)) => k == .unary && a.isSign && b.isSign && t == .number
  | _ => false

end Rule

theorem run_sign {r : Rule} (sign : r.isSign = true) {c c' : Cursor} {ts : List Tree}
    (hr : (Rule.run limit rec r c).result = some (ts, c')) (clear : Clear ts) :
    ∃ w s, s ∈ ['-', '+'] ∧ c.ahead = s :: c.ahead.drop 1 ∧
      ts = c.gap ++ [.node (.token w) none c.next (c.next + 1) []] ∧
      c' = Cursor.after c.repairs false (c.next + 1) (c.ahead.drop 1) := by
  cases r <;> try contradiction
  rename_i t k
  cases t <;> try contradiction
  rename_i m stops
  obtain ⟨n, some_, -, rfl, rfl⟩ := run_lexeme rfl hr clear
  obtain ⟨rfl, text⟩ := mark?_eq_some some_
  rw [Rule.isSign, Bool.and_eq_true, Bool.or_eq_true, beq_iff_eq, beq_iff_eq, beq_iff_eq] at sign
  have whole := (List.take_append_drop m.length c.ahead).symm
  rw [text] at whole
  obtain ⟨rfl, rfl | rfl⟩ := sign
  · exact ⟨_, '-', by simp, whole, rfl, rfl⟩
  · exact ⟨_, '+', by simp, whole, rfl, rfl⟩

/-- A number with a sign in front of it, perhaps with a gap between them. -/
theorem run_signed {a b : Rule} {k : Kind} (ha : a.isSign = true) (hb : b.isSign = true)
    {c c' : Cursor} {ts : List Tree} (hc : c.Stands source)
    (hr : (Rule.run limit rec (.seq (.alt a b) (.token .number k)) c).result = some (ts, c'))
    (clear : Clear ts) :
    ∃ first rest, ts.dropWhile Tree.isExtra = first :: rest ∧
      IsValue (slice source first.start ((rest.getLast?).getD first).stop) := by
  obtain ⟨front, m, last, hf, hl, rfl⟩ := run_seq hr
  rw [clear_append] at clear
  have signed : ∃ w s, s ∈ ['-', '+'] ∧ c.ahead = s :: c.ahead.drop 1 ∧
      front = c.gap ++ [.node (.token w) none c.next (c.next + 1) []] ∧
      m = Cursor.after c.repairs false (c.next + 1) (c.ahead.drop 1) := by
    rw [Rule.run] at hf
    split at hf
    · exact run_sign hb hf clear.1
    · exact run_sign ha hf clear.1
  obtain ⟨w, s, sign, ahead, rfl, behind⟩ := signed
  obtain ⟨n, number, -, rfl, -⟩ := run_lexeme rfl hl clear.2
  have token : m.ahead ≠ [] := by
    obtain ⟨d, more, eq, -⟩ := number?_start number
    simp [eq]
  have gap : ∃ g, IsGap g ∧ (c.ahead.drop 1).drop 0 = g ++ m.ahead ∧
      m.next = c.next + 1 + 0 + g.length ∧ Firm m.ahead := by
    subst behind
    exact isGap_scanGap (Nat.zero_le _) (clear_append.1 clear.2).1 token
  obtain ⟨g, isGap, text, next, -⟩ := gap
  rw [List.drop_zero] at text
  refine ⟨.node (.token w) none c.next (c.next + 1) [],
    m.gap ++ [.node k none m.next (m.next + n) []], ?_, ?_⟩
  · rw [List.append_assoc, List.dropWhile_append_of_pos (List.all_eq_true.1 hc.extras)]
    rfl
  · have length : m.next + n - c.next = 1 + g.length + n := by omega
    have value : slice source c.next (m.next + n) = s :: (g ++ m.ahead.take n) := by
      rw [slice, ← hc.ahead, length, ahead, text, Nat.add_assoc, Nat.add_comm 1, List.take_succ_cons,
        List.take_length_add_append]
    rw [List.getLast?_concat]
    exact value ▸ .signed sign isGap (isNumber_take number)

theorem literalFits_of_kind {t : Tree} (string : t.kind ≠ .string) (number : t.kind ≠ .number)
    (unary : t.kind ≠ .unary) : LiteralFits source t := by
  unfold LiteralFits
  split
  · contradiction
  · contradiction
  · contradiction
  · trivial

theorem consume_kind {c c' : Cursor} {k : Kind} {found : Cursor.Found} {ts : List Tree}
    (extras : c.gap.all Tree.isExtra = true) (h : c.consume k found = some (ts, c'))
    (clear : Clear ts) : ∀ t ∈ ts.dropWhile Tree.isExtra, t.kind = k := by
  cases found <;> simp only [Cursor.consume] at h
  case nothing => cases h
  case place =>
    obtain ⟨rfl, -⟩ := Prod.mk.inj (Option.some.inj h)
    exact List.forall_mem_nil _
  case supplied =>
    obtain ⟨rfl, -⟩ := Prod.mk.inj (Option.some.inj h)
    rw [clear_cons, firstFault?_node] at clear
    exact absurd clear.1.1 (by decide)
  case token n =>
    obtain ⟨rfl, -⟩ := Prod.mk.inj (Option.some.inj h)
    intro t ht
    rw [List.dropWhile_append_of_pos (List.all_eq_true.1 extras)] at ht
    have mem := (List.dropWhile_suffix _).mem ht
    split at mem
    · cases mem
    · rw [List.mem_singleton.1 mem]
      rfl
  case adjacent n =>
    obtain ⟨rfl, -⟩ := Prod.mk.inj (Option.some.inj h)
    intro t ht
    rw [List.mem_singleton.1 ((List.dropWhile_suffix _).mem ht)]
    rfl

theorem dropWhile_lexeme {c : Cursor} (hc : c.Stands source) {t u : Tree}
    (h : u ∈ (c.gap ++ [t]).dropWhile Tree.isExtra) : u = t := by
  rw [List.dropWhile_append_of_pos (List.all_eq_true.1 hc.extras)] at h
  exact List.mem_singleton.1 ((List.dropWhile_suffix _).mem h)

/-- The trees of a rule for literals, without the extras in front. -/
theorem run_literal {r : Rule} (literal : r.isLiteral = true) {c c' : Cursor} {ts : List Tree}
    (hc : c.Stands source) (hr : (Rule.run limit rec r c).result = some (ts, c'))
    (clear : Clear ts) : ∀ t ∈ ts.dropWhile Tree.isExtra, LiteralFits source t := by
  induction r generalizing c ts with
  | alt a b iha ihb =>
      rw [Rule.isLiteral, Bool.and_eq_true] at literal
      rw [Rule.run] at hr
      split at hr
      · exact ihb literal.2 hc hr clear
      · exact iha literal.1 hc hr clear
  | token t k =>
      simp only [Rule.isLiteral, Bool.and_eq_true, Bool.or_eq_true, bne_iff_ne, beq_iff_eq] at literal
      obtain ⟨⟨unary, string⟩, number⟩ := literal
      intro u hu
      by_cases isString : k = .string
      · obtain rfl := string.resolve_left (absurd isString)
        obtain ⟨n, some_, -, rfl, -⟩ := run_lexeme rfl hr clear
        rw [dropWhile_lexeme hc hu, LiteralFits, isString]
        exact slice_next hc n ▸ .string (isString_take some_)
      · by_cases isNumber : k = .number
        · obtain rfl := number.resolve_left (absurd isNumber)
          obtain ⟨n, some_, -, rfl, -⟩ := run_lexeme rfl hr clear
          rw [dropWhile_lexeme hc hu, LiteralFits, isNumber]
          exact slice_next hc n ▸ .number (isNumber_take some_)
        · rw [Rule.run] at hr
          split at hr
          · rename_i us d consumed
            obtain ⟨rfl, rfl⟩ := Prod.mk.inj (Option.some.inj hr)
            have kind := consume_kind hc.extras consumed clear u hu
            exact literalFits_of_kind (kind ▸ isString) (kind ▸ isNumber) (kind ▸ unary)
          · cases hr
  | node k a ih =>
      clear ih
      cases a <;> try contradiction
      rename_i signs digits
      cases signs <;> try contradiction
      rename_i a b
      cases digits <;> try contradiction
      rename_i t k'
      simp only [Rule.isLiteral, Bool.and_eq_true, beq_iff_eq] at literal
      obtain ⟨⟨⟨rfl, ha⟩, hb⟩, rfl⟩ := literal
      obtain ⟨inner, run, rfl⟩ := run_node hr
      obtain ⟨first, rest, hd, value⟩ := run_signed ha hb hc run (clear_of_wrap clear)
      intro t ht
      rw [Tree.wrap, hd] at ht
      simp only at ht
      rw [List.dropWhile_append_of_pos (List.all_eq_true.1 List.all_takeWhile)] at ht
      rw [List.mem_singleton.1 ((List.dropWhile_suffix _).mem ht)]
      exact value
  | _ => contradiction

/-! ## The grammar -/

theorem grammar_makes_literals (n : Nonterminal) :
    (grammar n).makes .literalType Rule.isLiteral = true := by
  cases n <;> decide +kernel

/-- In a source without a fault, every literal type is made of literals. -/
theorem parse_spelled (clear : (parse source).hasFault = false) :
    Spelled source (parse source).root := by
  have clear : (parse source).root.firstFault? = none := by
    simpa [Syntax.hasFault, Tree.hasFault] using clear
  exact parse_everywhere
    (fun _ _ _ _ _ _ _ _ literal hc run clear => run_literal literal hc run clear)
    grammar_makes_literals (by decide) clear

end PropStories.Tsx
