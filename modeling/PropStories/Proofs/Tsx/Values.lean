import PropStories.Proofs.Tsx.Tokens

/-!
# Values

Literals, constants, functions without an effect, calls of the action helper, and arrays and object
literals of such values. Their syntax is given by an inductive predicate on texts. Main statement:
the rule for expressions accepts every value in front of a mark that ends an expression; the nodes
of an object literal carry its keys.
-/

namespace PropStories.Tsx

open Cursor (behind)
open Grammar

/-! ## Syntax -/

inductive Slot where
  | hole (tail : List Char)
  /-- A value, perhaps with a key, between two gaps. -/
  | item (lead : List Char) (key : Option (List Char)) (core tail : List Char)

namespace Slot

def lead : Option (List Char) → List Char
  | some key => key ++ [':', ' ']
  | none => []

def text : Slot → List Char
  | hole _ => []
  | item gap key core _ => gap ++ (lead key ++ core)

def tail : Slot → List Char
  | hole t => t
  | item _ _ _ t => t

def core? : Slot → Option (List Char)
  | hole _ => none
  | item _ _ core _ => some core

def pair? : Slot → Option (List Char × List Char)
  | item _ (some key) core _ => some (key, key ++ [':', ' '] ++ core)
  | _ => none

def isItem (s : Slot) : Bool := s.core?.isSome

/-- The slots behind a comma, up to the end of the list; `gap` is what is left of the slot before. -/
def more (gap : List Char) : List Slot → List Char
  | [] => gap
  | s :: ss => gap ++ ',' :: (s.text ++ more s.tail ss)

def body (s : Slot) (ss : List Slot) : List Char := s.text ++ more s.tail ss

def Fits (keys : Option (List Char) → Prop) : Slot → Prop
  | hole tail => IsGap tail
  | item gap key _ tail => IsGap gap ∧ keys key ∧ IsGap tail

theorem Fits.tail {keys : Option (List Char) → Prop} {s : Slot} (h : s.Fits keys) :
    IsGap s.tail := by
  cases s with
  | hole => exact h
  | item => exact h.2.2

end Slot

def IsKey (w : List Char) : Prop := IsName w ∨ IsString w

def Keyed (key : Option (List Char)) : Prop := ∃ w, key = some w ∧ IsKey w

def Unkeyed (key : Option (List Char)) : Prop := key = none

def constants : List String := ["false", "true", "undefined"]

inductive IsValue : List Char → Prop
  | string {w : List Char} (h : IsString w) : IsValue w
  | number {w : List Char} (h : IsNumber w) : IsValue w
  | signed {s : Char} {g w : List Char} (sign : s ∈ ['-', '+']) (gap : IsGap g)
      (h : IsNumber w) : IsValue (s :: (g ++ w))
  | constant {w : String} (h : w ∈ constants) : IsValue w.toList
  | function : IsValue "() => \x7b\x7d".toList
  | action {w : List Char} (h : IsString w) : IsValue ("action".toList ++ '(' :: (w ++ [')']))
  | array {s : Slot} {ss : List Slot} (slots : ∀ t ∈ s :: ss, t.Fits Unkeyed)
      (values : ∀ t ∈ s :: ss, ∀ c, t.core? = some c → IsValue c) :
      IsValue ('[' :: (Slot.body s ss ++ [']']))
  | object {s : Slot} {ss : List Slot} (slots : ∀ t ∈ s :: ss, t.Fits Keyed)
      (values : ∀ t ∈ s :: ss, ∀ c, t.core? = some c → IsValue c) :
      IsValue ('\x7b' :: (Slot.body s ss ++ ['\x7d']))

/-! ## Lengths -/

namespace Slot

theorem length_core_le {s : Slot} {c : List Char} (h : s.core? = some c) :
    c.length ≤ s.text.length := by
  cases s with
  | hole => cases h
  | item gap key core tail =>
      obtain rfl := Option.some.inj h
      simp only [text, List.length_append]
      omega

theorem length_le_more {gap : List Char} {ss : List Slot} {t : Slot} (h : t ∈ ss) :
    t.text.length ≤ (more gap ss).length := by
  induction ss generalizing gap with
  | nil => cases h
  | cons s ss ih =>
      rw [more, List.length_append, List.length_cons, List.length_append]
      rcases List.mem_cons.1 h with rfl | h
      · omega
      · have := @ih s.tail h
        omega

theorem length_le_body {s : Slot} {ss : List Slot} {t : Slot} (h : t ∈ s :: ss) :
    t.text.length ≤ (body s ss).length := by
  rw [body, List.length_append]
  rcases List.mem_cons.1 h with rfl | h
  · omega
  · have := @length_le_more s.tail _ _ h
    omega

theorem count_le_more (gap : List Char) (ss : List Slot) : ss.length ≤ (more gap ss).length := by
  induction ss generalizing gap with
  | nil => exact Nat.zero_le _
  | cons s ss ih =>
      have := ih s.tail
      rw [more]
      simp only [List.length_append, List.length_cons]
      omega

theorem count_le_body (s : Slot) (ss : List Slot) : ss.length ≤ (body s ss).length := by
  have := count_le_more s.tail ss
  rw [body, List.length_append]
  omega

end Slot

/-! ## Levels of expressions -/

def Opens (sights : List Sight) (cs : List Char) : Prop := ∃ s ∈ sights, Begins s cs

def quoteSights : List Sight := ['\x27', '\x22'].map .char

def numberSights : List Sight := numberStarts.map .char

def inertOpenings : List Sight :=
  quoteSights ++ numberSights ++ constants.map .word ++ ['[', '\x7b'].map .char

/-- The words of the language: what is not among them is a name wherever one may stand. -/
def languageWords : List String :=
  reservedWords ++ reservedTypeWords ++
    ["abstract", "async", "declare", "enum", "interface", "let", "module", "namespace", "override",
      "private", "protected", "public", "type", "unique"]

def openings : List Sight := inertOpenings ++ [.char '(', .word "action", .name languageWords]

section

variable {limit fuel n : Nat} {text rest : List Char} {ts : List Tree} {sights : List Sight}

theorem Opens.refused {r : Rule} (h : Opens sights text) (bars : ∀ s ∈ sights, s.bars r = true) :
    (running limit fuel r (behind n text)).result = none := by
  obtain ⟨s, hs, begins⟩ := h
  exact begins.refused (bars s hs)

theorem Opens.mono {more : List Sight} (h : Opens sights text) (sub : sights ⊆ more) :
    Opens more text := by
  obtain ⟨s, hs, begins⟩ := h
  exact ⟨s, sub hs, begins⟩

theorem accepts_chain (opens : Opens openings (text ++ rest)) (closed : Closed closers rest)
    (h : Accepts limit fuel primary n text rest ts) : Accepts limit fuel chain n text rest ts :=
  .grow (.grow (.or_right (opens.refused (by decide)) h) (closed.refused (by decide)))
    (closed.refused (by decide))

theorem accepts_operand (opens : Opens openings (text ++ rest)) (closed : Closed closers rest)
    (noArrow : (running limit (fuel + 1) arrow (behind n (text ++ rest))).result = none)
    (h : Accepts limit fuel chain n text rest ts) :
    Accepts limit (fuel + 1) operand n text rest ts :=
  .or_right noArrow (.or_right (opens.refused (by decide))
    (.or_right (opens.refused (by decide)) (.or_right (opens.refused (by decide))
      (.or_right (opens.refused (by decide))
        (.grow (.ref h) (closed.refused (by decide)))))))

theorem accepts_expression (closed : Closed closers rest)
    (noName : (running limit (fuel + 1) (privateName ++ .follows (word "in"))
      (behind n (text ++ rest))).result = none)
    (h : Accepts limit fuel operand n text rest ts) :
    Accepts limit (fuel + 2) (.ref .expression) n text rest ts := by
  have powers : Accepts limit (fuel + 1) powers n text rest ts :=
    .grow (.ref h) (closed.refused (by decide))
  have products : Accepts limit (fuel + 1) products n text rest ts :=
    powers.grow (closed.refused (by decide))
  have sums : Accepts limit (fuel + 1) sums n text rest ts :=
    products.grow (closed.refused (by decide))
  have shifts : Accepts limit (fuel + 1) shifts n text rest ts :=
    sums.grow (closed.refused (by decide))
  have relations : Accepts limit (fuel + 1) relations n text rest ts :=
    .grow (.or_right noName shifts) (closed.refused (by decide))
  have equalities : Accepts limit (fuel + 1) equalities n text rest ts :=
    relations.grow (closed.refused (by decide))
  have conjunctions : Accepts limit (fuel + 1) conjunctions n text rest ts :=
    .grow (.grow (.grow (.grow equalities (closed.refused (by decide)))
      (closed.refused (by decide))) (closed.refused (by decide)))
      (closed.refused (by decide))
  have disjunctions : Accepts limit (fuel + 1) disjunctions n text rest ts :=
    conjunctions.grow (closed.refused (by decide))
  exact .ref (.grow disjunctions (closed.refused (by decide)))

end

/-! ## Lists in brackets -/

section

variable {limit fuel n : Nat} {source rest gap : List Char} {item : Rule} {c : Char} {α : Type}
  {read : Tree → α} {say : Slot → α} {keys : Option (List Char) → Prop}

def named (ts : List Tree) : List Tree := ts.filter (·.kind.isNamed)

@[simp] theorem named_append (ts us : List Tree) : named (ts ++ us) = named ts ++ named us :=
  List.filter_append ..

theorem named_of_isNamed {t : Tree} (h : t.kind.isNamed = true) : named [t] = [t] :=
  List.filter_cons_of_pos h

@[simp] theorem named_token (w : String) (l : Option Label) (s e : Nat) (cs : List Tree) :
    named [.node (.token w) l s e cs] = [] := rfl

theorem drop_of_append {text : List Char} (h : source.drop n = text ++ rest) :
    source.drop (n + text.length) = rest := by
  rw [← List.drop_drop, h, List.drop_left]

/-- Wherever the slot stands in the source, the rule accepts its item and the node says what the
slot says. -/
def Slot.Reads (limit fuel : Nat) (source : List Char) (item : Rule) (read : Tree → α)
    (say : Slot → α) (s : Slot) : Prop :=
  s.isItem = true → ∀ {n : Nat} {rest : List Char}, source.drop n = s.text ++ rest →
    Closed closers rest → ∃ t, t.kind.isNamed = true ∧ read t = say s ∧
      Accepts limit fuel item n s.text rest [t]

theorem closed_more (hgap : IsGap gap) (close : c ∈ closers) (ss : List Slot) :
    Closed [',', c] (Slot.more gap ss ++ c :: rest) := by
  cases ss with
  | nil =>
      have proper := closers_proper c close
      exact ⟨c, by simp, (begins_char proper.1 proper.2 rest).gap hgap⟩
  | cons s ss =>
      rw [Slot.more, List.append_assoc, List.cons_append]
      exact ⟨',', by simp, (begins_char (by decide) (by decide) _).gap hgap⟩

theorem Closed.mono {marks more : List Char} (h : Closed marks rest) (sub : marks ⊆ more) :
    Closed more rest := by
  obtain ⟨c, hc, begins⟩ := h
  exact ⟨c, sub hc, begins⟩

theorem passes_slot {s : Slot} (close : c ∈ closers)
    (bars : ∀ d ∈ [',', c], (Sight.char d).bars item = true)
    (reads : s.Reads limit fuel source item read say) (place : source.drop n = s.text ++ rest)
    (closed : Closed [',', c] rest) :
    ∃ nodes, Passes limit fuel (.opt item) n s.text rest nodes ∧
      (named nodes).map read = ([s].filter Slot.isItem).map say := by
  cases s with
  | hole tail => exact ⟨[], passes_opt (closed.refused bars), rfl⟩
  | item lead key core tail =>
      have sub : [',', c] ⊆ closers := by
        intro d hd
        obtain rfl | rfl : d = ',' ∨ d = c := by simpa using hd
        · decide
        · exact close
      obtain ⟨t, isNamed, said, accepts⟩ := reads rfl place (closed.mono sub)
      refine ⟨[t], accepts.opt.passes, ?_⟩
      rw [named_of_isNamed isNamed, List.filter_cons_of_pos rfl]
      simp [said]

theorem series_slots {ss : List Slot} (close : c ∈ closers)
    (bars : ∀ d ∈ [',', c], (Sight.char d).bars item = true)
    (ends : (Sight.char c).bars (mark "," ++ .opt item) = true)
    (reads : ∀ s ∈ ss, s.Reads limit fuel source item read say) (fits : ∀ s ∈ ss, s.Fits keys)
    (hgap : IsGap gap) (place : source.drop n = Slot.more gap ss ++ c :: rest) :
    ∃ covered last nodes, Slot.more gap ss = covered ++ last ∧ IsGap last ∧
      Series limit fuel (mark "," ++ .opt item) (last ++ c :: rest) n covered nodes ss.length ∧
      (named nodes).map read = (ss.filter Slot.isItem).map say := by
  induction ss generalizing n gap with
  | nil =>
      have proper := closers_proper c close
      refine ⟨[], gap, [], rfl, hgap, .stop ?_, rfl⟩
      exact ((begins_char proper.1 proper.2 rest).gap hgap).refused ends
  | cons s ss ih =>
      have comma : source.drop n = (gap ++ [',']) ++
          (s.text ++ (Slot.more s.tail ss ++ c :: rest)) := by
        rw [place, Slot.more]
        simp
      have behind_comma := drop_of_append comma
      have behind_slot := drop_of_append behind_comma
      have hs : s.Fits keys := fits s List.mem_cons_self
      obtain ⟨nodes, passes, said⟩ := passes_slot close bars (reads s List.mem_cons_self)
        behind_comma (closed_more hs.tail close ss)
      have place' : source.drop (n + (gap ++ [','] ++ s.text).length) =
          Slot.more s.tail ss ++ c :: rest := by
        rw [List.length_append, ← Nat.add_assoc]
        exact behind_slot
      obtain ⟨covered, last, more, eq, hlast, series, saidMore⟩ := ih
        (fun t ht => reads t (List.mem_cons_of_mem _ ht))
        (fun t ht => fits t (List.mem_cons_of_mem _ ht)) hs.tail place'
      have around : Slot.more s.tail ss ++ c :: rest = covered ++ (last ++ c :: rest) := by
        rw [eq, List.append_assoc]
      rw [around] at passes
      have first : Accepts limit fuel (mark "," ++ .opt item) n (gap ++ [','] ++ s.text)
          (covered ++ (last ++ c :: rest)) _ :=
        Reaches.seq (accepts_mark (m := ",") hgap rfl (by decide)) passes
      refine ⟨gap ++ [','] ++ s.text ++ covered, last, _, ?_, hlast,
        .step (by simp) first series, ?_⟩
      · rw [Slot.more, eq]
        simp
      · rw [named_append, named_append, named_token, List.nil_append, List.map_append, saidMore,
          said, ← List.map_append, ← List.filter_append]
        rfl

theorem accepts_brackets {k : Kind} {o : Char} {op cl : String} {s : Slot} {ss : List Slot}
    (kind : k.isExtra = false) (opening : op.toList = [o])
    (proper : Lexeme.isGap o = false ∧ o ≠ '/') (closing : cl.toList = [c]) (close : c ∈ closers)
    (bars : ∀ d ∈ [',', c], (Sight.char d).bars item = true)
    (ends : (Sight.char c).bars (mark "," ++ .opt item) = true)
    (reads : ∀ t ∈ s :: ss, t.Reads limit fuel source item read say)
    (fits : ∀ t ∈ s :: ss, t.Fits keys) (count : ss.length ≤ limit) (hgap : IsGap gap)
    (place : source.drop n = gap ++ o :: (Slot.body s ss ++ [c]) ++ rest) :
    ∃ t, t.kind = k ∧ t.label? = none ∧
      t.parts.map read = ((s :: ss).filter Slot.isItem).map say ∧
      Accepts limit fuel (.node k (mark op ++ holedListOf item ++ mark cl)) n
        (gap ++ o :: (Slot.body s ss ++ [c])) rest [t] := by
  have hs : s.Fits keys := fits s List.mem_cons_self
  have behind_opening : source.drop (n + (gap ++ op.toList).length) =
      s.text ++ (Slot.more s.tail ss ++ c :: rest) := by
    refine drop_of_append ?_
    rw [place, opening, Slot.body]
    simp
  have behind_slot := drop_of_append behind_opening
  obtain ⟨nodes, passes, said⟩ := passes_slot close bars (reads s List.mem_cons_self)
    behind_opening (closed_more hs.tail close ss)
  obtain ⟨covered, last, more, eq, hlast, series, saidMore⟩ := series_slots close bars ends
    (fun t ht => reads t (List.mem_cons_of_mem _ ht))
    (fun t ht => fits t (List.mem_cons_of_mem _ ht)) hs.tail behind_slot
  have around : last ++ c :: rest = last ++ cl.toList ++ rest := by
    rw [closing]
    simp
  have inside : Slot.more s.tail ss ++ c :: rest = covered ++ (last ++ cl.toList ++ rest) := by
    rw [eq, List.append_assoc, around]
  rw [inside] at passes
  rw [around] at series
  have list := passes.both (series.many count)
  have opens : Accepts limit fuel (mark op) n (gap ++ op.toList)
      (s.text ++ covered ++ (last ++ cl.toList ++ rest)) _ := accepts_mark hgap opening proper
  have closes : Accepts limit fuel (mark cl) (n + (gap ++ op.toList ++ (s.text ++ covered)).length)
      (last ++ cl.toList) rest _ := accepts_mark hlast closing (closers_proper c close)
  have text : gap ++ op.toList ++ (s.text ++ covered) ++ (last ++ cl.toList) =
      gap ++ o :: (Slot.body s ss ++ [c]) := by
    rw [opening, closing, Slot.body, eq]
    simp
  have whole := Reaches.seq (Reaches.seq opens list) closes.passes
  rw [text] at whole
  obtain ⟨all, frames, accepts⟩ := whole.node kind
  refine ⟨_, rfl, rfl, ?_, accepts⟩
  rw [frames.parts]
  show (named _).map read = _
  rw [named_append, named_append, named_append, named_token, named_token, List.append_nil,
    List.nil_append, List.map_append, said, saidMore, ← List.map_append, ← List.filter_append]
  rfl

end

/-! ## Members and elements -/

def pairText? (source : List Char) (t : Tree) : Option (List Char × List Char) :=
  if t.kind = .pair then
    (t.child? .key).map fun k => (Text.slice source k.start k.stop, Text.slice source t.start t.stop)
  else none

/-- Behind every gap, and wherever nothing goes on, the text is an expression. -/
def Valued (limit fuel : Nat) (text : List Char) : Prop :=
  ∀ ⦃g rest : List Char⦄ ⦃n : Nat⦄, IsGap g → Closed closers rest →
    ∃ t, t.kind.isNamed = true ∧ Accepts limit fuel (.ref .expression) n (g ++ text) rest [t]

section

variable {limit fuel n : Nat} {source rest gap w : List Char}

theorem isGap_blank : IsGap [' '] := .blank (by decide) .nil

theorem accepts_key (hgap : IsGap gap) (key : IsKey w) :
    ∃ k, k.isExtra = false ∧ Accepts limit fuel propertyName n (gap ++ w) (':' :: rest)
      [.node k none (n + gap.length) (n + (gap ++ w).length) []] := by
  obtain name | string := key
  · exact ⟨_, rfl, .or_left (accepts_name rfl hgap name (endsName_of_char (by decide) (by decide))
      List.not_mem_nil)⟩
  · refine ⟨_, rfl, .or_right ?_ (.or_left (accepts_string hgap string))⟩
    obtain ⟨q, cs, rfl, quote⟩ := string.start
    rw [List.append_assoc, List.cons_append]
    obtain rfl | rfl := quote <;>
      exact ((begins_char (by decide) (by decide) _).gap hgap).refused (by decide)

theorem IsKey.firm (key : IsKey w) (rest : List Char) : Firm (w ++ rest) := by
  obtain name | string := key
  · exact name.firm rest
  · exact string.firm rest

theorem accepts_pair {core : List Char} (hgap : IsGap gap) (key : IsKey w)
    (value : Valued limit fuel core) (closed : Closed closers rest)
    (place : source.drop n = gap ++ (w ++ [':', ' '] ++ core) ++ rest) :
    ∃ t, t.kind = .pair ∧ pairText? source t = some (w, w ++ [':', ' '] ++ core) ∧
      Accepts limit fuel pair n (gap ++ (w ++ [':', ' '] ++ core)) rest [t] := by
  obtain ⟨k, kind, name⟩ := @accepts_key limit fuel n (' ' :: core ++ rest) _ _
    hgap key
  have colon : Accepts limit fuel (mark ":") (n + (gap ++ w).length) ([] ++ ":".toList)
      (' ' :: core ++ rest) _ := accepts_single rfl (by decide)
  obtain ⟨v, -, accepts⟩ := @value _ _ (n + (gap ++ w ++ ([] ++ ":".toList)).length) isGap_blank
    closed
  have whole := Reaches.seq (Reaches.seq (name.label .key) colon.passes) (accepts.label .value).passes
  have text : gap ++ w ++ ([] ++ ":".toList) ++ ' ' :: core =
      gap ++ (w ++ [':', ' '] ++ core) := by
    simp
  rw [text] at whole
  obtain ⟨all, frames, accepted⟩ := whole.node (k := .pair) rfl
  refine ⟨_, rfl, ?_, accepted⟩
  obtain ⟨start, stop⟩ := accepted.place hgap (by
    rw [List.append_assoc, List.append_assoc]
    exact key.firm _)
  have keyed {start stop : Nat} : (Tree.node .pair none start stop all).child? .key =
      some (.node k (some .key) (n + gap.length) (n + (gap ++ w).length) []) := by
    rw [Tree.child?, Tree.children, frames.find?_label]
    rfl
  have stands : source.drop (n + gap.length) = w ++ [':', ' '] ++ core ++ rest := by
    refine drop_of_append ?_
    rw [place, List.append_assoc]
  have cut {a b c : List Char} (h : source.drop (n + gap.length) = a ++ b) (len : c = gap ++ a) :
      Text.slice source (n + gap.length) (n + c.length) = a := by
    rw [Text.slice, h, len, List.length_append, ← Nat.add_assoc, Nat.add_sub_cancel_left,
      List.take_left]
  rw [pairText?, if_pos (show Tree.kind _ = Kind.pair from rfl), keyed, Option.map_some, start, stop]
  simp only [Tree.start, Tree.stop]
  rw [cut stands rfl, cut (a := w) (b := [':', ' '] ++ core ++ rest) (by rw [stands]; simp) rfl]

theorem reads_member {s : Slot} (fits : s.Fits Keyed)
    (values : ∀ c, s.core? = some c → Valued limit fuel c) :
    s.Reads limit fuel source objectMember (pairText? source) Slot.pair? := by
  intro isItem n rest place closed
  cases s with
  | hole => cases isItem
  | item lead key core tail =>
      obtain ⟨hgap, ⟨w, rfl, key⟩, -⟩ := fits
      obtain ⟨t, kind, said, accepts⟩ := accepts_pair hgap key (values core rfl) closed place
      exact ⟨t, by rw [kind]; rfl, said, accepts.or_left⟩

theorem reads_element {s : Slot} (fits : s.Fits Unkeyed)
    (values : ∀ c, s.core? = some c → Valued limit fuel c) :
    s.Reads limit fuel source (.ref .expression <|> spread) (fun _ => ()) fun _ => () := by
  intro isItem n rest place closed
  cases s with
  | hole => cases isItem
  | item lead key core tail =>
      obtain ⟨hgap, rfl, -⟩ := fits
      obtain ⟨t, isNamed, accepts⟩ := values core rfl hgap closed
      exact ⟨t, isNamed, rfl, accepts.or_left⟩

end

/-! ## Values are expressions -/

section

variable {limit fuel n : Nat} {source rest gap w : List Char}

theorem accepts_of_primary {text : List Char} {ts : List Tree} (opens : Opens openings (text ++ rest))
    (closed : Closed closers rest)
    (noArrow : (running limit (fuel + 1) arrow (behind n (text ++ rest))).result = none)
    (h : Accepts limit fuel primary n text rest ts) :
    Accepts limit (fuel + 3) (.ref .expression) n text rest ts :=
  accepts_expression closed (opens.refused (by decide))
    (accepts_operand opens closed noArrow (accepts_chain opens closed h))

theorem accepts_of_inert {text : List Char} {ts : List Tree}
    (opens : Opens inertOpenings (text ++ rest)) (closed : Closed closers rest)
    (h : Accepts limit fuel primary n text rest ts) :
    Accepts limit (fuel + 3) (.ref .expression) n text rest ts :=
  accepts_of_primary (opens.mono (List.subset_append_left ..)) closed
    (opens.refused (by decide)) h

theorem IsString.opens (h : IsString w) (hgap : IsGap gap) : Opens quoteSights (gap ++ w ++ rest) := by
  obtain ⟨q, cs, rfl, quote⟩ := h.start
  rw [List.append_assoc, List.cons_append]
  obtain rfl | rfl := quote
  · exact ⟨.char '\x27', by simp [quoteSights], (begins_char (by decide) (by decide) _).gap hgap⟩
  · exact ⟨.char '\x22', by simp [quoteSights], (begins_char (by decide) (by decide) _).gap hgap⟩

theorem IsNumber.opens (h : IsNumber w) (hgap : IsGap gap) : Opens numberSights (gap ++ w ++ rest) := by
  obtain ⟨c, cs, rfl, start⟩ := h.starts
  have proper : ∀ c ∈ numberStarts, Lexeme.isGap c = false ∧ c ≠ '/' := by decide
  rw [List.append_assoc, List.cons_append]
  exact ⟨.char c, List.mem_map_of_mem start,
    (begins_char (proper c start).1 (proper c start).2 _).gap hgap⟩

theorem quoteSights_inert : quoteSights ⊆ inertOpenings := by
  intro s hs
  simp [inertOpenings, hs]

theorem numberSights_inert : numberSights ⊆ inertOpenings := by
  intro s hs
  simp [inertOpenings, hs]

theorem valued_string (h : IsString w) : Valued limit (fuel + 3) w := by
  intro g rest n hgap closed
  have opens := @IsString.opens rest _ _ h hgap
  exact ⟨.node .string none (n + g.length) (n + (g ++ w).length) [], rfl,
    accepts_of_inert (opens.mono quoteSights_inert) closed
      (.or_right (opens.refused (by decide)) (.or_right (opens.refused (by decide))
        (.or_left (accepts_string hgap h))))⟩

theorem accepts_primary_number (h : IsNumber w) (hgap : IsGap gap) (closed : Closed closers rest) :
    Accepts limit fuel primary n (gap ++ w) rest
      [.node .number none (n + gap.length) (n + (gap ++ w).length) []] := by
  have opens := @IsNumber.opens rest _ _ h hgap
  exact .or_right (opens.refused (by decide)) (.or_right (opens.refused (by decide))
    (.or_right (opens.refused (by decide))
      (.or_left (accepts_number hgap h closed.endsNumber))))

theorem valued_number (h : IsNumber w) : Valued limit (fuel + 3) w := by
  intro g rest n hgap closed
  exact ⟨.node .number none (n + g.length) (n + (g ++ w).length) [], rfl,
    accepts_of_inert ((h.opens hgap).mono numberSights_inert) closed
      (accepts_primary_number h hgap closed)⟩

theorem first_of_gap {c : Char} {cs : List Char} (hgap : IsGap (c :: cs)) :
    Lexeme.isGap c = true ∨ c = '/' := by
  cases hgap with
  | blank blank => exact .inl blank
  | block => exact .inr rfl
  | line => exact .inr rfl

/-- A sign in front of a number is not the beginning of a decrement or an increment. -/
theorem sign_alone {s : Char} (sign : s ∈ ['-', '+']) (h : IsNumber w) (hgap : IsGap gap)
    {d : Char} {more : List Char} (eq : gap ++ w ++ rest = d :: more) : d ≠ s := by
  have signs : ∀ s ∈ ['-', '+'], Lexeme.isGap s = false ∧ s ≠ '/' ∧ s ∉ numberStarts := by decide
  obtain ⟨noGap, noSlash, noNumber⟩ := signs s sign
  rintro rfl
  cases gap with
  | nil =>
      obtain ⟨c, cs, rfl, start⟩ := h.starts
      obtain ⟨rfl, -⟩ := List.cons.inj eq
      exact noNumber start
  | cons c cs =>
      obtain ⟨rfl, -⟩ := List.cons.inj eq
      obtain gap | slash := first_of_gap hgap
      · rw [noGap] at gap
        contradiction
      · exact noSlash slash

theorem valued_signed {s : Char} {inner : List Char} (sign : s ∈ ['-', '+']) (hinner : IsGap inner)
    (h : IsNumber w) : Valued limit (fuel + 4) (s :: (inner ++ w)) := by
  intro g rest n hgap closed
  have opens := ((@IsNumber.opens rest _ _ h hinner).mono numberSights_inert)
  have number := Reaches.ref (m := .operand) (accepts_operand
    (opens.mono (List.subset_append_left ..)) closed (opens.refused (by decide))
    (accepts_chain (opens.mono (List.subset_append_left ..)) closed
      (@accepts_primary_number limit fuel (n + (g ++ [s]).length) _ _ _ h hinner closed)))
  have free : ∀ d more, inner ++ w ++ rest = d :: more → d ∉ [s] := fun d more eq mem =>
    sign_alone sign h hinner eq (List.mem_singleton.1 mem)
  have begins : Begins (.char s) (g ++ [s] ++ (inner ++ w ++ rest)) := by
    rw [List.append_assoc]
    obtain rfl | rfl : s = '-' ∨ s = '+' := by simpa using sign
    all_goals exact (begins_char (by decide) (by decide) _).gap hgap
  have bars : ∀ s ∈ ['-', '+'], (Sight.char s).bars arrow = true ∧
      (Sight.char s).bars (privateName ++ .follows (word "in")) = true := by decide
  have operator : ∃ t, Accepts limit (fuel + 2) (mark "!" <|> mark "~" <|> markNot "-" "-" <|>
      markNot "+" "+" <|> anyWord ["typeof", "void", "delete"]) n (g ++ [s])
      (inner ++ w ++ rest) [t] := by
    obtain rfl | rfl : s = '-' ∨ s = '+' := by simpa using sign
    · exact ⟨_, .or_right (begins.refused (by decide))
        (.or_right (begins.refused (by decide))
          (.or_left (accepts_markNot hgap rfl (by decide) free)))⟩
    · exact ⟨_, .or_right (begins.refused (by decide))
        (.or_right (begins.refused (by decide))
          (.or_right (begins.refused (by decide))
            (.or_left (accepts_markNot hgap rfl (by decide) free))))⟩
  obtain ⟨t, operator⟩ := operator
  obtain ⟨all, -, unary⟩ := (Reaches.seq operator number.passes).node (k := .unary) rfl
  have text : g ++ [s] ++ (inner ++ w) = g ++ s :: (inner ++ w) := by simp
  have begins : Begins (.char s) (g ++ [s] ++ (inner ++ w) ++ rest) := by
    rwa [List.append_assoc (g ++ [s])]
  refine ⟨_, ?_, text ▸ accepts_expression closed (begins.refused (bars s sign).2)
    (.or_right (begins.refused (bars s sign).1) (.or_left unary))⟩
  rfl

theorem isName_constant {w : String} (h : w ∈ constants) : IsName w.toList := by
  have all : ∀ w ∈ constants, IsName w.toList := by
    intro w hw
    simp only [constants, List.mem_cons, List.not_mem_nil, or_false] at hw
    obtain rfl | rfl | rfl := hw <;> exact ⟨⟨_, _, rfl, by decide⟩, by decide⟩
  exact all w h

theorem valued_constant {w : String} (h : w ∈ constants) : Valued limit (fuel + 3) w.toList := by
  intro g rest n hgap closed
  have begins : Begins (.word w) (g ++ w.toList ++ rest) := by
    rw [List.append_assoc]
    exact (begins_word (isName_constant h) closed.endsName).gap hgap
  have opens : Opens (constants.map .word) (g ++ w.toList ++ rest) :=
    ⟨_, List.mem_map_of_mem h, begins⟩
  have inert : constants.map Sight.word ⊆ inertOpenings := by
    intro s hs
    simp only [inertOpenings, List.mem_append]
    exact .inl (.inr hs)
  have keyword : ∃ t, t.kind.isNamed = true ∧
      Accepts limit fuel keywordExpression n (g ++ w.toList) rest [t] := by
    have name := isName_constant h
    simp only [constants, List.mem_cons, List.not_mem_nil, or_false] at h
    obtain rfl | rfl | rfl := h
    · exact ⟨_, rfl, .or_right (begins.refused (by decide))
        (.or_right (begins.refused (by decide)) (.or_right (begins.refused (by decide))
          (.or_left (accepts_word .boolFalse rfl hgap name closed.endsName))))⟩
    · exact ⟨_, rfl, .or_right (begins.refused (by decide))
        (.or_right (begins.refused (by decide))
          (.or_left (accepts_word .boolTrue rfl hgap name closed.endsName)))⟩
    · exact ⟨_, rfl, .or_right (begins.refused (by decide))
        (.or_right (begins.refused (by decide)) (.or_right (begins.refused (by decide))
          (.or_right (begins.refused (by decide)) (.or_right (begins.refused (by decide))
            (.or_left (accepts_word .undefined rfl hgap name closed.endsName))))))⟩
  obtain ⟨t, isNamed, keyword⟩ := keyword
  refine ⟨t, isNamed, accepts_of_inert (opens.mono inert) closed ?_⟩
  have no {r : Rule} (bars : ∀ s ∈ constants.map Sight.word, s.bars r = true) :
      (running limit fuel r (behind n (g ++ w.toList ++ rest))).result = none := opens.refused bars
  exact .or_right (no (by decide)) (.or_right (no (by decide))
    (.or_right (no (by decide)) (.or_right (no (by decide))
    (.or_right (no (by decide)) (.or_right (no (by decide))
    (.or_right (no (by decide)) (.or_right (no (by decide))
    (.or_right (no (by decide)) (.or_left keyword)))))))))

/-! ### Names -/

structure IsPlainName (w : List Char) : Prop where
  name : IsName w
  plain : String.ofList w ∉ languageWords

theorem IsPlainName.begins (h : IsPlainName w) (hgap : IsGap gap) (ends : EndsName rest) :
    Begins (.name languageWords) (gap ++ (w ++ rest)) :=
  ⟨gap, w ++ rest, rfl, hgap, h.name.firm rest, w, rest, rfl, h.name, ends, h.plain⟩

theorem accepts_identifier (h : IsPlainName w) (hgap : IsGap gap) (ends : EndsName rest) :
    Accepts limit fuel identifier n (gap ++ w) rest
      [.node .identifier none (n + gap.length) (n + (gap ++ w).length) []] :=
  accepts_name rfl hgap h.name ends fun reserved =>
    h.plain (List.mem_append_left _ (List.mem_append_left _ reserved))

theorem valued_name (h : IsPlainName w) : Valued limit (fuel + 3) w := by
  intro g rest n hgap closed
  have begins : Begins (.name languageWords) (g ++ w ++ rest) := by
    rw [List.append_assoc]
    exact h.begins hgap closed.endsName
  have opens : Opens openings (g ++ w ++ rest) := ⟨_, by simp [openings], begins⟩
  have name {fuel : Nat} : Accepts limit fuel identifier n (g ++ w) rest _ :=
    accepts_identifier h hgap closed.endsName
  have noArrow : (running limit (fuel + 1) arrow (behind n (g ++ w ++ rest))).result = none := by
    rw [arrow, run_alt_of_none (begins.refused (by decide))]
    exact node_of_none (refused_seq (name.or_left (b := callHead))
      (closed.refused (by decide))) _
  exact ⟨_, rfl, accepts_of_primary opens closed noArrow
    (.or_right (begins.refused (by decide)) name.or_left)⟩

theorem accepts_emptyBlock : ∃ t, Accepts limit (fuel + 1) (.ref .block) n [' ', '\x7b', '\x7d']
    rest [t] := by
  have brace : Begins (.char '\x7d') (['\x7d'] ++ rest) := begins_char (by decide) (by decide) rest
  have opening : Accepts limit fuel (mark "\x7b") n [' ', '\x7b'] (['\x7d'] ++ rest) _ :=
    accepts_mark isGap_blank rfl (by decide)
  have closing {n : Nat} : Accepts limit fuel (mark "\x7d") n ['\x7d'] rest _ :=
    accepts_single rfl (by decide)
  have nothing := opening.before_nothing (b := .many (.ref .statement))
    (many_of_none (brace.refused (by decide)))
  obtain ⟨all, -, block⟩ := (nothing.seq closing.passes).node (k := .block) rfl
  exact ⟨_, .ref block⟩

theorem accepts_emptyHead (hgap : IsGap gap) : ∃ t, Accepts limit fuel (identifier <|> callHead) n
    (gap ++ ['(', ')']) ([' ', '=', '>'] ++ rest) [t] := by
  have opening : Accepts limit fuel (mark "(") n (gap ++ ['('])
      ([')'] ++ ([' ', '=', '>'] ++ rest)) _ := accepts_mark hgap rfl (by decide)
  have closing {n : Nat} : Accepts limit fuel (mark ")") n [')'] ([' ', '=', '>'] ++ rest) _ :=
    accepts_single rfl (by decide)
  have close : Begins (.char ')') ([')'] ++ ([' ', '=', '>'] ++ rest)) :=
    begins_char (by decide) (by decide) _
  have nothing := opening.before_nothing (b := .opt (listOf parameter ++ .opt (mark ",")))
    (opt_of_none (close.refused (by decide)))
  have list := nothing.seq closing.passes
  rw [List.append_assoc, show ['('] ++ [')'] = ['(', ')'] from rfl] at list
  obtain ⟨all, -, parameters⟩ := list.node (k := .parameters) rfl
  have paren : Begins (.char '(') (gap ++ ['(', ')'] ++ ([' ', '=', '>'] ++ rest)) := by
    rw [List.append_assoc]
    exact (begins_char (by decide) (by decide) _).gap hgap
  have equals : Begins (.char '=') ([' ', '=', '>'] ++ rest) :=
    (begins_char (by decide) (by decide) _).gap isGap_blank
  have typed := Reaches.after_nothing (a := .opt (.label .typeArguments typeParameters))
    (opt_of_none (paren.refused (by decide))) (parameters.label .parameters)
  exact ⟨_, .or_right (paren.refused (by decide)) (typed.before_nothing
    (opt_of_none (equals.refused (r := .label .returnType returnType) (by decide))))⟩

theorem valued_function : Valued limit (fuel + 3) "() => \x7b\x7d".toList := by
  intro g rest n hgap closed
  obtain ⟨h, head⟩ := @accepts_emptyHead limit (fuel + 1) n
    ([' ', '\x7b', '\x7d'] ++ rest) _ hgap
  have mark_ {n : Nat} : Accepts limit (fuel + 1) (mark "=>") n [' ', '=', '>']
      ([' ', '\x7b', '\x7d'] ++ rest) _ := accepts_mark isGap_blank rfl (by decide)
  obtain ⟨b, block⟩ := @accepts_emptyBlock limit fuel
    (n + (g ++ ['(', ')']).length + [' ', '=', '>'].length) rest
  have body := (block.or_left (b := .ref .expression)).label .body
  rw [← List.append_assoc] at head
  obtain ⟨all, -, accepted⟩ := (head.seq (mark_.seq body.passes).passes).node (k := .arrow) rfl
  have text : g ++ ['(', ')'] ++ ([' ', '=', '>'] ++ [' ', '\x7b', '\x7d']) =
      g ++ "() => \x7b\x7d".toList := by simp
  rw [text] at accepted
  have paren : Begins (.char '(') (g ++ "() => \x7b\x7d".toList ++ rest) := by
    rw [List.append_assoc]
    exact (begins_char (by decide) (by decide) _).gap hgap
  have arrow : Accepts limit (fuel + 1) arrow n (g ++ "() => \x7b\x7d".toList) rest _ :=
    .or_right (paren.refused (by decide)) accepted
  exact ⟨_, rfl, accepts_expression closed (paren.refused (by decide)) arrow.or_left⟩

theorem isName_action : IsName "action".toList := ⟨⟨_, _, rfl, by decide⟩, by decide⟩

theorem accepts_arguments (h : IsString w) (enough : 3 ≤ fuel) :
    ∃ t, t.kind = .arguments ∧
      Accepts limit fuel arguments n ('(' :: (w ++ [')'])) rest [t] := by
  obtain ⟨fuel, rfl⟩ : ∃ f, fuel = f + 3 := ⟨fuel - 3, by omega⟩
  have slots : ∀ t ∈ [Slot.item [] none w []], t.Fits Unkeyed := by
    intro t ht
    obtain rfl := List.mem_singleton.1 ht
    exact ⟨.nil, rfl, .nil⟩
  have reads : ∀ t ∈ [Slot.item [] none w []], t.Reads limit (fuel + 3)
      (List.replicate n ' ' ++ ('(' :: (w ++ [')']) ++ rest)) (.ref .expression <|> spread)
      (fun _ => ()) fun _ => () := by
    intro t ht
    refine reads_element (slots t ht) ?_
    obtain rfl := List.mem_singleton.1 ht
    rintro c eq
    obtain rfl := Option.some.inj eq
    exact valued_string h
  have place : (List.replicate n ' ' ++ ('(' :: (w ++ [')']) ++ rest)).drop n =
      [] ++ '(' :: (Slot.body (.item [] none w []) [] ++ [')']) ++ rest := by
    simp [Slot.body, Slot.text, Slot.lead, Slot.more, Slot.tail]
  obtain ⟨t, kind, -, -, accepts⟩ := accepts_brackets (k := .arguments) rfl
    (show "(".toList = ['('] from rfl) (by decide) (show ")".toList = [')'] from rfl) (by decide)
    (by decide) (by decide) reads slots (Nat.zero_le _) .nil place
  simp only [Slot.body, Slot.text, Slot.lead, Slot.more, Slot.tail, List.nil_append,
    List.append_nil] at accepts
  exact ⟨t, kind, accepts⟩

theorem valued_action (h : IsString w) (once : 1 ≤ limit) :
    Valued limit (fuel + 6) ("action".toList ++ '(' :: (w ++ [')'])) := by
  intro g rest n hgap closed
  have ends {r : List Char} : EndsName ('(' :: (w ++ [')']) ++ r) :=
    endsName_of_char (by decide) (by decide)
  have begins : Begins (.word "action") (g ++ "action".toList ++ ('(' :: (w ++ [')']) ++ rest)) := by
    rw [List.append_assoc]
    exact (begins_word isName_action ends).gap hgap
  have paren : Begins (.char '(') ('(' :: (w ++ [')']) ++ rest) :=
    begins_char (by decide) (by decide) _
  have name {fuel : Nat} : Accepts limit fuel identifier n (g ++ "action".toList)
      ('(' :: (w ++ [')']) ++ rest) _ :=
    accepts_name rfl hgap isName_action ends (by decide)
  have noTail : (running limit (fuel + 4) (mark "=>" ++ .label .body
      (.ref .block <|> .ref .expression)) (behind (n + (g ++ "action".toList).length)
      ('(' :: (w ++ [')']) ++ rest))).result = none := paren.refused (by decide)
  have noArrow : (running limit (fuel + 4) arrow (behind n (g ++ "action".toList ++
      ('(' :: (w ++ [')']) ++ rest)))).result = none := by
    rw [arrow, run_alt_of_none (begins.refused (by decide))]
    exact node_of_none (refused_seq (name.or_left (b := callHead)) noTail) _
  obtain ⟨a, kind, arguments⟩ := @accepts_arguments limit (fuel + 3)
    (n + (g ++ "action".toList).length) rest _ h (by omega)
  have plain := nothing_seq (a := .opt (markNot "?." "0123456789"))
    (b := .opt (.label .typeArguments typeArguments))
    (opt_of_none (@Begins.refused limit (fuel + 3) (n + (g ++ "action".toList).length) _ _ _ paren
      (by decide)))
    (opt_of_none (paren.refused (by decide)))
  obtain ⟨all, -, call⟩ := (Reaches.after_nothing plain (arguments.label .arguments)).node
    (k := .call) rfl
  have suffix : Accepts limit (fuel + 3) (memberSuffix <|> callSuffix) _ _ _ _ :=
    .or_right (paren.refused (by decide)) call.or_left
  have base : Accepts limit (fuel + 3) (newExpression <|> primary) n (g ++ "action".toList)
      ('(' :: (w ++ [')']) ++ rest) _ :=
    .or_right (begins.refused (by decide)) (.or_right (begins.refused (by decide))
      name.or_left)
  obtain ⟨t, kind, grown⟩ := base.grow_once [] suffix (by simp) once rfl
    fun _ => closed.refused (by decide)
  rw [← List.append_assoc] at noArrow begins
  have opens : Opens openings (g ++ "action".toList ++ '(' :: (w ++ [')']) ++ rest) :=
    ⟨.word "action", by simp [openings], begins⟩
  have operand := accepts_operand opens closed noArrow
    (grown.grow (closed.refused (by decide)))
  have expression := accepts_expression closed (begins.refused (by decide)) operand
  rw [List.append_assoc] at expression
  exact ⟨t, by rw [kind]; rfl, expression⟩

theorem accepts_array {s : Slot} {ss : List Slot} (slots : ∀ t ∈ s :: ss, t.Fits Unkeyed)
    (values : ∀ t ∈ s :: ss, ∀ c, t.core? = some c → Valued limit fuel c)
    (count : ss.length ≤ limit) (hgap : IsGap gap) :
    ∃ t, t.kind = .array ∧
      Accepts limit fuel arrayLiteral n (gap ++ '[' :: (Slot.body s ss ++ [']'])) rest [t] := by
  have reads : ∀ t ∈ s :: ss, t.Reads limit fuel (List.replicate n ' ' ++
      (gap ++ '[' :: (Slot.body s ss ++ [']']) ++ rest)) (.ref .expression <|> spread)
      (fun _ => ()) fun _ => () := fun t ht => reads_element (slots t ht) (values t ht)
  have place : (List.replicate n ' ' ++ (gap ++ '[' :: (Slot.body s ss ++ [']']) ++ rest)).drop n =
      gap ++ '[' :: (Slot.body s ss ++ [']']) ++ rest := by simp
  obtain ⟨t, kind, -, -, accepts⟩ := accepts_brackets (k := .array) rfl
    (show "[".toList = ['['] from rfl) (by decide) (show "]".toList = [']'] from rfl) (by decide)
    (by decide) (by decide) reads slots count hgap place
  exact ⟨t, kind, accepts⟩

/-- The parts of an object literal are the pairs of its slots. -/
theorem accepts_object {s : Slot} {ss : List Slot} (slots : ∀ t ∈ s :: ss, t.Fits Keyed)
    (values : ∀ t ∈ s :: ss, ∀ c, t.core? = some c → Valued limit fuel c)
    (count : ss.length ≤ limit) (hgap : IsGap gap)
    (place : source.drop n = gap ++ '\x7b' :: (Slot.body s ss ++ ['\x7d']) ++ rest) :
    ∃ t, t.kind = .object ∧ t.label? = none ∧
      t.parts.map (pairText? source) = ((s :: ss).filter Slot.isItem).map Slot.pair? ∧
      Accepts limit fuel objectLiteral n (gap ++ '\x7b' :: (Slot.body s ss ++ ['\x7d'])) rest [t] :=
  accepts_brackets rfl (show "\x7b".toList = ['\x7b'] from rfl) (by decide)
    (show "\x7d".toList = ['\x7d'] from rfl) (by decide) (by decide) (by decide)
    (fun t ht => reads_member (slots t ht) (values t ht)) slots count hgap place

/-- What stands in brackets is an expression as soon as it is a primary one. -/
theorem accepts_bracketed {o : Char} {inside : List Char} {t : Tree}
    (inert : Sight.char o ∈ inertOpenings) (proper : Lexeme.isGap o = false ∧ o ≠ '/')
    (accepted : Accepts limit fuel primary n (gap ++ o :: inside) rest [t])
    (hgap : IsGap gap) (closed : Closed closers rest) :
    Accepts limit (fuel + 3) (.ref .expression) n (gap ++ o :: inside) rest [t] := by
  have begins : Begins (.char o) (gap ++ o :: inside ++ rest) := by
    rw [List.append_assoc]
    exact (begins_char proper.1 proper.2 _).gap hgap
  exact accepts_of_inert ⟨_, inert, begins⟩ closed accepted

theorem accepts_primary_array {text : List Char} {ts : List Tree}
    (begins : Begins (.char '[') (text ++ rest)) (h : Accepts limit fuel arrayLiteral n text rest ts) :
    Accepts limit fuel primary n text rest ts :=
  .or_right (begins.refused (by decide)) (.or_right (begins.refused (by decide))
    (.or_right (begins.refused (by decide)) (.or_right (begins.refused (by decide))
      (.or_right (begins.refused (by decide)) (.or_right (begins.refused (by decide))
        h.or_left)))))

theorem accepts_primary_object {text : List Char} {ts : List Tree}
    (begins : Begins (.char '\x7b') (text ++ rest))
    (h : Accepts limit fuel objectLiteral n text rest ts) :
    Accepts limit fuel primary n text rest ts :=
  .or_right (begins.refused (by decide)) (.or_right (begins.refused (by decide))
    (.or_right (begins.refused (by decide)) (.or_right (begins.refused (by decide))
      (.or_right (begins.refused (by decide)) h.or_left))))

end

/-- An expression wherever one may end, with the fuel that a parse has for its characters. -/
def Standalone (text : List Char) : Prop :=
  ∀ ⦃limit fuel : Nat⦄, nestingPerCharacter * text.length ≤ fuel → text.length ≤ limit →
    Valued limit fuel text

/-- What is enough for brackets is enough for what stands in them, three levels deeper. -/
theorem inside_brackets {limit fuel : Nat} {s : Slot} {ss : List Slot} {o c : Char}
    (enough : nestingPerCharacter * (o :: (Slot.body s ss ++ [c])).length ≤ fuel)
    (room : (o :: (Slot.body s ss ++ [c])).length ≤ limit)
    (values : ∀ t ∈ s :: ss, ∀ d, t.core? = some d → Standalone d) :
    ∃ inner, fuel = inner + 3 ∧ ss.length ≤ limit ∧ ∀ t ∈ s :: ss, ∀ d, t.core? = some d →
      Valued limit inner d := by
  have count := Slot.count_le_body s ss
  simp only [nestingPerCharacter, List.length_cons, List.length_append, List.length_nil] at enough room
  refine ⟨fuel - 3, by omega, by omega, fun t ht d core => ?_⟩
  have := Slot.length_core_le core
  have := Slot.length_le_body ht
  exact values t ht d core (by rw [nestingPerCharacter]; omega) (by omega)

/-- An object literal wherever an expression may end, with these pairs as its parts. -/
def IsObject (text : List Char) (pairs : List (Option (List Char × List Char))) : Prop :=
  ∀ ⦃limit fuel : Nat⦄, nestingPerCharacter * text.length ≤ fuel → text.length ≤ limit →
    ∀ {source g rest : List Char} {n : Nat}, IsGap g → Closed closers rest →
      source.drop n = g ++ text ++ rest →
        ∃ t, t.kind = .object ∧ t.parts.map (pairText? source) = pairs ∧
          Accepts limit fuel (.ref .expression) n (g ++ text) rest [t]

theorem IsObject.standalone {text : List Char} {pairs : List (Option (List Char × List Char))}
    (h : IsObject text pairs) : Standalone text := by
  intro limit fuel enough room g rest n hgap closed
  obtain ⟨t, kind, -, accepted⟩ := @h _ _ enough room
    (List.replicate n ' ' ++ (g ++ text ++ rest)) _ _ n hgap closed (by simp)
  exact ⟨t, by rw [kind]; rfl, accepted⟩

theorem standalone_array {s : Slot} {ss : List Slot} (slots : ∀ t ∈ s :: ss, t.Fits Unkeyed)
    (values : ∀ t ∈ s :: ss, ∀ c, t.core? = some c → Standalone c) :
    Standalone ('[' :: (Slot.body s ss ++ [']'])) := by
  intro limit fuel enough room g rest n hgap closed
  obtain ⟨fuel, rfl, count, inside⟩ := inside_brackets enough room values
  obtain ⟨t, kind, accepts⟩ := accepts_array slots inside count hgap
  have bracket : Begins (.char '[') (g ++ '[' :: (Slot.body s ss ++ [']']) ++ rest) := by
    rw [List.append_assoc]
    exact (begins_char (by decide) (by decide) _).gap hgap
  exact ⟨t, by rw [kind]; rfl, accepts_bracketed (by simp [inertOpenings]) (by decide)
    (accepts_primary_array bracket accepts) hgap closed⟩

theorem isObject_slots {s : Slot} {ss : List Slot} (slots : ∀ t ∈ s :: ss, t.Fits Keyed)
    (values : ∀ t ∈ s :: ss, ∀ c, t.core? = some c → Standalone c) :
    IsObject ('\x7b' :: (Slot.body s ss ++ ['\x7d']))
      (((s :: ss).filter Slot.isItem).map Slot.pair?) := by
  intro limit fuel enough room source g rest n hgap closed place
  obtain ⟨fuel, rfl, count, inside⟩ := inside_brackets enough room values
  obtain ⟨t, kind, -, pairs, accepts⟩ := accepts_object slots inside count hgap place
  have brace : Begins (.char '\x7b') (g ++ '\x7b' :: (Slot.body s ss ++ ['\x7d']) ++ rest) := by
    rw [List.append_assoc]
    exact (begins_char (by decide) (by decide) _).gap hgap
  exact ⟨t, kind, pairs, accepts_bracketed (by simp [inertOpenings]) (by decide)
    (accepts_primary_object brace accepts) hgap closed⟩

theorem IsPlainName.standalone {w : List Char} (h : IsPlainName w) : Standalone w := by
  intro limit fuel enough room
  rw [nestingPerCharacter] at enough
  have := List.length_pos_iff.2 h.name.ne_nil
  obtain ⟨fuel, rfl⟩ : ∃ f, fuel = f + 3 := ⟨fuel - 3, by omega⟩
  exact valued_name h

theorem IsValue.standalone {text : List Char} (h : IsValue text) : Standalone text := by
  induction h with
  | @string w h =>
      intro limit fuel enough room
      rw [nestingPerCharacter] at enough
      have := List.length_pos_iff.2 h.ne_nil
      obtain ⟨fuel, rfl⟩ : ∃ f, fuel = f + 3 := ⟨fuel - 3, by omega⟩
      exact valued_string h
  | @number w h =>
      intro limit fuel enough room
      rw [nestingPerCharacter] at enough
      have := List.length_pos_iff.2 h.ne_nil
      obtain ⟨fuel, rfl⟩ : ∃ f, fuel = f + 3 := ⟨fuel - 3, by omega⟩
      exact valued_number h
  | @signed s g w sign gap h =>
      intro limit fuel enough room
      rw [nestingPerCharacter] at enough
      have := List.length_pos_iff.2 h.ne_nil
      rw [List.length_cons, List.length_append] at enough
      obtain ⟨fuel, rfl⟩ : ∃ f, fuel = f + 4 := ⟨fuel - 4, by omega⟩
      exact valued_signed sign gap h
  | @constant w h =>
      intro limit fuel enough room
      rw [nestingPerCharacter] at enough
      have := List.length_pos_iff.2 (isName_constant h).ne_nil
      obtain ⟨fuel, rfl⟩ : ∃ f, fuel = f + 3 := ⟨fuel - 3, by omega⟩
      exact valued_constant h
  | function =>
      intro limit fuel enough room
      have : 16 * 8 ≤ fuel := enough
      obtain ⟨fuel, rfl⟩ : ∃ f, fuel = f + 3 := ⟨fuel - 3, by omega⟩
      exact valued_function
  | @action w h =>
      intro limit fuel enough room
      have six : "action".toList.length = 6 := rfl
      rw [List.length_append, List.length_cons, six] at enough room
      rw [nestingPerCharacter] at enough
      obtain ⟨fuel, rfl⟩ : ∃ f, fuel = f + 6 := ⟨fuel - 6, by omega⟩
      exact valued_action h (by omega)
  | array slots _ ih => exact standalone_array slots ih
  | object slots _ ih => exact (isObject_slots slots ih).standalone

end PropStories.Tsx
