import PropStories.Tsx.Parse

/-!
# What a rule refuses

Whether a rule can begin at a cursor shows, for most rules, in the next token alone. What is known
of that token is a sight; a check over the rules, which follows references to a bounded depth,
finds the rules that no text with this sight begins. Main statement: a rule that is refused gives
nothing, however much may be read.
-/

namespace PropStories.Tsx

inductive Sight where
  /-- It begins with this character, which begins no name. -/
  | char (c : Char)
  /-- It begins with this word, after which no name goes on. -/
  | word (w : String)
  /-- It begins with a whole name that is none of these words. -/
  | name (others : List String)
  /-- It is empty. -/
  | nothing

/-! ## Names in a text -/

def EndsName (cs : List Char) : Prop := Lexeme.nameLetter? Lexeme.isNamePart cs = none

structure IsName (w : List Char) : Prop where
  start : ∃ c cs, w = c :: cs ∧ Lexeme.isNameStart c = true
  parts : ∀ c ∈ w, Lexeme.isNamePart c = true

theorem endsName_of_char {c : Char} {cs : List Char} (h : Lexeme.isNamePart c = false)
    (plain : c ≠ '\\') : EndsName (c :: cs) := by
  unfold EndsName Lexeme.nameLetter?
  split
  · simp_all
  · simp_all
  · rfl

theorem nameLetter?_cons {p : Char → Bool} {c : Char} {cs : List Char} (hp : p c = true)
    (part : Lexeme.isNamePart c = true) : Lexeme.nameLetter? p (c :: cs) = some 1 := by
  unfold Lexeme.nameLetter?
  split
  · rename_i eq
    obtain ⟨rfl, -⟩ := List.cons.inj eq
    exact absurd part (by decide)
  · rename_i eq
    obtain ⟨rfl, rfl⟩ := List.cons.inj eq
    simp [hp]
  · contradiction

theorem not_endsName {c : Char} {cs : List Char} (h : Lexeme.isNamePart c = true) :
    ¬ EndsName (c :: cs) := by
  rw [EndsName, nameLetter?_cons h h]
  nofun

/-- Two names with which a text begins, and which end there, are the same. -/
theorem name_unique {v w rest more : List Char} (hv : ∀ c ∈ v, Lexeme.isNamePart c = true)
    (hw : ∀ c ∈ w, Lexeme.isNamePart c = true) (rests : EndsName rest) (mores : EndsName more)
    (h : v ++ rest = w ++ more) : v = w := by
  induction v generalizing w with
  | nil =>
      cases w with
      | nil => rfl
      | cons d w =>
          rw [List.nil_append] at h
          subst h
          exact absurd rests (not_endsName (hw d List.mem_cons_self))
  | cons c v ih =>
      cases w with
      | nil =>
          rw [List.nil_append] at h
          subst h
          exact absurd mores (not_endsName (hv c List.mem_cons_self))
      | cons d w =>
          rw [List.cons_append, List.cons_append] at h
          obtain ⟨rfl, same⟩ := List.cons.inj h
          rw [ih (fun x hx => hv x (List.mem_cons_of_mem _ hx))
            (fun x hx => hw x (List.mem_cons_of_mem _ hx)) same]

theorem nameTail_append {w more : List Char} (hw : ∀ c ∈ w, Lexeme.isNamePart c = true)
    (ends : EndsName more) : Lexeme.nameTail 0 (w ++ more) = w.length := by
  induction w with
  | nil =>
      cases more with
      | nil => rfl
      | cons c more =>
          rw [List.nil_append, Lexeme.nameTail, ends]
          rfl
  | cons c w ih =>
      have part := hw c List.mem_cons_self
      rw [List.cons_append, Lexeme.nameTail, nameLetter?_cons part part]
      simp only [Nat.sub_self, List.length_cons]
      rw [ih fun x hx => hw x (List.mem_cons_of_mem _ hx)]

theorem isNamePart_of_isNameStart {c : Char} (h : Lexeme.isNameStart c = true) :
    Lexeme.isNamePart c = true := by
  rw [Lexeme.isNameStart, Bool.and_eq_true] at h
  exact h.1

theorem name?_append {w more : List Char} (hw : IsName w) (ends : EndsName more) :
    Lexeme.name? (w ++ more) = some w.length := by
  obtain ⟨c, cs, rfl, start⟩ := hw.start
  have part := isNamePart_of_isNameStart start
  rw [List.cons_append, Lexeme.name?, nameLetter?_cons start part]
  simp only [Option.map_some, List.length_cons]
  rw [Lexeme.nameTail, nameTail_append (fun x hx => hw.parts x (List.mem_cons_of_mem _ hx)) ends]

/-! ## Terminals -/

namespace Sight

def Shows : Sight → List Char → Prop
  | char c, cs => ∃ rest, cs = c :: rest
  | word w, cs => ∃ more, cs = w.toList ++ more ∧ IsName w.toList ∧ EndsName more
  | name others, cs =>
      ∃ w more, cs = w ++ more ∧ IsName w ∧ EndsName more ∧ String.ofList w ∉ others
  | nothing, cs => cs = []

def charMisses (c : Char) : Terminal → Bool
  | .word v => v.toList.head? != some c && !v.toList.isEmpty
  | .mark m _ => m.toList.head? != some c && !m.toList.isEmpty
  | .ternaryMark => c != '?'
  | .name _ => !Lexeme.isNameStart c && c != '\\'
  | .privateName | .hashBang => c != '#'
  | .jsxName => !Lexeme.isDashedPart c && !Lexeme.isNameStart c && c != '\\'
  | .number => !c.isDigit && c != '.'
  | .string | .jsxString => c != '\x27' && c != '\x22'
  | .regex => c != '/'
  | .entity => c != '&'
  | .markupComment => c != '<'
  | .endOfInput => true
  | .templateText | .jsxText | .ending _ => false

def isOutsideNames (m : String) : Bool :=
  match m.toList with
  | [] => false
  | c :: _ => !Lexeme.isNamePart c

def misses : Sight → Terminal → Bool
  | char c, t => charMisses c t
  | word w, .word v => v != w && v.toList.all Lexeme.isNamePart
  | word w, .name reserved => reserved.contains w
  | name others, .word v => others.contains v && v.toList.all Lexeme.isNamePart
  | word _, .mark m _ | name _, .mark m _ => isOutsideNames m
  | word _, t | name _, t =>
      match t with
      | .ternaryMark | .privateName | .hashBang | .number | .string | .jsxString | .regex
      | .entity | .markupComment | .endOfInput => true
      | _ => false
  | nothing, t =>
      match t with
      | .word v => !v.toList.isEmpty
      | .mark m _ => !m.toList.isEmpty
      | .templateText | .jsxText | .ending _ | .endOfInput => false
      | _ => true

theorem afterStart?_of_head {v : List Char} {c : Char} {rest : List Char}
    (h : (v.head? != some c && !v.isEmpty) = true) : Text.afterStart? v (c :: rest) = none := by
  cases v with
  | nil => simp at h
  | cons d v =>
      have different : d ≠ c := by simpa using h
      simp [Text.afterStart?, different]

theorem name?_of_char {c : Char} {rest : List Char} (h : Lexeme.isNameStart c = false)
    (plain : c ≠ '\\') : Lexeme.name? (c :: rest) = none := by
  have letter : Lexeme.nameLetter? Lexeme.isNameStart (c :: rest) = none := by
    unfold Lexeme.nameLetter?
    split <;> simp_all
  rw [Lexeme.name?, letter]
  rfl

theorem number?_of_char {c : Char} {rest : List Char} (digit : c.isDigit = false)
    (dot : c ≠ '.') : Lexeme.number? (c :: rest) = none := by
  have radix (letter : Char) (p : Char → Bool) :
      Lexeme.radixNumber? letter p (c :: rest) = none := by
    unfold Lexeme.radixNumber?
    split
    · rename_i eq
      obtain ⟨rfl, -⟩ := List.cons.inj eq
      exact absurd digit (by decide)
    · rfl
  have decimal : Lexeme.decimal? (c :: rest) = none := by
    simp only [Lexeme.decimal?, Lexeme.digitRun, digit, Bool.false_eq_true, if_false,
      List.drop_zero]
    split
    · rename_i eq
      exact absurd (List.cons.inj eq).1 dot
    · rfl
  simp [Lexeme.number?, radix, decimal]

theorem find_of_charMisses {c : Char} {cursor : Cursor} {rest : List Char}
    (ahead : cursor.ahead = c :: rest) {t : Terminal} (h : charMisses c t = true) :
    cursor.find t = .nothing := by
  cases t <;> simp only [charMisses, Bool.false_eq_true] at h <;>
    simp only [Cursor.find, ahead]
  case word v => rw [Lexeme.word?, afterStart?_of_head h]; rfl
  case mark m stops => rw [Lexeme.mark?, afterStart?_of_head h]; rfl
  case ternaryMark => split <;> simp_all
  case name reserved =>
    rw [Bool.and_eq_true, Bool.not_eq_true', bne_iff_ne] at h
    rw [Lexeme.nameExcept?, name?_of_char h.1 h.2]
    rfl
  case privateName =>
    have : c ≠ '#' := by simpa using h
    simp [Lexeme.privateName?, this, Cursor.ofLength?]
  case jsxName =>
    simp only [Bool.and_eq_true, Bool.not_eq_true', bne_iff_ne] at h
    simp [Lexeme.jsxName?, h.1.1, name?_of_char h.1.2 h.2, Cursor.ofLength?]
  case number =>
    rw [Bool.and_eq_true, Bool.not_eq_true', bne_iff_ne] at h
    rw [number?_of_char h.1 h.2]
    rfl
  case string =>
    have : ¬ (c = '\x27' ∨ c = '\x22') := by simpa using h
    simp [Lexeme.string?, this, Cursor.ofLength?]
  case regex =>
    have : c ≠ '/' := by simpa using h
    simp [Lexeme.regex?, this, Cursor.ofLength?]
  case jsxString =>
    have : ¬ (c = '\x27' ∨ c = '\x22') := by simpa using h
    simp [Lexeme.jsxString?, this, Cursor.ofLength?]
  case entity =>
    have : c ≠ '&' := by simpa using h
    simp [Lexeme.entity?, this]
  case markupComment =>
    have : c ≠ '<' := by simpa using h
    rw [Lexeme.markupComment?, afterStart?_of_head (by simpa using this.symm)]
    rfl
  case hashBang =>
    have : c ≠ '#' := by simpa using h
    simp [Lexeme.hashBang?, this, Cursor.ofLength?]
  case endOfInput => rfl

theorem charMisses_of_start {c : Char} (h : Lexeme.isNameStart c = true) :
    c.isDigit = false ∧ ∀ d, Lexeme.isNamePart d = false → c ≠ d := by
  refine ⟨?_, fun d hd eq => ?_⟩
  · rw [Lexeme.isNameStart, Bool.and_eq_true, Bool.not_eq_true'] at h
    exact h.2
  · rw [eq, Lexeme.isNameStart, hd] at h
    contradiction

theorem find_of_misses_name {w more : List Char} (hw : IsName w) {cursor : Cursor}
    (ahead : cursor.ahead = w ++ more) {t : Terminal}
    (h : (match t with
      | .mark m _ => isOutsideNames m
      | .ternaryMark | .privateName | .hashBang | .number | .string | .jsxString | .regex
      | .entity | .markupComment | .endOfInput => true
      | _ => false) = true) : cursor.find t = .nothing := by
  obtain ⟨c, cs, rfl, start⟩ := hw.start
  obtain ⟨digit, ne⟩ := charMisses_of_start start
  refine find_of_charMisses ahead ?_
  cases t <;> simp only [Bool.false_eq_true] at h <;> simp only [charMisses]
  case mark m stops =>
    unfold isOutsideNames at h
    split at h
    · contradiction
    · rename_i d ds eq
      have := (ne d (by simpa using h)).symm
      simp [eq, this]
  case number => simp [digit, ne '.' (by decide)]
  case string | jsxString => simp [ne '\x27' (by decide), ne '\x22' (by decide)]
  case regex => simp [ne '/' (by decide)]
  case ternaryMark => simp [ne '?' (by decide)]
  case privateName | hashBang => simp [ne '#' (by decide)]
  case entity => simp [ne '&' (by decide)]
  case markupComment => simp [ne '<' (by decide)]

theorem word?_of_ne {v : String} {w more : List Char} (hw : IsName w) (ends : EndsName more)
    (parts : v.toList.all Lexeme.isNamePart = true) (ne : v.toList ≠ w) :
    Lexeme.word? v (w ++ more) = none := by
  unfold Lexeme.word?
  split
  · rfl
  · rename_i rest found
    split
    · rfl
    · rename_i ends'
      rw [Text.afterStart?_eq_some_iff] at found
      have ends' : EndsName rest := by simpa [EndsName] using ends'
      exact absurd (name_unique (List.all_eq_true.1 parts) hw.parts ends' ends found.symm) ne

theorem find_of_misses {s : Sight} {cursor : Cursor} (shows : s.Shows cursor.ahead)
    {t : Terminal} (h : s.misses t = true) : cursor.find t = .nothing := by
  cases s with
  | char c =>
      obtain ⟨rest, ahead⟩ := shows
      exact find_of_charMisses ahead h
  | word w =>
      obtain ⟨more, ahead, hw, ends⟩ := shows
      cases t
      case word v =>
        rw [misses, Bool.and_eq_true, bne_iff_ne] at h
        rw [Cursor.find, ahead, word?_of_ne hw ends h.2 fun eq => h.1 (String.toList_inj.1 eq)]
        rfl
      case name reserved =>
        rw [misses] at h
        rw [Cursor.find, ahead, Lexeme.nameExcept?, name?_append hw ends]
        simp only [List.take_left, String.ofList_toList, h, if_true]
        rfl
      all_goals exact find_of_misses_name hw ahead h
  | name others =>
      obtain ⟨w, more, ahead, hw, ends, notIn⟩ := shows
      cases t
      case word v =>
        rw [misses, Bool.and_eq_true] at h
        have ne : v.toList ≠ w := by
          rintro rfl
          exact notIn (by simpa using h.1)
        rw [Cursor.find, ahead, word?_of_ne hw ends h.2 ne]
        rfl
      all_goals exact find_of_misses_name hw ahead h
  | nothing =>
      have ahead : cursor.ahead = [] := shows
      cases t <;> simp only [misses, Bool.false_eq_true] at h <;> simp only [Cursor.find, ahead]
      case word v =>
        cases eq : v.toList with
        | nil => simp [eq] at h
        | cons => rw [Lexeme.word?, eq]; rfl
      case mark m stops =>
        cases eq : m.toList with
        | nil => simp [eq] at h
        | cons => rw [Lexeme.mark?, eq]; rfl
      case hashBang => split <;> rfl
      all_goals rfl

end Sight

/-! ## Rules -/

/-- Without repairs, nothing is read where nothing is found. -/
theorem read_of_misses {s : Sight} {c : Cursor} (clean : c.repairs = [])
    (shows : s.Shows c.ahead) {t : Terminal} (h : s.misses t = true) : c.read t = .nothing := by
  rw [Cursor.read, Sight.find_of_misses shows h]
  simp [Cursor.supplies, clean]

namespace Rule

mutual

/-- Whether the rule gives nothing at a sight, if the nonterminals `refs` give nothing. -/
def refuses (s : Sight) (refs : Nonterminal → Bool) : Rule → Bool
  | token t _ => s.misses t
  | ref n => refs n
  | seq a b => a.refuses s refs || (a.idles s refs && b.refuses s refs)
  | alt a b => a.refuses s refs && b.refuses s refs
  | follows a | node _ a | label _ a | grow a _ _ => a.refuses s refs
  | empty | sameLine | opt _ | many _ | without _ => false

/-- Whether the rule reads nothing at a sight: it gives nothing, or no trees at the same place. -/
def idles (s : Sight) (refs : Nonterminal → Bool) : Rule → Bool
  | empty | sameLine | follows _ | without _ => true
  | opt a | many a | label _ a => a.idles s refs
  | seq a b | alt a b => a.idles s refs && b.idles s refs
  | token t _ => s.misses t
  | ref n => refs n
  | node _ a | grow a _ _ => a.refuses s refs

end

variable {limit : Nat} {rec : Nonterminal → Cursor → Outcome} {s : Sight}
  {refs : Nonterminal → Bool} {c : Cursor}

def Idle (c : Cursor) (o : Outcome) : Prop := o.result = none ∨ o.result = some ([], c)

theorem refuses_idles (clean : c.repairs = []) (shows : s.Shows c.ahead)
    (hrec : ∀ n, refs n = true → (rec n c).result = none) (r : Rule) :
    (r.refuses s refs = true → (run limit rec r c).result = none) ∧
      (r.idles s refs = true → Idle c (run limit rec r c)) := by
  induction r with
  | empty => exact ⟨nofun, fun _ => .inr rfl⟩
  | sameLine =>
      refine ⟨nofun, fun _ => ?_⟩
      rw [run]
      split
      · exact .inl rfl
      · exact .inr rfl
  | token t k =>
      have none (h : s.misses t = true) : (run limit rec (token t k) c).result = none := by
        rw [run, read_of_misses clean shows h]
        rfl
      exact ⟨none, fun h => .inl (none h)⟩
  | ref n => exact ⟨hrec n, fun h => .inl (hrec n h)⟩
  | seq a b iha ihb =>
      constructor
      · intro h
        rw [refuses, Bool.or_eq_true, Bool.and_eq_true] at h
        rw [run]
        rcases h with ha | ⟨ha, hb⟩
        · simp only [iha.1 ha]
        · rcases iha.2 ha with none | stay
          · simp only [none]
          · simp [stay, ihb.1 hb, Outcome.mapTrees, Outcome.reaching]
      · intro h
        rw [idles, Bool.and_eq_true] at h
        rw [run]
        rcases iha.2 h.1 with none | stay
        · simp only [none]
          exact .inl none
        · rcases ihb.2 h.2 with none | stay'
          · simp [stay, none, Outcome.mapTrees, Outcome.reaching, Idle]
          · simp [stay, stay', Outcome.mapTrees, Outcome.reaching, Idle]
  | alt a b iha ihb =>
      constructor
      · intro h
        rw [refuses, Bool.and_eq_true] at h
        rw [run]
        simp only [iha.1 h.1]
        exact ihb.1 h.2
      · intro h
        rw [idles, Bool.and_eq_true] at h
        rw [run]
        rcases iha.2 h.1 with none | stay
        · simp only [none]
          exact ihb.2 h.2
        · simp only [stay]
          exact .inr stay
  | opt a ih =>
      refine ⟨nofun, fun h => ?_⟩
      rw [run]
      rcases ih.2 h with none | stay
      · simp only [none]
        exact .inr rfl
      · simp only [stay]
        exact .inr stay
  | many a ih =>
      refine ⟨nofun, fun h => ?_⟩
      rw [run]
      cases limit with
      | zero => exact .inr rfl
      | succ limit =>
          rw [repeated]
          rcases ih.2 h with none | stay
          · simp only [none]
            exact .inr rfl
          · simp only [stay, Nat.lt_irrefl, if_false]
            exact .inr rfl
  | follows a ih =>
      refine ⟨fun h => ?_, fun _ => ?_⟩ <;> rw [run]
      · simp [ih.1 h, Outcome.failure]
      · split
        · exact .inr rfl
        · exact .inl rfl
  | without a =>
      refine ⟨nofun, fun _ => ?_⟩
      rw [run]
      split
      · exact .inl rfl
      · exact .inr rfl
  | node k a ih =>
      have none (h : a.refuses s refs = true) : (run limit rec (node k a) c).result = none := by
        rw [run, Outcome.mapTrees, ih.1 h]
        rfl
      exact ⟨none, fun h => .inl (none h)⟩
  | label l a ih =>
      refine ⟨fun h => ?_, fun h => ?_⟩ <;> rw [run, Outcome.mapTrees]
      · rw [ih.1 h]
        rfl
      · rcases ih.2 h with none | stay
        · exact .inl (by rw [none]; rfl)
        · exact .inr (by rw [stay]; rfl)
  | grow base heads suffix ih =>
      have none (h : base.refuses s refs = true) :
          (run limit rec (grow base heads suffix) c).result = none := by
        rw [run]
        simp only [ih.1 h]
      exact ⟨none, fun h => .inl (none h)⟩

def refused (s : Sight) : Nat → Nonterminal → Bool
  | 0, _ => false
  | depth + 1, n => (grammar n).refuses s (refused s depth)

theorem read_of_refused (clean : c.repairs = []) (shows : s.Shows c.ahead) {depth : Nat}
    {n : Nonterminal} (h : refused s depth n = true) (fuel : Nat) :
    (read grammar limit fuel n c).result = none := by
  induction depth generalizing n fuel with
  | zero => contradiction
  | succ depth ih =>
      cases fuel with
      | zero => rfl
      | succ fuel =>
          rw [read]
          exact (refuses_idles clean shows (fun m hm => ih hm fuel) (grammar n)).1 h

end Rule

def Refuses (r : Rule) (c : Cursor) : Prop :=
  ∀ limit fuel, (Rule.run limit (Rule.read grammar limit fuel) r c).result = none

def sightDepth : Nat := 8

section

variable {c : Cursor} {s : Sight} {r : Rule}

theorem refuses_of_sight (clean : c.repairs = []) (shows : s.Shows c.ahead)
    (h : r.refuses s (Rule.refused s sightDepth) = true) : Refuses r c := fun _ fuel =>
  (Rule.refuses_idles clean shows (fun _ hn => Rule.read_of_refused clean shows hn fuel) r).1 h

end

end PropStories.Tsx
