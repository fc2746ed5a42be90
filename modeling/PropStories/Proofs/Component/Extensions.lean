import PropStories.Config.Project
import PropStories.Proofs.Story.Pairing

/-!
# Files that the configured extensions select

A file name carries an extension if it is a stem with the extension behind it. Both tests of a file
look only at what follows its last dot. Main statement: they agree, and they select the files that
carry an extension just if for each extension its part from the last dot on is configured too; an
extension with several dots otherwise selects nothing.
-/

namespace PropStories

/-! ## ASCII case -/

namespace Text

variable {a b : List Char} {c d : Char}

theorem toLower_eq_iff (small : d.toNat < 'A'.toNat) : c.toLower = d ↔ c = d := by
  constructor
  · intro eq
    obtain same | letter := toLower_cases c
    · rw [← same, eq]
    · rw [eq] at letter
      exact absurd (Nat.lt_of_lt_of_le small (by decide)) (Nat.not_lt.2 letter)
  · rintro rfl
    exact dif_neg fun capital =>
      Nat.not_lt.2 (UInt32.le_iff_toNat_le.1 capital.1) small

theorem sameIgnoringCase_iff : sameIgnoringCase a b = true ↔ asciiLower a = asciiLower b :=
  beq_iff_eq

theorem sameIgnoringCase_refl (a : List Char) : sameIgnoringCase a a = true :=
  sameIgnoringCase_iff.2 rfl

theorem sameIgnoringCase_symm (same : sameIgnoringCase a b = true) :
    sameIgnoringCase b a = true :=
  sameIgnoringCase_iff.2 (sameIgnoringCase_iff.1 same).symm

theorem mem_asciiLower (small : d.toNat < 'A'.toNat) : d ∈ asciiLower a ↔ d ∈ a := by
  rw [asciiLower, List.mem_map]
  constructor
  · rintro ⟨c, member, eq⟩
    rwa [← (toLower_eq_iff small).1 eq]
  · exact fun member => ⟨d, member, (toLower_eq_iff small).2 rfl⟩

theorem mem_of_same (same : sameIgnoringCase a b = true) (small : d.toNat < 'A'.toNat) :
    d ∈ a ↔ d ∈ b := by
  rw [← mem_asciiLower small, sameIgnoringCase_iff.1 same, mem_asciiLower small]

theorem sameIgnoringCase_cons : sameIgnoringCase ('.' :: a) ('.' :: b) = sameIgnoringCase a b := by
  rw [Bool.eq_iff_iff, sameIgnoringCase_iff, sameIgnoringCase_iff, asciiLower, asciiLower,
    List.map_cons, List.map_cons, List.cons.injEq]
  exact and_iff_right rfl

theorem exists_of_same_dot (same : sameIgnoringCase a ('.' :: b) = true) :
    ∃ e, a = '.' :: e ∧ sameIgnoringCase e b = true := by
  cases a with
  | nil => cases same
  | cons c e =>
      have eq := sameIgnoringCase_iff.1 same
      rw [asciiLower, asciiLower, List.map_cons, List.map_cons, List.cons.injEq] at eq
      obtain rfl : c = '.' := (toLower_eq_iff (by decide)).1 eq.1
      exact ⟨e, rfl, sameIgnoringCase_iff.2 eq.2⟩

end Text

/-! ## The last dot -/

namespace Path

variable {cs e front : List Char}

def behindLastDot (cs : List Char) : List Char := (cs.reverse.takeWhile (· != '.')).reverse

theorem takeWhile_reverse (h : '.' ∉ e) (more : List Char) :
    (e.reverse ++ more).takeWhile (· != '.') = e.reverse ++ more.takeWhile (· != '.') :=
  List.takeWhile_append_of_pos fun c hc => by
    rw [bne, Text.beq_of_notMem h c (List.mem_reverse.1 hc), Bool.not_false]

theorem behindLastDot_append (h : '.' ∉ e) : behindLastDot (front ++ '.' :: e) = e := by
  rw [behindLastDot, List.reverse_append, List.reverse_cons, List.append_assoc,
    takeWhile_reverse h]
  simp

theorem behindLastDot_of_no_dot (h : '.' ∉ cs) : behindLastDot cs = cs := by
  rw [behindLastDot, ← List.append_nil cs.reverse, takeWhile_reverse h]
  simp

theorem dot_notMem_behindLastDot (cs : List Char) : '.' ∉ behindLastDot cs := by
  intro member
  have other := List.all_takeWhile (l := cs.reverse) (p := (· != '.'))
  rw [List.all_eq_true] at other
  exact absurd (other '.' (List.mem_reverse.1 member)) (by decide)

theorem exists_front (h : '.' ∈ cs) : ∃ front, cs = front ++ '.' :: behindLastDot cs := by
  obtain ⟨e, back, reversed, plain⟩ := List.eq_append_cons_of_mem (List.mem_reverse.2 h)
  have eq : cs = back.reverse ++ '.' :: e.reverse := by
    rw [← List.reverse_reverse cs, reversed, List.reverse_append, List.reverse_cons,
      List.append_assoc, List.singleton_append]
  have last : behindLastDot cs = e.reverse := by
    rw [eq, behindLastDot_append (by simpa using plain)]
  exact ⟨back.reverse, by rw [last, ← eq]⟩

theorem behindLastDot_same {a b : List Char} (same : Text.sameIgnoringCase a b = true) :
    Text.sameIgnoringCase (behindLastDot a) (behindLastDot b) = true := by
  have lower (cs : List Char) :
      Text.asciiLower (behindLastDot cs) = behindLastDot (Text.asciiLower cs) := by
    have dots : ((· != '.') ∘ Char.toLower : Char → Bool) = (· != '.') := by
      funext c
      simp only [Function.comp_apply, bne, Text.toLower_eq_iff (show '.'.toNat < 'A'.toNat by decide),
        Bool.beq_eq_decide_eq]
    rw [behindLastDot, behindLastDot, Text.asciiLower, Text.asciiLower, List.map_reverse,
      ← List.map_reverse (l := cs), List.takeWhile_map, dots]
  rw [Text.sameIgnoringCase_iff, lower, lower, Text.sameIgnoringCase_iff.1 same]

theorem splitName_snd {n : List Char} : (splitName n).2 = some e ↔
    ∃ stem, stem ≠ [] ∧ n = stem ++ '.' :: e ∧ '.' ∉ e := by
  have text (stem e : List Char) :
      (stem ++ '.' :: e).take ((stem ++ '.' :: e).length - e.length - 1) = stem := by
    rw [List.length_append, List.length_cons, show stem.length + (e.length + 1) - e.length - 1 =
      stem.length by omega, List.take_left]
  have unfolded : (splitName n).2 =
      if (n.take (n.length - (behindLastDot n).length - 1)).isEmpty ||
        (behindLastDot n).length == n.length then none else some (behindLastDot n) := by
    unfold splitName behindLastDot
    simp only
    split <;> rfl
  rw [unfolded]
  constructor
  · intro h
    split at h
    next => cases h
    next proper =>
      cases h
      rw [Bool.or_eq_true, not_or, List.isEmpty_iff, beq_iff_eq] at proper
      have dotted : '.' ∈ n := by
        by_cases dot : '.' ∈ n
        · exact dot
        · exact absurd (by rw [behindLastDot_of_no_dot dot]) proper.2
      obtain ⟨stem, eq⟩ := exists_front dotted
      refine ⟨stem, ?_, eq, dot_notMem_behindLastDot n⟩
      rintro rfl
      refine proper.1 ?_
      generalize behindLastDot n = e at eq
      rw [eq]
      exact text [] e
  · rintro ⟨stem, nonempty, rfl, plain⟩
    rw [behindLastDot_append plain, text, if_neg]
    rw [Bool.or_eq_true, not_or, List.isEmpty_iff, beq_iff_eq, List.length_append,
      List.length_cons]
    exact ⟨nonempty, by omega⟩

theorem fileName?_of_isName {n : String} (h : IsName n) : (Path.mk n).fileName? = some n := by
  have plain : Plain n.toList := by
    refine ⟨fun slash => ?_, fun dot => ?_⟩
    · exact absurd (h.2.2 '/' (List.mem_of_mem_head? slash)) (by decide)
    · rw [Text.splitWhere_of_none h.2.2, List.head?_cons] at dot
      exact (counts_iff.1 h.1).2 (Option.some.inj dot)
  have parts : (Path.mk n).parts = [.name n] := by
    rw [parts_eq, partsOf_plain plain, h.bodyParts]
  rw [fileName?, parts]
  rfl

end Path

/-! ## Extensions -/

namespace Settings

open PropStories.Path (behindLastDot)

/-- The file name is a stem with the extension behind it, up to the case of ASCII letters. -/
def Carries (name extension : List Char) : Prop :=
  ∃ stem tail, stem ≠ [] ∧ name = stem ++ tail ∧ Text.sameIgnoringCase tail extension = true

variable {s : Settings} {p : Path} {name x y : List Char}

theorem Carries.congr (same : Text.sameIgnoringCase x y = true) (h : Carries name x) :
    Carries name y := by
  obtain ⟨stem, tail, nonempty, eq, tailSame⟩ := h
  rw [Text.sameIgnoringCase_iff] at same tailSame
  exact ⟨stem, tail, nonempty, eq, Text.sameIgnoringCase_iff.2 (tailSame.trans same)⟩

theorem carries_append (c : Char) (stem x : List Char) : Carries (c :: stem ++ x) x :=
  ⟨c :: stem, x, List.cons_ne_nil _ _, rfl, Text.sameIgnoringCase_refl x⟩

theorem Carries.last (h : Carries name x) (dotted : '.' ∈ x) :
    Carries name ('.' :: behindLastDot x) := by
  obtain ⟨stem, tail, nonempty, rfl, same⟩ := h
  obtain ⟨front, eq⟩ := Path.exists_front ((Text.mem_of_same same (by decide)).2 dotted)
  refine ⟨stem ++ front, '.' :: behindLastDot tail, by simp [nonempty], ?_, ?_⟩
  · rw [List.append_assoc, ← eq]
  · rw [Text.sameIgnoringCase_cons]
    exact Path.behindLastDot_same same

theorem Carries.behindLastDot_same (h : Carries name ('.' :: x)) (plain : '.' ∉ x) :
    Text.sameIgnoringCase (behindLastDot name) x = true := by
  obtain ⟨stem, tail, -, rfl, same⟩ := h
  obtain ⟨e, rfl, same'⟩ := Text.exists_of_same_dot same
  rwa [Path.behindLastDot_append fun dot => plain ((Text.mem_of_same same' (by decide)).1 dot)]

theorem Carries.slash_notMem (h : Carries name x) (noSlash : '/' ∉ name) : '/' ∉ x := by
  obtain ⟨stem, tail, -, rfl, same⟩ := h
  exact fun slash => noSlash
    (List.mem_append_right stem ((Text.mem_of_same same (by decide)).2 slash))

theorem plainExtension_cons {e : String} {r : List Char} (text : e.toList = '.' :: r)
    (plain : '.' ∉ r) : plainExtension e = r := by
  rw [plainExtension, text, List.dropWhile_cons_of_pos (by decide)]
  cases r with
  | nil => rfl
  | cons c r =>
      have other : c ≠ '.' := by
        rintro rfl
        exact plain List.mem_cons_self
      exact List.dropWhile_cons_of_neg (by simpa using other)

theorem mem_plainExtension {e : String} {d : Char} (h : d ∈ e.toList) (other : d ≠ '.') :
    d ∈ plainExtension e := by
  rw [← List.takeWhile_append_dropWhile (p := (· == '.')) (l := e.toList), List.mem_append] at h
  refine h.resolve_left fun dot => ?_
  have dots := List.all_takeWhile (l := e.toList) (p := (· == '.'))
  exact other (beq_iff_eq.1 (List.all_eq_true.1 dots d dot))

theorem exists_dropWhile (cs : List Char) :
    ∃ front, '.' :: cs = front ++ '.' :: ('.' :: cs).dropWhile (· == '.') := by
  induction cs with
  | nil => exact ⟨[], rfl⟩
  | cons c cs ih =>
      by_cases dot : c = '.'
      · obtain ⟨front, eq⟩ := ih
        subst dot
        exact ⟨'.' :: front, by rw [List.cons_append, List.dropWhile_cons_of_pos (by decide), ← eq]⟩
      · refine ⟨[], ?_⟩
        rw [List.nil_append, List.dropWhile_cons_of_pos (by decide),
          List.dropWhile_cons_of_neg (by simpa using dot)]

theorem behindLastDot_of_plain {e : String} {r : List Char} (text : e.toList = '.' :: r)
    (plain : '.' ∉ plainExtension e) : behindLastDot e.toList = plainExtension e := by
  obtain ⟨front, split⟩ := exists_dropWhile r
  rw [← text] at split
  rw [split]
  exact Path.behindLastDot_append plain

/-- A file is selected if its name carries an extension with one dot, or with dots only in front. -/
theorem isComponentFile_iff {n : String} (named : p.fileName? = some n) :
    s.isComponentFile p = true ↔ ∃ e ∈ s.extensions,
      '.' ∉ plainExtension e ∧ Carries n.toList ('.' :: plainExtension e) := by
  have ending : p.ending? = (Path.splitName n.toList).2.map String.ofList := by
    rw [Path.ending?, named, Option.bind_some]
  have selected : s.isComponentFile p = true ↔ ∃ last, (Path.splitName n.toList).2 = some last ∧
      ∃ e ∈ s.extensions, Text.sameIgnoringCase (plainExtension e) last = true := by
    rw [isComponentFile, ending]
    cases (Path.splitName n.toList).2 with
    | none => simp
    | some last =>
        simp [Text.sameIgnoringCase_iff, Text.asciiLower_asciiLower]
  rw [selected]
  constructor
  · rintro ⟨last, split, e, member, same⟩
    obtain ⟨stem, nonempty, eq, plain⟩ := Path.splitName_snd.1 split
    refine ⟨e, member, fun dot => plain ((Text.mem_of_same same (by decide)).1 dot), stem,
      '.' :: last, nonempty, eq, ?_⟩
    rw [Text.sameIgnoringCase_cons]
    exact Text.sameIgnoringCase_symm same
  · rintro ⟨e, member, plain, stem, tail, nonempty, eq, same⟩
    obtain ⟨last, rfl, same'⟩ := Text.exists_of_same_dot same
    have lastPlain : '.' ∉ last := fun dot => plain ((Text.mem_of_same same' (by decide)).1 dot)
    refine ⟨last, Path.splitName_snd.2 ⟨stem, nonempty, eq, lastPlain⟩, e, member,
      Text.sameIgnoringCase_symm same'⟩

end Settings

namespace ProjectConfig

variable {c : ProjectConfig}

theorem exists_cons_of_extension (valid : c.fault? = none) {e : String}
    (member : e ∈ c.watch.extensions) : ∃ r, e.toList = '.' :: r := by
  have none_ : c.watch.extensions.find? (fun e => !startsWithDot e) = none := by
    unfold fault? at valid
    split at valid
    next => cases valid
    next =>
      split at valid
      next => cases valid
      next =>
        split at valid
        next => cases valid
        next h => exact h
  have dot := List.find?_eq_none.1 none_ e member
  rw [Bool.not_eq_true, Bool.not_eq_false', startsWithDot, Text.startsWith,
    Option.isSome_iff_exists] at dot
  obtain ⟨rest, eq⟩ := dot
  exact ⟨rest, Text.afterStart?_eq_some_iff.1 eq⟩

end ProjectConfig

/-! ## The two tests -/

variable {c : ProjectConfig} {f : ComponentFilter}

theorem fileName?_stem {x : List Char} (noSlash : '/' ∉ x) :
    (Path.mk (String.ofList ('a' :: x))).fileName? = some (String.ofList ('a' :: x)) := by
  refine Path.fileName?_of_isName ⟨?_, ?_, ?_⟩
  · rw [String.toList_ofList]
    exact Path.counts_iff.2 ⟨List.cons_ne_nil _ _, fun eq => absurd (List.cons.inj eq).1 (by decide)⟩
  · rw [String.toList_ofList]
    exact fun eq => absurd (List.cons.inj eq).1 (by decide)
  · rw [String.toList_ofList]
    refine Text.beq_of_notMem fun slash => noSlash ?_
    exact (List.mem_cons.1 slash).resolve_left (by decide)

open PropStories.Path (behindLastDot)
open Settings (Carries plainExtension)

/-- Behind a stem of one character an extension with one dot is all there is. -/
theorem Settings.Carries.eq_of_short {d : Char} {last r : List Char} (plain : '.' ∉ last)
    (h : Carries (d :: '.' :: last) ('.' :: r)) :
    Text.sameIgnoringCase ('.' :: r) ('.' :: last) = true := by
  obtain ⟨stem, tail, nonempty, eq, same⟩ := h
  obtain ⟨t, rfl, same⟩ := Text.exists_of_same_dot same
  obtain ⟨d', stem, rfl⟩ := List.exists_cons_of_ne_nil nonempty
  obtain rfl : last = t := by
    cases stem with
    | nil => exact (List.cons.inj (List.cons.inj eq).2).2
    | cons c stem =>
        have split := (List.cons.inj (List.cons.inj eq).2).2
        exact absurd (split ▸ List.mem_append_right stem List.mem_cons_self) plain
  rw [Text.sameIgnoringCase_cons]
  exact Text.sameIgnoringCase_symm same

/-- The part of each extension from the last dot on is an extension, unless no file name can carry
the extension. -/
def Settings.Complete (extensions : List String) : Prop :=
  ∀ e ∈ extensions, '/' ∉ e.toList → ∃ e' ∈ extensions,
    Text.sameIgnoringCase e'.toList ('.' :: behindLastDot e.toList) = true

section

variable {extensions : List String}

theorem Settings.Complete.carries_iff (complete : Settings.Complete extensions)
    (dotted : ∀ e ∈ extensions, ∃ r, e.toList = '.' :: r) {name : List Char} (noSlash : '/' ∉ name) :
    (∃ e ∈ extensions, '.' ∉ plainExtension e ∧ Carries name ('.' :: plainExtension e)) ↔
      ∃ e ∈ extensions, Carries name e.toList := by
  constructor
  · rintro ⟨e, member, plain, carries⟩
    obtain ⟨r, text⟩ := dotted e member
    have last := Settings.behindLastDot_of_plain text plain
    have free : '/' ∉ e.toList := fun slash => carries.slash_notMem noSlash <|
      List.mem_cons_of_mem _ (Settings.mem_plainExtension slash (by decide))
    obtain ⟨e', member', same⟩ := complete e member free
    rw [last] at same
    exact ⟨e', member', carries.congr (Text.sameIgnoringCase_symm same)⟩
  · rintro ⟨e, member, carries⟩
    obtain ⟨e', member', same⟩ := complete e member (carries.slash_notMem noSlash)
    obtain ⟨r, text⟩ := dotted e member
    obtain ⟨r', text', same'⟩ := Text.exists_of_same_dot same
    have plain : '.' ∉ r' := fun dot =>
      Path.dot_notMem_behindLastDot _ ((Text.mem_of_same same' (by decide)).1 dot)
    refine ⟨e', member', ?_⟩
    rw [Settings.plainExtension_cons text' plain]
    refine ⟨plain, (carries.last (text ▸ List.mem_cons_self)).congr ?_⟩
    rw [Text.sameIgnoringCase_cons]
    exact Text.sameIgnoringCase_symm same'

theorem Settings.Complete.of_carries_iff (dotted : ∀ e ∈ extensions, ∃ r, e.toList = '.' :: r)
    (same : ∀ x, '/' ∉ x →
      ((∃ e ∈ extensions, '.' ∉ plainExtension e ∧ Carries ('a' :: x) ('.' :: plainExtension e)) ↔
        ∃ e ∈ extensions, Carries ('a' :: x) e.toList)) : Settings.Complete extensions := by
  intro e member noSlash
  obtain ⟨r, text⟩ := dotted e member
  have dot : '.' ∈ e.toList := text ▸ List.mem_cons_self
  obtain ⟨front, split⟩ := Path.exists_front dot
  have plain := Path.dot_notMem_behindLastDot e.toList
  have within {d : Char} (h : d ∈ behindLastDot e.toList) : d ∈ e.toList :=
    split ▸ List.mem_append_right front (List.mem_cons_of_mem _ h)
  generalize behindLastDot e.toList = last at split plain within ⊢
  -- A file that carries the extension is selected through one with the same last part, which
  -- selects a file with this part alone behind its stem.
  obtain ⟨d, hd, plain', carries⟩ :=
    (same _ noSlash).2 ⟨e, member, Settings.carries_append 'a' [] _⟩
  have lasts := carries.behindLastDot_same plain'
  rw [split, ← List.cons_append, Path.behindLastDot_append plain] at lasts
  have noSlash' : '/' ∉ '.' :: last := fun slash =>
    noSlash (within ((List.mem_cons.1 slash).resolve_left (by decide)))
  have carried : Carries ('a' :: '.' :: last) ('.' :: plainExtension d) := by
    refine Carries.congr ?_ (Settings.carries_append 'a' [] ('.' :: last))
    rwa [Text.sameIgnoringCase_cons]
  obtain ⟨e', member', short⟩ := (same _ noSlash').1 ⟨d, hd, plain', carried⟩
  obtain ⟨r', text'⟩ := dotted e' member'
  rw [text'] at short
  exact ⟨e', member', text' ▸ short.eq_of_short plain⟩

end

/-- Both tests of a file agree. They select the files that carry a configured extension just if for
each extension, unless no file name can carry it, its part from the last dot on is configured. -/
theorem extensions_select_files (valid : c.fault? = none)
    (own : f.settings.extensions = c.watch.extensions) :
    (∀ p, f.hasExtension p = f.settings.isComponentFile p) ∧
    (∀ p n, p.fileName? = some n → (f.settings.isComponentFile p = true ↔
      ∃ e ∈ c.watch.extensions,
        '.' ∉ plainExtension e ∧ Carries n.toList ('.' :: plainExtension e))) ∧
    ((∀ p n, p.fileName? = some n → (f.settings.isComponentFile p = true ↔
        ∃ e ∈ c.watch.extensions, Carries n.toList e.toList)) ↔
      Settings.Complete c.watch.extensions) := by
  have selects {p : Path} {n : String} (named : p.fileName? = some n) :
      f.settings.isComponentFile p = true ↔ ∃ e ∈ c.watch.extensions,
        '.' ∉ plainExtension e ∧ Carries n.toList ('.' :: plainExtension e) := by
    rw [Settings.isComponentFile_iff named, own]
  have dotted := fun e => c.exists_cons_of_extension valid (e := e)
  refine ⟨f.hasExtension_eq, fun p n => selects,
    fun same => .of_carries_iff dotted fun x noSlash => ?_, fun complete p n named => ?_⟩
  · have named := fileName?_stem noSlash
    have both := (selects named).symm.trans (same _ _ named)
    rwa [String.toList_ofList] at both
  · rw [selects named]
    refine complete.carries_iff dotted fun slash => ?_
    have name := Path.isName_of_mem_parts (List.mem_of_getLast? (Path.fileName?_eq_some_iff.1 named))
    exact absurd (name.2.2 '/' slash) (by decide)

def componentEndings : ProjectConfig :=
  { ProjectConfig.initial with
    watch := { ProjectConfig.standardWatch with extensions := [".component.tsx", ".jsx"] } }

def componentFilter : ComponentFilter :=
  ⟨{ Settings.standard with extensions := componentEndings.watch.extensions }, []⟩

/-- The extension with two dots selects nothing, the other does without regard to case. -/
theorem extensions_select_files_of_two_dots :
    componentEndings.fault? = none ∧
    componentFilter.hasExtension ⟨"src/components/Card.component.tsx"⟩ = false ∧
    Carries "Card.component.tsx".toList ".component.tsx".toList ∧
    componentFilter.hasExtension ⟨"src/components/Card.JSX"⟩ = true ∧
    ¬ ∀ p n, p.fileName? = some n → (componentFilter.settings.isComponentFile p = true ↔
      ∃ e ∈ componentEndings.watch.extensions, Carries n.toList e.toList) := by
  have valid : componentEndings.fault? = none := by decide +kernel
  obtain ⟨agree, -, iff⟩ := extensions_select_files (f := componentFilter) valid rfl
  have open_ : ¬ Settings.Complete componentEndings.watch.extensions := fun complete => by
    obtain ⟨e, member, same⟩ := complete ".component.tsx" (by decide) (by decide)
    have other : ∀ e ∈ componentEndings.watch.extensions, Text.sameIgnoringCase e.toList
        ('.' :: behindLastDot ".component.tsx".toList) = false := by decide +kernel
    rw [other e member] at same
    cases same
  refine ⟨valid, ?_, Settings.carries_append 'C' "ard".toList _, ?_,
    mt iff.1 open_⟩
  · rw [agree]
    decide +kernel
  · rw [agree]
    decide +kernel

end PropStories
