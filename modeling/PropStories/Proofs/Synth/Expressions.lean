import Mathlib.Tactic.Choose
import PropStories.Proofs.Synth.Defaults
import PropStories.Proofs.Tsx.Layouts

/-!
# Default values are expressions

What is in the syntax of default values is a value of the language, perhaps with a comment behind
it. So a default value is one expression, and stays one among the entries of a list.
-/

namespace PropStories.Synth

open Tsx

/-! ## Strings, keys and comments -/

theorem Escaped.exists_encode {w : List Char} (h : Escaped w) :
    ∃ cs, w = Text.Quoted.encode cs := by
  induction h with
  | nil => exact ⟨[], rfl⟩
  | @plain c w quote backslash line _ ih =>
      obtain ⟨cs, rfl⟩ := ih
      have feed : c ≠ '\n' := by rintro rfl; contradiction
      have carriage : c ≠ '\r' := by rintro rfl; contradiction
      exact ⟨c :: cs, by simp [Text.Quoted.encode, quote, backslash, feed, carriage]⟩
  | @escape c w special _ ih =>
      obtain ⟨cs, rfl⟩ := ih
      obtain rfl | rfl := special
      · exact ⟨'\x27' :: cs, by simp [Text.Quoted.encode]⟩
      · exact ⟨'\\' :: cs, by simp [Text.Quoted.encode]⟩

theorem toList_single (s : String) : ("'" ++ s ++ "'").toList = '\x27' :: (s.toList ++ ['\x27']) := by
  simp

theorem IsKey.isKey {k : String} (h : IsKey k) : Tsx.IsKey k.toList := by
  cases h with
  | identifier h => exact .inl (isName_of_isIdentifier h)
  | quoted h =>
      obtain ⟨cs, rfl⟩ := h.exists_encode
      rw [toList_single, String.toList_ofList]
      exact .inr (isString_encode cs)

theorem ActionText.isString {w : String} (h : ActionText w) :
    IsString ('\x27' :: (w.toList ++ ['\x27'])) := by
  have same : Text.Quoted.encode w.toList = w.toList := encode_of_plain fun c hc => by
    obtain ⟨plain, line⟩ := h c hc
    refine ⟨?_, ?_, ?_, ?_⟩ <;> rintro rfl
    · exact plain (by decide)
    · exact plain (by decide)
    · contradiction
    · contradiction
  have string := isString_encode w.toList
  rwa [same] at string

theorem blockCommentTail?_closed {cs : List Char} (h : ¬ ['*', '/'] <:+: cs) :
    Lexeme.blockCommentTail? (cs ++ ['*', '/']) = some (cs ++ ['*', '/']).length := by
  induction cs with
  | nil => rfl
  | cons c cs ih =>
      rw [List.infix_cons_iff, not_or] at h
      obtain ⟨front, inside⟩ := h
      have goes : ¬ ((c == '*' && (cs ++ ['*', '/']).head? == some '/') = true) := by
        rw [Bool.and_eq_true, beq_iff_eq, beq_iff_eq]
        rintro ⟨rfl, slash⟩
        cases cs with
        | nil => simp at slash
        | cons d ds =>
            obtain rfl : d = '/' := by simpa using slash
            exact front (by simp)
      rw [List.cons_append, Lexeme.blockCommentTail?, if_neg goes, ih inside]
      rfl

theorem CommentText.isGap {c : String} (h : CommentText c) : IsGap (" /*" ++ c ++ "*/").toList := by
  have text : (" /*" ++ c ++ "*/").toList = ' ' :: '/' :: '*' :: (c.toList ++ ['*', '/'] ++ []) := by
    simp
  rw [text]
  exact .blank (by decide) (.block (blockCommentTail?_closed h) .nil)

/-! ## Values -/

theorem isNumber_zero : IsNumber "0".toList :=
  isNumber_take (show Lexeme.number? "0".toList = some 1 by decide +kernel)

theorem IsDefault.isSpaced {n : Nat} {v : String} (h : IsDefault n v) :
    IsSpaced IsValue v.toList := by
  induction h with
  | string => exact isSpaced_of_value (.string (isString_encode []))
  | number => exact isSpaced_of_value (.number isNumber_zero)
  | boolean => exact isSpaced_of_value (.constant (w := "false") (by decide))
  | @undefined n c comment =>
      refine ⟨"undefined".toList, (" /*" ++ c ++ "*/").toList, ?_, .constant (by decide),
        comment.isGap⟩
      rw [← String.toList_append, ← String.append_assoc, ← String.append_assoc]
      congr 3
  | emptyArray => exact isSpaced_of_value isValue_emptyArray
  | @array n v value ih =>
      obtain ⟨core, tail, eq, value, gap⟩ := ih
      have isValue := isValue_array (oneLine_ne_nil _ _ _) (filled_oneLine
        [⟨none, core, tail, []⟩] .nil .nil fun e he => by
          obtain rfl := List.mem_singleton.1 he
          exact ⟨rfl, value, gap, fun _ h => h⟩)
      rw [inside_oneLine _ _ (List.cons_ne_nil _ _)] at isValue
      refine isSpaced_of_value ?_
      have text : ("[" ++ v ++ "]").toList = '[' :: (v.toList ++ [']']) := by simp
      rw [text, eq]
      simpa [Tsx.Entry.text, Slot.lead, List.intercalate] using isValue
  | emptyObject => exact isSpaced_of_value isValue_emptyObject
  | @object n ms some_ keys values ih =>
      have entries : ∀ m ∈ ms, ∃ e : Tsx.Entry, e.Fits Keyed IsValue ∧
          e.text = Slot.lead (some m.1.toList) ++ m.2.toList := fun m hm => by
        obtain ⟨e, fits, text, -⟩ := @IsSpaced.exists_entry Keyed _ _ _ (ih m hm)
          ⟨_, rfl, (keys m hm).isKey⟩ [] fun _ h => h
        exact ⟨e, fits, text⟩
      choose! entry hentry using entries
      have isValue := isValue_object (oneLine_ne_nil _ _ _) (filled_oneLine _ isGap_blank isGap_blank
        (List.forall_mem_map.2 fun m hm => (hentry m hm).1))
      have texts : (ms.map entry).map Tsx.Entry.text =
          ms.map fun m => Slot.lead (some m.1.toList) ++ m.2.toList := by
        rw [List.map_map]
        exact List.map_congr_left fun m hm => (hentry m hm).2
      rw [inside_oneLine _ _ (by simpa using some_), texts] at isValue
      refine isSpaced_of_value ?_
      have text : ("\x7b " ++ members ms ++ " \x7d").toList =
          '\x7b' :: ([' '] ++ ([',', ' '].intercalate
            (ms.map fun m => Slot.lead (some m.1.toList) ++ m.2.toList) ++ [' ']) ++ ['\x7d']) := by
        rw [members]
        simp [Slot.lead, Function.comp_def]
      rw [text]
      exact isValue
  | function => exact isSpaced_of_value .function
  | @action n w name =>
      refine isSpaced_of_value ?_
      have text : ("action('" ++ w ++ "')").toList =
          "action".toList ++ '(' :: ('\x27' :: (w.toList ++ ['\x27']) ++ [')']) := by simp
      rw [text]
      exact .action name.isString

end PropStories.Synth
