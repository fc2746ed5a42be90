import Mathlib.Data.Set.Function
import PropStories.Proofs.Contract.Keys

/-!
# Quoted text read back

Main statement: the language reads a quoted text as one string literal, without a line end inside,
and its value is the text but for the carriage returns; so texts are quoted alike just if they are
alike without them.
-/

namespace PropStories.Text.Quoted

variable {cs ds : List Char}

theorem escape_eq_escape_iff :
    escape cs = escape ds ↔ cs.filter (· ≠ '\r') = ds.filter (· ≠ '\r') := by
  rw [escape_eq_encode, escape_eq_encode]
  constructor
  · intro same
    have read := decode_encode cs
    rw [same, decode_encode] at read
    exact (Option.some.inj read).symm
  · -- Carriage returns are left out anyway, so they can be left out first.
    have without (cs : List Char) : encode (cs.filter (· ≠ '\r')) = encode cs := by
      induction cs with
      | nil => rfl
      | cons c cs ih =>
          by_cases carriage : c = '\r'
          · subst carriage
            exact ih
          · rw [List.filter_cons_of_pos (by simpa using carriage), encode, ih, encode]
    intro same
    rw [← without cs, same, without]

theorem filter_of_no_carriage (h : '\r' ∉ cs) : cs.filter (· ≠ '\r') = cs :=
  List.filter_eq_self.2 fun _ hc => by simpa using ne_of_mem_of_not_mem hc h

/-- No value is read from a text with the character in it. -/
theorem not_mem_of_decode {cs v : List Char} {c : Char} (h : decode cs = some v)
    (lineEnd : c = '\n' ∨ c = '\r') : c ∉ cs := by
  fun_induction decode cs generalizing v with
  | case1 => exact List.not_mem_nil
  | case2 d cs same ih =>
      obtain ⟨w, read, -⟩ := Option.map_eq_some_iff.1 h
      simp only [List.mem_cons, not_or]
      refine ⟨?_, ?_, ih read⟩
      · obtain rfl | rfl := lineEnd <;> decide
      · obtain rfl | rfl := lineEnd <;> obtain rfl | rfl := same <;> decide
  | case3 cs _ ih =>
      obtain ⟨w, read, -⟩ := Option.map_eq_some_iff.1 h
      simp only [List.mem_cons, not_or]
      refine ⟨?_, ?_, ih read⟩ <;> obtain rfl | rfl := lineEnd <;> decide
  | case4 => cases h
  | case5 => cases h
  | case6 d cs _ plain ih =>
      obtain ⟨w, read, -⟩ := Option.map_eq_some_iff.1 h
      rw [List.mem_cons, not_or]
      refine ⟨?_, ih read⟩
      rintro rfl
      exact plain (.inr (.inr lineEnd))

/-- The inside of a quoted text has no line end and no quote or backslash that is not part of an
escape (`decode` gives no value for one); both the reader of keys and the reader of sources take the
whole for one literal, and its value is the text without carriage returns. -/
theorem quoting_round_trips :
    (∀ s : String,
      (quote s).toList = '\x27' :: (escape s.toList ++ ['\x27']) ∧
      decode (escape s.toList) = some (s.toList.filter (· ≠ '\r')) ∧
      '\n' ∉ escape s.toList ∧ '\r' ∉ escape s.toList ∧
      (∀ rest, Tsx.Lexeme.string? ((quote s).toList ++ rest) = some (quote s).toList.length) ∧
      ∀ isName, Key.name? isName (quote s).toList =
        some (Key.unitsOf (s.toList.filter (· ≠ '\r')))) ∧
    (∀ cs ds, escape cs = escape ds ↔ cs.filter (· ≠ '\r') = ds.filter (· ≠ '\r')) ∧
    Set.InjOn escape {cs | '\r' ∉ cs} := by
  refine ⟨fun s => ?_, fun cs ds => escape_eq_escape_iff, fun cs hcs ds hds same => ?_⟩
  · have read : decode (escape s.toList) = some (s.toList.filter (· ≠ '\r')) := by
      rw [escape_eq_encode, decode_encode]
    refine ⟨?_, read, not_mem_of_decode read (.inl rfl), not_mem_of_decode read (.inr rfl),
      (Tsx.isString_quote s).reads, fun isName => Key.name?_quote isName s⟩
    rw [quote, Synth.toList_single, String.toList_ofList]
  · rw [← filter_of_no_carriage hcs, ← filter_of_no_carriage hds]
    exact escape_eq_escape_iff.1 same

end PropStories.Text.Quoted
