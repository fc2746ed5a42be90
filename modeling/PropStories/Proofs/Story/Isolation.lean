import PropStories.Proofs.Story.Plans
import PropStories.Proofs.Story.Splice
import PropStories.Proofs.Tsx.Reading

/-!
# Reconciling keeps to the regions

Of a story that is reconciled, only a range in `meta` and one in the default story change. Main
statement: the new text is the old one with these ranges replaced, and a literal whose region is
left alone stays as it is.
-/

namespace PropStories.Reconciliation

open Story Tsx

variable {x : Syntax} {props : List Synth.PropDescriptor} {o : ReconcileOptions}

/-! ## What a reconciliation consists of -/

theorem ofSyntax_eq_updated {content : String} {report : ReconcileReport}
    (h : ofSyntax x props o = .updated content report) :
    Edit.make? ((planArgTypes x props o (objectOf? x metaName)).edits ++
        (planArgs x props o (objectOf? x o.defaultStory)).edits) x.source = some content.toList ∧
      report =
        { argTypes := argTypesChange (planArgTypes x props o (objectOf? x metaName))
          argsUpdated := (planArgs x props o (objectOf? x o.defaultStory)).change?.isSome
          diagnostics := (planArgTypes x props o (objectOf? x metaName)).diagnostics ++
            (planArgs x props o (objectOf? x o.defaultStory)).diagnostics ++
            actionDiagnostics x props o } := by
  unfold ofSyntax at h
  split at h
  · contradiction
  · simp only at h
    split at h
    · contradiction
    · rename_i text made
      obtain ⟨rfl, rfl⟩ := Reconciliation.updated.inj h
      exact ⟨by rw [String.toList_ofList]; exact made, rfl⟩

theorem reconcile_eq_updated {story : String} {content : String} {report : ReconcileReport}
    (h : reconcile story props o = .updated content report) :
    (parse story.toList).root.firstFault? = none ∧
      ofSyntax (parse story.toList) props o = .updated content report := by
  unfold reconcile at h
  simp only at h
  split at h
  · contradiction
  · rename_i none
    exact ⟨Option.map_eq_none_iff.1 none, h⟩

theorem argTypesChange_eq_untouched {p : RegionPlan} :
    argTypesChange p = .untouched ↔ p.edit? = none := by
  unfold argTypesChange RegionPlan.change? RegionPlan.edit?
  rcases p.edit with _ | ⟨change, e⟩
  · simp
  · cases change <;> simp

theorem change?_isSome {p : RegionPlan} : p.change?.isSome = false ↔ p.edit? = none := by
  unfold RegionPlan.change? RegionPlan.edit?
  cases p.edit <;> simp

/-! ## The other literal -/

def Keeps (x : Syntax) (name : String) (text : List Char) : Prop :=
  ∀ object, objectOf? x name = some object →
    ∃ before behind, text = before ++ x.textOf object ++ behind

variable {b : Nat}

theorem editOf_of_edit? (lined : Lined x.source 0 x.root.children b) {r : Region} {e : Edit}
    (h : (plan x props o r).edit? = some e) : EditOf x (owner o r) r e := by
  obtain ⟨change, planned⟩ := RegionPlan.edit?_eq_some.1 h
  exact editOf_plan lined planned

/-- An edit in one literal leaves the other one as it is. -/
theorem keeps_of_spliced (lined : Lined x.source 0 x.root.children b) {m n : String}
    (different : m ≠ n) {r : Region} {es : List Edit} {text : List Char}
    (spliced : Edit.Spliced x.source es text) (edits : ∀ e ∈ es, EditOf x n r e) :
    Keeps x m text := by
  intro object found
  obtain ⟨fs, perm, order, -, rfl⟩ := spliced
  have fits := (isLiteral_of_objectOf? lined found).fits
  refine Edit.exists_spliceFrom_eq order (Nat.zero_le _) fits.start_le_stop fun e he => ?_
  obtain ⟨other, hother, braces, -⟩ := edits e (perm.mem_iff.2 he)
  have := objects_apart lined different found hother
  have := braces.left
  have := braces.right
  omega

/-! ## The statement -/

/-- The edits of the two regions account for the whole difference between a story and its
reconciled text. -/
structure Isolated (x : Syntax) (o : ReconcileOptions) (content : String)
    (report : ReconcileReport) (table args : Option Edit) : Prop where
  spliced : Edit.Spliced x.source (table.toList ++ args.toList) content.toList
  inMeta : ∀ e ∈ table, EditOf x metaName .argTypes e
  inStory : ∀ e ∈ args, EditOf x o.defaultStory .args e
  apart : ∀ d ∈ table, ∀ e ∈ args, d.stop < e.start ∨ e.stop < d.start
  tableUntouched : report.argTypes = .untouched ↔ table = none
  argsUntouched : report.argsUpdated = false ↔ args = none
  keepsMeta : report.argTypes = .untouched → Keeps x metaName content.toList
  keepsStory : report.argsUpdated = false → Keeps x o.defaultStory content.toList

theorem reconcile_isolated {story content : String} {report : ReconcileReport}
    (named : o.defaultStory ≠ metaName)
    (updated : reconcile story props o = .updated content report) :
    ∃ table args, Isolated (parse story.toList) o content report table args := by
  obtain ⟨clear, updated⟩ := reconcile_eq_updated updated
  obtain ⟨b, lined⟩ := parse_fits clear
  generalize hx : parse story.toList = x at updated lined ⊢
  have source : x.source = story.toList := hx ▸ parse_source
  rw [← source] at lined
  obtain ⟨made, rfl⟩ := ofSyntax_eq_updated updated
  let table := (plan x props o .argTypes).edit?
  let args := (plan x props o .args).edit?
  have inMeta : ∀ e ∈ table, EditOf x metaName .argTypes e :=
    fun e he => editOf_of_edit? lined he
  have inStory : ∀ e ∈ args, EditOf x o.defaultStory .args e :=
    fun e he => editOf_of_edit? lined he
  have apart : ∀ d ∈ table, ∀ e ∈ args, d.stop < e.start ∨ e.stop < d.start :=
    fun d hd e he => (inMeta d hd).apart lined (Ne.symm named) (inStory e he)
  obtain ⟨es, perm, order, starts⟩ := Edit.exists_inOrder
    (fun e he => (inMeta e he).bounds) (fun e he => (inStory e he).bounds) apart
  have spliced : Edit.Spliced x.source (table.toList ++ args.toList) content.toList :=
    ⟨es, perm, order, starts, Option.some.inj (made.symm.trans (Edit.make?_eq_some perm order starts))⟩
  refine ⟨table, args, spliced, inMeta, inStory, apart, ?_, ?_, ?_, ?_⟩
  · exact argTypesChange_eq_untouched
  · exact change?_isSome
  · intro untouched
    rw [argTypesChange_eq_untouched] at untouched
    have onlyArgs : table = none := untouched
    have edits : ∀ e ∈ table.toList ++ args.toList, EditOf x o.defaultStory .args e := by
      rw [onlyArgs]
      exact fun e he => inStory e (Option.mem_toList.1 he)
    exact keeps_of_spliced lined (Ne.symm named) spliced edits
  · intro untouched
    rw [change?_isSome] at untouched
    have onlyTable : args = none := untouched
    have edits : ∀ e ∈ table.toList ++ args.toList, EditOf x metaName .argTypes e := by
      rw [onlyTable, Option.toList_none, List.append_nil]
      exact fun e he => inMeta e (Option.mem_toList.1 he)
    exact keeps_of_spliced lined named spliced edits

theorem reconcile_isolated_two_regions :
    ∃ table args, Isolated
      (parse ("const meta = \x7b\n  title: 'A',\n  argTypes: \x7b old: \x7b\x7d \x7d, // keep\n\x7d;\n" ++
        "const D = \x7b\x7d;\n").toList)
      ⟨"D", false, false⟩
      ("const meta = \x7b\n  title: 'A',\n   // keep\n\x7d;\n" ++
        "const D = \x7b\n  args: \x7b\n    label: '',\n  \x7d,\n\x7d;\n")
      ⟨.removed, true, []⟩ table args := by
  have updated : reconcile
      ("const meta = \x7b\n  title: 'A',\n  argTypes: \x7b old: \x7b\x7d \x7d, // keep\n\x7d;\n" ++
        "const D = \x7b\x7d;\n")
      [⟨"label", .ofName "string", false, none, "''", ⟨.text, []⟩, "string", "string"⟩]
      ⟨"D", false, false⟩ =
        .updated
          ("const meta = \x7b\n  title: 'A',\n   // keep\n\x7d;\n" ++
            "const D = \x7b\n  args: \x7b\n    label: '',\n  \x7d,\n\x7d;\n")
          ⟨.removed, true, []⟩ := by
    decide +kernel
  exact reconcile_isolated (by decide) updated

end PropStories.Reconciliation
