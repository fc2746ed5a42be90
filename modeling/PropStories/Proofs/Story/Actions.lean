import PropStories.Proofs.Story.Isolation
import PropStories.Proofs.Story.Rendering
import PropStories.Proofs.Synth.Actions
import PropStories.Proofs.Tsx.Imports

/-!
# Calls whose recorder is not imported

A story that records calls needs the import of what records them. Main statement: the missing import
is noticed just if the text of a call is in a default value and no import statement has the name of
the recorder in it, bound or not. So the notice is exact where the text is in no other place than a
call, and the name in none but where it is bound.
-/

namespace PropStories.Reconciliation

open Story Synth Tsx

variable {x : Syntax} {props : List PropDescriptor} {o : ReconcileOptions}

/-! ## The regions -/

theorem notMem_render (r : Region) (props : List PropDescriptor) (indent : String) :
    .actionNotImported ∉ (r.render props indent).diagnostics := by
  rw [Region.render_diagnostics, List.mem_flatMap]
  rintro ⟨p, -, member⟩
  cases r <;> simp only [Region.entry] at member <;> split at member <;> simp at member

theorem notMem_upsert (r : Region) (object : Tree) :
    .actionNotImported ∉ (upsert x props r object).diagnostics := by
  unfold upsert
  split
  next pair _ =>
    unfold replaceEntry
    split
    next => exact List.not_mem_nil
    next =>
      split
      next => exact notMem_render _ _ _
      next => simp
  next =>
    split
    next => exact notMem_render _ _ _
    next => exact notMem_render _ _ _

theorem notMem_remove (r : Region) (object : Tree) :
    .actionNotImported ∉ (remove x r object).diagnostics := by
  unfold remove
  split <;> exact List.not_mem_nil

theorem notMem_plans (about story : Option Tree) :
    .actionNotImported ∉ (planArgTypes x props o about).diagnostics ++
      (planArgs x props o story).diagnostics := by
  rw [List.mem_append, not_or]
  constructor
  · cases about with
    | none => simp [planArgTypes]
    | some object =>
        rw [planArgTypes]
        split
        · exact notMem_upsert _ _
        · exact notMem_remove _ _
  · cases story with
    | none => simp [planArgs]
    | some object => exact notMem_upsert _ _

theorem notice_iff {content : String} {report : ReconcileReport}
    (updated : ofSyntax x props o = .updated content report) :
    .actionNotImported ∈ report.diagnostics ↔
      o.actions = true ∧ usesActions props = true ∧ imports x actionHelper = false := by
  obtain ⟨-, rfl⟩ := ofSyntax_eq_updated updated
  rw [List.mem_append, or_iff_right (notMem_plans _ _), actionDiagnostics]
  split
  next noticed => simpa [and_assoc] using noticed
  next quiet => simpa [and_assoc] using quiet

/-! ## Calls and imports -/

def Records (options : Options) (service : TypeService) (c : Contract) : Prop :=
  ∃ p ∈ c.properties, ∃ t, Built service options.maxDepth p.type t ∧ Calls options service t

def QuotesCall (options : Options) (service : TypeService) (c : Contract) : Prop :=
  ∃ p ∈ c.properties, ∃ t, Built service options.maxDepth p.type t ∧ Quotes service t

theorem usesActions_describe (options : Options) (service : TypeService) (c : Contract) :
    usesActions (describeContract options service c) = true ↔
      Records options service c ∨ QuotesCall options service c := by
  simp only [usesActions, describeContract, List.any_map, List.any_eq_true, Function.comp_apply,
    toList_call, Text.occursIn_iff, describe, defaultValue, infix_value_iff, Records, QuotesCall,
    and_or_left, exists_or]

theorem imports_iff {name : String} : imports x name = true ↔
    ∃ i ∈ x.root.namedChildren, i.kind = .importStatement ∧ i.contains (x.isNamed name) = true := by
  simp only [imports, List.any_eq_true, List.mem_filter, beq_iff_eq, and_assoc]
  exact Iff.rfl

/-- The missing import is noticed just if the text of a call is in a default value and the name of
the recorder in no import statement. This says that a call is recorded and not bound, unless the
name is not bound and it stands in an import though a call is recorded, or the text stands in a
default value though none is and the name in no import. -/
theorem missing_import_noticed {story content : String} {report : ReconcileReport}
    {options : Options} {service : TypeService} {c : Contract} (on : o.actions = true)
    (updated : reconcile story (describeContract options service c) o = .updated content report) :
    let x := parse story.toList
    let noticed := .actionNotImported ∈ report.diagnostics
    let mentioned := x.Renames actionHelper ∨ x.Attributes actionHelper
    (noticed ↔ (Records options service c ∨ QuotesCall options service c) ∧
      ¬ (x.Binds actionHelper ∨ mentioned)) ∧
    ((noticed ↔ Records options service c ∧ ¬ x.Binds actionHelper) ↔
      x.Binds actionHelper ∨ (Records options service c → ¬ mentioned) ∧
        (QuotesCall options service c → Records options service c ∨ mentioned)) := by
  intro x noticed mentioned
  obtain ⟨clear, updated⟩ := reconcile_eq_updated updated
  have imported : imports x actionHelper = true ↔ x.Binds actionHelper ∨ mentioned :=
    imports_iff.trans (exists_import_iff clear)
  have iff : noticed ↔ (Records options service c ∨ QuotesCall options service c) ∧
      ¬ (x.Binds actionHelper ∨ mentioned) := by
    rw [← usesActions_describe, ← imported, Bool.not_eq_true]
    exact (notice_iff updated).trans (and_iff_right on)
  refine ⟨iff, ?_⟩
  rw [iff]
  by_cases binds : x.Binds actionHelper <;> by_cases records : Records options service c <;>
    by_cases quotes : QuotesCall options service c <;> by_cases mention : mentioned <;>
    simp [binds, records, quotes, mention]

/-! ## A call in a comment, and a renamed recorder -/

/-- No expression represents it, so its text stands in a comment. -/
def entryType : TypeRef :=
  .mk (.union [.mk (.keyword "string") "string",
    .mk (.object [.mk "action" (.mk .function "(n) => void") false none]) "\x7b action(n): void \x7d"])
    "string | \x7b action(n): void \x7d"

def entryContract : Contract := ⟨"EntryProps", [.mk "entry" entryType false none], .declared⟩

def loggedContract : Contract :=
  ⟨"LoggedProps", [.mk "onLog" (.mk .function "() => void") false none], .declared⟩

def noDeclarations : Declarations := []

def bareStory : String := "const D = \x7b\x7d;\n"

def renamingStory : String := "import \x7b action as log \x7d from 'x';\n" ++ bareStory

theorem not_records_entryContract : ¬ Records ⟨2, true⟩ noDeclarations entryContract := by
  have shape : noDeclarations.service.classify entryType = .unknown := rfl
  rintro ⟨p, member, t, built, -, function⟩
  obtain rfl := List.mem_singleton.1 member
  replace built : Built noDeclarations.service 2 entryType t := built
  have own := (exists_marked_iff (M := fun t => noDeclarations.service.classify t = .function)
    (by simp [shape]) (by simp [shape])).1 ⟨t, built, function⟩
  rw [shape] at own
  cases own

theorem not_binds_renamingStory : ¬ (parse renamingStory.toList).Binds actionHelper := by
  have others : ∀ i ∈ (parse renamingStory.toList).root.namedChildren, ∀ named ∈ importNames i,
      named.2 = false → (parse renamingStory.toList).stringOf named.1 ≠ actionHelper := by
    decide +kernel
  rintro ⟨i, member, -, t, named, text⟩
  exact others i member _ named rfl text

theorem missing_import_noticed_of_comment_and_rename :
    (∃ content report, reconcile bareStory
        (describeContract ⟨2, true⟩ noDeclarations entryContract) ⟨"D", false, true⟩ =
          .updated content report ∧ .actionNotImported ∈ report.diagnostics ∧
        ¬ Records ⟨2, true⟩ noDeclarations entryContract ∧
        QuotesCall ⟨2, true⟩ noDeclarations entryContract) ∧
    ∃ content report, reconcile renamingStory
        (describeContract ⟨2, true⟩ noDeclarations loggedContract) ⟨"D", false, true⟩ =
          .updated content report ∧ .actionNotImported ∉ report.diagnostics ∧
        Records ⟨2, true⟩ noDeclarations loggedContract ∧
        ¬ (parse renamingStory.toList).Binds actionHelper := by
  have quoted : reconcile bareStory (describeContract ⟨2, true⟩ noDeclarations entryContract)
      ⟨"D", false, true⟩ = .updated
        ("const D = \x7b\n  args: \x7b\n" ++
          "    entry: undefined /* type: string | \x7b action(n): void \x7d */,\n  \x7d,\n\x7d;\n")
        ⟨.untouched, true, [.metaNotFound, .actionNotImported]⟩ := by
    decide +kernel
  have renamed : reconcile renamingStory (describeContract ⟨2, true⟩ noDeclarations loggedContract)
      ⟨"D", false, true⟩ = .updated
        ("import \x7b action as log \x7d from 'x';\nconst D = \x7b\n" ++
          "  args: \x7b\n    onLog: action('onLog'),\n  \x7d,\n\x7d;\n")
        ⟨.untouched, true, [.metaNotFound]⟩ := by
    decide +kernel
  have noticed := (missing_import_noticed rfl quoted).1.1 (by decide)
  refine ⟨⟨_, _, quoted, by decide, not_records_entryContract,
    noticed.1.resolve_left not_records_entryContract⟩, _, _, renamed, by decide,
    ⟨_, List.mem_cons_self, _, .here, rfl, rfl⟩, not_binds_renamingStory⟩

end PropStories.Reconciliation
