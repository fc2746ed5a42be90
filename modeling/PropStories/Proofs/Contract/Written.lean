import PropStories.Proofs.Contract.Forms
import PropStories.Proofs.Tsx.Literals

/-!
# Types as written

A type that was lowered from a source without a fault keeps what can be written again: its literals
are values, and the properties of an object type have distinct names. Following names through the
declarations of the file keeps this up, so it holds of every shape and of every contract.
-/

namespace PropStories

open Tsx

/-! ## Written types -/

def TypeForm.literal? : TypeForm → Option String
  | .stringLiteral v | .numberLiteral v => some v
  | _ => none

/-- Literals are values, and properties of one object have distinct names, wherever they stand in
the type. -/
inductive TypeRef.Written : TypeRef → Prop
  | mk {f : TypeForm} {text : String} (literal : ∀ v, f.literal? = some v → IsValue v.toList)
      (names : ∀ ps, f = .object ps → DistinctNames ps) (parts : ∀ t ∈ f.parts, Written t) :
      Written (.mk f text)

structure WrittenProperties (ps : List Property) : Prop where
  names : DistinctNames ps
  types : ∀ p ∈ ps, p.type.Written

def Declaration.Written : Declaration → Prop
  | .interface ps bases => WrittenProperties ps ∧ ∀ b ∈ bases, b.Written
  | .aliasOf t => t.Written

def Shape.Written : Shape → Prop
  | .array (some e) => e.Written
  | .literals u => ∀ v ∈ u.values, IsValue v.toList
  | .object ps => WrittenProperties ps
  | _ => True

def Declarations.Written (ds : Declarations) : Prop := ∀ n d, ds.lookup n = some d → d.Written

/-! ## Written forms -/

structure TypeForm.IsWritten (f : TypeForm) : Prop where
  literal : ∀ v, f.literal? = some v → IsValue v.toList
  names : ∀ ps, f = .object ps → DistinctNames ps

theorem TypeForm.isWritten_of_plain {f : TypeForm} (literal : f.literal? = none)
    (names : ∀ ps, f ≠ .object ps) : f.IsWritten :=
  ⟨fun _ h => (nomatch literal.symm.trans h), fun ps h => absurd h (names ps)⟩

theorem TypeForm.isWritten_object {ps : List Property} (h : DistinctNames ps) :
    (TypeForm.object ps).IsWritten :=
  ⟨nofun, fun _ eq => TypeForm.object.inj eq ▸ h⟩

theorem TypeRef.written_iff {t : TypeRef} : t.Written ↔ t.All TypeForm.IsWritten := by
  constructor <;> intro h
  · induction h with
    | mk literal names _ ih => exact .mk ⟨literal, names⟩ ih
  · induction h with
    | mk here _ ih => exact .mk here.literal here.names ih

theorem writtenProperties_iff {ps : List Property} :
    WrittenProperties ps ↔ AllProperties TypeForm.IsWritten ps :=
  ⟨fun h => ⟨TypeForm.isWritten_object h.names, fun p hp => TypeRef.written_iff.1 (h.types p hp)⟩,
    fun h => ⟨h.here.names ps rfl, fun p hp => TypeRef.written_iff.2 (h.types p hp)⟩⟩

theorem Declaration.written_iff {d : Declaration} : d.Written ↔ d.All TypeForm.IsWritten := by
  cases d with
  | interface ps bases =>
      exact and_congr writtenProperties_iff (forall₂_congr fun _ _ => TypeRef.written_iff)
  | aliasOf t => exact TypeRef.written_iff

theorem Shape.written_of_all {s : Shape} (h : s.All TypeForm.IsWritten) : s.Written := by
  match s, h with
  | .array (some _), h => exact TypeRef.written_iff.2 h
  | .literals (.strings _), h => exact fun v hv => (h v hv).literal v rfl
  | .literals (.numbers _), h => exact fun v hv => (h v hv).literal v rfl
  | .object _, h => exact writtenProperties_iff.2 h
  | .string, _ | .number, _ | .boolean, _ | .array none, _ | .function, _ | .node, _
  | .unknown, _ => trivial

theorem merges_isWritten : Merges TypeForm.IsWritten where
  empty := TypeForm.isWritten_object .nil
  merge hf _ := TypeForm.isWritten_object (Property.distinct_merge (hf.names _ rfl) _)

theorem Declarations.classify_written {ds : Declarations} (hd : ds.Written) {t : TypeRef}
    (h : t.Written) : (ds.classify t).Written :=
  Shape.written_of_all (classify_all merges_isWritten
    (fun n d found => Declaration.written_iff.1 (hd n d found)) (TypeRef.written_iff.1 h))

/-! ## Lowering -/

namespace Lower

variable {x : Syntax} {t : Tree}

theorem literal_written {v : String} (h : LiteralFits x.source t)
    (literal : (literalForm x t).literal? = some v) : IsValue v.toList := by
  have text : (x.stringOf t).toList = Text.slice x.source t.start t.stop := String.toList_ofList
  unfold literalForm at literal
  unfold LiteralFits at h
  split at literal
  all_goals rename_i kind
  all_goals simp only [kind] at h
  · obtain rfl := Option.some.inj literal
    exact text ▸ h
  · obtain rfl := Option.some.inj literal
    exact text ▸ h
  · obtain rfl := Option.some.inj literal
    exact text ▸ h
  all_goals cases literal

theorem literal?_wordForm (w : String) : (wordForm w).literal? = none := by
  unfold wordForm
  split <;> rfl

theorem form_literal (h : Spelled x.source t) {v : String}
    (literal : (form x t).literal? = some v) : IsValue v.toList := by
  unfold form at literal
  split at literal
  case h_2 kind =>
    cases first : t.firstPart? with
    | none =>
        rw [first, Option.map_none, Option.getD_none, literal?_wordForm] at literal
        cases literal
    | some c =>
        rw [first] at literal
        exact literal_written (h.holds_child kind (Tree.mem_children_of_firstPart? first)) literal
  case h_7 => split at literal <;> cases literal
  case h_10 => split at literal <;> cases literal
  all_goals cases literal

theorem lowers_spelled (x : Syntax) : Lowers x (Spelled x.source) TypeForm.IsWritten where
  toMerges := merges_isWritten
  child h hu := h.child hu
  form h := ⟨fun _ => form_literal h, fun _ => distinct_of_form⟩
  members _ := TypeForm.isWritten_object (distinct_members _ _)
  other := TypeForm.isWritten_of_plain rfl nofun
  function := TypeForm.isWritten_of_plain rfl nofun
  any := TypeForm.isWritten_of_plain rfl nofun

end Lower

/-- Every contract of a source without a fault has distinct properties of written types, and so have
the types that its file declares. -/
theorem Analysis.ofSource_written {source : String}
    (clear : (parse source.toList).hasFault = false) :
    (∀ c ∈ (ofSource source).1.contracts, WrittenProperties c.properties) ∧
      ∀ ds, (ofSource source).1.declarations = some ds → ds.Written := by
  have spelled : Spelled (parse source.toList).source (parse source.toList).root := by
    rw [parse_source]
    exact parse_spelled clear
  have items := FileItem.ofFile_all (Lower.lowers_spelled (parse source.toList)) spelled
  have name n : (TypeForm.named n []).IsWritten :=
    TypeForm.isWritten_of_plain rfl nofun
  refine ⟨fun c hc => writtenProperties_iff.2 (ofItems_all merges_isWritten name items c hc), ?_⟩
  rintro ds eq n d found
  obtain rfl := Option.some.inj eq
  exact Declaration.written_iff.2 (FileItem.declarations_all items n d found)

end PropStories
