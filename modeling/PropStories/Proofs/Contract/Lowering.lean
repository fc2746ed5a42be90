import PropStories.Contract.Lower
import PropStories.Proofs.Contract.Merge

/-!
# How types are lowered

Equations for the lowering of each kind of node that has nodes below it.
-/

namespace PropStories.Lower

open Tsx

variable {x : Syntax} {t : Tree}

/-! ## Types -/

theorem type_of_parenthesized (kind : t.kind = .parenthesizedType ∨ t.kind = .readonlyType) :
    type x t = (t.firstPart?.map (type x)).getD (.mk .other (shown x t)) := by
  rw [type]
  obtain kind | kind := kind
  all_goals
    simp only [kind]
    split
    all_goals
      rename_i h
      rw [h]
      rfl

theorem type_of_plain (kind : t.kind ≠ .parenthesizedType ∧ t.kind ≠ .readonlyType) :
    type x t = .mk (form x t) (shown x t) := by
  rw [type]
  split
  next h => exact absurd h kind.2
  next h => exact absurd h kind.1
  next => rfl

theorem operands_eq (k : Kind) (t : Tree) :
    operands k t = t.parts.flatMap fun c => if c.kind == k then operands k c else [c] := by
  rw [operands]
  exact (List.flatMap_subtype fun _ _ => rfl).trans (congrArg _ List.unattach_attach)

theorem form_of_literal (kind : t.kind = .literalType) :
    form x t = (t.firstPart?.map (literalForm x)).getD (wordForm (x.stringOf t)) := by
  rw [form]
  simp only [kind]

theorem form_of_name (kind : t.kind = .typeIdentifier) : form x t = .named (x.stringOf t) [] := by
  rw [form]
  simp only [kind]

theorem form_of_generic (kind : t.kind = .genericType) :
    form x t = .named (((t.child? .name).map x.stringOf).getD "")
      (((t.child? .typeArguments).map fun a => a.parts.map (type x)).getD []) := by
  rw [form]
  simp only [kind]
  congr 1
  split
  · rename_i h
    rw [h, List.map_subtype fun _ _ => rfl, List.unattach_attach]
    rfl
  · rename_i h
    rw [h]
    rfl

theorem form_of_array (kind : t.kind = .arrayType) :
    form x t = (t.firstPart?.map fun e => .array (type x e)).getD .other := by
  rw [form]
  simp only [kind]
  split
  all_goals
    rename_i h
    rw [h]
    rfl

theorem form_of_union (kind : t.kind = .unionType) :
    form x t = .union ((operands .unionType t).map (type x)) := by
  rw [form]
  simp only [kind]
  rw [List.map_subtype fun _ _ => rfl, List.unattach_attach]

theorem form_of_intersection (kind : t.kind = .intersectionType) :
    form x t = .intersection ((operands .intersectionType t).map (type x)) := by
  rw [form]
  simp only [kind]
  rw [List.map_subtype fun _ _ => rfl, List.unattach_attach]

theorem form_of_object (kind : t.kind = .objectType) :
    form x t = if isCallable t then .function else .object (members x t) := by
  rw [form]
  simp only [kind]

/-! ## Members -/

def memberType? (x : Syntax) (m : Tree) : Option TypeRef :=
  match m.kind with
  | .propertySignature =>
      some ((((m.child? .type).bind Tree.firstPart?).map (type x)).getD anyType)
  | .methodSignature => some (methodType x m)
  | _ => none

def property? (x : Syntax) (m : Tree × Option String) : Option Property :=
  ((m.1.child? .name).map x.keyName).bind fun name =>
    (memberType? x m.1).map fun t => .mk name t (m.1.hasToken "?") m.2

def listed (x : Syntax) (body : Tree) : List Property :=
  (documented x none body.namedChildren).filterMap (property? x)

theorem members_eq (x : Syntax) (body : Tree) :
    members x body = Property.firstOfEachName (listed x body) := by
  rw [members, Property.merge_eq .nil, List.nil_append]
  -- The definition passes on that each member is a child, which only its termination needs.
  refine congrArg _ (Eq.trans (List.filterMap_subtype fun m hm => ?_)
    (congrArg _ List.unattach_attach))
  unfold property? memberType?
  dsimp only
  split
  · rename_i none
    rw [none]
    rfl
  · rename_i name found
    rw [found]
    dsimp only [Option.map_some, Option.bind_some]
    cases kind : m.1.kind
    case propertySignature =>
      dsimp only
      split
      · rename_i h
        rw [h]
        rfl
      · rename_i h
        rw [h]
        dsimp only [Option.bind_some]
        split
        all_goals
          rename_i h
          rw [h]
          rfl
    all_goals rfl

theorem distinct_members (x : Syntax) (body : Tree) : DistinctNames (members x body) := by
  rw [members_eq]
  exact Property.distinct_firstOfEachName _

end PropStories.Lower
