import PropStories.Contract.Documentation
import PropStories.Tsx.Tree

/-!
# From syntax trees to declared types

Parentheses and `readonly` leave no trace; unions inside unions and intersections inside
intersections become one; an object type that only lists calls is a function.
-/

namespace PropStories.Lower

open Tsx

def shown (x : Syntax) (t : Tree) : String := Text.singleSpaced (x.stringOf t)

def literalForm (x : Syntax) (t : Tree) : TypeForm :=
  match t.kind with
  | .string => .stringLiteral (x.stringOf t)
  | .number | .unary => .numberLiteral (x.stringOf t)
  | .boolTrue => .booleanLiteral true
  | .boolFalse => .booleanLiteral false
  | .null => .null
  | .undefined => .undefined
  | _ => .other

def wordForm : String → TypeForm
  | "null" => .null
  | "undefined" => .undefined
  | "true" => .booleanLiteral true
  | "false" => .booleanLiteral false
  | _ => .other

def methodType (x : Syntax) (member : Tree) : TypeRef :=
  let parameters := ((member.child? .parameters).map x.stringOf).getD "()"
  let result := (((member.child? .returnType).bind Tree.firstPart?).map x.stringOf).getD "void"
  .mk .function (Text.singleSpaced (parameters ++ " => " ++ result))

def anyType : TypeRef := .mk (.keyword "any") "any"

/-- Whether a body has something in it, but nothing besides calls and comments. -/
def isCallable (body : Tree) : Bool :=
  !body.namedChildren.isEmpty && body.parts.all (·.kind == .callSignature)

/-- Each member of a body with the documentation comment that directly precedes it. -/
def documented (x : Syntax) : Option String → List Tree → List (Tree × Option String)
  | _, [] => []
  | pending, t :: ts =>
      if t.kind == .comment then
        let text := x.textOf t
        documented x
          (if Documentation.isDocumentation text then some (String.ofList text) else none) ts
      else (t, pending) :: documented x none ts

theorem mem_of_mem_documented {x : Syntax} {ts : List Tree} {pending : Option String}
    {m : Tree × Option String} (h : m ∈ documented x pending ts) : m.1 ∈ ts := by
  induction ts generalizing pending with
  | nil => simp [documented] at h
  | cons t ts ih =>
      unfold documented at h
      split at h
      · exact List.mem_cons_of_mem _ (ih h)
      · rcases List.mem_cons.1 h with rfl | h
        · exact List.mem_cons_self
        · exact List.mem_cons_of_mem _ (ih h)

def operands (k : Kind) (t : Tree) : List Tree :=
  t.parts.attach.flatMap fun ⟨c, _⟩ => if c.kind == k then operands k c else [c]
termination_by t
decreasing_by exact Tree.sizeOf_lt_of_mem_parts (by assumption)

theorem sizeOf_lt_of_mem_operands {k : Kind} {t c : Tree} (h : c ∈ operands k t) :
    sizeOf c < sizeOf t := by
  induction t using operands.induct with
  | case1 t ih =>
      unfold operands at h
      obtain ⟨⟨d, hd⟩, -, h⟩ := List.mem_flatMap.1 h
      have smaller := Tree.sizeOf_lt_of_mem_parts hd
      dsimp only at h
      split at h
      · exact Nat.lt_trans (ih d hd h) smaller
      · rw [List.mem_singleton.1 h]
        exact smaller

mutual

def type (x : Syntax) (t : Tree) : TypeRef :=
  match t.kind with
  | .readonlyType | .parenthesizedType =>
      match _h : t.firstPart? with
      | some inner => type x inner
      | none => .mk .other (shown x t)
  | _ => .mk (form x t) (shown x t)
termination_by (sizeOf t, 2)
decreasing_by
  · exact .left _ _ (Tree.sizeOf_lt_of_firstPart? _h)
  · exact .right _ (by omega)

def form (x : Syntax) (t : Tree) : TypeForm :=
  match t.kind with
  | .predefinedType => .keyword (x.stringOf t)
  | .literalType => (t.firstPart?.map (literalForm x)).getD (wordForm (x.stringOf t))
  | .typeIdentifier | .nestedTypeIdentifier | .identifier => .named (x.stringOf t) []
  | .genericType =>
      .named (((t.child? .name).map x.stringOf).getD "")
        (match _h : t.child? .typeArguments with
          | some arguments => arguments.parts.attach.map fun ⟨c, _hc⟩ => type x c
          | none => [])
  | .arrayType =>
      match _h : t.firstPart? with
      | some element => .array (type x element)
      | none => .other
  | .unionType => .union ((operands .unionType t).attach.map fun ⟨c, _⟩ => type x c)
  | .intersectionType =>
      .intersection ((operands .intersectionType t).attach.map fun ⟨c, _⟩ => type x c)
  | .objectType => if isCallable t then .function else .object (members x t)
  | .functionType => .function
  | _ => .other
termination_by (sizeOf t, 1)
decreasing_by
  · exact .left _ _ (Nat.lt_trans (Tree.sizeOf_lt_of_mem_parts _hc) (Tree.sizeOf_lt_of_child? _h))
  · exact .left _ _ (Tree.sizeOf_lt_of_firstPart? _h)
  · exact .left _ _ (sizeOf_lt_of_mem_operands (by assumption))
  · exact .left _ _ (sizeOf_lt_of_mem_operands (by assumption))
  · exact .right _ Nat.zero_lt_one

/-- The properties that the members of a body declare; of one name, the first. -/
def members (x : Syntax) (body : Tree) : List Property :=
  Property.merge [] ((documented x none body.namedChildren).attach.filterMap fun ⟨m, _hm⟩ =>
    match m.1.child? .name with
    | none => none
    | some name =>
        let property (t : TypeRef) :=
          some (Property.mk (x.keyName name) t (m.1.hasToken "?") m.2)
        match m.1.kind with
        | .propertySignature =>
            match _h : m.1.child? .type with
            | none => property anyType
            | some ascription =>
                match _h' : ascription.firstPart? with
                | none => property anyType
                | some t => property (type x t)
        | .methodSignature => property (methodType x m.1)
        | _ => none)
termination_by (sizeOf body, 0)
decreasing_by
  have member := Tree.mem_children_of_mem_namedChildren (mem_of_mem_documented _hm)
  exact .left _ _ (Nat.lt_trans (Tree.sizeOf_lt_of_firstPart? _h')
    (Nat.lt_trans (Tree.sizeOf_lt_of_child? _h) (Tree.sizeOf_lt_of_mem_children member)))

end

end PropStories.Lower
