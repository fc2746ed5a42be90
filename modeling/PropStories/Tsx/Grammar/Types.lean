import PropStories.Tsx.Grammar.Basic

/-!
# Types

From the loosest to the tightest: conditional types, unions, intersections, prefixed types,
arrays and indexed types, primary types.
-/

namespace PropStories.Tsx.Grammar

/-! ## Primary types -/

def predefinedType : Rule :=
  anyOf (["any", "number", "boolean", "string", "symbol", "void", "unknown", "never",
    "object"].map fun w => wordNode w .predefinedType) <|>
    .node .predefinedType (word "unique" ++ word "symbol")

def literalType : Rule :=
  .node .literalType (stringLiteral <|> numberLiteral <|>
    .node .unary ((mark "-" <|> mark "+") ++ numberLiteral) <|>
    wordNode "true" .boolTrue <|> wordNode "false" .boolFalse <|> wordNode "null" .null <|>
    wordNode "undefined" .undefined)

def templateType : Rule :=
  .node .templateType (mark "`" ++ .many (.token .templateText .string <|>
    mark "$\x7b" ++ .ref .type ++ mark "\x7d") ++ mark "`")

def typeName : Rule :=
  .node .nestedTypeIdentifier (.token (.name reservedTypeWords) .identifier ++
    markNot "." "." ++ freeName .typeIdentifier ++ .many (mark "." ++ freeName .typeIdentifier)) <|>
    .token (.name reservedTypeWords) .typeIdentifier

def namedType : Rule :=
  .grow typeName [.typeIdentifier, .nestedTypeIdentifier]
    (.node .genericType (.label .typeArguments typeArguments))

def importedType : Rule :=
  .node .importedType (word "import" ++ mark "(" ++ stringLiteral ++ mark ")" ++
    .many (mark "." ++ freeName .typeIdentifier) ++ .opt typeArguments)

def typeQuery : Rule :=
  .node .typeQuery (word "typeof" ++ (importedType <|>
    (identifier <|> wordNode "this" .this) ++
      .many ((mark "?." <|> markNot "." ".") ++ (freeName .propertyIdentifier <|> privateName)) ++
      .opt (.sameLine ++ typeArguments)))

def tupleMember : Rule :=
  .node .tupleMember (.opt (mark "...") ++ freeName .identifier ++ .opt (mark "?") ++
    typeAscription) <|>
  .node .tupleMember (mark "..." ++ .ref .type) <|>
  .node .tupleMember (.ref .type ++ mark "?") <|>
  .ref .type

def tupleType : Rule :=
  .node .tupleType (mark "[" ++ .opt (listOf tupleMember) ++ .opt (mark ",") ++ mark "]")

def parenthesizedType : Rule :=
  .node .parenthesizedType (mark "(" ++ .ref .type ++ mark ")")

def primaryType : Rule :=
  predefinedType <|> literalType <|> templateType <|> wordNode "this" .thisType <|>
    importedType <|> typeQuery <|> namedType <|> .node .objectType (.ref .objectType) <|>
    tupleType <|> parenthesizedType <|> wordNode "const" .predefinedType <|>
    .node .maybeType (mark "?" ++ .ref .typeOperand) <|> .token (.mark "*" "") .predefinedType

/-! ## Compound types -/

def suffixedType : Rule :=
  .grow primaryType [] (.sameLine ++
    (.node .arrayType (mark "[" ++ mark "]") <|>
      .node .lookupType (mark "[" ++ .ref .type ++ mark "]")))

def functionType : Rule :=
  .node .functionType (.opt typeParameters ++ .label .parameters parameters ++ mark "=>" ++
    .label .returnType (asserts <|> predicate <|> .ref .type))

def constructorType : Rule :=
  .node .constructorType (.opt (word "abstract") ++ word "new" ++ .opt typeParameters ++
    .label .parameters parameters ++ mark "=>" ++ .ref .type)

def typeOperand : Rule :=
  functionType <|> constructorType <|>
    .node .readonlyType (modifier "readonly" ++ .ref .type) <|>
    .node .inferType (word "infer" ++ freeName .typeIdentifier ++
      .opt (word "extends" ++ .ref .type)) <|>
    .node .keyofType (word "keyof" ++ .ref .typeOperand) <|>
    suffixedType

def intersectionType : Rule :=
  let more := .node .intersectionType (mark "&" ++ .ref .typeOperand)
  .grow (more <|> .ref .typeOperand) [] more

def unionType : Rule :=
  let more := .node .unionType (mark "|" ++ intersectionType)
  .grow (more <|> intersectionType) [] more

def type : Rule :=
  .grow unionType [] (.node .conditionalType
    (word "extends" ++ unionType ++ mark "?" ++ .ref .type ++ mark ":" ++ .ref .type))

/-! ## Members of object types -/

def memberModifiers : Rule :=
  .opt accessModifier ++ .opt (modifier "static") ++ .opt (modifier "override") ++
    .opt (modifier "readonly")

def methodSignature : Rule :=
  .node .methodSignature (memberModifiers ++ .opt (modifier "async") ++ .opt starOrAccessor ++
    .label .name propertyName ++ .opt (mark "?") ++ callHead)

def propertySignature : Rule :=
  .node .propertySignature (memberModifiers ++ .label .name propertyName ++ .opt (mark "?") ++
    annotated)

def callSignature : Rule := .node .callSignature callHead

def constructSignature : Rule :=
  .node .constructSignature (.opt (word "abstract") ++ word "new" ++ .opt typeParameters ++
    parameters ++ annotated)

def indexSignature : Rule :=
  let sign := .opt (mark "-" <|> mark "+")
  .node .indexSignature (.opt (sign ++ word "readonly") ++ mark "[" ++
    (freeName .identifier ++ mark ":" ++ .ref .type <|>
      freeName .typeIdentifier ++ word "in" ++ .ref .type ++ .opt (word "as" ++ .ref .type)) ++
    mark "]" ++
    (typeAscription <|> .node .typeAscription (sign ++ mark "?" ++ mark ":" ++ .ref .type)))

def typeMember : Rule :=
  constructSignature <|> callSignature <|> indexSignature <|> methodSignature <|>
    propertySignature

def objectType : Rule :=
  mark "\x7b" ++
    .opt (.opt (mark "," <|> mark ";") ++ typeMember ++ .many (memberEnd ++ typeMember) ++
      .opt memberEnd) ++
    mark "\x7d"

end PropStories.Tsx.Grammar
