import PropStories.Tsx.Rule

/-!
# Building blocks of the grammar

Words, marks, lists, names and signatures, which types, expressions and statements share.
-/

namespace PropStories.Tsx.Grammar

/-! ## Words, marks and lists -/

def word (w : String) : Rule := .token (.word w) (.token w)

def wordNode (w : String) (k : Kind) : Rule := .token (.word w) k

def mark (m : String) : Rule := .token (.mark m "") (.token m)

/-- A mark that none of the characters `stops` follows. -/
def markNot (m stops : String) : Rule := .token (.mark m stops) (.token m)

def listOf (item : Rule) : Rule := item ++ .many (mark "," ++ item)

def holedListOf (item : Rule) : Rule := .opt item ++ .many (mark "," ++ .opt item)

def anyOf : List Rule → Rule
  | [] => .without .empty
  | [r] => r
  | r :: rs => r <|> anyOf rs

def anyWord (ws : List String) : Rule := anyOf (ws.map word)

def anyMark (ms : List String) : Rule := anyOf (ms.map mark)

/-! ## Names -/

def reservedWords : List String :=
  ["break", "case", "catch", "class", "const", "continue", "debugger", "default", "delete", "do",
    "else", "extends", "false", "finally", "for", "function", "if", "import", "in", "instanceof",
    "new", "null", "return", "super", "switch", "this", "throw", "true", "try", "typeof", "var",
    "void", "while", "with", "yield", "await", "undefined", "export"]

def reservedTypeWords : List String :=
  ["any", "number", "boolean", "string", "symbol", "void", "unknown", "never", "object", "null",
    "undefined", "true", "false", "this", "typeof", "new", "keyof", "infer", "readonly", "import",
    "const", "extends", "function"]

def identifier : Rule := .token (.name reservedWords) .identifier

def freeName (k : Kind) : Rule := .token (.name []) k

def privateName : Rule := .token .privateName .privateIdentifier

def stringLiteral : Rule := .token .string .string

def numberLiteral : Rule := .token .number .number

def computedName : Rule := .node .computedName (mark "[" ++ .ref .expression ++ mark "]")

def propertyName : Rule :=
  freeName .propertyIdentifier <|> stringLiteral <|> numberLiteral <|> privateName <|> computedName

/-- A word in front of a member that is not the name of the member itself. -/
def modifier (w : String) : Rule :=
  word w ++ .without (anyMark ["(", ":", "?", "<", ";", ",", "\x7d", "=", "!", ")"])

def accessModifier : Rule :=
  .node .accessModifier (anyOf (["public", "private", "protected"].map modifier))

def starOrAccessor : Rule := modifier "get" <|> modifier "set" <|> mark "*"

/-! ## Signatures -/

def typeAscription : Rule := .node .typeAscription (mark ":" ++ .ref .type)

def annotated : Rule := .opt (.label .type typeAscription)

def initializer : Rule := markNot "=" "=>" ++ .label .value (.ref .expression)

def typeParameters : Rule :=
  .node .typeParameters (mark "<" ++ listOf (.node .typeParameter
    (.opt (word "const") ++ .token (.name reservedTypeWords) .typeIdentifier ++
      .opt (word "extends" ++ .ref .type) ++ .opt (mark "=" ++ .ref .type))) ++
    .opt (mark ",") ++ mark ">")

def typeArguments : Rule :=
  .node .typeArguments (mark "<" ++ listOf (.ref .type) ++ .opt (mark ",") ++ mark ">")

def decorator : Rule := .node .decorator (mark "@" ++ .ref .chain)

def parameter : Rule :=
  .node .parameter (.many decorator ++ .opt accessModifier ++ .opt (modifier "override") ++
    .opt (modifier "readonly") ++ .label .name (wordNode "this" .this <|> .ref .pattern) ++
    .opt (mark "?") ++ annotated ++ .opt initializer)

def parameters : Rule :=
  .node .parameters (mark "(" ++ .opt (listOf parameter ++ .opt (mark ",")) ++ mark ")")

def predicate : Rule :=
  .node .predicate ((identifier <|> wordNode "this" .this) ++ word "is" ++ .ref .type)

def asserts : Rule :=
  .node .asserts (word "asserts" ++ (predicate <|> identifier <|> wordNode "this" .this))

def returnType : Rule :=
  .node .typeAscription (mark ":" ++ (asserts <|> predicate <|> .ref .type))

def callHead : Rule :=
  .opt (.label .typeArguments typeParameters) ++ .label .parameters parameters ++
    .opt (.label .returnType returnType)

/-! ## Ends of statements -/

def statementEnd : Rule := mark ";" <|> .token (.ending .expression) .missing

def memberEnd : Rule := mark "," <|> mark ";" <|> .token (.ending .typeMember) .missing

end PropStories.Tsx.Grammar
