import PropStories.Tsx.Grammar.Basic

/-!
# Expressions

From the tightest to the loosest: primary expressions, chains of members and calls, operands with
their prefixes, binary operators by level, conditional expressions, sequences. Elements of JSX are
primary expressions.
-/

namespace PropStories.Tsx.Grammar

/-! ## Literals -/

def templateString : Rule :=
  .node .templateString (mark "`" ++ .many (.token .templateText .string <|>
    .node .templateSubstitution (mark "$\x7b" ++ .ref .expression ++
      .many (mark "," ++ .ref .expression) ++ mark "\x7d")) ++ mark "`")

def spread : Rule := .node .spread (mark "..." ++ .ref .expression)

def pair : Rule :=
  .node .pair (.label .key propertyName ++ mark ":" ++ .label .value (.ref .expression))

def methodModifiers : Rule :=
  .opt accessModifier ++ .opt (modifier "static") ++ .opt (modifier "override") ++
    .opt (modifier "readonly") ++ .opt (modifier "async") ++ .opt starOrAccessor

def method : Rule :=
  .node .method (methodModifiers ++ .label .name propertyName ++ .opt (mark "?") ++ callHead ++
    .label .body (.ref .block))

def reservedPropertyWords : List String := reservedWords.removeAll ["export", "new"]

def shorthandProperty : Rule := .token (.name reservedPropertyWords) .shorthandProperty

def objectMember : Rule := pair <|> spread <|> method <|> shorthandProperty

def objectLiteral : Rule :=
  .node .object (mark "\x7b" ++ holedListOf objectMember ++ mark "\x7d")

def arrayLiteral : Rule :=
  .node .array (mark "[" ++ holedListOf (.ref .expression <|> spread) ++ mark "]")

def arguments : Rule :=
  .node .arguments (mark "(" ++ holedListOf (.ref .expression <|> spread) ++ mark ")")

/-! ## Elements -/

def elementName : Rule :=
  .token .jsxName .identifier ++
    (.many (mark "." ++ .token .jsxName .identifier) ++
      .opt (mark ":" ++ .token .jsxName .identifier))

def jsxExpression : Rule :=
  .node .jsxExpression (mark "\x7b" ++
    .opt (spread <|> .ref .expression ++ .many (mark "," ++ .ref .expression)) ++ mark "\x7d")

def jsxAttribute : Rule :=
  .node .jsxAttribute (.token .jsxName .propertyIdentifier ++
    .opt (mark ":" ++ .token .jsxName .propertyIdentifier) ++
    .opt (mark "=" ++ (.token .jsxString .string <|> jsxExpression <|> .ref .element))) <|>
  jsxExpression

def elementChild : Rule :=
  .token .jsxText .jsxText <|> .token .entity .entity <|> .token .markupComment .comment <|>
    .ref .element <|> jsxExpression

/-- An element, alone or with children; the name at its end is free. -/
def element : Rule :=
  let content := .many elementChild ++ mark "<" ++ mark "/" ++ .opt elementName ++ mark ">"
  .node .jsxElement (markNot "<" "/" ++
    (elementName ++ .opt typeArguments ++ .many jsxAttribute ++
      (mark "/" ++ mark ">" <|> mark ">" ++ content) <|>
    mark ">" ++ content))

/-! ## Functions -/

def functionBody : Rule := .label .body (.ref .block)

def asyncPrefix : Rule := .opt (word "async")

def functionExpression : Rule :=
  .node .function (asyncPrefix ++ word "function" ++
    .opt (.label .name (.token (.name reservedWords) .identifier)) ++ callHead ++ functionBody) <|>
  .node .generator (asyncPrefix ++ word "function" ++ mark "*" ++
    .opt (.label .name (.token (.name reservedWords) .identifier)) ++ callHead ++ functionBody)

def arrow : Rule :=
  let tail := mark "=>" ++ .label .body (.ref .block <|> .ref .expression)
  let head := identifier <|> callHead
  .node .arrow (word "async" ++ head ++ tail) <|> .node .arrow (head ++ tail)

def classHeritage : Rule :=
  .opt (word "extends" ++ .ref .chain ++ .opt typeArguments) ++
    .opt (word "implements" ++ listOf (.ref .type))

def classExpression : Rule :=
  .node .classValue (.many decorator ++ word "class" ++
    .opt (.without (word "extends" <|> word "implements") ++ .label .name identifier) ++
    .opt typeParameters ++ classHeritage ++ .label .body (.ref .classBody))

/-! ## Primary expressions -/

def sequence : Rule :=
  .grow (.ref .expression) [] (.node .sequence (mark "," ++ .ref .expression))

def parenthesized : Rule :=
  .node .parenthesized (mark "(" ++ sequence ++ .opt typeAscription ++ mark ")")

def keywordExpression : Rule :=
  wordNode "this" .this <|> wordNode "super" .super <|> wordNode "true" .boolTrue <|>
    wordNode "false" .boolFalse <|> wordNode "null" .null <|> wordNode "undefined" .undefined <|>
    wordNode "import" .importWord ++ .follows (mark "(" <|> mark ".")

def assignedPattern : Rule := .ref .pattern ++ .follows (markNot "=" "=>")

def primary : Rule :=
  functionExpression <|> identifier <|> stringLiteral <|> numberLiteral <|> parenthesized <|>
    objectLiteral <|> arrayLiteral <|> .ref .element <|> templateString <|>
    keywordExpression <|> classExpression <|> .token .regex .regex <|> assignedPattern

/-! ## Chains -/

def memberSuffix : Rule :=
  .node .member ((markNot "?." "0123456789" <|> markNot "." ".") ++
    (freeName .propertyIdentifier <|> privateName)) <|>
  .node .subscript (.opt (markNot "?." "0123456789") ++ mark "[" ++ sequence ++ mark "]") <|>
  .node .nonNull (.sameLine ++ markNot "!" "=")

def newExpression : Rule :=
  .node .new (word "new" ++ (.ref .memberChain <|> mark "." ++ freeName .propertyIdentifier) ++
    .opt typeArguments ++ .opt (.label .arguments arguments))

def memberChain : Rule := .grow (newExpression <|> primary) [] memberSuffix

def callSuffix : Rule :=
  .node .call (.opt (markNot "?." "0123456789") ++ .opt (.label .typeArguments typeArguments) ++
    .label .arguments arguments) <|>
  .node .call (.opt (.label .typeArguments typeArguments) ++
    .label .arguments templateString) <|>
  .node .instantiation (typeArguments ++
    .follows (anyMark [")", "]", ",", ";", "\x7d", ":"] <|> .token .endOfInput .missing))

def assignableKinds : List Kind :=
  [.identifier, .member, .subscript, .nonNull, .parenthesized, .object, .array, .objectPattern,
    .arrayPattern]

def assignmentMark : Rule :=
  markNot "=" "=>" <|> anyMark ["+=", "-=", "*=", "/=", "%=", "^=", "&=", "|=", ">>>=", ">>=",
    "<<=", "**=", "&&=", "||=", "??="]

def chain : Rule :=
  .grow (.grow (newExpression <|> primary) [] (memberSuffix <|> callSuffix)) assignableKinds
    (.node .assignment (assignmentMark ++ .label .value (.ref .expression)))

/-! ## Operands -/

def updated : Rule :=
  .grow (.ref .chain) [] (.node .update (.sameLine ++ (mark "++" <|> mark "--")))

def yield : Rule :=
  .node .yield (word "yield" ++ (mark "*" ++ .ref .expression <|> .opt (.ref .expression)))

def operand : Rule :=
  arrow <|>
    .node .unary ((mark "!" <|> mark "~" <|> markNot "-" "-" <|> markNot "+" "+" <|>
      anyWord ["typeof", "void", "delete"]) ++ .ref .operand) <|>
    .node .update ((mark "++" <|> mark "--") ++ .ref .operand) <|>
    .node .await (word "await" ++ .ref .operand) <|> yield <|> updated

/-! ## Binary operators -/

def level (operators : Rule) (tighter : Rule) : Rule :=
  .grow tighter [] (.node .binary (operators ++ tighter))

def powers : Rule := level (markNot "**" "=") (.ref .operand)

def products : Rule := level (markNot "*" "*=" <|> markNot "/" "=" <|> markNot "%" "=") powers

def sums : Rule := level (markNot "+" "+=" <|> markNot "-" "-=") products

def shifts : Rule := level (markNot ">>>" "=" <|> markNot ">>" ">=" <|> markNot "<<" "=") sums

/-- Whether an object has a private property is asked by the name alone. -/
def relations : Rule :=
  .grow (privateName ++ .follows (word "in") <|> shifts) []
    (.node .binary ((mark "<=" <|> mark ">=" <|> markNot "<" "<=" <|> markNot ">" ">=" <|>
      word "instanceof" <|> word "in") ++ shifts) <|>
    .node .as (word "as" ++ .ref .type) <|>
    .node .satisfies (word "satisfies" ++ .ref .type))

def equalities : Rule := level (anyMark ["===", "!==", "==", "!="]) relations

def conjunctions : Rule :=
  let bitAnd := level (markNot "&" "&=") equalities
  let bitXor := level (markNot "^" "=") bitAnd
  let bitOr := level (markNot "|" "|=") bitXor
  level (markNot "&&" "=") bitOr

def disjunctions : Rule := level (markNot "||" "=" <|> markNot "??" "=") conjunctions

def expression : Rule :=
  .grow disjunctions []
    (.node .ternary (.token .ternaryMark (.token "?") ++ .ref .expression ++ mark ":" ++
      .ref .expression) <|>
    .node .ternary (.token .ternaryMark (.token "?") ++ .ref .chain ++ mark ":" ++
      .ref .expression))

/-! ## Patterns -/

def elementPattern : Rule := .ref .pattern ++ .opt initializer

def objectPattern : Rule :=
  .node .objectPattern (mark "\x7b" ++ holedListOf
    (.node .restPattern (mark "..." ++ .ref .pattern) <|>
      .node .pairPattern (.label .key propertyName ++ mark ":" ++ elementPattern) <|>
      .node .assignmentPattern (shorthandProperty ++ initializer) <|>
      shorthandProperty) ++ mark "\x7d")

def arrayPattern : Rule :=
  .node .arrayPattern (mark "[" ++ holedListOf elementPattern ++ mark "]")

def pattern : Rule :=
  identifier <|> objectPattern <|> arrayPattern <|>
    .node .restPattern (mark "..." ++ .ref .pattern)

end PropStories.Tsx.Grammar
