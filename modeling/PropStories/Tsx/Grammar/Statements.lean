import PropStories.Tsx.Grammar.Expressions
import PropStories.Tsx.Grammar.Types

/-!
# Statements and declarations
-/

namespace PropStories.Tsx.Grammar

/-! ## Variables -/

def declaredName : Rule :=
  freeName .identifier <|> objectPattern <|> arrayPattern

def variableDeclarator : Rule :=
  .node .variableDeclarator (.label .name declaredName ++
    .opt (mark "!") ++ annotated ++ .opt initializer)

def lexicalDeclaration : Rule :=
  .node .lexicalDeclaration ((word "const" <|> word "let") ++ listOf variableDeclarator ++
    statementEnd)

def variableDeclaration : Rule :=
  .node .variableDeclaration (word "var" ++ listOf variableDeclarator ++ statementEnd)

/-! ## Functions and classes -/

def functionName : Rule := .label .name (.token (.name reservedWords) .identifier)

def functionDeclaration : Rule :=
  .node .functionDeclaration (asyncPrefix ++ word "function" ++ functionName ++ callHead ++
    functionBody) <|>
  .node .generatorDeclaration (asyncPrefix ++ word "function" ++ mark "*" ++ functionName ++
    callHead ++ functionBody) <|>
  .node .functionSignature (asyncPrefix ++ word "function" ++ functionName ++ callHead ++
    (mark ";" <|> .token (.ending .signature) .missing))

def classDeclaration : Rule :=
  .node .classDeclaration (.many decorator ++ .opt (word "abstract") ++ word "class" ++
    .label .name identifier ++ .opt typeParameters ++ classHeritage ++
    .label .body (.ref .classBody))

def fieldModifiers : Rule :=
  .many (anyOf (["declare", "public", "private", "protected", "static", "override", "abstract",
    "readonly", "accessor", "async"].map modifier))

def classMember : Rule :=
  let head := .many decorator ++ fieldModifiers ++ .opt starOrAccessor ++
    .label .name propertyName ++ .opt (mark "?" <|> mark "!")
  let memberStop := statementEnd <|> mark ","
  .node .method (head ++ callHead ++ functionBody ++ .opt (mark ";")) <|>
  .node .methodSignature (head ++ callHead ++ memberStop) <|>
  .node .classMember (word "static" ++ .ref .block) <|>
  .node .classMember (indexSignature ++ memberStop) <|>
  .node .classMember (head ++ annotated ++ .opt initializer ++ memberStop) <|>
  mark ";"

def classBody : Rule :=
  .node .classBody (mark "\x7b" ++ .many classMember ++ mark "\x7d")

/-! ## Types and modules -/

def interfaceDeclaration : Rule :=
  .node .interfaceDeclaration (word "interface" ++
    .label .name (.token (.name reservedTypeWords) .typeIdentifier) ++ .opt typeParameters ++
    .opt (.node .extendsClause (word "extends" ++ listOf namedType)) ++
    .label .body (.node .interfaceBody (.ref .objectType)))

def typeAliasDeclaration : Rule :=
  .node .typeAliasDeclaration (word "type" ++
    .label .name (.token (.name reservedTypeWords) .typeIdentifier) ++ .opt typeParameters ++
    mark "=" ++ .label .value (.ref .type) ++ statementEnd)

def enumDeclaration : Rule :=
  .node .enumDeclaration (.opt (word "const") ++ word "enum" ++ .label .name identifier ++
    mark "\x7b" ++ .opt (listOf (propertyName ++ .opt initializer) ++ .opt (mark ",")) ++
    mark "\x7d")

def dottedName : Rule := identifier ++ .many (mark "." ++ freeName .identifier)

def moduleDeclaration : Rule :=
  .node .moduleDeclaration ((word "namespace" <|> word "module") ++
    (stringLiteral <|> dottedName) ++ .opt (.ref .block))

def importAlias : Rule :=
  .node .importAlias (word "import" ++ identifier ++ mark "=" ++
    .without (word "require") ++ dottedName ++ statementEnd)

def plainDeclaration : Rule :=
  functionDeclaration <|> classDeclaration <|> enumDeclaration <|> lexicalDeclaration <|>
    variableDeclaration <|> interfaceDeclaration <|> typeAliasDeclaration <|>
    moduleDeclaration <|> importAlias

def declaration : Rule :=
  .node .ambientDeclaration (word "declare" ++
    (plainDeclaration <|> word "global" ++ .ref .block)) <|>
  plainDeclaration

/-! ## Imports and exports -/

def fromClause : Rule := word "from" ++ stringLiteral

def moduleName : Rule := freeName .identifier <|> stringLiteral

def importSpecifier : Rule :=
  let plain := moduleName ++ .opt (word "as" ++ freeName .identifier)
  (word "type" <|> word "typeof") ++ plain ++ .follows (mark "," <|> mark "\x7d") <|> plain

def importClause : Rule :=
  let star := mark "*" ++ word "as" ++ identifier
  let braces := mark "\x7b" ++ .opt (listOf importSpecifier) ++ .opt (mark ",") ++ mark "\x7d"
  .node .importClause (star <|> braces <|>
    identifier ++ .opt (mark "," ++ (star <|> braces)))

def importStatement : Rule :=
  let source :=
    importClause ++ fromClause <|>
    identifier ++ mark "=" ++ word "require" ++ mark "(" ++ stringLiteral ++ mark ")" <|>
    stringLiteral
  let attributes := .opt ((word "with" <|> word "assert") ++ objectLiteral)
  .node .importStatement (word "import" ++
    ((word "type" <|> word "typeof") ++ source <|> source) ++ attributes ++ statementEnd)

def exportClause : Rule :=
  let plain := moduleName ++ .opt (word "as" ++ moduleName)
  let ofType :=
    (word "type" <|> word "typeof") ++ plain ++ .follows (mark "," <|> mark "\x7d")
  .node .exportClause
    (mark "\x7b" ++ .opt (listOf (ofType <|> plain)) ++ .opt (mark ",") ++ mark "\x7d")

def exportStatement : Rule :=
  .node .exportStatement (.many decorator ++ word "export" ++
    (mark "*" ++ .opt (word "as" ++ moduleName) ++ fromClause ++ statementEnd <|>
    exportClause ++ .opt fromClause ++ statementEnd <|>
    word "type" ++ exportClause ++ .opt fromClause ++ statementEnd <|>
    mark "=" ++ .ref .expression ++ statementEnd <|>
    word "as" ++ word "namespace" ++ identifier ++ statementEnd <|>
    word "default" ++ (.label .declaration declaration <|>
      .label .value (.ref .expression) ++ statementEnd) <|>
    .label .declaration declaration))

/-! ## Control flow -/

def block : Rule := .node .block (mark "\x7b" ++ .many (.ref .statement) ++ mark "\x7d")

def condition : Rule := parenthesized

def forStatement : Rule :=
  let binding := (word "var" <|> word "let" <|> word "const") ++ declaredName ++ .opt initializer
  let each := (binding <|> .ref .chain) ++ (word "in" <|> word "of") ++ sequence
  let step := mark ";" <|> sequence ++ mark ";"
  let classic := (lexicalDeclaration <|> variableDeclaration <|> step) ++ step ++ .opt sequence
  word "for" ++ .opt (word "await") ++ mark "(" ++ (each <|> classic) ++ mark ")" ++
    .ref .statement

def switchStatement : Rule :=
  let body := .many (.without (word "case" <|> word "default" ++ mark ":") ++ .ref .statement)
  word "switch" ++ condition ++ mark "\x7b" ++
    .many (.node .switchCase (word "case" ++ sequence ++ mark ":" ++ body) <|>
      .node .switchCase (word "default" ++ mark ":" ++ body)) ++
    mark "\x7d"

def tryStatement : Rule :=
  word "try" ++ .ref .block ++
    .opt (word "catch" ++ .opt (mark "(" ++ .ref .pattern ++ annotated ++ mark ")") ++
      .ref .block) ++
    .opt (word "finally" ++ .ref .block)

def controlStatement : Rule :=
  .node .controlStatement
    (word "if" ++ condition ++ .ref .statement ++ .opt (word "else" ++ .ref .statement) <|>
    forStatement <|> switchStatement <|> tryStatement <|>
    (word "while" <|> word "with") ++ condition ++ .ref .statement <|>
    word "do" ++ .ref .statement ++ word "while" ++ condition ++ .opt statementEnd <|>
    (word "break" <|> word "continue") ++ .opt (.sameLine ++ identifier) ++ statementEnd <|>
    word "return" ++ .opt (.sameLine ++ sequence) ++ statementEnd <|>
    word "throw" ++ sequence ++ statementEnd <|>
    word "debugger" ++ statementEnd)

def expressionStatement : Rule := .node .expressionStatement (sequence ++ statementEnd)

def labeledStatement : Rule :=
  .node .labeledStatement (identifier ++ mark ":" ++ .ref .statement)

def statement : Rule :=
  exportStatement <|> importStatement <|> declaration <|> block <|> controlStatement <|>
    .node .emptyStatement (mark ";") <|> labeledStatement <|> expressionStatement

def program : Rule :=
  .opt (.token .hashBang .hashBang) ++ .many (.ref .statement) ++ .token .endOfInput .missing

end PropStories.Tsx.Grammar

namespace PropStories.Tsx

def grammar : Nonterminal → Rule
  | .program => Grammar.program
  | .statement => Grammar.statement
  | .block => Grammar.block
  | .classBody => Grammar.classBody
  | .expression => Grammar.expression
  | .operand => Grammar.operand
  | .chain => Grammar.chain
  | .memberChain => Grammar.memberChain
  | .element => Grammar.element
  | .pattern => Grammar.pattern
  | .type => Grammar.type
  | .typeOperand => Grammar.typeOperand
  | .objectType => Grammar.objectType

end PropStories.Tsx
