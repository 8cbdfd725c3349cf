import CodeFormatter.JavaScript.Module

/-!
# Statements

A statement is known by its first token. Where a declaration and an expression could both be meant,
it is the declaration, unless the next token can only go on with an expression.
-/

namespace CodeFormatter.JavaScript.Statement

open CodeFormatter.JavaScript.Parser

variable (g : Grammar)

/-! ## Expressions as statements -/

def expressionStatement : Parser Items := do
  let contents ← Expression.sequence g .statement
  node .expressionStatement (contents ++ (← semicolon true))

/-- An expression as a statement, after its first operand. -/
def expressionStatementAfter (operand : Items) : Parser Items := do
  let first ← Expression.operatorsAfter g .statement Operator.lowest operand
  let contents ← Expression.sequenceAfter g .statement first
  node .expressionStatement (contents ++ (← semicolon true))

/-- A block. It is none if an operator goes on with it; the words that are operators only count
after an empty one. -/
def blockStatement (isLast : Bool) : Parser Items := do
  let isEmpty ← sees do
    let _ ← symbol "\x7b"
    symbol "\x7d"
  let items ← Function.block g (·.isEmpty)
  if ← sees assignSign then fail
  else if (← Expression.seesInfixOnly isLast) && (isEmpty || (← nextWord).isNone) then fail
  else return items

/-! ## Parts -/

/-- A condition in parentheses, after which a statement follows. -/
def condition : Parser Items := expecting do
  let opening ← symbol "("
  let contents ← Expression.sequence g .inner
  let closing ← symbol ")"
  node .parenthesizedExpression (opening ++ contents ++ closing)

/-- A block that is no statement of its own. -/
def innerBlock : Parser Items := Function.body g false

def emptyStatement : Parser Items := do node .emptyStatement (← symbol ";")

/-! ## Conditions and loops -/

def elseClause (isLast : Bool) : Parser Items := do
  let word ← keyword "else"
  node .elseClause (word ++ (← g.statement isLast))

def ifStatement (isLast : Bool) : Parser Items := do
  let word ← keyword "if"
  let condition ← condition g
  let consequence ← g.statement isLast
  let alternative ← ifWord "else" (elseClause g isLast)
  node .ifStatement (word ++ condition ++ consequence ++ alternative)

/-- A statement of a keyword, a condition and a body. -/
def conditional (isLast : Bool) (kind : Kind) (word : String) : Parser Items := do
  let word ← keyword word
  let condition ← condition g
  node kind (word ++ condition ++ (← g.statement isLast))

def doStatement : Parser Items := do
  let word ← keyword "do"
  let body ← g.statement true
  let until_ ← keyword "while"
  let condition ← complete (condition g)
  let ending ← maybe (semicolon false)
  node .doStatement (word ++ body ++ until_ ++ condition ++ ending)

/-- Between the target of a loop over members and its values. -/
def loopOperator : Parser Items := orElse (keywordAs true "in") (keywordAs true "of")

/-- An expression that binds tighter than `in`, or as tight but without that operator. -/
def expressionBeforeIn (c : Context) : Parser Items := do
  let left ← g.expression c (Operator.relationLevel + 1)
  let step (left : Items) : Parser Items := complete do
    let operator ← Expression.nextOperator c.ends
    if operator == "in" then fail
    else Expression.operatorAfter g c Operator.relationLevel left operator
  Expression.extend step (← get).size left

/-- A loop's new variable by `var`, which may have a value that `expression` reads. Unless the loop
awaits its values, the variables of another loop may end here. -/
def loopVariable (awaits : Bool) (expression : Context → Parser Items) : Parser Items := do
  let word ← keyword "var"
  let target ← Declaration.binding g
  if awaits then expect true
  else if ← seesImpliedSemicolon false then fail
  let value ← maybe do
    let sign ← assignSign
    return sign ++ (← expression { ends := !awaits, beforeOf := true })
  if !awaits && !value.isEmpty then
    if ← seesImpliedSemicolon true then fail
  return word ++ target ++ value ++ (← loopOperator)

/-- A loop's new variable by `let` or `const`. -/
def loopConstant : Parser Items := do
  let word ← orElse (complete (keyword "let")) (keyword "const")
  let target ← Declaration.binding g
  let ending ← maybe (impliedSemicolon false)
  return word ++ target ++ ending ++ (← loopOperator)

/-- What a loop assigns to that exists already. -/
def loopReference : Parser Items :=
  orElse
    (do
      let target ← g.destructuring
      return target ++ (← loopOperator))
    (do
      let target ← g.expression { ends := false, beforeOf := true } Operator.updateLevel
      return (← ofOption (Expression.assignable? target)) ++ (← loopOperator))

/-- Does `let` declare a variable at the start of a loop? -/
def seesLoopLet : Parser Bool := Declaration.seesLetBefore ["in", "instanceof", "of"]

/-- What a loop assigns to: something that exists, or a new variable. In a loop that awaits its values, a bracket after `let` can be an index. -/
def loopTarget (awaits : Bool) : Parser Items := do
  if ← seesLoopLet then
    if awaits then orElse (loopReference g) (loopConstant g) else loopConstant g
  else
    match ← nextWord with
    | some "const" => loopConstant g
    | some "var" =>
      orElse (loopVariable g awaits fun c => g.expression c Operator.lowest)
        (loopVariable g awaits (expressionBeforeIn g))
    | _ => loopReference g

/-- A loop over the members of something. -/
def forInStatement (isLast : Bool) : Parser Items := do
  let word ← keyword "for"
  let await_ ← maybe (keyword "await")
  let opening ← symbol "("
  let target ← loopTarget g !await_.isEmpty
  let values ← Expression.sequence g .inner
  let closing ← expecting (symbol ")")
  node .forInStatement
    (word ++ await_ ++ opening ++ target ++ values ++ closing ++ (← g.statement isLast))

/-- An expression with a semicolon after it, or only the semicolon. -/
def loopPart (c : Context) : Parser Items :=
  orElse emptyStatement do
    let contents ← Expression.sequence g c
    return contents ++ (← symbol ";")

/-- The first part of a loop that counts. -/
def loopStart : Parser Items := do
  match ← nextWord with
  | some "var" => Declaration.variableStatement g .variableDeclaration "var"
  | some "const" => Declaration.variableStatement g .lexicalDeclaration "const"
  | _ =>
    if ← seesLoopLet then Declaration.variableStatement g .lexicalDeclaration "let"
    else loopPart g { ends := false, beforeOf := true }

def forStatement (isLast : Bool) : Parser Items := do
  let word ← keyword "for"
  let opening ← symbol "("
  let initializer ← loopStart g
  let condition ← loopPart g .inner
  let increment ← maybe (Expression.sequence g .inner)
  let closing ← expecting (symbol ")")
  node .forStatement
    (word ++ opening ++ initializer ++ condition ++ increment ++ closing ++ (← g.statement isLast))

/-! ## Choices and failures -/

/-- The statements of a case, up to the next one. -/
def caseBody : Parser Items := many do
  let word ← nextWord
  if word == some "case" || word == some "default" then fail else g.statement false

def switchCase : Parser Items := do
  let word ← keyword "case"
  let value ← Expression.sequence g .inner
  let colon ← symbol ":"
  node .switchCase (word ++ value ++ colon ++ (← caseBody g))

def switchDefault : Parser Items := do
  let word ← keyword "default"
  let colon ← symbol ":"
  node .switchDefault (word ++ colon ++ (← caseBody g))

def switchBody : Parser Items := expecting do
  let opening ← symbol "\x7b"
  let cases ← many (orElse (switchCase g) (switchDefault g))
  let closing ← symbol "\x7d"
  node .switchBody (opening ++ cases ++ closing)

def switchStatement : Parser Items := do
  let word ← keyword "switch"
  let value ← condition g
  node .switchStatement (word ++ value ++ (← switchBody g))

def catchClause : Parser Items := do
  let word ← keyword "catch"
  let parameter ← maybe do
    let opening ← symbol "("
    let target ← expecting (Declaration.binding g)
    let closing ← expecting (symbol ")")
    return opening ++ target ++ closing
  node .catchClause (word ++ parameter ++ (← innerBlock g))

def finallyClause : Parser Items := do
  let word ← keyword "finally"
  node .finallyClause (word ++ (← innerBlock g))

def tryStatement : Parser Items := do
  let word ← keyword "try"
  let body ← innerBlock g
  let handler ← ifWord "catch" (catchClause g)
  let finalizer ← ifWord "finally" (finallyClause g)
  node .tryStatement (word ++ body ++ handler ++ finalizer)

/-! ## Jumps -/

/-- A jump to a label, or without one. -/
def jump (kind : Kind) (word : String) : Parser Items := do
  let word ← complete (keyword word)
  let rest ← orElse (semicolon false) do
    let label ← name .statementIdentifier
    return label ++ (← semicolon false)
  node kind (word ++ rest)

def returnStatement : Parser Items := do
  let word ← complete (keyword "return")
  let rest ← orElse (semicolon false) do
    let value ← Expression.sequence g .statement
    return value ++ (← semicolon true)
  node .returnStatement (word ++ rest)

def throwStatement : Parser Items := do
  let word ← keyword "throw"
  let value ← Expression.sequence g .statement
  node .throwStatement (word ++ value ++ (← semicolon true))

def debuggerStatement : Parser Items := do
  let word ← complete (keyword "debugger")
  node .debuggerStatement (word ++ (← semicolon false))

def labeledStatement (isLast : Bool) : Parser Items := do
  let label ← name .statementIdentifier
  if ← seesImpliedSemicolon true then fail
  let colon ← symbol ":"
  node .labeledStatement (label ++ colon ++ (← g.statement isLast))

/-! ## Dispatch -/

/-- Words that start an operand and so cannot be labels. -/
def isOperandWord (word : String) : Bool :=
  (Expression.constant? word).isSome
    || ["function", "class", "new", "import", "await", "yield", "typeof", "void", "delete"].contains
        word

/-- An expression, or a statement with a label. -/
def plainStatement (isLast : Bool) : Parser Items := do
  match ← nextWord with
  | some word =>
    if isOperandWord word then expressionStatement g
    else orElse (labeledStatement g isLast) (expressionStatement g)
  | none => expressionStatement g

/-- An import, unless the word stands for a function or for the module itself. -/
def importOrPlain : Parser Items := do
  let isOperand ← sees do
    let _ ← keyword "import"
    if (← seesSymbol "(") || (← seesSymbol ".") || (← seesSymbol "?.") then pure () else fail
  if isOperand then expressionStatement g else Module.importStatement g

/-- A statement that starts with a word. -/
def wordStatement (isLast : Bool) (word : String) : Parser Items := do
  match word with
  | "import" => importOrPlain g
  | "export" => if ← Module.seesExport then Module.exportStatement g isLast else plainStatement g isLast
  | "if" => ifStatement g isLast
  | "switch" => switchStatement g
  | "for" => orElse (forInStatement g isLast) (forStatement g isLast)
  | "while" => conditional g isLast .whileStatement "while"
  | "do" => doStatement g
  | "try" => tryStatement g
  | "with" => conditional g isLast .withStatement "with"
  | "break" => jump .breakStatement "break"
  | "continue" => jump .continueStatement "continue"
  | "return" => returnStatement g
  | "throw" => throwStatement g
  | "debugger" => debuggerStatement
  | _ => Declaration.orExpression g isLast (plainStatement g isLast) (expressionStatementAfter g)

/-- A statement that starts with a decorator: a class, or one that is exported. -/
def decoratedStatement (isLast : Bool) : Parser Items := do
  let exports ← sees do
    let _ ← many (decorator g)
    keyword "export"
  if exports then Module.exportStatement g isLast
  else Declaration.orExpression g isLast fail (expressionStatementAfter g)

/-- A statement; no gap comes first. -/
def statementHere (isLast : Bool) : Parser Items := do
  match (← get).rest.head? with
  | none => fail
  | some '\x7b' =>
    if ← Expression.seesHiddenAssignment g then expressionStatement g
    else Object.blockOr g 0 (expressionStatement g) (blockStatement g isLast)
  | some ';' => emptyStatement
  | some '@' => decoratedStatement g isLast
  | some _ =>
    match ← nextWord with
    | some word => wordStatement g isLast word
    | none => expressionStatement g

def statement (isLast : Bool) : Parser Items := do
  let comments ← gap
  return comments ++ (← statementHere g isLast)

end CodeFormatter.JavaScript.Statement
