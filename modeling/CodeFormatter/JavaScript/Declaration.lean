import CodeFormatter.JavaScript.Expression

/-!
# Declarations

Variables, functions and classes that get a name.
-/

namespace CodeFormatter.JavaScript.Declaration

open CodeFormatter.JavaScript.Parser

variable (g : Grammar)

/-! ## Variables -/

/-- A name, or a pattern of names. -/
def binding : Parser Items := do
  match ← nextChar with
  | some '\x7b' | some '[' => complete g.destructuring
  | _ => name .identifier

/-- The value of a variable. -/
def initializer : Parser Items := do
  let sign ← assignSign
  return sign ++ (← g.expression .statement Operator.lowest)

/-- A variable, and whether it has a value. -/
def declarator : Parser (Items × Bool) := do
  let target ← binding g
  let ended ← seesImpliedSemicolon false
  let value ← if ended then pure [] else maybe (initializer g)
  return (← node .variableDeclarator (target ++ value), !value.isEmpty)

/-- Variables with commas between them, and whether the last one has a value. -/
def declarators : Nat → Parser (Items × Bool)
  | 0 => fail
  | fuel + 1 => do
    let (first, valued) ← declarator g
    if !(← seesImpliedSemicolon valued) && (← seesSymbol ",") then
      let comma ← symbol ","
      let (rest, valued) ← declarators fuel
      return (first ++ comma ++ rest, valued)
    else return (first, valued)

/-- A statement that declares variables. An operator may follow it only after a value. -/
def variableStatement (kind : Kind) (word : String) : Parser Items := do
  let word ← keyword word
  let (list, valued) ← declarators g ((← get).size + 1)
  node kind (word ++ list ++ (← semicolon valued))

/-- Does `let` with the start of a variable after it follow? `notNames` are words that go on with
`let` as a name. -/
def seesLetBefore (notNames : List String) : Parser Bool := sees do
  let _ ← complete (keyword "let")
  match ← nextWord, ← nextChar with
  | some word, _ => if notNames.contains word then fail
  | none, next => if next != some '\x7b' && next != some '[' then fail

/-- Does `let` declare variables here? It is a name where a statement may end after it or where an
operator follows. -/
def seesLet : Parser Bool := do
  let ended ← sees do
    let _ ← complete (keyword "let")
    impliedSemicolon true
  if ended then return false else seesLetBefore ["in", "instanceof"]

/-! ## Functions and classes -/

/-- Does a function with its keyword start here? Not where a statement may end after `async`. -/
def seesFunction : Parser Bool := sees do
  match ← nextWord with
  | some "async" =>
    let _ ← complete (keyword "async")
    if ← seesImpliedSemicolon true then fail
    keyword "function"
  | _ => keyword "function"

/-- Does a class start here? -/
def seesClass : Parser Bool := do
  return (← nextWord) == some "class" || (← nextChar) == some '@'

/-- A class with a name, after which a semicolon may be implied. -/
def classDeclaration (d : Definition) (operatorMayFollow : Bool) : Parser Items := do
  let ending ← maybe (impliedSemicolon operatorMayFollow)
  { d with parts := d.parts ++ ending }.declaration

/-- A declaration where no expression can stand. -/
def only : Parser Items := do
  match ← nextWord with
  | some "var" => variableStatement g .variableDeclaration "var"
  | some "const" => variableStatement g .lexicalDeclaration "const"
  | some "let" => variableStatement g .lexicalDeclaration "let"
  | _ =>
    if ← seesClass then
      let d ← Class.definition g true
      if d.isNamed then classDeclaration d false else fail
    else
      let d ← Function.definition g false
      if d.isNamed then d.declaration else fail

/-- A declaration where an expression could stand, too. `expression` reads the expression, and
`expressionAfter` the rest of it after its first operand. A function or a class that has no name or
that an operator follows is such an operand. If no other statement can come next (`isLast`), it may
be any operator. -/
def orExpression (isLast : Bool) (expression : Parser Items)
    (expressionAfter : Items → Parser Items) : Parser Items := do
  if ← seesFunction then
    let d ← Function.definition g true
    if !d.isNamed || (← Expression.seesInfixOnly isLast) then expressionAfter (← d.operand)
    else d.declaration
  else if ← seesClass then
    let d ← Class.definition g false
    let ended ← seesImpliedSemicolon true
    if !d.isNamed || (!ended && (← Expression.seesInfixOnly isLast)) then
      expressionAfter (← d.operand)
    else classDeclaration d true
  else if ← seesLet then variableStatement g .lexicalDeclaration "let"
  else
    match ← nextWord with
    | some "var" => variableStatement g .variableDeclaration "var"
    | some "const" => variableStatement g .lexicalDeclaration "const"
    | _ => expression

end CodeFormatter.JavaScript.Declaration
