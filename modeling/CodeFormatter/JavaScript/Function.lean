import CodeFormatter.JavaScript.Pattern

/-!
# Functions

Blocks, parameters and functions with a keyword.

A function or a class with a name is a declaration at the start of a statement and an operand
elsewhere. Both are read alike (`Definition`), and what follows decides.
-/

namespace CodeFormatter.JavaScript

open CodeFormatter.JavaScript.Parser

variable (g : Grammar)

/-- A function or a class as it was read, before it is known to be a declaration or an operand. -/
structure Definition where
  parts : Items
  isNamed : Bool
  asOperand : Kind
  asDeclaration : Kind

/-- The definition as an operand. -/
def Definition.operand (d : Definition) : Parser Items := node d.asOperand d.parts

/-- The definition as a declaration. -/
def Definition.declaration (d : Definition) : Parser Items := node d.asDeclaration d.parts

namespace Function

/-- A block of statements. A semicolon may be implied after it; `operatorMayFollow` tells from its
statements whether an operator could follow the block instead. -/
def block (operatorMayFollow : Items → Bool) : Parser Items := do
  let opening ← symbol "\x7b"
  let body ← many (g.statement false)
  let closing ← symbol "\x7d"
  let ending ← maybe (impliedSemicolon (operatorMayFollow body))
  node .statementBlock (opening ++ body ++ closing ++ ending)

/-- The body of a function. -/
def body (operatorMayFollow : Bool) : Parser Items := block g fun _ => operatorMayFollow

/-- Parameters in parentheses. -/
def parameters : Parser Items := expecting do
  let opening ← symbol "("
  let list ← maybe (commaList (Pattern.element g))
  let trailing ← if list.isEmpty then pure [] else maybe (symbol ",")
  let closing ← symbol ")"
  node .formalParameters (opening ++ list ++ trailing ++ closing)

/-- A function with its keyword, with a name or without. Where an operator may follow it, `async` may
be an operand. -/
def definition (operatorMayFollow : Bool) : Parser Definition := do
  let async ← maybe (keyword "async")
  if operatorMayFollow && !async.isEmpty then expect false
  let function ← keyword "function"
  let star ← maybe (symbol "*")
  let name ← maybe (expecting (name .identifier))
  let parameters ← parameters g
  let body ← if (← nextChar) == some '\x7b' then commit (body g operatorMayFollow) else fail
  return {
    parts := async ++ function ++ star ++ name ++ parameters ++ body
    isNamed := !name.isEmpty
    asOperand := if star.isEmpty then .functionExpression else .generatorFunction
    asDeclaration :=
      if star.isEmpty then .functionDeclaration else .generatorFunctionDeclaration }

end Function

end CodeFormatter.JavaScript
