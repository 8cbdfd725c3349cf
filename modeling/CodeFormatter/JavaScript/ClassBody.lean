import CodeFormatter.JavaScript.Class

/-!
# Bodies of classes

Methods, fields and blocks between braces. A field ends like a statement.
-/

namespace CodeFormatter.JavaScript.ClassBody

open CodeFormatter.JavaScript.Parser

variable (g : Grammar)

/-- A block that runs when the class is made. -/
def staticBlock : Parser Items := do
  let word ← complete (keyword "static")
  let ending ← maybe (impliedSemicolon false)
  let body ← Function.body g false
  node .classStaticBlock (word ++ ending ++ body)

/-- A field after its name, and the end of its statement. -/
def fieldAfter (head : Items) : Parser Items := do
  let ended ← seesImpliedSemicolon false
  let value ← if ended then pure [] else maybe do
    let sign ← assignSign
    return sign ++ (← g.expression .statement Operator.lowest)
  let field ← node .fieldDefinition (head ++ value)
  return field ++ (← semicolon (!value.isEmpty))

/-- `static` before a field. -/
def fieldModifier : Parser Items := maybe (Object.modifier g true "static")

def field : Parser Items := do
  let decorators ← many (decorator g)
  let static ← fieldModifier g
  fieldAfter g (decorators ++ static ++ (← Object.memberName g true))

/-- A method, and a semicolon after it or not. -/
def method : Parser Items := do
  let decorators ← many (decorator g)
  let (modifiers, mayBeField) ← Object.modifiers g true
  let name ← Object.memberName g mayBeField
  if mayBeField && (← seesImpliedSemicolon false) then fail
  let method ← Object.methodAfter g (decorators ++ modifiers ++ name)
  return method ++ (← maybe (symbol ";"))

def member : Parser Items := do
  if ← Object.seesStaticGet g then method g
  else orElse (symbol ";") <| orElse (staticBlock g) <| orElse (method g) (field g)

def body : Parser Items := do
  let opening ← symbol "\x7b"
  let members ← many (member g)
  let closing ← symbol "\x7d"
  node .classBody (opening ++ members ++ closing)

end CodeFormatter.JavaScript.ClassBody
