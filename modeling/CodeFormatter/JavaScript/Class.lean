import CodeFormatter.JavaScript.Object

/-!
# Classes

Classes without their bodies: name and what the class extends.
-/

namespace CodeFormatter.JavaScript.Class

open CodeFormatter.JavaScript.Parser

variable (g : Grammar)

/-- What a class extends. -/
def heritage : Parser Items := do
  let extends_ ← keyword "extends"
  node .classHeritage (extends_ ++ (← Expression.inner g))

/-- A class, with a name or without. Where it needs one, the name may be `extends`. -/
def definition (needsName : Bool) : Parser Definition := do
  let decorators ← many (decorator g)
  let class_ ← keyword "class"
  let name ←
    if !needsName && (← nextWord) == some "extends" then pure []
    else maybe (expecting (name .identifier))
  let heritage ← ifWord "extends" (heritage g)
  let body ← if (← nextChar) == some '\x7b' then commit g.classBody else fail
  return {
    parts := decorators ++ class_ ++ name ++ heritage ++ body
    isNamed := !name.isEmpty
    asOperand := .classExpression
    asDeclaration := .classDeclaration }

end CodeFormatter.JavaScript.Class
