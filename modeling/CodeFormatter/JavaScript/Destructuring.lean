import CodeFormatter.JavaScript.Object

/-!
# Patterns in brackets and braces

They take an array or an object apart. Only what follows tells them from an operand, so they are
read in two ways: as an operand that is turned into a pattern later, and as a pattern from the
start, as it is done here.
-/

namespace CodeFormatter.JavaScript.Destructuring

open CodeFormatter.JavaScript.Parser

variable (g : Grammar)

/-- A property with brackets or braces as its pattern. -/
def pair : Parser Items := do
  let name ← expecting (Object.propertyName g)
  let colon ← symbol ":"
  node .pairPattern (name ++ colon ++ (← Pattern.bracketed g))

/-- Brackets or braces with a default value. -/
def withDefault : Parser Items := do
  let target ← expecting g.destructuring
  let sign ← assignSign
  node .objectAssignmentPattern (target ++ sign ++ (← Expression.inner g))

/-- A property of a pattern. -/
def property : Parser Items :=
  orElse (Pattern.whole (orElse (Pattern.rest g) (orElse (pair g) (withDefault g)))) do
    ofOption (Cst.propertyPatterns? (← Object.property g (Object.object g)))

/-- Brackets around patterns. -/
def array : Parser Items := do
  let opening ← symbol "["
  let list ← looseCommaList (Pattern.element g)
  let closing ← symbol "]"
  node .arrayPattern (opening ++ list ++ closing)

/-- Braces around properties that are patterns. -/
def object : Parser Items := do
  let opening ← symbol "\x7b"
  let list ← looseCommaList (property g)
  let closing ← symbol "\x7d"
  node .objectPattern (opening ++ list ++ closing)

/-- Brackets or braces around patterns. If they might be an operand up to their end, an operator may
follow for all that is known. -/
def destructuring : Parser Items := do
  let pattern ← orElse (array g) (object g)
  expect !(pattern.getLast?.any Cst.isBare)
  return pattern

end CodeFormatter.JavaScript.Destructuring
