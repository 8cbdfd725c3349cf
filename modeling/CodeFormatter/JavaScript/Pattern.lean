import CodeFormatter.JavaScript.Grammar

/-!
# Elements of patterns

What stands in a list where only patterns can stand. Mostly it is read as an expression that can be
turned into a pattern. Brackets and braces are read as patterns from the start: what follows them
cannot be an operator then, so a comment that hides from markup is a comment.
-/

namespace CodeFormatter.JavaScript.Pattern

open CodeFormatter.JavaScript.Parser

variable (g : Grammar)

/-- `p`, if an element of a list ends after it. -/
def whole (p : Parser Items) : Parser Items := do
  let items ← p
  match ← nextChar with
  | some ',' | some ')' | some ']' | some '\x7d' => return items
  | _ => fail

/-- Brackets or braces around patterns, with a default value or not. -/
def withDefault : Parser Items := do
  let target ← g.destructuring
  let value ← maybe do
    let sign ← assignSign
    return sign ++ (← Expression.inner g)
  if value.isEmpty then return target else node .assignmentPattern (target ++ value)

/-- Brackets or braces around patterns that get the rest of a list. -/
def rest : Parser Items := do
  let dots ← symbol "..."
  node .restPattern (dots ++ (← g.destructuring))

/-- Brackets or braces around patterns as the value of a property or as an element of a list. -/
def bracketed : Parser Items := orElse (rest g) (withDefault g)

/-- An element of a list of patterns. -/
def element : Parser Items :=
  orElse (whole (bracketed g)) do ofOption (Cst.elementPatterns? (← Expression.listElement g))

end CodeFormatter.JavaScript.Pattern
