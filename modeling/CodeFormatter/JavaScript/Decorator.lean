import CodeFormatter.JavaScript.Grammar

/-!
# Decorators

What stands after an at sign in front of a class or of a member: a name, a member of a name, or a
call of one.
-/

namespace CodeFormatter.JavaScript

open CodeFormatter.JavaScript.Parser

variable (g : Grammar)

/-- A member of a name, as a decorator may name it. -/
def decoratorName : Parser Items := do
  let first ← expecting (name .identifier)
  let step (left : Items) : Parser Items := do
    let point ← symbol "."
    node .memberExpression (left ++ point ++ (← expecting (name .propertyIdentifier)))
  go step (← get).size first
where
  go (step : Items → Parser Items) : Nat → Items → Parser Items
    | 0, left => pure left
    | fuel + 1, left => orElse (do go step fuel (← step left)) (pure left)

/-- A decorator. -/
def decorator : Parser Items := do
  let sign ← symbol "@"
  let name ← decoratorName
  let name ← orElse
    (do node .callExpression (name ++ (← expecting (Expression.arguments g)))) (pure name)
  node .decorator (sign ++ name)

end CodeFormatter.JavaScript
