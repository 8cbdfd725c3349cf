import CodeFormatter.JavaScript.Operator
import CodeFormatter.JavaScript.Parser

/-!
# Lists of expressions

The parts of the grammar that contain each other are passed around as a record (`Grammar`); it is
tied in `CodeFormatter.JavaScript.Program`. Here are the parts of expressions that need no more
than that: sequences, arguments, arrays and templates.
-/

namespace CodeFormatter.JavaScript

open CodeFormatter.JavaScript.Parser

/-- What may come after an expression. -/
structure Context where
  /-- A statement may end after it. -/
  ends : Bool
  /-- The word `of` may follow it, as in the head of a loop. -/
  beforeOf : Bool

/-- Between brackets, no statement ends. -/
def Context.inner : Context := { ends := false, beforeOf := false }

/-- In a statement of its own, or in the last part of one. -/
def Context.statement : Context := { ends := true, beforeOf := false }

/-- The parts of the grammar that contain each other. -/
structure Grammar where
  /-- A statement. The flag says that only `while` can come after it. -/
  statement : Bool → Parser Items
  /-- An expression whose operators have at least a certain level. -/
  expression : Context → Nat → Parser Items
  /-- What `new` is applied to. -/
  callee : Context → Parser Items
  /-- Brackets or braces around patterns. -/
  destructuring : Parser Items
  /-- An element of markup. -/
  element : Parser Items
  /-- The body of a class. -/
  classBody : Parser Items

namespace Expression

variable (g : Grammar)

/-- An expression between brackets, where no statement ends. -/
def inner : Parser Items := g.expression .inner Operator.lowest

/-- The first expression of a sequence, and those that follow it after commas. -/
def sequenceAfter (c : Context) (first : Items) : Parser Items := do
  let rest ← many do
    let _ ← peek (toOperator c.ends)
    let comma ← symbol ","
    return comma ++ (← g.expression c Operator.lowest)
  if rest.isEmpty then return first else node .sequenceExpression (first ++ rest)

/-- One or more expressions with commas between them. -/
def sequence (c : Context) : Parser Items := do
  sequenceAfter g c (← g.expression c Operator.lowest)

/-- A spread element. -/
def spread : Parser Items := do
  let dots ← symbol "..."
  node .spreadElement (dots ++ (← inner g))

/-- An element of a list. -/
def listElement : Parser Items := orElse (spread g) (inner g)

def arguments : Parser Items := do
  let opening ← symbol "("
  let list ← looseCommaList (listElement g)
  let closing ← symbol ")"
  node .arguments (opening ++ list ++ closing)

def array : Parser Items := do
  let opening ← symbol "["
  let list ← looseCommaList (listElement g)
  let closing ← symbol "]"
  node .array (opening ++ list ++ closing)

/-- Turns the node that ends a list into the target of an assignment. -/
def assignable? (left : Items) : Option Items :=
  match left.getLast? with
  | some last =>
    if last.hasKind .parenthesizedExpression then some left
    else (Cst.target? last).map fun target => left.dropLast ++ [target]
  | none => none

/-! ## Templates -/

/-- A stretch of characters, an escape or a substitution. -/
def templatePart : Parser Items := do
  match (← get).rest with
  | '$' :: '\x7b' :: _ =>
    let opening ← adjacent "$\x7b"
    let contents ← sequence g .inner
    let closing ← symbol "\x7d"
    node .templateSubstitution (opening ++ contents ++ closing)
  | '\\' :: _ =>
    let _ ← lexeme fun cs =>
      match Lexeme.escapeLength cs with
      | 0 => none
      | n => some (Lexeme.splitAt n cs)
    return []
  | _ =>
    let _ ← lexeme fun cs =>
      match Lexeme.templateChars? cs with
      | none | some 0 => none
      | some n => some (Lexeme.splitAt n cs)
    return []

def template : Parser Items := complete do
  let opening ← symbol "`"
  let parts ← many (templatePart g)
  let closing ← adjacent "`"
  node .templateString (opening ++ parts ++ closing)

end Expression

end CodeFormatter.JavaScript
