/-!
# Operators

The operators between and after operands, and how tight they bind. An expression is read at a
*level*: it goes on with an operator only if that binds at least as tight.
-/

namespace CodeFormatter.JavaScript.Operator

/-! ## Levels -/

/-- Every operator but the comma. -/
def lowest : Nat := 0

/-- `a ? b : c`, which groups to the right. -/
def ternaryLevel : Nat := 3

/-- `-a`, `typeof a`, `await a`. -/
def unaryLevel : Nat := 16

/-- `a++`. -/
def updateLevel : Nat := 17

/-- `f(a)`, and what binds tighter. -/
def callLevel : Nat := 18

/-- `a < b`, `a in b`. -/
def relationLevel : Nat := 10

/-- The level of an operator between two operands. -/
def level? : String → Option Nat
  | "**" => some 15
  | "*" | "/" | "%" => some 14
  | "+" | "-" => some 13
  | "<<" | ">>" | ">>>" => some 12
  | "<" | ">" | "<=" | ">=" | "in" | "instanceof" => some relationLevel
  | "==" | "!=" | "===" | "!==" => some 9
  | "&" => some 8
  | "^" => some 7
  | "|" => some 6
  | "&&" => some 5
  | "||" => some 4
  | "??" => some 3
  | _ => none

/-- The level at which the right operand is read: the operator's own if it groups to the right. -/
def rightLevel (operator : String) (level : Nat) : Nat :=
  if operator == "**" then level else level + 1

/-! ## Reading -/

/-- The operators that assign the outcome of another one. -/
def assigning : List String :=
  [">>>=", "**=", "<<=", ">>=", "&&=", "||=", "??=", "+=", "-=", "*=", "/=", "%=", "&=", "|=", "^="]

/-- All tokens that may follow an operand, longer ones first. -/
def all : List String :=
  [">>>=", "===", "!==", "**=", "<<=", ">>=", ">>>", "&&=", "||=", "??=", "=>", "==", "!=", "<=",
    ">=", "&&", "||", "??", "<<", ">>", "**", "++", "--", "+=", "-=", "*=", "/=", "%=", "&=", "|=",
    "^=", "?.", "=", "<", ">", "+", "-", "*", "/", "%", "&", "|", "^", "?", ".", "[", "(", "`", ","]

/-- The longest of them that a text starts with. A point with a digit after it belongs to a number,
so it is none of them, and a question mark before it stands alone. -/
def read? (cs : List Char) : Option String :=
  match cs with
  | '.' :: c :: _ => if c.isDigit then none else some "."
  | '?' :: '.' :: c :: _ => if c.isDigit then some "?" else some "?."
  | _ => all.find? fun operator => operator.toList.isPrefixOf cs

/-- Tokens that go on with an expression, whatever its kind. -/
def goesOn (operator : String) : Bool :=
  operator != "=>" && operator != "=" && !assigning.contains operator

/-- Tokens that go on with an expression and cannot start a statement. -/
def isInfixOnly (operator : String) : Bool :=
  goesOn operator && !(["++", "--", "<", "+", "-", "/", "[", "(", "`"].contains operator)

end CodeFormatter.JavaScript.Operator
