import CodeFormatter.JavaScript.Decorator
import CodeFormatter.JavaScript.Function

/-!
# Objects

Properties and methods in braces.

**Blocks or objects.** Where a statement or the body of an arrow function starts with a brace, both
a block and an object may follow. It is a block if it can be read as one, unless it is read as an
object at a cost that is low enough. So `{a: b}` is an object and not a statement with a label. In
`{a, b}` the first name could be a statement, so it is no property.
-/

namespace CodeFormatter.JavaScript.Object

open CodeFormatter.JavaScript.Parser

variable (g : Grammar)

/-! ## Names and modifiers -/

/-- A name in brackets that is computed. -/
def computedName : Parser Items := do
  let opening ← symbol "["
  let contents ← Expression.inner g
  let closing ← symbol "]"
  node .computedPropertyName (opening ++ contents ++ closing)

/-- The name of a property. -/
def propertyName : Parser Items :=
  orElse (name .propertyIdentifier) <|
  orElse (leaf .privatePropertyIdentifier Lexeme.privateName?) <|
  orElse (leaf .string Lexeme.string?) <|
  orElse (leaf .number Lexeme.number?) (computedName g)

/-- The name of a member. A field may end after it, other members cannot. -/
def memberName (mayBeField : Bool) : Parser Items :=
  if mayBeField then propertyName g else expecting (propertyName g)

/-- Does the name of a member or the mark of a generator follow? -/
def seesMemberName : Parser Bool := do
  return (← seesSymbol "*") || (← sees (propertyName g))

/-- A modifier of a method: a word that the method's name, or another modifier, follows. Where it may
be the name of a field, it is one if a semicolon is implied after it. -/
def modifier (mayBeField : Bool) (text : String) : Parser Items := do
  let word ← keyword text
  if mayBeField then
    expect false
    if ← seesImpliedSemicolon false then fail
  if ← seesMemberName g then return word else fail

/-- The modifiers `static get` with a line break after them make one token. -/
def staticGet? (cs : List Char) : Option Lexeme.Split := do
  guard ("static".toList.isPrefixOf cs)
  let first := (cs.drop 6).takeWhile Semicolon.isSpace
  let rest := cs.drop (6 + first.length)
  guard (!first.isEmpty && "get".toList.isPrefixOf rest)
  let second := ((rest.drop 3).takeWhile Semicolon.isSpace).reverse.dropWhile (· != '\n')
  guard (!second.isEmpty)
  return Lexeme.splitAt (6 + first.length + 3 + second.length) cs

/-- The token that `staticGet?` reads. -/
def staticGet : Parser Items := expecting do
  let comments ← gap
  let (_, start, stop) ← lexeme staticGet?
  return comments ++ [.token "static get" start stop false]

/-- Does the token that `staticGet?` reads follow, after decorators or without? A method follows then,
whatever else could be read. -/
def seesStaticGet : Parser Bool := sees do
  let _ ← many (decorator g)
  staticGet

/-- All modifiers of a method, and whether the member may be a field all the same: in a class, if
only `static` stands before its name. -/
def modifiers (inClass : Bool) : Parser (Items × Bool) := do
  let both ← maybe staticGet
  let static ← if both.isEmpty then maybe (modifier g inClass "static") else pure both
  let mayBeField := inClass && both.isEmpty
  let async ← maybe (modifier g mayBeField "async")
  let mayBeField := mayBeField && async.isEmpty
  let accessor ← maybe <|
    orElse (modifier g mayBeField "get") (orElse (modifier g mayBeField "set") (symbol "*"))
  return (static ++ async ++ accessor, mayBeField && accessor.isEmpty)

/-- A method from its parameters on. `head` is all that stands before them. -/
def methodAfter (head : Items) : Parser Items := do
  let parameters ← Function.parameters g
  let body ← Function.body g false
  node .methodDefinition (head ++ parameters ++ body)

/-! ## Properties -/

/-- A word as a property that has its name from the value: another kind for the node of the name. -/
def shorthand? (kind : Kind) (name : Items) : Option Items :=
  match name.getLast? with
  | some (.node .propertyIdentifier start stop children) =>
    some (name.dropLast ++ [.node kind start stop children])
  | _ => none

/-- A pattern with a default value. -/
def patternWithDefault (pattern : Parser Items) : Parser Items := do
  let target ← ofOption (Expression.assignable? (← pattern))
  let sign ← assignSign
  node .objectAssignmentPattern (target ++ sign ++ (← Expression.inner g))

/-- A property with a name, or a method. A shorthand with a default value is read, too, and a spread
element as a value, as in a pattern. -/
def namedProperty : Parser Items := do
  let decorators ← many (decorator g)
  let modifiers := decorators ++ (← modifiers g false).1
  let name ← memberName g false
  match ← nextChar with
  | some '(' => methodAfter g (modifiers ++ name)
  | follows =>
    if !modifiers.isEmpty then fail
    else
      match follows with
      | some ':' =>
        let colon ← symbol ":"
        node .pair (name ++ colon ++ (← Expression.listElement g))
      | some '=' =>
        let name ← ofOption (shorthand? .shorthandPropertyIdentifierPattern name)
        let sign ← assignSign
        node .objectAssignmentPattern (name ++ sign ++ (← Expression.inner g))
      | _ => ofOption (shorthand? .shorthandPropertyIdentifier name)

/-- Braces around properties, each of which `property` reads. -/
def bracesAround (property : Parser Items) : Parser Items := do
  let opening ← symbol "\x7b"
  let list ← looseCommaList property
  let closing ← symbol "\x7d"
  node .object (opening ++ list ++ closing)

/-- A property of an object or of a pattern. The objects in it are read by `object`. -/
def property (object : Parser Items) : Parser Items := do
  match ← nextChar with
  | some '.' => orElse (Expression.spread g) (namedProperty g)
  | some '\x7b' => patternWithDefault g object
  | some '[' => orElse (namedProperty g) (patternWithDefault g (Expression.array g))
  | _ => namedProperty g

/-- An object, in which objects that are patterns with a default value may be nested to a certain
depth. -/
def objectUpTo : Nat → Parser Items
  | 0 => fail
  | depth + 1 => bracesAround (property g fun s => objectUpTo depth s)

def object : Parser Items := fun s => objectUpTo g (s.size + 1) s

/-! ## Blocks or objects -/

/-- Words that start a statement or an operand of their own. After the brace of a block they are no
names. -/
def isReserved (word : String) : Bool :=
  ["import", "debugger", "var", "const", "if", "switch", "for", "while", "do", "try", "with",
    "break", "continue", "return", "throw", "function", "class", "new", "typeof", "void", "delete",
    "await", "yield", "this", "super", "true", "false", "null", "undefined"].contains word

/-- Words that may modify a method. -/
def isModifier (word : String) : Bool :=
  word == "get" || word == "set" || word == "async" || word == "static"

/-- A default value after which no statement ends, so that it need not be a statement. -/
def openDefault : Parser Unit := do
  let _ ← assignSign
  let _ ← g.expression .statement Operator.lowest
  if ← seesImpliedSemicolon true then fail

/-- Does a name follow that can only be the name of a property? -/
def seesPropertyOnly (word : Option String) : Parser Bool := sees do
  let _ ← complete (propertyName g)
  if ← seesImpliedSemicolon true then fail
  if (← seesSymbol ":") || (← seesSymbol "(") then pure ()
  else if word.isSome && (← sees assignSign) then openDefault g
  else if word.isSome && (← seesSymbol "\x7d") then pure ()
  else if word.any isModifier && (← seesMemberName g) then
    let next ← nextWord
    if next == some "in" || next == some "instanceof" then fail
    if word == some "async" && next == some "function" then fail
  else fail

/-- Do the braces, which are not read yet, start with the modifiers `static get`? -/
def startsWithStaticGet : Parser Bool := sees do
  let _ ← symbol "\x7b"
  staticGet

/-- Does a pattern with a default value follow that need not be a statement? -/
def seesPatternOnly : Parser Bool := sees do
  let _ ← g.destructuring
  openDefault g

/-- Where a block could stand: do the braces, which are not read yet, start like an object? Braces
may be nested to a certain depth. -/
def seesObjectUpTo : Nat → Parser Bool
  | 0 => return false
  | depth + 1 => peek do
    let starts ← startsWithStaticGet
    let _ ← symbol "\x7b"
    let word ← nextWord
    if starts then return true
    if word.any isReserved then return false
    match word, ← nextChar with
    | none, some '\x7b' =>
      if ← seesObjectUpTo depth then seesPatternOnly g else return false
    | none, some '[' => return (← seesPropertyOnly g word) || (← seesPatternOnly g)
    | none, some '"' | none, some '\'' => seesPropertyOnly g word
    | none, some c => if c.isDigit then seesPropertyOnly g word else return true
    | none, none => return false
    | some _, _ => seesPropertyOnly g word

/-- Where a block could stand: do the braces, which are not read yet, start like an object? -/
def seesObject : Parser Bool := fun s => seesObjectUpTo g (s.size + 1) s

/-- Does an expression start with a product? -/
def startsWithProduct : Cst → Bool
  | .node kind _ _ (first :: rest) =>
    (kind = .binaryExpression && rest.any (Cst.isToken "*")) || startsWithProduct first
  | _ => false

/-- Do the statements of a block look like properties, too? Either like a name with a value, or like
a name with parameters and a body; before the name of a generator stands `*`. -/
def resemblesObject (block : Items) : Bool :=
  match block.getLast? with
  | some (.node _ _ _ children) =>
    match children.filter fun c => c matches .node .. with
    | first :: rest =>
      first.hasKind .labeledStatement
        || (first.hasKind .expressionStatement
          && (rest.head?.any (Cst.startsWith "\x7b") || startsWithProduct first))
    | [] => false
  | _ => false

/-- Braces that are read as a block by `block`, and as an object or an expression that starts with
one by `object`. The object has to cost at least `advantage` less. -/
def blockOr (advantage : Nat) (object block : Parser Items) : Parser Items := fun s =>
  let object : Parser Items := do
    if ← seesObject g then
      let items ← object
      if Cst.noneHasStrayPattern items then return items else fail
    else fail
  let block : Parser Items := do
    if ← startsWithStaticGet then fail else block
  match block s with
  | .read items after =>
    if resemblesObject items then
      match object s with
      | .read others afterOthers =>
        let limit := after.offset
        if Cst.totalCost limit others + advantage ≤ Cst.totalCost limit items then
          .read others afterOthers
        else .read items after
      | _ => .read items after
    else .read items after
  | .fail => object s
  | .abort s => .abort s

end CodeFormatter.JavaScript.Object
