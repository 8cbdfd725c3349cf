import CodeFormatter.JavaScript.Class

/-!
# Expressions

Operands, and what may follow them. An expression is read from left to right: an operand first, and
then each operator that binds tight enough takes all that was read so far as its left side.

**Covers.** A parenthesis may turn out to hold the parameters of an arrow function, an object or an
array to be the target of an assignment. They are read once and turned into patterns when the arrow
or the sign is seen.
-/

namespace CodeFormatter.JavaScript.Expression

open CodeFormatter.JavaScript.Parser

variable (g : Grammar)

/-! ## Arrow functions -/

/-- A pattern and the sign after it. -/
def assignmentHead : Parser Items := do
  let target ← g.destructuring
  return target ++ (← assignSign)

/-- Where a block could stand: are the braces a pattern that a value is assigned to? Asked only where
comments that hide from markup follow brackets. -/
def seesHiddenAssignment : Parser Bool := sees do
  if !(← get).hides then fail
  if !(← Object.seesObject g) then fail
  assignmentHead g

/-- The block that is the body of an arrow function. It is none if a value is assigned to it. -/
def arrowBlock : Parser Items := do
  let items ← Function.body g true
  if ← sees assignSign then fail else return items

/-- The arrow of a function, its body, and with the parameters before it the function. -/
def arrowAfter (c : Context) (parameters : Items) : Parser Items := do
  let arrow ← symbol "=>"
  let value := g.expression c Operator.lowest
  let body ←
    if ← seesHiddenAssignment g then value
    else if (← nextChar) == some '\x7b' then commit (Object.blockOr g 1 value (arrowBlock g))
    else value
  node .arrowFunction (parameters ++ arrow ++ body)

/-- What looks like a comment that hides from markup, read as an operator with its right side. -/
def hiddenOperator (c : Context) : Parser Items := do
  let _ ← toOperator c.ends
  let _ ← orElse (exactly "<") (exactly "-->")
  g.expression c (Operator.relationLevel + 1)

/-- Does an arrow follow what may be parameters? If a comment that hides from markup stands before
the arrow, the parameters might be an operand, too (`isOperand`). They are one if the comment can be
read as an operator whose right side goes on with the arrow. -/
def seesArrow (c : Context) (isOperand : Bool) : Parser Bool := do
  if ← seesSymbol "=>" then return true
  let arrow ← peek? do
    expect true
    let _ ← symbol "=>"
    return (← get).offset
  let reached ← peek? do
    let _ ← hiddenOperator g c
    return (← get).offset
  return arrow.any fun arrow => !(isOperand && reached.any (arrow ≤ ·))

/-- Parentheses: around expressions, or around the parameters of an arrow function. -/
def parenthesized (c : Context) : Parser Items := do
  let opening ← symbol "("
  let list ← maybe (commaList (listElement g))
  let listEnd := (← get).offset
  let trailing ← if list.isEmpty then pure [] else maybe (symbol ",")
  let closing ← symbol ")"
  let isOperand :=
    !list.isEmpty && trailing.isEmpty && !list.any (Cst.hasKind .spreadElement)
  if ← seesArrow g c isOperand then
    expect true
    let patterns ← ofOption (Cst.elementPatterns? list)
    arrowAfter g c (← node .formalParameters (opening ++ patterns ++ trailing ++ closing))
  else if isOperand then
    let contents :=
      if list.any (Cst.isToken ",") then Cst.wrap .sequenceExpression list listEnd else list
    node .parenthesizedExpression (opening ++ contents ++ closing)
  else fail

/-- A name, or an arrow function with this name as its parameter. -/
def nameOrArrow (c : Context) : Parser Items := do
  let name ← name .identifier
  let isParameter ← sees do
    let _ ← toOperator c.ends
    exactly "=>"
  if isParameter then arrowAfter g c name else return name

/-- No empty place between the commas of a list of arguments. -/
def hasNoHole : List Cst → Bool
  | a :: b :: rest =>
    !((a.isToken "(" || a.isToken ",") && b.isToken ",") && hasNoHole (b :: rest)
  | _ => true

/-- Arguments read as parameters. -/
def argumentsAsParameters? : Items → Option Items
  | [.node .arguments start stop children] => do
    guard (hasNoHole (children.filter (!·.isComment)))
    let patterns ← Cst.elementPatterns? children
    return [.node .formalParameters start stop patterns]
  | _ => none

/-- An arrow function after `async`. -/
def asyncArrow (c : Context) : Parser Items := do
  let async ← complete (keyword "async")
  let word ← nextWord
  if word == some "in" || word == some "instanceof" then fail
  let parameters ← orElse (name .identifier) do
    let list ← arguments g
    let parameters ← ofOption (argumentsAsParameters? (list.filter (!·.isComment)))
    let hasSome := parameters.any fun c => 0 < Cst.ownCost .formalParameters c.children
    if ← seesArrow g c hasSome then return list.filter (·.isComment) ++ parameters else fail
  expect true
  arrowAfter g c (async ++ parameters)

/-- Does a function follow after `async`, where no statement may end? -/
def seesAsyncFunction : Parser Bool := sees do
  let _ ← complete (keyword "async")
  keyword "function"

/-- What starts with the word `async`: a function, an arrow function, or a name. -/
def asyncOperand (c : Context) : Parser Items := do
  let isName ← sees do
    let _ ← complete (keyword "async")
    if c.ends && (← seesImpliedSemicolon true) then pure ()
    else if c.beforeOf && (← nextWord) == some "of" then pure ()
    else fail
  if isName then name .identifier
  else if ← seesAsyncFunction then (← Function.definition g true).operand
  else orElse (asyncArrow g c) (nameOrArrow g c)

/-! ## Operands -/

/-- A word that is a node of its own kind. -/
def constant? : String → Option Kind
  | "this" => some .thisName
  | "super" => some .superName
  | "true" => some .trueLiteral
  | "false" => some .falseLiteral
  | "null" => some .nullLiteral
  | "undefined" => some .undefinedName
  | _ => none

/-- `new.target` or `import.meta`. -/
def metaProperty (first second : String) : Parser Items := complete do
  let word ← keyword first
  let point ← symbol "."
  node .metaProperty (word ++ point ++ (← keyword second))

/-- A property after a point. -/
def memberName : Parser Items :=
  orElse (name .propertyIdentifier) (leaf .privatePropertyIdentifier Lexeme.privateName?)

/-- The mark of an optional chain. -/
def chainMark : Parser Items := expecting do
  let comments ← gap
  let (_, start, stop) ← exactly "?."
  return comments ++ [.node .optionalChain start stop []]

/-- `import` where it stands for a function, with its arguments, or for an object with a member. -/
def importOperand : Parser Items := do
  let word ← expecting (name .importName)
  orElse (do node .callExpression (word ++ (← arguments g)))
    (do
      let mark ← chainMark
      node .memberExpression (word ++ mark ++ (← memberName)))

/-- An operand that starts with a word, as far as it is complete without what follows. -/
def wordOperand (c : Context) (word : String) : Parser Items := do
  match constant? word with
  | some kind => name kind
  | none =>
    match word with
    | "function" => (← Function.definition g true).operand
    | "async" => asyncOperand g c
    | "class" => (← Class.definition g false).operand
    | "import" => orElse (metaProperty "import" "meta") (importOperand g)
    | _ => nameOrArrow g c

/-- The flags of a regular expression. Comments may stand before them, but no blanks and no place
where a semicolon is implied. -/
def regexFlags (c : Context) : Nat → Parser Items
  | 0 => fail
  | fuel + 1 => do
    if c.ends && (← impliesSemicolon true) then fail
    else
      orElse
        (do
          let _ ← lexeme Lexeme.regexFlags?
          return [])
        (do
          let first ← comment
          return first :: (← regexFlags c fuel))

def regex (c : Context) : Parser Items := complete do
  let comments ← gap
  let (pattern, start, stop) ← lexeme Lexeme.regex?
  let flags ← maybe (regexFlags c ((← get).size + 1))
  return comments ++ (← node .regex (.token pattern start stop false :: flags))

/-- An operand without operators of its own. -/
def primary (c : Context) : Parser Items := do
  match ← nextChar with
  | none => fail
  | some '(' => parenthesized g c
  | some '[' => array g
  | some '\x7b' => Object.object g
  | some '`' => template g
  | some '"' | some '\'' => leaf .string Lexeme.string?
  | some '/' => regex c
  | some '.' => leaf .number Lexeme.number?
  | some '@' => (← Class.definition g false).operand
  | some first =>
    if first.isDigit then leaf .number Lexeme.number?
    else
      match ← nextWord with
      | some word => wordOperand g c word
      | none => fail

/-- An operator before its operand. -/
def unary (c : Context) (operator : Parser Items) : Parser Items := do
  let operator ← operator
  node .unaryExpression (operator ++ (← g.expression c Operator.unaryLevel))

/-- `++a` or `--a`. -/
def prefixUpdate (c : Context) (operator : String) : Parser Items := do
  let operator ← symbolAs true operator
  node .updateExpression (operator ++ (← g.expression c Operator.callLevel))

def awaitExpression (c : Context) : Parser Items := do
  let word ← keyword "await"
  node .awaitExpression (word ++ (← g.expression c Operator.unaryLevel))

/-- Can an operand start here, rather than an operator? -/
def seesOperand : Parser Bool := peek do
  let _ ← gap
  match Lexeme.word? (← get).rest, (← get).rest with
  | some (word, _), _ => return word != "in".toList && word != "instanceof".toList
  | none, '!' :: '=' :: _ => return false
  | none, '<' :: c :: _ => return c != '<' && c != '='
  | none, '.' :: c :: _ => return c.isDigit
  | none, c :: _ => return c.isDigit || "+-!~<#([\x7b`\"'/@".toList.contains c
  | none, [] => return false

/-- `yield` with a value or without. -/
def yieldExpression (c : Context) : Parser Items := do
  let word ← complete (keyword "yield")
  let ended ← if c.ends then seesImpliedSemicolon true else pure false
  if ended || (c.beforeOf && (← nextWord) == some "of") then node .yieldExpression word
  else
    let star ← if ← seesSymbol "**" then pure [] else maybe (symbol "*")
    if !star.isEmpty || (← seesOperand) then
      node .yieldExpression (word ++ star ++ (← g.expression c Operator.lowest))
    else node .yieldExpression word

/-- `new` with what it is applied to. -/
def newExpression (c : Context) : Parser Items :=
  orElse (metaProperty "new" "target") do
    let word ← keyword "new"
    let callee ← g.callee c
    let list ← maybe do
      let _ ← peek (toOperator c.ends)
      arguments g
    node .newExpression (word ++ callee ++ list)

/-- A private member that is looked up in an object, as in `#a in b`. -/
def privateLookup (c : Context) : Parser Items := do
  let name ← expecting (leaf .privatePropertyIdentifier Lexeme.privateName?)
  let operator ← keywordAs true "in"
  let right ← g.expression c (Operator.rightLevel "in" Operator.relationLevel)
  node .binaryExpression (name ++ operator ++ right)

/-- An operand with the operators before it; no gap comes first. -/
def operandHere (c : Context) : Parser Items := do
  match (← get).rest with
  | '+' :: '+' :: _ => prefixUpdate g c "++"
  | '-' :: '-' :: _ => prefixUpdate g c "--"
  | '+' :: _ => unary g c (symbolAs true "+")
  | '-' :: _ => unary g c (symbolAs true "-")
  | '!' :: _ => unary g c (symbolAs true "!")
  | '~' :: _ => unary g c (symbolAs true "~")
  | '<' :: _ => g.element
  | '#' :: _ => privateLookup g c
  | _ =>
    match ← nextWord with
    | some "typeof" => unary g c (keywordAs true "typeof")
    | some "void" => unary g c (keywordAs true "void")
    | some "delete" => unary g c (keywordAs true "delete")
    | some "await" => awaitExpression g c
    | some "yield" => yieldExpression g c
    | some "new" => newExpression g c
    | _ => primary g c

/-- Words that are operators before an operand. -/
def isOperatorWord (word : String) : Bool :=
  ["typeof", "void", "delete", "await"].contains word

def operand (c : Context) : Parser Items := complete do
  let comments ← gap
  return comments ++ (← operandHere g c)

/-! ## What follows an operand -/

/-- An index in brackets. -/
def index : Parser Items := do
  let opening ← symbol "["
  let contents ← sequence g .inner
  let closing ← symbol "]"
  return opening ++ contents ++ closing

/-- Kinds of expressions that no operator stands in front of or behind. -/
def isPrimary (kind : Kind) : Bool :=
  match kind with
  | .subscriptExpression | .memberExpression | .parenthesizedExpression | .identifier
  | .undefinedName | .thisName | .superName | .number | .string | .templateString | .regex
  | .trueLiteral | .falseLiteral | .nullLiteral | .object | .array | .functionExpression
  | .arrowFunction | .generatorFunction | .classExpression | .metaProperty | .callExpression => true
  | _ => false

/-- Is it an arrow function with an expression as its body? Then what follows it belongs to that. -/
def isOpenArrow : Option Cst → Bool
  | some (.node .arrowFunction _ _ children) =>
    !(children.getLast?.any (Cst.hasKind .statementBlock))
  | _ => false

/-- What may follow the mark of an optional chain. -/
def chainAfter (left : Items) : Parser Items := do
  let chained := left ++ (← chainMark)
  match ← nextChar with
  | some '[' => node .subscriptExpression (chained ++ (← index g))
  | some '(' =>
    if (Cst.lastKind? left).any isPrimary && !isOpenArrow left.getLast? then
      node .callExpression (chained ++ (← arguments g))
    else fail
  | _ => node .memberExpression (chained ++ (← memberName))

/-- A template after an operand, which gets it as its argument. -/
def templateAfter (left : Items) : Parser Items := do
  if (Cst.lastKind? left).any fun kind => isPrimary kind || kind = .newExpression then
    node .callExpression (left ++ (← template g))
  else fail

/-- A member, an index or a template after an operand: all that binds tighter than `new`. -/
def accessAfter (left : Items) (operator : String) : Parser Items := do
  match operator with
  | "." =>
    let point ← symbol "."
    node .memberExpression (left ++ point ++ (← memberName))
  | "?." => chainAfter g left
  | "[" => node .subscriptExpression (left ++ (← index g))
  | "`" => templateAfter g left
  | _ => fail

/-- The next token after an operand: an operator, or a word that is one. -/
def nextOperator (ends : Bool) : Parser String := peek do
  let _ ← toOperator ends
  let rest := (← get).rest
  match Lexeme.word? rest with
  | some (word, _) =>
    let word := String.ofList word
    if word == "in" || word == "instanceof" then return word else fail
  | none => ofOption (Operator.read? rest)

/-- Can the outcome of an operator be assigned to it? -/
def isUpdatable (kind : Option Kind) : Bool :=
  kind == some .identifier || kind == some .memberExpression || kind == some .subscriptExpression
    || kind == some .parenthesizedExpression

/-- The token of an operator. -/
def operatorToken (text : String) : Parser Items :=
  if text == "in" || text == "instanceof" then keywordAs true text else symbolAs true text

/-- The mark of a choice between two values. Only blanks of the simple kind may stand before it, and
where a statement may end, one line break of another kind. -/
def choiceMark (ends : Bool) : Parser Items := do
  let comments ← many do return [← comment]
  skip Semicolon.isSpace
  if ends then
    let _ ← maybe do
      let _ ← lexeme fun
        | c :: rest => if Lexeme.isLineBreak c then some ([c], rest) else none
        | [] => none
      return []
    skip Semicolon.isSpace
  return comments ++ (← adjacent "?")

/-- One operator after what was read, with its right side. -/
def operatorAfter (c : Context) (level : Nat) (left : Items) (operator : String) :
    Parser Items := do
  match operator with
  | "(" => node .callExpression (left ++ (← arguments g))
  | "++" | "--" =>
    if level ≤ Operator.updateLevel then
      node .updateExpression (left ++ (← symbolAs true operator))
    else fail
  | "=" =>
    let target ← ofOption (assignable? left)
    let sign ← symbol "="
    node .assignmentExpression (target ++ sign ++ (← g.expression c Operator.lowest))
  | "?" =>
    if level ≤ Operator.ternaryLevel then
      let mark ← choiceMark c.ends
      let consequence ← inner g
      let colon ← symbol ":"
      let alternative ← g.expression c Operator.ternaryLevel
      node .ternaryExpression (left ++ mark ++ consequence ++ colon ++ alternative)
    else fail
  | _ =>
    if Operator.assigning.contains operator then
      if isUpdatable (Cst.lastKind? left) then
        let token ← symbolAs true operator
        node .augmentedAssignmentExpression
          (left ++ token ++ (← g.expression c Operator.lowest))
      else fail
    else
      match Operator.level? operator with
      | some own =>
        if level ≤ own then
          let token ← operatorToken operator
          let right ← g.expression c (Operator.rightLevel operator own)
          node .binaryExpression (left ++ token ++ right)
        else fail
      | none => accessAfter g left operator

/-- Repeats a step on what was read so far as long as it can be taken. -/
def extend (step : Items → Parser Items) : Nat → Items → Parser Items
  | 0, left => pure left
  | fuel + 1, left => fun s =>
    match step left s with
    | .read left s => extend step fuel left s
    | .fail => .read left s
    | .abort s => .abort s

/-- All operators of a level that follow an operand, with their right sides. -/
def operatorsAfter (c : Context) (level : Nat) (left : Items) : Parser Items := do
  let step (left : Items) : Parser Items := complete do
    operatorAfter g c level left (← nextOperator c.ends)
  extend step (← get).size left

/-! ## Patterns and comments that hide from markup -/

/-- The parameters of an arrow function, with `async` before them or not. -/
def arrowParameters : Parser Items := do
  let async ← maybe (complete (keyword "async"))
  return async ++ (← Function.parameters g)

/-- An assignment to a pattern or an arrow function, whose patterns are read as such from the start. -/
def hiddenPattern (c : Context) : Parser Items :=
  orElse
    (do
      let head ← assignmentHead g
      node .assignmentExpression (head ++ (← g.expression c Operator.lowest)))
    (do arrowAfter g c (← arrowParameters g))

/-- Can `hiddenPattern` be read, and not `plain` at least up to the sign or the arrow? Of two readings
that go on after the sign, the one that costs less is meant. -/
def seesHiddenPattern (plain : Parser Items) : Parser Bool := do
  if (← get).hides then
    let head : Parser Bool :=
      orElse
        (do
          let items ← assignmentHead g
          return 0 < Cst.totalCost (← get).offset items)
        (do
          let _ ← arrowParameters g
          let _ ← symbol "=>"
          return true)
    let plain : Parser Unit := do
      if !Cst.noneHasStrayPattern (← plain) then fail
    match ← peek? (do return (← head, (← get).offset)) with
    | some (costs, stop) => return !(costs && (← reach? plain).any (stop ≤ ·))
    | none => return false
  else return false

/-- An expression at a level, in which comments that hide from markup after brackets are operators. -/
def plainExpression (c : Context) (level : Nat) : Parser Items := do
  operatorsAfter g c level (← operand g c)

/-- An expression at a level. -/
def expression (c : Context) (level : Nat) : Parser Items := do
  if ← seesHiddenPattern g (do sequenceAfter g c (← plainExpression g c Operator.lowest)) then
    operatorsAfter g c level (← hiddenPattern g c)
  else plainExpression g c level

/-- Does the next token go on with an expression, and cannot start a statement? If no other statement
can come next (`isLast`), every operator goes on, and a semicolon is no statement. -/
def seesInfixOnly (isLast : Bool) : Parser Bool := sees do
  if isLast && (← seesSymbol ";") then pure ()
  else
    let operator ← nextOperator false
    if Operator.isInfixOnly operator || (isLast && Operator.goesOn operator) then pure () else fail

/-- The operand that what `new` is applied to starts with. -/
def calleeStart (c : Context) : Parser Items := do
  match ← nextWord with
  | some "new" => newExpression g c
  | some "yield" => yieldExpression g c
  | some word => if isOperatorWord word then fail else primary g c
  | none => if (← nextChar) == some '<' then complete g.element else primary g c

/-- Can `new` be applied to this kind of expression? -/
def isCallee (kind : Option Kind) : Bool := kind.any fun kind => isPrimary kind || kind = .newExpression

/-- What `new` is applied to: an operand with its members, but without a call unless `new` cannot be
applied to it before. Another `new` takes only templates. -/
def callee (c : Context) : Parser Items := do
  let left ← complete (calleeStart g c)
  let step (left : Items) : Parser Items := do
    let operator ← nextOperator c.ends
    let kind := Cst.lastKind? left
    if operator != "`" && kind == some .newExpression then fail
    else if (operator == "++" || operator == "--") && !isCallee kind then
      node .updateExpression (left ++ (← symbolAs true operator))
    else if operator == "(" && !isCallee kind then node .callExpression (left ++ (← arguments g))
    else accessAfter g left operator
  let items ← extend step (← get).size left
  if isCallee (Cst.lastKind? items) then return items else fail

end CodeFormatter.JavaScript.Expression
