import CodeFormatter.JavaScript.Kind

/-!
# Concrete syntax trees

What the parser reads off a text: nodes, the tokens they are made of, and the comments between
those. A node spans its first to its last token, so a comment never comes first in a node.

**Patterns.** A list of parameters or the target of an assignment is read as an expression first,
because only what follows it tells the two apart. `Cst.toPattern?` turns it into a pattern then.

**Costs.** A text in braces can be a block and an object. The two readings are weighed by
`Cst.cost`.
-/

namespace CodeFormatter.JavaScript

inductive Cst where
  | node (kind : Kind) (start stop : Nat) (children : List Cst)
  /-- A token; `operator` if it says what its node does. -/
  | token (text : String) (start stop : Nat) (operator : Bool)
  | comment (text : String) (start stop : Nat)
  deriving Inhabited

namespace Cst

def start : Cst → Nat
  | .node _ start _ _ | .token _ start _ _ | .comment _ start _ => start

def children : Cst → List Cst
  | .node _ _ _ children => children
  | _ => []

def isComment : Cst → Bool
  | .comment .. => true
  | _ => false

/-- Is it a node of this kind? -/
def hasKind (kind : Kind) : Cst → Bool
  | .node k .. => k = kind
  | _ => false

/-- Is it this token? -/
def isToken (text : String) : Cst → Bool
  | .token t .. => t == text
  | _ => false

/-- Is this token its first one? -/
def startsWith (text : String) : Cst → Bool
  | .node _ _ _ (first :: _) => first.startsWith text
  | leaf => leaf.isToken text

/-- A node that ends at `stop`. The comments before its first token stay in front of it. -/
def wrap (kind : Kind) (items : List Cst) (stop : Nat) : List Cst :=
  let rest := items.dropWhile isComment
  items.takeWhile isComment ++ [.node kind ((rest.head?.map start).getD stop) stop rest]

/-- The kind of the node that ends a list. -/
def lastKind? (items : List Cst) : Option Kind :=
  match items.getLast? with
  | some (.node kind ..) => some kind
  | _ => none

/-! ## Patterns -/

/-- Kinds of expressions that can be assigned to as they are. -/
def isReference (kind : Kind) : Bool :=
  kind = .identifier || kind = .undefinedName || kind = .memberExpression
    || kind = .subscriptExpression

/-- Is the target of an assignment expression, its first child, a pattern? -/
def assignsToPattern : List Cst → Bool
  | .node kind .. :: _ => kind != .parenthesizedExpression
  | _ => false

mutual

/-- An expression read as a pattern, with a default value if it assigns, and the rest of a list if
it spreads. Tokens and comments stay. -/
def toPattern? : Cst → Option Cst
  | .node kind start stop children =>
    match kind with
    | .array => (elementPatterns? children).map (.node .arrayPattern start stop)
    | .object => (propertyPatterns? children).map (.node .objectPattern start stop)
    | .assignmentExpression =>
      if assignsToPattern children then some (.node .assignmentPattern start stop children) else none
    | .spreadElement => (targets? children).map (.node .restPattern start stop)
    | kind => if isReference kind then some (.node kind start stop children) else none
  | leaf => some leaf

/-- An expression read as the target of an assignment. -/
def target? : Cst → Option Cst
  | .node kind start stop children =>
    match kind with
    | .array => (elementPatterns? children).map (.node .arrayPattern start stop)
    | .object => (propertyPatterns? children).map (.node .objectPattern start stop)
    | kind => if isReference kind then some (.node kind start stop children) else none
  | leaf => some leaf

/-- A property of an object read as one of a pattern. -/
def propertyPattern? : Cst → Option Cst
  | .node kind start stop children =>
    match kind with
    | .pair => (valuePatterns? children).map (.node .pairPattern start stop)
    | .spreadElement => (targets? children).map (.node .restPattern start stop)
    | .shorthandPropertyIdentifier =>
      some (.node .shorthandPropertyIdentifierPattern start stop children)
    | .objectAssignmentPattern => some (.node .objectAssignmentPattern start stop children)
    | _ => none
  | leaf => some leaf

def elementPatterns? : List Cst → Option (List Cst)
  | [] => some []
  | c :: rest => do
    let c ← toPattern? c
    let rest ← elementPatterns? rest
    return c :: rest

def targets? : List Cst → Option (List Cst)
  | [] => some []
  | c :: rest => do
    let c ← target? c
    let rest ← targets? rest
    return c :: rest

def propertyPatterns? : List Cst → Option (List Cst)
  | [] => some []
  | c :: rest => do
    let c ← propertyPattern? c
    let rest ← propertyPatterns? rest
    return c :: rest

/-- The parts of a pair, of which those after the colon become patterns. -/
def valuePatterns? : List Cst → Option (List Cst)
  | [] => some []
  | c :: rest =>
    if c.isToken ":" then (elementPatterns? rest).map (c :: ·)
    else (valuePatterns? rest).map (c :: ·)

end

/-- Is it a property that only a pattern may have: with a default value, or with the rest of
something as its value? -/
def isPatternOnly : Cst → Bool
  | .node .objectAssignmentPattern .. => true
  | .node .pair _ _ children => children.any (hasKind .spreadElement)
  | _ => false

/-- Is nothing, or at most the name of a property, between the brackets of a pattern? Up to its closing
bracket it is the same text as an operand then. -/
def isBare (pattern : Cst) : Bool :=
  match pattern.children.filter (!·.isComment) with
  | [_, _] => true
  | [_, property, _] => property.hasKind .shorthandPropertyIdentifierPattern
  | _ => false

mutual

/-- Does no object have a property that only a pattern may have? -/
def hasNoStrayPattern : Cst → Bool
  | .node kind _ _ children =>
    !(kind = .object && children.any isPatternOnly) && noneHasStrayPattern children
  | _ => true

def noneHasStrayPattern : List Cst → Bool
  | [] => true
  | c :: rest => hasNoStrayPattern c && noneHasStrayPattern rest

end

/-! ## Two readings of one text -/

/-- How many children of a node are nodes. -/
def nodeCount (children : List Cst) : Nat := children.countP fun c => c matches .node ..

/-- What a node by itself adds to the cost of a reading: labels and patterns cost. -/
def ownCost (kind : Kind) (children : List Cst) : Nat :=
  match kind with
  | .labeledStatement | .pairPattern | .jsxOpeningElement => 1
  | .formalParameters | .arrayPattern => nodeCount children
  | _ => 0

mutual

/-- The cost of a reading, as far as it is about the text before `limit`. Of two readings of a text,
the one that needs fewer labels and patterns is meant. -/
def cost (limit : Nat) : Cst → Nat
  | .node kind start _ children =>
    if start < limit then ownCost kind children + totalCost limit children else 0
  | _ => 0

def totalCost (limit : Nat) : List Cst → Nat
  | [] => 0
  | c :: rest => cost limit c + totalCost limit rest

end

end Cst

end CodeFormatter.JavaScript
