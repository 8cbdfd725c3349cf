import CodeFormatter.JavaScript.Lowered

/-!
# Comments

How a comment is written, which comment asks for the next node to be left alone, and which comments
belong to another node than the general rules would say.

**Bodies.** A line comment right before the body of a function, of a loop or of a branch would trail
what stands before the body and drag the opening brace onto its line. It moves into the body.
-/

namespace CodeFormatter.JavaScript.CommentText

/-! ## Writing -/

/-- Does every line of a comment start with an asterisk? The body of the comment stands between its
two marks, which bring an asterisk each. -/
def isIndentable (body : List Char) : Bool :=
  let lines := pieces ('*' :: body ++ ['*'])
  1 < lines.length && lines.all fun line => (trimLeft line).head? == some '*'

/-- The lines after the first one, each a space behind the column of the comment. -/
def alignedLines : List (List Char) → List (List Char)
  | [] => []
  | [last] => [' ' :: trimLeft last]
  | line :: rest => (' ' :: trimBoth line) :: alignedLines rest

/-- The lines of an indentable comment. -/
def indentedLines : List (List Char) → List (List Char)
  | [] => []
  | first :: rest => trimRight first :: alignedLines rest

/-- The document of a comment. -/
def print (c : Comment) : Except Error Doc := do
  if c.block then
    let body ← sliceOrError c.text 2 (c.text.utf8ByteSize - 2)
    if isIndentable body.toList then
      let lines := (indentedLines (pieces body.toList)).map fun line => .text (String.ofList line)
      return .concat [.text "/*", Doc.join Doc.hardline lines, .text "*/"]
    else return .text c.text
  else return .text (trimEnd c.text)

/-! ## Requests -/

/-- What a comment says, without its marks. -/
def body (cs : List Char) : List Char :=
  match cs with
  | '/' :: '/' :: rest => rest
  | '/' :: '*' :: rest =>
    match rest.reverse with
    | '/' :: '*' :: inner => inner.reverse
    | _ => cs
  | _ => cs

/-- Does a comment ask for the node after it to be left as it is? -/
def isIgnore (c : Comment) : Bool := trimBoth (body c.text.toList) == "docfmt-ignore".toList

/-! ## Owners -/

/-- The body of a node that line comments can move into, and whether only a block takes them. -/
def bodyOf? (t : Node) : Option (Node × Bool) :=
  match kindOf t with
  | .ifStatement => t.children[1]?.map (·, false)
  | .elseClause | .whileStatement => t.children.getLast?.map (·, false)
  | .functionDeclaration | .generatorFunctionDeclaration | .functionExpression
  | .generatorFunction | .arrowFunction => t.children.getLast?.map (·, true)
  | _ => none

/-- A line comment right before a body leads the first statement in it, or dangles in an empty
block. -/
def ownerInBody? (around : Surroundings Info) : Option (Nat × Placement) := do
  let enclosing ← around.enclosing
  let following ← around.following
  let (body, blocksOnly) ← bodyOf? enclosing
  guard (body.id = following.id)
  if kindOf following = .statementBlock then
    match following.children.find? fun s => kindOf s != .emptyStatement with
    | some first => return (first.id, .leading)
    | none => return (following.id, .dangling)
  else if blocksOnly then none
  else return (following.id, .leading)

/-- A comment before `else` trails the block before it; if there is none, it dangles in the whole
statement. -/
def ownerBeforeElse? (around : Surroundings Info) : Option (Nat × Placement) := do
  let enclosing ← around.enclosing
  let preceding ← around.preceding
  let following ← around.following
  guard (kindOf enclosing = .ifStatement && kindOf following = .elseClause
    && enclosing.children[1]?.any (·.id == preceding.id))
  if kindOf preceding = .statementBlock then return (preceding.id, .trailing)
  else return (enclosing.id, .dangling)

/-- The owner of a comment, where the general rules do not apply. -/
def owner? (c : Comment) (around : Surroundings Info) : Option (Nat × Placement) :=
  (if c.block then none else ownerInBody? around).orElse fun _ => ownerBeforeElse? around

end CodeFormatter.JavaScript.CommentText
