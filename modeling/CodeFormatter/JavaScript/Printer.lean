import CodeFormatter.Walk
import CodeFormatter.JavaScript.CommentText

/-!
# Printing JavaScript

The document of a node, made from those of its children. Statements, declarations, functions, calls
and the common expressions have a layout of their own. A node of any other kind is copied from the
source, so nothing that is not understood gets lost.
-/

namespace CodeFormatter.JavaScript.Printer

abbrev Child := Printable Info

def kind (c : Child) : Kind := kindOf c.node

/-! ## Pieces -/

def text (s : String) : Doc := .text s

/-- The documents of all children. -/
def printAll (children : List Child) : Walk (List Doc) := children.mapM (·.print)

/-- The end of a statement, if the options ask for one. -/
def terminator (scene : Scene) : Doc := if scene.options.semi then text ";" else Doc.nil

/-- Does a blank line follow a node? -/
def blankLineAfter (scene : Scene) (t : Node) : Walk Bool :=
  match Scan.isNextLineEmpty? scene.bytes t.stop with
  | some blank => return blank
  | none => throw .invalidSpan

/-- A comma at the end of a list that is broken into lines. -/
def trailingComma (wanted : Bool) : Doc :=
  if wanted then Doc.choose (text ",") Doc.nil else Doc.nil

/-- Does the source of a node start with one of these characters? -/
def startsWith (scene : Scene) (t : Node) (chars : List Char) : Walk Bool := do
  return ((← Walk.source scene t).toList.head?).any chars.contains

/-! ## Statements -/

/-- Statements, each on lines of its own; of several blank lines between two of them one is kept. -/
def statementDocs (scene : Scene) : List Child → Walk (List Doc)
  | [] => return []
  | [last] => return [← last.print]
  | c :: rest => do
    let doc ← c.print
    let blank := if ← blankLineAfter scene c.node then [Doc.hardline] else []
    return doc :: Doc.hardline :: blank ++ (← statementDocs scene rest)

/-- The statements that do something. -/
def meaningful (children : List Child) : List Child :=
  children.filter fun c => kind c != .emptyStatement

def statements (scene : Scene) (children : List Child) : Walk Doc :=
  .concat <$> statementDocs scene (meaningful children)

def program (scene : Scene) (t : Node) (children : List Child) : Walk Doc := do
  let body ← statements scene children
  let body := if body.isEmpty then [] else [body]
  let dangling ←
    if ← Walk.hasDanglingComments t then do
      let comments ← Walk.danglingComments CommentText.print t true
      pure ((if body.isEmpty then [] else [Doc.hardline]) ++ [comments])
    else pure []
  let parts := body ++ dangling
  return .concat (if parts.isEmpty then [] else parts ++ [Doc.hardline])

def block (scene : Scene) (t : Node) (children : List Child) : Walk Doc := do
  let hasStatements := !(meaningful children).isEmpty
  let hasDangling ← Walk.hasDanglingComments t
  if !hasStatements && !hasDangling then return text "\x7b\x7d"
  let body ←
    if hasStatements then do
      pure [.indent (.concat [Doc.hardline, ← statements scene children])]
    else pure []
  let dangling ←
    if hasDangling then do
      pure [← Walk.danglingComments CommentText.print t false]
    else pure []
  return .concat ([text "\x7b"] ++ body ++ dangling ++ [Doc.hardline, text "\x7d"])

/-- An expression as a statement. Without semicolons, one that would go on with the line before it
gets a semicolon in front. -/
def expressionStatement (scene : Scene) (c : Child) : Walk Doc := do
  let doc ← c.print
  if scene.options.semi then return .concat [doc, text ";"]
  else if ← startsWith scene c.node ['(', '[', '`', '+', '-', '/'] then
    return .concat [text ";", doc]
  else return doc

/-- A keyword with what follows it on its line. -/
def keywordStatement (scene : Scene) (keyword : String) (argument : Option Child) : Walk Doc := do
  let argument ←
    match argument with
    | some c => do pure [text " ", ← c.print]
    | none => pure []
  return .concat ([text keyword] ++ argument ++ [terminator scene])

/-- Variables after the first one, below each other if one has a value. -/
def furtherVariables (hasValue : Bool) (docs : List Doc) : List Doc :=
  docs.flatMap fun d => [text ",", if hasValue then Doc.hardline else Doc.space, d]

def declaration (scene : Scene) (t : Node) (children : List Child) : Walk Doc := do
  let keyword := t.info.tokens.head?.getD "var"
  let hasValue := children.any fun c => 1 < c.node.children.length
  let docs ← printAll children
  return Doc.groupOf (.concat [text keyword, text " ", docs.headD Doc.nil,
    .indent (.concat (furtherVariables hasValue docs.tail)), terminator scene])

/-! ## Branches and loops -/

/-- A body: a block stays on the line, another statement goes to the next one if need be. -/
def clause (c : Child) (forceSpace : Bool) : Walk Doc := do
  if kind c = .emptyStatement then return text ";"
  let doc ← c.print
  if kind c = .statementBlock || forceSpace then return .concat [text " ", doc]
  else return .indent (.concat [Doc.space, doc])

/-- Is the last dangling comment of a node a line comment? -/
def lastDanglingIsLine (t : Node) : Walk Bool := do
  let cs ← Walk.comments
  let dangling := (cs.of t.id).reverse.filterMap fun i =>
    (cs.get? i).filter fun c => c.placement == some .dangling
  return dangling.head?.any fun c => !c.block

def ifStatement (t : Node) (condition consequence : Child) (alternative : Option Child) :
    Walk Doc := do
  let condition ← condition.print
  let opening := Doc.groupOf (.concat [text "if ", condition, ← clause consequence false])
  match alternative with
  | none => return opening
  | some alternative =>
    let commentOnOwnLine :=
      (← Walk.hasTrailingLineComment consequence.node) || (← lastDanglingIsLine t)
    let onSameLine := kind consequence = .statementBlock && !commentOnOwnLine
    let dangling ←
      if ← Walk.hasDanglingComments t then do
        let comments ← Walk.danglingComments CommentText.print t true
        pure [comments, if commentOnOwnLine then Doc.hardline else text " "]
      else pure []
    return .concat ([opening, if onSameLine then text " " else Doc.hardline] ++ dangling
      ++ [← alternative.print])

def whileStatement (condition body : Child) : Walk Doc := do
  let condition ← condition.print
  return Doc.groupOf (.concat [text "while ", condition, ← clause body false])

def elseClause (body : Child) : Walk Doc := do
  return .concat [text "else", Doc.groupOf (← clause body (kind body = .ifStatement))]

/-! ## Assignments and operators -/

/-- The value of an assignment: some kinds may go to the next line, the others have brackets to
break at. -/
def assignedValue (c : Child) : Walk Doc := do
  let doc ← c.print
  match kind c with
  | .binaryExpression | .string | .memberExpression | .ternaryExpression =>
    return Doc.groupOf (.indent (.concat [Doc.space, doc]))
  | _ => return .concat [text " ", doc]

/-- A target, a sign and a value. -/
def assignment (target : Child) (sign : String) (value : Child) : Walk Doc := do
  let target ← target.print
  return .concat [target, text (" " ++ sign), ← assignedValue value]

/-- How tight an operator binds. -/
def precedence : String → Nat
  | "??" => 1
  | "||" => 2
  | "&&" => 3
  | "|" => 4
  | "^" => 5
  | "&" => 6
  | "==" | "!=" | "===" | "!==" => 7
  | "<" | ">" | "<=" | ">=" | "in" | "instanceof" => 8
  | "<<" | ">>" | ">>>" => 9
  | "+" | "-" => 10
  | "*" | "/" | "%" => 11
  | "**" => 12
  | _ => 0

/-- Does `a inner b outer c` make one chain? Chains of comparisons, shifts and powers do not, and a
remainder only with remainders. -/
def flattens (outer inner : String) : Bool :=
  let level := precedence outer
  level == precedence inner && level != 7 && level != 9 && level != 12
    && !(level == 11 && (outer == "%" || inner == "%") && outer != inner)

/-- A node as an operation on two operands. -/
def operands? (c : Child) : Option (Child × String × Child) :=
  match kind c, c.children, c.node.info.operator with
  | .binaryExpression, [left, right], some operator => some (left, operator.text, right)
  | _, _, _ => none

/-- The operands and operators of a chain, from the left. `fuel` bounds its length. -/
def chain : Nat → Child → String → Child → Walk (List Doc)
  | 0, left, operator, right => do
    let left ← left.print
    return [Doc.groupOf left, text (" " ++ operator), Doc.space, ← right.print]
  | fuel + 1, left, operator, right => do
    let whole : Walk (List Doc) := do return [Doc.groupOf (← left.print)]
    let first ←
      match operands? left with
      | some (innerLeft, inner, innerRight) =>
        if flattens operator inner && !(← Walk.hasComments left.node) then
          chain fuel innerLeft inner innerRight
        else whole
      | none => whole
    return first ++ [text (" " ++ operator), Doc.space, ← right.print]

/-- Kinds of nodes inside which the lines of a chain are not indented further. -/
def keepsChainFlush : Option Kind → Bool
  | some .parenthesizedExpression | some .variableDeclarator | some .assignmentExpression
  | some .augmentedAssignmentExpression => true
  | _ => false

def binary (path : Tree.Path Info) (left : Child) (operator : String) (right : Child) :
    Walk Doc := do
  let parts ← chain path.node.depth left operator right
  if keepsChainFlush (path.parent?.map kindOf) then return Doc.groupOf (.concat parts)
  else
    return Doc.groupOf
      (.concat [.concat (parts.take 1), .indent (.concat (parts.drop 1))])

/-- An operator before its operand, with a space where the two would make one token. -/
def unary (scene : Scene) (operator : String) (argument : Child) : Walk Doc := do
  let spaced ←
    if operator.toList.all Char.isAlpha then pure true
    else if operator == "-" || operator == "+" then startsWith scene argument.node operator.toList
    else pure false
  return .concat [text operator, if spaced then text " " else Doc.nil, ← argument.print]

def update (operator : OperatorToken) (argument : Child) : Walk Doc := do
  let doc ← argument.print
  return .concat (if operator.start < argument.node.start then [text operator.text, doc]
    else [doc, text operator.text])

def ternary (condition consequence alternative : Child) : Walk Doc := do
  let condition ← condition.print
  let consequence ← consequence.print
  let alternative ← alternative.print
  return Doc.groupOf (.concat [condition, .indent (.concat
    [Doc.space, text "? ", consequence, Doc.space, text ": ", alternative])])

def parenthesized (c : Child) : Walk Doc := do
  return Doc.groupOf (.concat
    [text "(", .indent (.concat [Doc.softline, ← c.print]), Doc.softline, text ")"])

/-! ## Functions and calls -/

/-- The first child of a kind. -/
def childOfKind? (k : Kind) (children : List Child) : Option Child :=
  children.find? fun c => kind c = k

/-- A function that consists of parameters, a body and perhaps a name. -/
def function? (t : Node) (children : List Child) : Option (Walk Doc) := do
  let parameters ← childOfKind? .formalParameters children
  let body ← childOfKind? .statementBlock children
  let name := childOfKind? .identifier children
  guard (children.length = 2 + name.toList.length)
  return do
    let async := if t.info.tokens.contains "async" then [text "async "] else []
    let star := if t.info.tokens.contains "*" then [text "*"] else []
    let name ←
      match name with
      | some c => do pure [text " ", ← c.print]
      | none => pure []
    let parameters ← parameters.print
    return .concat (async ++ [text "function"] ++ star ++ name
      ++ [Doc.groupOf parameters, text " ", ← body.print])

/-- Bodies of arrow functions that start on the line of the arrow. -/
def staysAfterArrow : Kind → Bool
  | .statementBlock | .object | .array | .templateString | .arrowFunction
  | .parenthesizedExpression => true
  | _ => false

def arrow (t : Node) (parameters body : Child) : Walk Doc := do
  let async := if t.info.tokens.contains "async" then [text "async "] else []
  let parameters ← parameters.print
  let doc ← body.print
  let rest :=
    if staysAfterArrow (kind body) then [text " ", doc]
    else [Doc.groupOf (.indent (.concat [Doc.space, doc]))]
  return Doc.groupOf (.concat (async ++ [parameters, text " =>"] ++ rest))

/-- Brackets around nothing but comments. -/
def emptyBrackets (t : Node) (opening closing : String) : Walk Doc := do
  if !(← Walk.hasDanglingComments t) then return text (opening ++ closing)
  let cs ← Walk.comments
  let allBlock := (cs.of t.id).all fun i => (cs.get? i).any (·.block)
  if allBlock && opening != "\x7b" then
    let comments ← Walk.danglingComments CommentText.print t true
    return .concat [text opening, comments, text closing]
  else
    let comments ← Walk.danglingComments CommentText.print t false
    return Doc.groupOf (.concat [text opening, comments, Doc.softline, text closing])

/-- A list between brackets, on one line or one element a line. -/
def bracketed (opening closing : String) (docs : List Doc) (trailing : Doc) (shouldBreak : Bool) :
    Doc :=
  Doc.groupBreaking (.concat
    [text opening,
      .indent (.concat [Doc.softline, Doc.join (.concat [text ",", Doc.space]) docs]),
      trailing, Doc.softline, text closing]) shouldBreak

def parameters (scene : Scene) (t : Node) (children : List Child) : Walk Doc := do
  match children.getLast? with
  | none => emptyBrackets t "(" ")"
  | some last =>
    let docs ← printAll children
    let wanted := scene.options.trailingComma = .all && kind last != .restPattern
    return bracketed "(" ")" docs (trailingComma wanted) false

/-- Can the last argument keep its opening bracket on the line of the call while its inside
breaks? -/
def isHuggable (c : Child) : Bool :=
  match kind c with
  | .object | .array => !c.node.children.isEmpty
  | .functionExpression | .generatorFunction => true
  | .arrowFunction =>
    c.node.children.getLast?.any fun body =>
      kindOf body = .statementBlock || kindOf body = .object || kindOf body = .array
  | _ => false

/-- Is the last argument laid out in that way? Not if the one before is of the same kind. -/
def hugsLast (children : List Child) : Walk Bool := do
  match children.reverse with
  | [] => return false
  | last :: before =>
    let commented ← Walk.hasComments last.node
    return isHuggable last && !commented && before.head?.all fun c => kind c != kind last

/-- The layouts of a call whose last argument may be hugged: all on a line, the last one broken, all
broken. -/
def hugged (docs : List Doc) (allBroken : Doc) : Doc :=
  let flat := .concat [text "(", Doc.join (text ", ") docs, text ")"]
  let before := docs.dropLast.flatMap fun d => [d, text ", "]
  let last := docs.getLast?.getD Doc.nil
  let lastBroken := .concat ([text "("] ++ before ++ [Doc.groupBreaking last true, text ")"])
  .concat [if Doc.anyWillBreak docs then .breakParent else Doc.nil,
    Doc.conditional [flat, lastBroken, allBroken]]

def arguments (scene : Scene) (t : Node) (children : List Child) : Walk Doc := do
  if children.isEmpty then emptyBrackets t "(" ")"
  else
    let hug ← hugsLast children
    let docs ← printAll children
    let broken := bracketed "(" ")" docs (trailingComma (scene.options.trailingComma = .all))
    if !hug then return broken false
    else if Doc.anyWillBreak docs.dropLast then return broken true
    else return hugged docs (broken true)

/-! ## Objects and arrays -/

/-- Properties, each after a line; of several blank lines between two of them one is kept. -/
def propertyDocs (scene : Scene) : List Child → Walk (List Doc)
  | [] => return []
  | [last] => return [← last.print]
  | c :: rest => do
    let doc ← c.print
    let blank := if ← blankLineAfter scene c.node then [Doc.hardline] else []
    return [doc, text ",", Doc.space] ++ blank ++ (← propertyDocs scene rest)

/-- An object. It stays broken if a line break follows its opening brace. -/
def object (scene : Scene) (t : Node) (children : List Child) : Walk Doc := do
  match children.head? with
  | none => emptyBrackets t "\x7b" "\x7d"
  | some first =>
    let shouldBreak := Scan.hasNewlineInRange scene.bytes t.start first.node.start
    let docs ← propertyDocs scene children
    let line := if scene.options.bracketSpacing then Doc.space else Doc.softline
    return Doc.groupBreaking (.concat
      [text "\x7b", .indent (.concat [line, .concat docs]),
        trailingComma (scene.options.trailingComma != .none), line, text "\x7d"]) shouldBreak

/-- The number of commas from one offset to another. -/
def commasBetween (scene : Scene) (start stop : Nat) : Walk Nat := do
  let gap ← (sliceOrError scene.text start stop : Except Error String)
  return gap.toList.count ','

/-- Is a place between the commas of an array empty? A comma may follow the last element. -/
def hasHoles (scene : Scene) (t : Node) : Walk Bool :=
  go (t.start + 1) true t.children
where
  /-- The elements left, when the one before ends at `previous`. -/
  go (previous : Nat) (isFirst : Bool) : List Node → Walk Bool
    | [] => do
      let commas ← commasBetween scene previous (t.stop - 1)
      return 1 < commas || (isFirst && 0 < commas)
    | element :: rest => do
      let commas ← commasBetween scene previous element.start
      if commas != (if isFirst then 0 else 1) then return true
      else go element.stop false rest

def array (scene : Scene) (t : Node) (children : List Child) : Walk Doc := do
  if children.isEmpty then emptyBrackets t "[" "]"
  else
    let docs ← printAll children
    return bracketed "[" "]" docs (trailingComma (scene.options.trailingComma != .none)) false

/-! ## Strings -/

/-- A string in the preferred quotes, unless quotes of either kind are in it. -/
def requoted (preferred : Char) (raw : List Char) : List Char :=
  match raw with
  | quote :: rest =>
    if rest.isEmpty || quote == preferred || (quote != '"' && quote != '\'')
        || rest.dropLast.any (fun c => c == '"' || c == '\'') then raw
    else preferred :: rest.dropLast ++ [preferred]
  | [] => raw

def string (scene : Scene) (t : Node) : Walk Doc := do
  let preferred := if scene.options.singleQuote then '\'' else '"'
  return text (String.ofList (requoted preferred (← Walk.source scene t).toList))

/-! ## Nodes -/

/-- The layout of a node; nothing if it is copied. -/
def node (scene : Scene) (path : Tree.Path Info) (children : List Child) :
    Walk (Option Doc) := do
  let t := path.node
  let some? (doc : Walk Doc) : Walk (Option Doc) := some <$> doc
  match kindOf t, children with
  | .program, _ => some? (program scene t children)
  | .statementBlock, _ => some? (block scene t children)
  | .expressionStatement, [c] => some? (expressionStatement scene c)
  | .lexicalDeclaration, _ :: _ | .variableDeclaration, _ :: _ =>
    if children.all fun c => kind c = .variableDeclarator then
      some? (declaration scene t children)
    else return none
  | .variableDeclarator, [name] => some? name.print
  | .variableDeclarator, [name, value] => some? (assignment name "=" value)
  | .ifStatement, [condition, consequence] => some? (ifStatement t condition consequence none)
  | .ifStatement, [condition, consequence, alternative] =>
    some? (ifStatement t condition consequence (some alternative))
  | .elseClause, [body] => some? (elseClause body)
  | .whileStatement, [condition, body] => some? (whileStatement condition body)
  | .returnStatement, [] | .returnStatement, [_] =>
    some? (keywordStatement scene "return" children.head?)
  | .throwStatement, [] | .throwStatement, [_] =>
    some? (keywordStatement scene "throw" children.head?)
  | .breakStatement, [] | .breakStatement, [_] =>
    some? (keywordStatement scene "break" children.head?)
  | .continueStatement, [] | .continueStatement, [_] =>
    some? (keywordStatement scene "continue" children.head?)
  | .functionDeclaration, _ | .generatorFunctionDeclaration, _ | .functionExpression, _
  | .generatorFunction, _ =>
    match function? t children with
    | some doc => some? doc
    | none => return none
  | .arrowFunction, [parameters, body] => some? (arrow t parameters body)
  | .formalParameters, _ => some? (parameters scene t children)
  | .callExpression, [callee, arguments] =>
    return some (.concat [← callee.print, ← arguments.print])
  | .callExpression, [callee, mark, arguments] =>
    if kind mark = .optionalChain then
      return some (.concat [← callee.print, text "?.", ← arguments.print])
    else return none
  | .newExpression, [callee] => return some (.concat [text "new ", ← callee.print])
  | .newExpression, [callee, arguments] =>
    return some (.concat [text "new ", ← callee.print, ← arguments.print])
  | .arguments, _ => some? (arguments scene t children)
  | .memberExpression, [object, property] =>
    return some (.concat [← object.print, text ".", ← property.print])
  | .memberExpression, [object, mark, property] =>
    if kind mark = .optionalChain then
      return some (.concat [← object.print, text "?.", ← property.print])
    else return none
  | .subscriptExpression, [object, index] =>
    return some (.concat [← object.print, text "[", ← index.print, text "]"])
  | .subscriptExpression, [object, mark, index] =>
    if kind mark = .optionalChain then
      return some (.concat [← object.print, text "?.[", ← index.print, text "]"])
    else return none
  | .binaryExpression, [left, right] =>
    match t.info.operator with
    | some operator => some? (binary path left operator.text right)
    | none => return none
  | .assignmentExpression, [target, value] => some? (assignment target "=" value)
  | .augmentedAssignmentExpression, [target, value] =>
    match t.info.operator with
    | some operator => some? (assignment target operator.text value)
    | none => return none
  | .unaryExpression, [argument] =>
    match t.info.operator with
    | some operator => some? (unary scene operator.text argument)
    | none => return none
  | .updateExpression, [argument] =>
    match t.info.operator with
    | some operator => some? (update operator argument)
    | none => return none
  | .awaitExpression, [argument] => return some (.concat [text "await ", ← argument.print])
  | .spreadElement, [argument] => return some (.concat [text "...", ← argument.print])
  | .ternaryExpression, [condition, consequence, alternative] =>
    some? (ternary condition consequence alternative)
  | .parenthesizedExpression, [c] => some? (parenthesized c)
  | .object, _ => some? (object scene t children)
  | .pair, [key, value] => return some (.concat [← key.print, text ": ", ← value.print])
  | .array, _ =>
    if ← hasHoles scene t then return none else some? (array scene t children)
  | .string, _ => some? (string scene t)
  | _, _ => return none

/-- Kinds of nodes that print their dangling comments. -/
def printsDangling : Kind → Bool
  | .arguments | .array | .formalParameters | .ifStatement | .object | .program
  | .statementBlock => true
  | _ => false

/-- The document of a node. A node with dangling comments that it has no place for is copied. -/
def print (scene : Scene) (path : Tree.Path Info) (children : List Child) : Walk Doc := do
  let t := path.node
  if (← Walk.hasDanglingComments t) && !printsDangling (kindOf t) then Walk.verbatim scene t
  else
    match ← node scene path children with
    | some doc => return doc
    | none => Walk.verbatim scene t

end CodeFormatter.JavaScript.Printer
