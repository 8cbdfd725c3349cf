import CodeFormatter.Formatter
import CodeFormatter.JavaScript.Embedded
import CodeFormatter.JavaScript.Pragma
import CodeFormatter.JavaScript.Printer
import CodeFormatter.JavaScript.Program

/-!
# JavaScript as a language of the formatter
-/

namespace CodeFormatter.JavaScript

/-! ## Parsing -/

/-- The error of a text that is no program: where its first statement starts that cannot be read. -/
def syntaxError (text : String) : ParseError :=
  let (rest, offset) := unread text
  ParseError.ofOffset ("Unexpected token `" ++ String.ofList (rest.take 20) ++ "`") text offset

def parse (text : String) : Except Error (Parsed Info) :=
  match (Cst.ofText? text).bind Cst.lowered? with
  | some parsed => .ok parsed
  | none => .error (.parse (syntaxError text))

/-! ## Nodes -/

/-- Statements and declarations, which a range is widened to. -/
def isSourceElement (t : Node) : Bool :=
  match kindOf t with
  | .breakStatement | .classDeclaration | .continueStatement | .debuggerStatement | .doStatement
  | .emptyStatement | .exportStatement | .expressionStatement | .forInStatement | .forStatement
  | .functionDeclaration | .generatorFunctionDeclaration | .ifStatement | .importStatement
  | .labeledStatement | .lexicalDeclaration | .returnStatement | .statementBlock
  | .switchStatement | .throwStatement | .tryStatement | .variableDeclaration | .whileStatement
  | .withStatement => true
  | _ => false

/-- A token that consists of letters. -/
def isKeyword (token : String) : Bool := token.toList.all Char.isAlpha

/-- A label for a node. Quotes and the code in templates do not count; of the tokens, the operator
and the keywords do. -/
def describe (text : String) (t : Node) : Except Error String := do
  let source ← sliceOrError text t.start t.stop
  match kindOf t with
  | .string => return "string " ++ (slice? source 1 (source.utf8ByteSize - 1)).getD ""
  | .templateString => return (kindOf t).name
  | kind =>
    if t.children.isEmpty && t.info.tokens.isEmpty then return kind.name ++ " " ++ source
    else
      let operator := t.info.operator.toList.map (·.text)
      return String.intercalate " "
        (kind.name :: operator ++ t.info.tokens.filter isKeyword)

/-! ## The language -/

def language : Language Info where
  name := "javascript"
  extensions := ["js", "mjs", "cjs"]
  parse _ text := parse text
  print := Printer.print
  describe := describe
  hasPragma := Pragma.isPresent
  insertPragma := Pragma.insert
  embed := Embedded.print
  printComment := CommentText.print
  handleComment _ c _ around := CommentText.owner? c around
  canAttach t := kindOf t != .optionalChain && kindOf t != .emptyStatement
  isIgnoreComment := CommentText.isIgnore
  isSourceElement := isSourceElement
  isRedundant t := kindOf t = .emptyStatement

/-- The formatter for all languages that come with it. -/
def formatter : Formatter := Formatter.ofLanguages [.ofLanguage language]

end CodeFormatter.JavaScript
