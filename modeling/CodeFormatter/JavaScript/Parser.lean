import CodeFormatter.Text.Slice
import CodeFormatter.JavaScript.Cst
import CodeFormatter.JavaScript.Semicolon

/-!
# Reading tokens

A parser reads the text from a position on and gives the items it has read: tokens and nodes with
the comments before them. After it, the position is the end of its last token. It gives nothing if
the text does not have the form it asks for.

**Gaps.** The blanks and comments before a token belong to the parser of that token. Where a
semicolon may be implied, the question whether one is comes first, after each token and each
comment (`toOperator`, `semicolon`).

**Comments or operators.** `<!--` and `-->` hide a script from markup. They start a comment where
the last token asks for more, as after `=` or `(`. Where an operator or the end of a statement may
come next they are operators. So a position knows which of the two holds (`Position.expecting`):
most tokens decide it, and `expecting` and `complete` say so where the grammar knows better.

**Commitment.** Where a form fails, another one is tried, and where that is nested the attempts
multiply. After the head of a function or of a class its body is the only way to go on, so nothing
else is tried if that fails (`commit`).
-/

namespace CodeFormatter.JavaScript

/-- What is left of the text, and the number of bytes before it. -/
structure Position where
  rest : List Char
  /-- The number of characters that are left, which bounds all repetitions. -/
  size : Nat
  offset : Nat
  /-- Neither an operator nor the end of a statement can come next. -/
  expecting : Bool
  /-- Somewhere in the text, a comment that hides from markup follows a closing bracket. -/
  hides : Bool

/-- How reading ends. -/
inductive Outcome (α : Type) where
  | read (a : α) (s : Position)
  /-- The text does not have the form that was asked for. -/
  | fail
  /-- From this position on, the text does not have the only form that it could have. -/
  | abort (s : Position)

/-- A parser reads from a position on. -/
def Parser (α : Type) : Type := Position → Outcome α

instance : Monad Parser where
  pure a := fun s => .read a s
  bind p f := fun s =>
    match p s with
    | .read a s => f a s
    | .fail => .fail
    | .abort s => .abort s

instance : MonadStateOf Position Parser where
  get := fun s => .read s s
  set s := fun _ => .read () s
  modifyGet f := fun s => .read (f s).1 (f s).2

abbrev Items := List Cst

namespace Parser

def fail {α : Type} : Parser α := fun _ => .fail

/-- `p`, which is the only way to go on. -/
def commit {α : Type} (p : Parser α) : Parser α := fun s =>
  match p s with
  | .fail => .abort s
  | outcome => outcome

/-- `p` if it can be read here, or else `q`. -/
def orElse {α : Type} (p q : Parser α) : Parser α := fun s =>
  match p s with
  | .fail => q s
  | outcome => outcome

/-- What `p` gives, at the position before it. -/
def peek {α : Type} (p : Parser α) : Parser α := fun s =>
  match p s with
  | .read a _ => .read a s
  | outcome => outcome

/-- What `p` gives if it can be read, at the position before it. -/
def peek? {α : Type} (p : Parser α) : Parser (Option α) := peek (orElse (some <$> p) (pure none))

/-- Where `p` ends if it can be read, at the position before it. -/
def reach? {α : Type} (p : Parser α) : Parser (Option Nat) := peek? do
  let _ ← p
  return (← get).offset

/-- Can `p` be read here? -/
def sees {α : Type} (p : Parser α) : Parser Bool := return (← peek? p).isSome

/-- What a function makes of items, if it can. -/
def ofOption {α : Type} : Option α → Parser α
  | some a => pure a
  | none => fail

/-- What `p` gives, or nothing and no step if it cannot be read. -/
def maybe (p : Parser Items) : Parser Items := orElse p (pure [])

/-- Reads a lexeme at the very position. -/
def lexeme (read : List Char → Option Lexeme.Split) : Parser (String × Nat × Nat) := fun s =>
  match read s.rest with
  | some (taken, rest) =>
    let stop := s.offset + byteLength taken
    .read (String.ofList taken, s.offset, stop)
      { s with rest, size := s.size - taken.length, offset := stop }
  | none => .fail

/-- These characters at the very position. -/
def exactly (text : String) : Parser (String × Nat × Nat) := lexeme fun cs =>
  if text.toList.isPrefixOf cs then some (Lexeme.splitAt text.length cs) else none

/-- From here on, an operator or the end of a statement can come next or cannot. -/
def expect (b : Bool) : Parser Unit := modify fun s => { s with expecting := b }

/-- `p`, after which neither an operator nor the end of a statement can come. -/
def expecting {α : Type} (p : Parser α) : Parser α := do
  let a ← p
  expect true
  return a

/-- `p`, after which an operator or the end of a statement may come. -/
def complete {α : Type} (p : Parser α) : Parser α := do
  let a ← p
  expect false
  return a

/-! ## Gaps -/

/-- Goes over the characters of a class. -/
def skip (isSkipped : Char → Bool) : Parser Unit := modify fun s =>
  let taken := s.rest.takeWhile isSkipped
  { s with
    rest := s.rest.drop taken.length
    size := s.size - taken.length
    offset := s.offset + byteLength taken }

/-- Goes over blanks. -/
def blanks : Parser Unit := skip Lexeme.isGap

/-- A comment at the very position that a reader finds. -/
def commentBy (read : List Char → Option Lexeme.Split) : Parser Cst := do
  let (text, start, stop) ← lexeme read
  return .comment text start stop

/-- A comment after blanks. -/
def comment : Parser Cst := do
  blanks
  commentBy Lexeme.comment?

/-- A comment that hides from markup, after blanks of the simple kind. -/
def hidingComment : Parser Cst := do
  if (← get).expecting then
    skip fun c => Semicolon.isSpace c || Lexeme.isLineBreak c
    commentBy Lexeme.htmlComment?
  else fail

/-- Repeats `p` as long as it can be read, at most `fuel` times. -/
def manyUpTo {α : Type} (p : Parser (List α)) : Nat → Parser (List α)
  | 0 => pure []
  | fuel + 1 => fun s =>
    match p s with
    | .read items s =>
      match manyUpTo p fuel s with
      | .read more s => .read (items ++ more) s
      | outcome => outcome
    | .fail => .read [] s
    | .abort s => .abort s

/-- Repeats `p`, which reads at least one character, as long as it can be read. -/
def many {α : Type} (p : Parser (List α)) : Parser (List α) := fun s =>
  manyUpTo p (s.size + 1) s

/-- The comments before the next token. What comes next is no comment. -/
def gap : Parser Items := complete do
  let comments ← many do return [← orElse hidingComment comment]
  blanks
  return comments

/-! ## Tokens -/

/-- The next character after a gap. -/
def nextChar : Parser (Option Char) := peek do
  let _ ← gap
  return (← get).rest.head?

/-- Does a bracket end here, and with it perhaps an operand or a statement? -/
def isClosing (text : String) : Bool := text == ")" || text == "]" || text == "\x7d"

/-- A token that consists of exactly these characters. -/
def symbolAs (operator : Bool) (text : String) : Parser Items := do
  let comments ← gap
  let (found, start, stop) ← exactly text
  expect !(isClosing text)
  return comments ++ [.token found start stop operator]

def symbol (text : String) : Parser Items := symbolAs false text

/-- A token with no gap before it. -/
def adjacent (text : String) : Parser Items := do
  let (found, start, stop) ← exactly text
  expect !(isClosing text)
  return [.token found start stop false]

/-- Is the next token this one? -/
def seesSymbol (text : String) : Parser Bool := sees (symbol text)

/-- The sign of an assignment, and no longer token that starts with it. -/
def assignSign : Parser Items := do
  if (← seesSymbol "==") || (← seesSymbol "=>") then fail else symbol "="

/-- `p`, and again after each comma. -/
def commaList (p : Parser Items) : Parser Items := do
  let first ← p
  let rest ← many do
    let comma ← symbol ","
    return comma ++ (← p)
  return first ++ rest

/-- Any number of commas, with `p` before, between and after them or not. -/
def looseCommaList (p : Parser Items) : Parser Items := do
  let first ← maybe p
  let rest ← many do
    let comma ← symbol ","
    return comma ++ (← maybe p)
  return first ++ rest

/-- A word with the comments before it. -/
def word : Parser (Items × String × Nat × Nat) := do
  let comments ← gap
  return (comments, ← lexeme Lexeme.word?)

/-- The next word after a gap. -/
def nextWord : Parser (Option String) := peek? do return (← word).2.1

def keywordAs (operator : Bool) (text : String) : Parser Items := expecting do
  let (comments, found, start, stop) ← word
  if found == text then return comments ++ [.token text start stop operator] else fail

def keyword (text : String) : Parser Items := keywordAs false text

/-- What `p` gives if the next word is this one, and else nothing. -/
def ifWord (text : String) (p : Parser Items) : Parser Items := do
  if (← nextWord) == some text then p else return []

/-- A lexeme that is a node on its own. -/
def leaf (kind : Kind) (read : List Char → Option Lexeme.Split) : Parser Items := complete do
  let comments ← gap
  let (_, start, stop) ← lexeme read
  return comments ++ [.node kind start stop []]

/-- A name, as a node of the given kind. -/
def name (kind : Kind) : Parser Items := leaf kind Lexeme.word?

/-- A node of the items read just before. -/
def node (kind : Kind) (items : Items) : Parser Items :=
  return Cst.wrap kind items (← get).offset

/-! ## Ends of statements -/

/-- Is a semicolon implied at the very position? -/
def impliesSemicolon (operatorMayFollow : Bool) : Parser Bool := do
  let s ← get
  return Semicolon.isImplied s.size operatorMayFollow s.rest

/-- The comments before the place where a semicolon is implied, which becomes the position; nothing
if there is none before the next token. -/
def impliedSemicolon (operatorMayFollow : Bool) : Parser Items := expecting fun s =>
  go s.size s
where
  go : Nat → Parser Items
    | 0 => do
      if ← impliesSemicolon operatorMayFollow then return [] else fail
    | fuel + 1 => do
      if ← impliesSemicolon operatorMayFollow then return []
      else
        let c ← comment
        return c :: (← go fuel)

/-- Is a semicolon implied before the next token? -/
def seesImpliedSemicolon (operatorMayFollow : Bool) : Parser Bool :=
  sees (impliedSemicolon operatorMayFollow)

/-- The end of a statement: a semicolon, or the place where one is implied. -/
def semicolon (operatorMayFollow : Bool) : Parser Items :=
  orElse (impliedSemicolon operatorMayFollow) (symbol ";")

/-- The comments before the next token, unless a semicolon is implied before it. Only where the
expression is the end of a statement (`ends`) can that be. -/
def toOperator (ends : Bool) : Parser Items := do
  if ends then
    if ← seesImpliedSemicolon true then fail
  gap

end Parser

end CodeFormatter.JavaScript
