import CodeFormatter.Text.Blank
import CodeFormatter.Error

/-!
# Pragmas

A text asks to be formatted by the word `@format` in the comment that it starts with, after the line
that names its interpreter if there is one. A pragma is put into that comment, or into a new one.
-/

namespace CodeFormatter.JavaScript.Pragma

/-- The line that names the interpreter, with its line feed, and the rest. -/
def splitShebang (cs : List Char) : List Char × List Char :=
  if ['#', '!'].isPrefixOf cs then
    let line := cs.takeWhile (· != '\n')
    (cs.take (line.length + 1), cs.drop (line.length + 1))
  else ([], cs)

/-- The number of characters before the first `*/`. -/
def closing? : List Char → Option Nat
  | '*' :: '/' :: _ => some 0
  | _ :: rest => (closing? rest).map (· + 1)
  | [] => none

/-- The body of a comment `/* ... */` at the start of a text, and what follows the comment. -/
def blockComment? : List Char → Option (List Char × List Char)
  | '/' :: '*' :: rest => (closing? rest).map fun n => (rest.take n, rest.drop (n + 2))
  | _ => none

/-- The body of the comment that a text starts with, and what follows it. -/
def docblock? (cs : List Char) : Option (List Char × List Char) :=
  blockComment? (trimLeft (splitShebang cs).2)

/-- Words that ask for a text to be formatted. -/
def isRequest (word : List Char) : Bool :=
  word == "@format".toList || word == "@docfmt".toList

/-- Does a text carry the mark? -/
def isPresent (text : String) : Bool :=
  (docblock? text.toList).any fun (body, _) =>
    (words ("/*".toList ++ body ++ "*/".toList)).any isRequest

/-- A line of a comment without its blanks and asterisks. -/
def strippedLine (line : List Char) : List Char :=
  trimBoth ((trimBoth line).dropWhile (· == '*'))

/-- The lines of a comment, without empty ones at its start and at its end. -/
def contents (body : List Char) : List (List Char) :=
  let lines := ((textLines body).map strippedLine).dropWhile (·.isEmpty)
  (lines.reverse.dropWhile (·.isEmpty)).reverse

/-- A line of a comment, as it is written. -/
def writtenLine (line : List Char) : List Char :=
  if line.isEmpty then " *\n".toList else " * ".toList ++ line ++ ['\n']

/-- A comment with these lines and the pragma after them. -/
def extended (lines : List (List Char)) : List Char :=
  "/**\n".toList ++ lines.flatMap writtenLine
    ++ (if lines.isEmpty then [] else " *\n".toList) ++ " * @format\n */".toList

/-- What is left of a text after its first `n` bytes; nothing if they end inside a character. -/
def dropBytes? : Nat → List Char → Option (List Char)
  | n, [] => if n = 0 then some [] else none
  | n, c :: cs =>
    if n = 0 then some (c :: cs)
    else if n < c.utf8Size then none
    else dropBytes? (n - c.utf8Size) cs

/-- A text with a pragma in it. What follows the comment is looked for as many bytes into the text
as the blanks before the comment and the comment itself have. -/
def insertChars? (cs : List Char) : Option (List Char) :=
  let (shebang, rest) := splitShebang cs
  match docblock? rest with
  | none =>
    let separator := if rest.head? == some '\n' then ['\n'] else ['\n', '\n']
    some (shebang ++ "/** @format */".toList ++ separator ++ rest)
  | some (body, _) => do
    let blanks := rest.takeWhile isBlank
    let after := trimLeft (← dropBytes? (byteLength blanks + byteLength body + 4) rest)
    return shebang ++ extended (contents body)
      ++ (if after.isEmpty then ['\n'] else ['\n', '\n'] ++ after)

/-- A text with a pragma in it, or the error that a character would be cut. -/
def insert (text : String) : Except Error String :=
  match insertChars? text.toList with
  | some cs => .ok (String.ofList cs)
  | none => .error .invalidSpan

end CodeFormatter.JavaScript.Pragma
