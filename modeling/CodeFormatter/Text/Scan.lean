import CodeFormatter.Text.Slice

/-!
# Scanning around a position

How much white space, which newlines and which comments stand next to a byte offset. The scanners
read a text as its list of bytes: every character they look for is a single byte, and no byte of a
longer character can be taken for one of them.

**Main question.** `isNextLineEmpty?` asks whether a blank line follows the line that an offset is
on, when separators and comments on the rest of that line are ignored.
-/

namespace CodeFormatter

/-- A text as the bytes of its UTF-8 form. -/
abbrev Bytes := List UInt8

/-- The bytes of a text. -/
def bytesOf (text : String) : Bytes := text.toUTF8.toList

namespace Scan

/-! ## Classes of bytes -/

/-- A space or a tab. -/
def isSpace (b : UInt8) : Bool := b == 32 || b == 9

/-- A line feed or a carriage return. -/
def isNewline (b : UInt8) : Bool := b == 10 || b == 13

/-- A comma, a semicolon, a space or a tab. -/
def isSeparator (b : UInt8) : Bool := b == 44 || b == 59 || isSpace b

/-- A byte inside a character, after its first one. -/
def isContinuation (b : UInt8) : Bool := 0x80 ≤ b && b < 0xC0

/-- May the text be cut at byte `i`? Past the end it may. -/
def canCut (text : Bytes) (i : Nat) : Bool :=
  match text.drop i with
  | [] => true
  | b :: _ => !isContinuation b

/-! ## Spaces and newlines -/

/-- The offset after the spaces at `i`. -/
def skipSpaces (text : Bytes) (i : Nat) : Nat :=
  let i := min i text.length
  i + ((text.drop i).takeWhile isSpace).length

/-- The offset before the spaces that end at `i`. -/
def skipSpacesBackward (text : Bytes) (i : Nat) : Nat :=
  let i := min i text.length
  i - ((text.take i).reverse.takeWhile isSpace).length

/-- The number of bytes of the newline a text starts with: two for a carriage return with a line
feed, one for either alone. -/
def newlineLength : Bytes → Nat
  | 13 :: 10 :: _ => 2
  | b :: _ => if isNewline b then 1 else 0
  | [] => 0

/-- The same, for a text read from its end. -/
def newlineLengthBackward : Bytes → Nat
  | 10 :: 13 :: _ => 2
  | b :: _ => if isNewline b then 1 else 0
  | [] => 0

/-- The offset after one newline at `i`. -/
def skipNewline (text : Bytes) (i : Nat) : Nat := i + newlineLength (text.drop i)

/-- The offset before one newline that ends at `i`. -/
def skipNewlineBackward (text : Bytes) (i : Nat) : Nat :=
  i - newlineLengthBackward (text.take i).reverse

/-- Do only spaces stand between `i` and a newline after it? -/
def hasNewline (text : Bytes) (i : Nat) : Bool :=
  match text.drop (skipSpaces text i) with
  | b :: _ => isNewline b
  | [] => false

/-- Do only spaces stand between `i` and a newline, or the start of the text, before it? -/
def hasNewlineBackward (text : Bytes) (i : Nat) : Bool :=
  match (text.take (skipSpacesBackward text i)).reverse with
  | b :: _ => isNewline b
  | [] => true

/-- Is there a newline from `start` up to `stop`? -/
def hasNewlineInRange (text : Bytes) (start stop : Nat) : Bool :=
  ((text.take stop).drop start).any isNewline

/-! ## Comments -/

/-- The number of bytes before the first `*/`. -/
def closing? : Bytes → Option Nat
  | 42 :: 47 :: _ => some 0
  | _ :: rest => (closing? rest).map (· + 1)
  | [] => none

/-- The number of bytes of a comment `/* ... */` at the start of a text, when it is closed and does
not hold a line feed; zero otherwise. -/
def inlineCommentLength : Bytes → Nat
  | 47 :: 42 :: rest =>
    match closing? rest with
    | some n => if (rest.take n).contains 10 then 0 else n + 4
    | none => 0
  | _ => 0

/-- The number of bytes of a comment `// ...` at the start of a text, without its newline. -/
def lineCommentLength : Bytes → Nat
  | 47 :: 47 :: rest => 2 + (rest.takeWhile (!isNewline ·)).length
  | _ => 0

/-- The offset after a one-line comment `/* ... */` at `i`; nothing when `i` is inside a
character. -/
def skipInlineComment? (text : Bytes) (i : Nat) : Option Nat :=
  if canCut text i then some (i + inlineCommentLength (text.drop i)) else none

/-- The offset after a comment `// ...` at `i`; nothing when `i` is inside a character. -/
def skipLineComment? (text : Bytes) (i : Nat) : Option Nat :=
  if canCut text i then some (i + lineCommentLength (text.drop i)) else none

/-! ## Blank lines -/

/-- The offset after the separators at `i`. -/
def skipSeparators (text : Bytes) (i : Nat) : Nat :=
  i + ((text.drop i).takeWhile isSeparator).length

/-- The offset after separators, one comment and spaces at `i`, each of which may be absent. -/
def skipTrailer? (text : Bytes) (i : Nat) : Option Nat :=
  (skipInlineComment? text (skipSeparators text i)).map (skipSpaces text)

/-- The offset after all separators and one-line comments at `i`, found where a round of
`skipTrailer?` stands still. Nothing when a round starts inside a character, or when it takes more
rounds than there is fuel. -/
def skipTrailers? (text : Bytes) : Nat → Nat → Option Nat
  | 0, _ => none
  | fuel + 1, i =>
    match skipTrailer? text i with
    | none => none
    | some j => if j = i then some i else skipTrailers? text fuel j

/-- Is the line after the one that `stop` is on blank, separators and comments on the current line
aside? Nothing when `stop` is inside a character. -/
def isNextLineEmpty? (text : Bytes) (stop : Nat) : Option Bool := do
  -- Each round but the last goes on by a byte at least.
  let i ← skipTrailers? text (text.length + 1) (min stop text.length)
  let i ← skipLineComment? text i
  let after := skipNewline text i
  return after != i && hasNewline text after

/-- Is the line before the one that `start` is on blank? -/
def isPreviousLineEmpty (text : Bytes) (start : Nat) : Bool :=
  let i := skipSpacesBackward text start
  let before := skipNewlineBackward text i
  if before = i then false
  else
    let i := skipSpacesBackward text before
    skipNewlineBackward text i != i

/-! ## Columns and line endings -/

/-- The column after an indentation, where a tab goes on to the next multiple of `tabWidth`. -/
def columnAfter (tabWidth : Nat) (indentation : List Char) : Nat :=
  let tabWidth := max tabWidth 1
  indentation.foldl
    (fun column c => if c = '\t' then column + tabWidth - column % tabWidth else column + 1) 0

/-- The newline that ends the first line: a line feed, alone or after a carriage return. -/
def lineEnding (text : Bytes) : String :=
  go false text
where
  /-- Was the byte before a carriage return? -/
  go : Bool → Bytes → String
    | _, [] => "\n"
    | afterReturn, b :: rest =>
      if b = 10 then if afterReturn then "\r\n" else "\n" else go (b = 13) rest

end Scan

end CodeFormatter
