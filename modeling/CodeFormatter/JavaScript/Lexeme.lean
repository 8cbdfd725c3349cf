/-!
# Words, numbers and quoted texts

How far a lexeme goes at the start of a list of characters. Each reader gives the lexeme and what
follows it, or nothing when there is none. Of several lexemes that could be read, the longest is
taken.
-/

namespace CodeFormatter.JavaScript.Lexeme

/-! ## Characters -/

/-- A line feed, a line separator or a paragraph separator. -/
def isLineBreak (c : Char) : Bool := c == '\n' || c == '\u2028' || c == '\u2029'

/-- A character that may stand between any two tokens. -/
def isGap (c : Char) : Bool :=
  let n := c.toNat
  (9 ≤ n && n ≤ 13) || n == 0x20 || n == 0xA0 || n == 0x1680 || (0x2000 ≤ n && n ≤ 0x200B)
    || n == 0x2028 || n == 0x2029 || n == 0x202F || n == 0x205F || n == 0x2060 || n == 0x3000
    || n == 0xFEFF

/-- A character that is never part of a word. -/
def isPunctuation (c : Char) : Bool :=
  ":;`\"'@#.,|^&<=>+-*/\\%?!~()[]\x7b\x7d".toList.contains c

/-- A character of a word, after its first one. -/
def isWordChar (c : Char) : Bool := 0x20 ≤ c.toNat && !isGap c && !isPunctuation c

def isHexDigit (c : Char) : Bool :=
  c.isDigit || ('a' ≤ c && c ≤ 'f') || ('A' ≤ c && c ≤ 'F')

/-! ## Reading -/

/-- A lexeme and what follows it. -/
abbrev Split := List Char × List Char

/-- The first `n` characters. -/
def splitAt (n : Nat) (cs : List Char) : Split := (cs.take n, cs.drop n)

/-- The number of characters of an escape `\u0000` or `\u{0}` at the start; zero if there is
none. -/
def unicodeEscapeLength : List Char → Nat
  | '\\' :: 'u' :: '\x7b' :: rest =>
    let digits := rest.takeWhile isHexDigit
    match rest.drop digits.length with
    | '\x7d' :: _ => if digits.isEmpty then 0 else digits.length + 4
    | _ => 0
  | '\\' :: 'u' :: rest => if 4 ≤ ((rest.take 4).takeWhile isHexDigit).length then 6 else 0
  | _ => 0

/-- The number of characters of the word that goes on here. The first `skip` characters belong to it
in any case. -/
def wordTailLength : Nat → List Char → Nat
  | _, [] => 0
  | skip + 1, _ :: rest => 1 + wordTailLength skip rest
  | 0, c :: rest =>
    if isWordChar c then 1 + wordTailLength 0 rest
    else
      match unicodeEscapeLength (c :: rest) with
      | 0 => 0
      | n + 1 => 1 + wordTailLength n rest

/-- The number of characters of the word at the start. -/
def wordLength (cs : List Char) : Nat :=
  match cs with
  | [] => 0
  | c :: _ => if c.isDigit then 0 else wordTailLength 0 cs

/-- A word: an identifier or a keyword. -/
def word? (cs : List Char) : Option Split :=
  match wordLength cs with
  | 0 => none
  | n => some (splitAt n cs)

/-- The name of a private member, with its mark. -/
def privateName? : List Char → Option Split
  | '#' :: rest =>
    match wordLength rest with
    | 0 => none
    | n => some (splitAt (n + 1) ('#' :: rest))
  | _ => none

/-! ## Numbers -/

/-- The number of characters of a run of digits, in which single underscores may stand. -/
def digitsLength (isDigit : Char → Bool) : List Char → Nat
  | [] => 0
  | c :: rest => if isDigit c then 1 + tail rest else 0
where
  tail : List Char → Nat
    | [] => 0
    | '_' :: c :: rest => if isDigit c then 2 + tail rest else 0
    | c :: rest => if isDigit c then 1 + tail rest else 0

/-- Digits after a mark such as `0x`, in either case. -/
def markedLength (mark : Char) (isDigit : Char → Bool) : List Char → Nat
  | '0' :: m :: rest =>
    if m.toLower == mark then
      match digitsLength isDigit rest with
      | 0 => 0
      | n => n + 2
    else 0
  | _ => 0

/-- The number of characters of an exponent. -/
def exponentLength : List Char → Nat
  | e :: rest =>
    if e == 'e' || e == 'E' then
      let sign :=
        match rest with
        | '+' :: _ | '-' :: _ => 1
        | _ => 0
      match digitsLength Char.isDigit (rest.drop sign) with
      | 0 => 0
      | n => n + sign + 1
    else 0
  | [] => 0

/-- The number of characters of an integer that a point or an exponent may follow: zero, or an
integer with at most one zero before its first other digit. -/
def integerLength (cs : List Char) : Nat :=
  match cs with
  | '0' :: c :: _ => if '1' ≤ c && c ≤ '9' then digitsLength Char.isDigit cs else 1
  | _ => digitsLength Char.isDigit cs

/-- The number of characters of a decimal number. -/
def decimalLength (cs : List Char) : Nat :=
  let whole := integerLength cs
  let digits := digitsLength Char.isDigit cs
  match cs.drop whole with
  | '.' :: rest =>
    let fraction := digitsLength Char.isDigit rest
    if whole == 0 && fraction == 0 then 0
    else max digits (whole + 1 + fraction + exponentLength (rest.drop fraction))
  | rest => if whole == 0 then digits else max digits (whole + exponentLength rest)

/-- The number of characters of a number, its mark for large integers included. -/
def numberLength (cs : List Char) : Nat :=
  let integer := (markedLength 'x' isHexDigit cs)
    |> max (markedLength 'b' (fun c => c == '0' || c == '1') cs)
    |> max (markedLength 'o' (fun c => '0' ≤ c && c ≤ '7') cs)
    |> max (digitsLength Char.isDigit cs)
  let large :=
    match cs.drop integer with
    | 'n' :: _ => if integer == 0 then 0 else integer + 1
    | _ => integer
  max large (decimalLength cs)

def number? (cs : List Char) : Option Split :=
  match numberLength cs with
  | 0 => none
  | n => some (splitAt n cs)

/-! ## Quoted texts -/

/-- The number of characters of an escape at the start; zero if it is malformed. -/
def escapeLength : List Char → Nat
  | '\\' :: 'x' :: a :: b :: _ => if isHexDigit a && isHexDigit b then 4 else 0
  | '\\' :: 'x' :: _ => 0
  | '\\' :: 'u' :: rest => unicodeEscapeLength ('\\' :: 'u' :: rest)
  | '\\' :: c :: rest =>
    if '0' ≤ c && c ≤ '7' then
      1 + ((c :: rest).take 3 |>.takeWhile fun d => '0' ≤ d && d ≤ '7').length
    else if c == '\r' || c == '?' then
      match rest with
      | d :: _ => if isLineBreak d then 3 else 2
      | [] => 2
    else 2
  | _ => 0

/-- The number of characters of a comment `/* ... */` after its opening mark, its end included. -/
def blockCommentTail? : List Char → Option Nat
  | '*' :: '/' :: _ => some 2
  | _ :: rest => (blockCommentTail? rest).map (· + 1)
  | [] => none

/-- A comment. -/
def comment? : List Char → Option Split
  | '/' :: '/' :: rest =>
    let body := rest.takeWhile fun c => !(c == '\r' || isLineBreak c)
    some (splitAt (body.length + 2) ('/' :: '/' :: rest))
  | '/' :: '*' :: rest =>
    (blockCommentTail? rest).map fun n => splitAt (n + 2) ('/' :: '*' :: rest)
  | _ => none

/-- A comment of the kind that hides scripts from markup: from its mark to the end of the line. -/
def htmlComment? (cs : List Char) : Option Split :=
  if ['<', '!', '-', '-'].isPrefixOf cs || ['-', '-', '>'].isPrefixOf cs then
    some (splitAt (cs.takeWhile fun c => !isLineBreak c && c != '\x00').length cs)
  else none

/-- The number of characters that can be skipped before a closing quote on a later line: gaps and
comments. -/
def gapLength : Nat → List Char → Nat
  | 0, _ => 0
  | fuel + 1, cs =>
    let gap := (cs.takeWhile isGap).length
    match comment? (cs.drop gap) with
    | some (comment, rest) => gap + comment.length + gapLength fuel rest
    | none => gap

/-- Does a comment that hides scripts from markup follow a closing bracket or brace? Not more than
`size` characters are looked at. -/
def hidesAfterBracket : Nat → List Char → Bool
  | size + 1, c :: rest =>
    let follows := (c == ']' || c == '\x7d') && (htmlComment? (rest.drop (gapLength size rest))).isSome
    follows || hidesAfterBracket size rest
  | _, _ => false

/-- The number of characters of a string after its opening quote, the closing one included. The
first `skip` characters belong to it in any case. -/
def stringTail? (quote : Char) : Nat → List Char → Option Nat
  | _, [] => none
  | skip + 1, _ :: rest => (stringTail? quote skip rest).map (· + 1)
  | 0, c :: rest =>
    if c == quote then some 1
    else if c == '\\' then
      match escapeLength (c :: rest) with
      | 0 => none
      | n + 1 => (stringTail? quote n rest).map (· + 1)
    else if c == '\r' || c == '\n' then
      let gap := gapLength rest.length (c :: rest)
      match (c :: rest).drop gap with
      | d :: _ => if d == quote then some (gap + 1) else none
      | [] => none
    else (stringTail? quote 0 rest).map (· + 1)

/-- A string in either kind of quotes. -/
def string? : List Char → Option Split
  | [] => none
  | c :: rest =>
    if c == '"' || c == '\'' then
      (stringTail? c 0 rest).map fun n => splitAt (n + 1) (c :: rest)
    else none

/-- The number of characters of the pattern of a regular expression and of the slash after it.
`inClass` is true between brackets. -/
def patternTail? (inClass : Bool) : List Char → Option Nat
  | [] => none
  | '\\' :: c :: rest => if c == '\n' then none else (patternTail? inClass rest).map (· + 2)
  | c :: rest =>
    if c == '\n' || c == '\\' then none
    else if inClass then (patternTail? (c != ']') rest).map (· + 1)
    else if c == '/' then some 1
    else (patternTail? (c == '[') rest).map (· + 1)

/-- A regular expression without its flags. -/
def regex? : List Char → Option Split
  | '/' :: rest => do
    let pattern ← patternTail? false rest
    guard (2 ≤ pattern)
    return splitAt (1 + pattern) ('/' :: rest)
  | _ => none

/-- The flags of a regular expression. -/
def regexFlags? (cs : List Char) : Option Split :=
  match (cs.takeWhile fun c => 'a' ≤ c && c ≤ 'z').length with
  | 0 => none
  | n => some (splitAt n cs)

/-- The number of characters of a stretch of a template up to its end, an escape or a
substitution; nothing when the text ends before. -/
def templateChars? : List Char → Option Nat
  | [] => none
  | '$' :: '\x7b' :: _ => some 0
  | c :: rest =>
    if c == '\x00' then none
    else if c == '`' || c == '\\' then some 0
    else (templateChars? rest).map (· + 1)

end CodeFormatter.JavaScript.Lexeme
