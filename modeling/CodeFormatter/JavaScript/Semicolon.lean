import CodeFormatter.JavaScript.Lexeme

/-!
# Automatic semicolons

Where a statement may end without a semicolon. The question is asked after a token or a comment,
about the text from there on.

A statement ends before a closing brace and at the end of the text. It also ends before a line
break, unless the next token after it would go on with the statement. A comment ends it only if no
operator could follow the statement so far.
-/

namespace CodeFormatter.JavaScript.Semicolon

open Lexeme (isLineBreak)

/-- A blank character of the ASCII range. -/
def isSpace (c : Char) : Bool := c == ' ' || (9 ≤ c.toNat && c.toNat ≤ 13)

/-- The next character. The end of the text counts as a null character. -/
def next (cs : List Char) : Char := cs.headD '\x00'

/-- What a gap of blanks and comments says of the end of a statement. -/
inductive Verdict where
  /-- A slash that starts no comment. -/
  | reject
  /-- A comment on one line, after which the search goes on. -/
  | unclear
  | accept
  deriving DecidableEq

/-- What follows a comment `/* ... */` after its opening mark, whether it was closed, and whether it
held a line break. -/
def afterBlock : List Char → List Char × Bool × Bool
  | [] => ([], false, false)
  | '*' :: '/' :: rest => (rest, true, false)
  | c :: rest =>
    if c == '\x00' then (c :: rest, false, false)
    else
      let (after, closed, broken) := afterBlock rest
      (after, closed, broken || isLineBreak c)

/-- Goes over blanks and comments; when not `whole`, only over the first comment `/* ... */`. -/
def overGap (whole : Bool) : Nat → Bool → List Char → Verdict × List Char
  | 0, _, cs => (.accept, cs)
  | fuel + 1, broken, cs =>
    match cs.dropWhile isSpace with
    | '/' :: '/' :: rest =>
      overGap whole fuel broken (rest.dropWhile fun c => c != '\x00' && !isLineBreak c)
    | '/' :: '*' :: rest =>
      let (after, closed, brokenHere) := afterBlock rest
      let broken := broken || brokenHere
      if closed && next after != '/' && !whole then
        (if broken then .accept else .unclear, after)
      else overGap whole fuel broken after
    | '/' :: rest => (.reject, rest)
    | rest => (.accept, rest)

/-- Does the token after a line break start a new statement? -/
def startsStatement (cs : List Char) : Bool :=
  match cs with
  | '.' :: rest => (next rest).isDigit
  | '+' :: rest => next rest == '+'
  | '-' :: rest => next rest == '-'
  | '!' :: rest => next rest != '='
  | 'i' :: 'n' :: rest =>
    (next rest).isAlpha
      && !("stanceof".toList.isPrefixOf rest && !(next (rest.drop 8)).isAlpha)
  | c :: _ => !("`,:;*%><=[(?^|&/".toList.contains c)
  | [] => true

/-- Does a statement end before these characters, which are not more than `size`?
`operatorMayFollow` if the statement so far could go on with an operator. -/
def isImplied (size : Nat) (operatorMayFollow : Bool) (cs : List Char) : Bool := go size cs
where
  go : Nat → List Char → Bool
    | 0, cs => cs.isEmpty
    | fuel + 1, cs =>
      if next cs == '\x00' then true
      else
        let (verdict, rest) :=
          if next cs == '/' then overGap false size false cs else (.unclear, cs)
        if verdict = .reject then false
        else if verdict = .accept && !operatorMayFollow && next rest != ',' && next rest != '=' then
          true
        else if next rest == '\x7d' then true
        else if isLineBreak (next rest) then
          let (verdict, rest) := overGap true size false rest.tail
          verdict != .reject && startsStatement rest
        else isSpace (next rest) && go fuel rest.tail

end CodeFormatter.JavaScript.Semicolon
