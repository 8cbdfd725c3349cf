import CodeFormatter.JavaScript.Expression

/-!
# Markup in expressions

Elements between angle brackets, with attributes, text, other elements and expressions in braces.
-/

namespace CodeFormatter.JavaScript.Markup

open CodeFormatter.JavaScript.Parser

variable (g : Grammar)

/-! ## Names -/

/-- A letter, a digit, an underscore or a dollar sign. -/
def isPlainChar (c : Char) : Bool := c.isAlphanum || c == '_' || c == '$'

/-- A word, in which hyphens may stand if its characters are plain. -/
def hyphenated? (cs : List Char) : Option Lexeme.Split :=
  let plain := cs.takeWhile isPlainChar
  match cs.drop plain.length with
  | '-' :: rest =>
    if plain.isEmpty || plain.head?.any Char.isDigit then Lexeme.word? cs
    else
      let tail := rest.takeWhile fun c => isPlainChar c || c == '-'
      some (Lexeme.splitAt (plain.length + 1 + tail.length) cs)
  | _ => Lexeme.word? cs

/-- A word that no hyphen goes on with. -/
def unhyphenated? (cs : List Char) : Option Lexeme.Split := do
  let (word, rest) ← Lexeme.word? cs
  let (longest, _) ← hyphenated? cs
  if word.length < longest.length then none else some (word, rest)

/-- A name of an element or an attribute. -/
def plainName (kind : Kind) : Parser Items := expecting (leaf kind hyphenated?)

/-- A name with a namespace before it. -/
def namespaced : Parser Items := do
  let space ← plainName .identifier
  let colon ← symbol ":"
  node .jsxNamespaceName (space ++ colon ++ (← plainName .identifier))

/-- A member of something as the name of an element. No hyphens stand in it. -/
def memberName : Parser Items := do
  let first ← expecting (leaf .identifier unhyphenated?)
  let step (left : Items) : Parser Items := do
    let point ← symbol "."
    node .memberExpression (left ++ point ++ (← expecting (name .propertyIdentifier)))
  let member ← step first
  Expression.extend step (← get).size member

/-- The name of an element: with a namespace, as a member of something, or plain. -/
def elementName : Parser Items :=
  orElse namespaced <| orElse memberName (plainName .identifier)

/-! ## Attributes -/

/-- Braces around an expression, or around nothing. -/
def braced : Parser Items := expecting do
  let opening ← symbol "\x7b"
  let contents ← maybe (orElse (Expression.spread g) (Expression.sequence g .inner))
  let closing ← symbol "\x7d"
  node .jsxExpression (opening ++ contents ++ closing)

/-- A character by its name or its number, such as `&amp;`. -/
def reference? : List Char → Option Lexeme.Split
  | '&' :: rest =>
    let body := rest.takeWhile (· != ';')
    let valid :=
      match body with
      | '#' :: 'x' :: digits | '#' :: 'X' :: digits =>
        !digits.isEmpty && digits.length ≤ 6 && digits.all Lexeme.isHexDigit
      | '#' :: digits => !digits.isEmpty && digits.length ≤ 5 && digits.all Char.isDigit
      | letters => !letters.isEmpty && letters.length ≤ 30 && letters.all Char.isAlpha
    if valid && body.length < rest.length then
      some (Lexeme.splitAt (body.length + 2) ('&' :: rest))
    else none
  | _ => none

/-- The number of characters of a plain stretch of a string: an ampersand belongs to it if no
reference could start there, and then so does the character after it. -/
def stretchLength (quote : Char) : List Char → Nat
  | [] => 0
  | '&' :: c :: rest =>
    if c == '#' || c.isAlpha then 0 else 2 + stretchLength quote rest
  | c :: rest => if c == quote || c == '&' then 0 else 1 + stretchLength quote rest

/-- The number of characters of a string after its opening quote, the closing one included. A
comment that hides from markup may stand at its start and after a reference. -/
def stringTail? (quote : Char) : Nat → List Char → Option Nat
  | 0, _ => none
  | fuel + 1, cs =>
    let blanks := (cs.takeWhile fun c => Semicolon.isSpace c || Lexeme.isLineBreak c).length
    match Lexeme.htmlComment? (cs.drop blanks) with
    | some (comment, rest) => (stringTail? quote fuel rest).map (· + blanks + comment.length)
    | none =>
      let stretch := stretchLength quote cs
      match cs.drop stretch with
      | [] => none
      | c :: rest =>
        if c == quote then some (stretch + 1)
        else
          match reference? (c :: rest) with
          | some (reference, rest) =>
            (stringTail? quote fuel rest).map (· + stretch + reference.length)
          | none => none

/-- A string without escapes, which may go over several lines. -/
def string? : List Char → Option Lexeme.Split
  | [] => none
  | quote :: rest =>
    if quote == '"' || quote == '\'' then
      (stringTail? quote (rest.length + 1) rest).map fun n =>
        Lexeme.splitAt (n + 1) (quote :: rest)
    else none

def attributeValue : Parser Items :=
  expecting (orElse (leaf .string string?) (orElse (braced g) g.element))

def attribute_ : Parser Items := do
  let name ← orElse namespaced (plainName .propertyIdentifier)
  let value ← maybe do
    let sign ← symbol "="
    return sign ++ (← attributeValue g)
  node .jsxAttribute (name ++ value)

/-! ## Contents -/

/-- Text up to the next bracket, brace or ampersand. Line breaks with the blanks after them are not
text on their own. -/
def text? (cs : List Char) : Option Lexeme.Split :=
  let text := cs.takeWhile fun c => !("<>\x7b\x7d&".toList.contains c) && c != '\x00'
  if hasText false text then some (Lexeme.splitAt text.length cs) else none
where
  /-- `atBreak` after a line break and blanks. -/
  hasText : Bool → List Char → Bool
    | _, [] => false
    | atBreak, c :: rest =>
      if c == '\n' then hasText true rest else !(atBreak && Semicolon.isSpace c) || hasText true rest

/-- Text at the very position. -/
def text : Parser Items := do
  let (_, start, stop) ← lexeme text?
  return [.node .jsxText start stop []]

/-- A comment that hides from markup, with the line breaks and blanks before it that are no text. -/
def hidingComment? (cs : List Char) : Option Lexeme.Split := do
  let blanks := cs.takeWhile Semicolon.isSpace
  guard (blanks.isEmpty || blanks.head? == some '\n')
  let (comment, rest) ← Lexeme.htmlComment? (cs.drop blanks.length)
  return (blanks ++ comment, rest)

/-- A part of the contents of an element. -/
def child : Parser Items :=
  orElse text <| orElse (do return [← commentBy hidingComment?]) <|
    expecting <| orElse (leaf .htmlCharacterReference reference?) <| orElse (braced g) do
      if ← seesSymbol "</" then fail else g.element

/-- The end of an element. -/
def closing : Parser Items := do
  let opening ← symbol "</"
  let name ← maybe elementName
  let bracket ← symbol ">"
  node .jsxClosingElement (opening ++ name ++ bracket)

/-- What follows the opening tag of an element. -/
def contents (tag : Items) : Parser Items := do
  let children ← many (child g)
  node .jsxElement (tag ++ children ++ (← closing))

/-- An element. -/
def element : Parser Items := do
  let bracket ← symbol "<"
  let name ← maybe elementName
  let attributes ← if name.isEmpty then pure [] else many (orElse (attribute_ g) (braced g))
  if !name.isEmpty && (← seesSymbol "/>") then
    node .jsxSelfClosingElement (bracket ++ name ++ attributes ++ (← symbol "/>"))
  else
    contents g (← node .jsxOpeningElement (bracket ++ name ++ attributes ++ (← symbol ">")))

end CodeFormatter.JavaScript.Markup
