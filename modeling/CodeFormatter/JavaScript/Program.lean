import CodeFormatter.JavaScript.ClassBody
import CodeFormatter.JavaScript.Destructuring
import CodeFormatter.JavaScript.Markup
import CodeFormatter.JavaScript.Statement

/-!
# Programs

The grammar, tied together, and the tree of a whole text. The depth to which the parts of the
grammar may contain each other is bounded by the size of the text: each part reads a character
before it contains itself.
-/

namespace CodeFormatter.JavaScript

open CodeFormatter.JavaScript.Parser

/-- The grammar to a certain depth. -/
def grammar : Nat → Grammar
  | 0 => ⟨fun _ => fail, fun _ _ => fail, fun _ => fail, fail, fail, fail⟩
  | depth + 1 =>
    { statement := fun isLast s => Statement.statement (grammar depth) isLast s
      expression := fun c level s => Expression.expression (grammar depth) c level s
      callee := fun c s => Expression.callee (grammar depth) c s
      destructuring := fun s => Destructuring.destructuring (grammar depth) s
      element := fun s => Markup.element (grammar depth) s
      classBody := fun s => ClassBody.body (grammar depth) s }

/-- The first line of a script that names its interpreter. -/
def hashBang? : List Char → Option Lexeme.Split
  | '#' :: '!' :: rest =>
    some (Lexeme.splitAt ((rest.takeWhile (· != '\n')).length + 2) ('#' :: '!' :: rest))
  | _ => none

/-- All statements that can be read, with the comments after them. -/
def statements (g : Grammar) : Parser Items := do
  let _ ← maybe do
    let _ ← exactly "\ufeff"
    return []
  let hashBang ← maybe (expecting (leaf .hashBangLine hashBang?))
  let statements ← many (g.statement false)
  return hashBang ++ statements ++ (← gap)

/-- Where a text of these characters starts. -/
def Position.ofChars (cs : List Char) : Position :=
  { rest := cs
    size := cs.length
    offset := 0
    expecting := true
    hides := Lexeme.hidesAfterBracket cs.length cs }

/-- Deep enough for a text of so many characters. -/
def depth (length : Nat) : Nat := 4 * length + 4

/-- The tree of a text. The program starts at the first token or comment and ends with the text. -/
def Cst.ofText? (text : String) : Option Cst :=
  let cs := text.toList
  match statements (grammar (depth cs.length)) (.ofChars cs) with
  | .read items stop =>
    let size := text.utf8ByteSize
    let tree := Cst.node .program ((items.head?.map Cst.start).getD size) size items
    if stop.rest.isEmpty && tree.hasNoStrayPattern then some tree else none
  | _ => none

/-- What is left of a text where it stops to be readable, and where that is. -/
def unread (text : String) : List Char × Nat :=
  let cs := text.toList
  match statements (grammar (depth cs.length)) (.ofChars cs) with
  | .read _ s | .abort s => (s.rest, s.offset)
  | .fail => (cs, 0)

end CodeFormatter.JavaScript
