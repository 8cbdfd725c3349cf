import CodeFormatter.Text.Blank
import CodeFormatter.Options
import CodeFormatter.Comment.Store
import CodeFormatter.Tree.Basic

/-!
# Languages

What the formatter has to know of a language: a parser that gives trees, a printer that turns their
nodes into documents, and the answers to a number of questions about comments, nodes and pragmas.
The formatter itself never looks at what a node is.

**Printing.** A printer is called for one node at a time. It gets the node with the way to it and,
for everything below the node, the action that prints it with its comments (`Printable`). The
actions run in `Walk`: they mark comments as printed, hand out group ids and may fail.
-/

namespace CodeFormatter

/-! ## Parsing -/

/-- A parsed text: its tree, and all its comments. -/
structure Parsed (α : Type) where
  tree : Tree α
  comments : List Comment

/-! ## Comments and their surroundings -/

/-- Where a comment stands on its line. -/
inductive CommentPosition where
  /-- Nothing but white space stands before it. -/
  | ownLine
  /-- Nothing but white space stands after it. -/
  | endOfLine
  | remaining
  deriving DecidableEq, Repr

/-- The nodes around a comment: the innermost one that contains it, and the nearest ones inside
that on either side. -/
structure Surroundings (α : Type) where
  enclosing : Option (Tree α)
  preceding : Option (Tree α)
  following : Option (Tree α)

/-! ## Printing -/

/-- What a printer can read. -/
structure Scene where
  /-- The name of the language. -/
  language : String
  text : String
  /-- The bytes of the text. -/
  bytes : Bytes
  options : Options
  /-- The node whose place in the output is asked for. -/
  cursorNode : Option Nat
  /-- The document of a text in some language, given the last group id in use; and the last one
  after that. -/
  embedded : String → Options → GroupId → Except Error (Doc × GroupId)

/-- What changes while a tree is printed. -/
structure WalkState where
  comments : Comments
  /-- The last group id in use. -/
  lastGroup : GroupId

abbrev Walk := StateT WalkState (Except Error)

/-- A node with the action that prints it, its comments included. -/
structure Printable (α : Type) where
  path : Tree.Path α
  print : Walk Doc
  children : List (Printable α)

namespace Printable

variable {α : Type}

def node (p : Printable α) : Tree α := p.path.node

def id (p : Printable α) : Nat := p.path.node.id

end Printable

/-! ## The record of a language -/

/-- A gap that does not separate a comment from the node after it: blanks and opening
parentheses. -/
def isOpenGap (gap : String) : Bool := gap.toList.all fun c => isBlank c || c == '('

structure Language (α : Type) where
  name : String
  /-- The extensions of its files, without the point. -/
  extensions : List String
  parse : Options → String → Except Error (Parsed α)
  /-- The document of a node. -/
  print : Scene → Tree.Path α → List (Printable α) → Walk Doc
  /-- A label for a node, from the text, that does not depend on where the node stands. -/
  describe : String → Tree α → Except Error String
  preprocess : Options → String → String := fun _ text => text
  /-- Does a text carry the mark that allows it to be formatted? -/
  hasPragma : String → Bool := fun _ => true
  /-- A text with the mark put in. -/
  insertPragma : String → Except Error String := fun text => .ok text
  /-- The document of a node whose contents are in another language. -/
  embed : Scene → Tree.Path α → List (Printable α) → Walk (Option Doc) :=
    fun _ _ _ => pure none
  printComment : Comment → Except Error Doc := fun comment => .ok (.text comment.text)
  /-- The owner of a comment in a tree, where the general rules do not apply. -/
  handleComment : Tree α → Comment → CommentPosition → Surroundings α →
      Option (Nat × Placement) :=
    fun _ _ _ _ => none
  /-- Can a node own comments? If not, its children stand in its place. -/
  canAttach : Tree α → Bool := fun _ => true
  /-- Does a text between a comment and the node after it leave the two together? -/
  isGapText : String → Bool := isOpenGap
  /-- Does a comment ask for the node after it to be left as it is? -/
  isIgnoreComment : Comment → Bool := fun _ => false
  /-- Is a node one that a range is widened to? -/
  isSourceElement : Tree α → Bool := fun _ => false
  /-- May a node come and go without a change to the program? -/
  isRedundant : Tree α → Bool := fun _ => false
  /-- The number of texts, one inside the other, that its printer may embed on its own account. -/
  nesting : Nat := 0

end CodeFormatter
