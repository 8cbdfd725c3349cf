import CodeFormatter.Text.Blank
import CodeFormatter.Text.Upper
import CodeFormatter.Walk

/-!
# Languages given by tables

A language whose trees are written down in advance: a table lists, for each text it knows, the nodes
of its tree and the comments in it. Each node says by a *template* how it is printed.

There are two such languages. The *bare* one uses nothing but trees and templates. The other one
answers all the questions that a language may be asked, from what the table says.
-/

namespace CodeFormatter.Table

/-! ## Templates -/

/-- How a node is printed. -/
inductive Template where
  /-- A fixed document. -/
  | fixed (d : Doc)
  /-- A document made from those of its parts, which are printed in order. -/
  | build (parts : List Template) (assemble : List Doc → Doc)
  /-- A child, by its number. -/
  | child (n : Nat)
  /-- All children with a separator between them. -/
  | children (separator : Doc)
  /-- The dangling comments. -/
  | dangling (sameIndent : Bool)
  /-- The node as it stands in the source. -/
  | verbatim
  /-- The text of the node, its comments aside. -/
  | source
  /-- The same in upper case. -/
  | upper
  /-- The numbers of the nodes on the way to it. -/
  | path
  /-- Which comments the node has. -/
  | commentFlags
  /-- A new group id. -/
  | groupId
  /-- The name of the language, the size of the text and the width of the page. -/
  | settings
  /-- A text in the language of this name, or of the file. -/
  | embed (text : String) (parser : Option String)
  deriving Inhabited

/-! ## Tables -/

/-- A row of a table: a node, with the rows of its children. -/
structure Row where
  kind : String
  start : Nat
  stop : Nat
  children : List Nat
  doc : Option Template
  embed : Option Template
  /-- Can comments not be given to it? -/
  transparent : Bool
  element : Bool
  redundant : Bool

/-- What is known of a node: its row, and the number of rows in its table. -/
structure Info where
  row : Row
  rows : Nat

/-- A comment in a table, by its span. -/
structure Span where
  start : Nat
  stop : Nat
  block : Bool

/-- A text with its tree, whose root is the first row, and its comments. -/
structure Entry where
  text : String
  rows : Array Row
  comments : List Span

/-- Which node a rule gives a comment to. -/
inductive Target where
  | enclosing
  | preceding
  | following
  | row (n : Nat)

/-- A rule for comments that hold a certain text, at a certain position or at any. -/
structure Rule where
  contains : String
  position : Option CommentPosition
  target : Target
  placement : Placement

structure Lang where
  entries : List Entry
  /-- Where the error of an unknown text is reported. -/
  errorAt : Nat
  /-- A replacement that is made in every text first. -/
  replacement : Option (String × String)
  /-- The characters that a gap may hold besides spaces. -/
  gap : String
  rules : List Rule

/-! ## Parsing -/

mutual

/-- The tree below a row. A row is nested in itself if the rows do not suffice. -/
def unfold (rows : Array Row) : Nat → Nat → Option (Tree Info)
  | 0, _ => none
  | fuel + 1, n => do
    let row ← rows[n]?
    let children ← unfoldAll rows fuel row.children
    return ⟨n, row.start, row.stop, ⟨row, rows.size⟩, children⟩
termination_by fuel _ => (fuel, 0)

def unfoldAll (rows : Array Row) (fuel : Nat) : List Nat → Option (List (Tree Info))
  | [] => some []
  | n :: rest => do
    let t ← unfold rows fuel n
    let others ← unfoldAll rows fuel rest
    return t :: others
termination_by ns => (fuel, ns.length + 1)

end

def Entry.parsed (e : Entry) : Except Error (Parsed Info) := do
  let comments ← e.comments.mapM fun span => do
    let text ← sliceOrError e.text span.start span.stop
    return ({ text, start := span.start, stop := span.stop, block := span.block } : Comment)
  match unfold e.rows e.rows.size 0 with
  | some tree => return { tree, comments }
  | none => throw .invalidSpan

def parse (lang : Lang) (text : String) : Except Error (Parsed Info) :=
  match lang.entries.find? fun e => e.text == text with
  | some e => e.parsed
  | none => .error (.parse (ParseError.ofOffset "no tree" text lang.errorAt))

/-! ## Printing -/

/-- The name of a boolean value. -/
def boolName (b : Bool) : String := if b then "true" else "false"

/-- Words between angle brackets. -/
def tagged (words : List String) : Doc := .text ("<" ++ String.intercalate " " words ++ ">")

/-- The number of a node, or a dash for none. -/
def numberOf (t : Option (Tree Info)) : String := t.elim "-" fun t => toString t.id

def pathDoc (path : Tree.Path Info) : Doc :=
  let above := path.ancestors
  tagged [toString path.node.id, numberOf above.head?, numberOf above.tail.head?,
    "[" ++ String.intercalate " " (above.map fun t => toString t.id) ++ "]", toString path.depth]

mutual

def Template.print (printComment : Comment → Except Error Doc) (scene : Scene)
    (path : Tree.Path Info) (children : List (Printable Info)) : Template → Walk Doc
  | .fixed d => return d
  | .build parts assemble => do
    return assemble (← Template.printAll printComment scene path children parts)
  | .child n =>
    match children[n]? with
    | some c => c.print
    | none => return Doc.nil
  | .children separator => do
    return Doc.join separator (← children.mapM fun c => c.print)
  | .dangling sameIndent => Walk.danglingComments printComment path.node sameIndent
  | .verbatim => Walk.verbatim scene path.node
  | .source => return .text (← Walk.source scene path.node)
  | .upper => return .text (upperCase (← Walk.source scene path.node))
  | .path => return pathDoc path
  | .commentFlags => do
    return tagged [boolName (← Walk.hasComments path.node),
      boolName (← Walk.hasDanglingComments path.node),
      boolName (← Walk.hasTrailingLineComment path.node)]
  | .groupId => return .text ("g" ++ toString (← Walk.newGroup))
  | .settings =>
    return tagged [scene.language, toString scene.text.utf8ByteSize,
      toString scene.options.printWidth]
  | .embed text parser => Walk.embedded scene text { scene.options with parser }

def Template.printAll (printComment : Comment → Except Error Doc) (scene : Scene)
    (path : Tree.Path Info) (children : List (Printable Info)) :
    List Template → Walk (List Doc)
  | [] => return []
  | t :: rest => do
    let d ← Template.print printComment scene path children t
    let ds ← Template.printAll printComment scene path children rest
    return d :: ds

end

/-- A node by its template, or as it stands in the source. -/
def print (printComment : Comment → Except Error Doc) (scene : Scene) (path : Tree.Path Info)
    (children : List (Printable Info)) : Walk Doc :=
  match path.node.info.row.doc with
  | some template => template.print printComment scene path children
  | none => Walk.verbatim scene path.node

/-- The kind of a node; for a node without children, also its text. -/
def describe (text : String) (t : Tree Info) : Except Error String := do
  if t.children.isEmpty then
    return t.info.row.kind ++ " " ++ (← sliceOrError text t.start t.stop)
  else return t.info.row.kind

/-! ## Comments -/

/-- A comment between angle brackets. -/
def bracketedComment (c : Comment) : Except Error Doc :=
  .ok (.concat [.text "<", .text (trim c.text), .text ">"])

/-- The node that a rule means, if it exists. -/
def Target.resolve (rows : Nat) (around : Surroundings Info) : Target → Option Nat
  | .enclosing => around.enclosing.map (·.id)
  | .preceding => around.preceding.map (·.id)
  | .following => around.following.map (·.id)
  | .row n => if n < rows then some n else none

/-- The node and the placement that a rule gives to a comment. -/
def Rule.apply (c : Comment) (position : CommentPosition) (rows : Nat)
    (around : Surroundings Info) (rule : Rule) : Option (Nat × Placement) :=
  if isInfix rule.contains.toList c.text.toList
      && (rule.position.all fun p => p == position) then
    (rule.target.resolve rows around).map fun n => (n, rule.placement)
  else none

/-! ## The two languages -/

mutual

/-- The size of the texts that a template embeds. -/
def Template.nesting : Template → Nat
  | .embed text _ => text.utf8ByteSize + 1
  | .build parts _ => Template.nestingAll parts
  | _ => 0

def Template.nestingAll : List Template → Nat
  | [] => 0
  | t :: rest => t.nesting + Template.nestingAll rest

end

/-- The size of all texts that the templates of a language embed. -/
def Lang.nesting (lang : Lang) : Nat :=
  lang.entries.foldr (fun e n => e.rows.toList.foldr (fun row n =>
    row.doc.elim 0 (·.nesting) + row.embed.elim 0 (·.nesting) + n) n) 0

/-- The language that uses nothing but trees and templates. -/
def bare (lang : Lang) : Language Info where
  name := "bare"
  extensions := ["bare"]
  parse _ text := parse lang text
  print := print fun c => .ok (.text c.text)
  describe := describe
  nesting := lang.nesting

/-- The language that answers every question. -/
def full (lang : Lang) : Language Info where
  name := "table"
  extensions := ["tbl", "t"]
  parse _ text := parse lang text
  print := print bracketedComment
  describe := describe
  preprocess _ text :=
    match lang.replacement with
    | some (old, new) => String.ofList (replaceAll old.toList new.toList text.toList)
    | none => text
  hasPragma text := ['@', 'p'].isPrefixOf text.toList
  insertPragma text := .ok ("@p\n" ++ text)
  embed scene path children :=
    match path.node.info.row.embed with
    | some template => some <$> template.print bracketedComment scene path children
    | none => return none
  printComment := bracketedComment
  handleComment root c position around :=
    lang.rules.findSome? (·.apply c position root.info.rows around)
  canAttach t := !t.info.row.transparent
  isGapText gap := gap.toList.all fun c => c == ' ' || lang.gap.toList.contains c
  isIgnoreComment c := isInfix "ignore".toList c.text.toList
  isSourceElement t := t.info.row.element
  isRedundant t := t.info.row.redundant
  nesting := lang.nesting

end CodeFormatter.Table
