import CodeFormatter.Doc.Breaks
import CodeFormatter.Language

/-!
# From a tree to its document

Each node is printed by its language and then surrounded by its comments. A node that a comment asks
to be left alone is copied from the source, and so are the comments inside it.

**Comments.** A leading comment stands before its node, on a line of its own if it was on one. A
trailing comment stands after it: a comment that runs to the end of its line is held back until the
line ends. Dangling comments are left to the printer of their node.
-/

namespace CodeFormatter

variable {α : Type}

namespace Walk

/-! ## What printers may do -/

/-- The comments as they are now. -/
def comments : Walk Comments := return (← get).comments

/-- The text of a node. -/
def source (scene : Scene) (t : Tree α) : Walk String :=
  (sliceOrError scene.text t.start t.stop : Except Error String)

/-- A node as it stands in the source; the comments inside it count as printed. -/
def verbatim (scene : Scene) (t : Tree α) : Walk Doc := do
  modify fun st => { st with comments := st.comments.markPrintedWithin t.start t.stop }
  return .text (← source scene t)

def hasComments (t : Tree α) : Walk Bool := return !((← comments).of t.id).isEmpty

def hasDanglingComments (t : Tree α) : Walk Bool :=
  return (← comments).hasPlacement t.id .dangling

/-- Does a comment trail the node that runs to the end of its line? -/
def hasTrailingLineComment (t : Tree α) : Walk Bool := do
  let cs ← comments
  return (cs.of t.id).any fun i =>
    (cs.get? i).any fun c => c.placement == some .trailing && !c.block

/-- A group id that is not in use. -/
def newGroup : Walk GroupId := do
  modify fun st => { st with lastGroup := st.lastGroup + 1 }
  return (← get).lastGroup

/-- The document of another text, to stand inside this one. -/
def embedded (scene : Scene) (text : String) (options : Options) : Walk Doc := do
  let (doc, last) ← (scene.embedded text options (← get).lastGroup : Except Error _)
  modify fun st => { st with lastGroup := last }
  return doc

/-! ## Comments -/

/-- The document of a comment, which counts as printed. -/
def printComment (language : Language α) (index : Nat) (c : Comment) : Walk Doc := do
  modify fun st => { st with comments := st.comments.markPrinted index }
  (language.printComment c : Except Error Doc)

def leadingComment (language : Language α) (scene : Scene) (index : Nat) (c : Comment) :
    Walk Doc := do
  let contents ← printComment language index c
  let separator :=
    if c.block && !Scan.hasNewline scene.bytes c.stop then .text " " else Doc.hardline
  let lineEnd := Scan.skipSpaces scene.bytes c.stop
  let after := Scan.skipNewline scene.bytes lineEnd
  -- One blank line between the comment and its node is kept.
  let blank := if after != lineEnd && Scan.hasNewline scene.bytes after then [Doc.hardline] else []
  return .concat ([contents, separator] ++ blank)

def trailingComment (language : Language α) (scene : Scene) (index : Nat) (c : Comment) :
    Walk Doc := do
  let contents ← printComment language index c
  if Scan.hasNewlineBackward scene.bytes c.start then
    let blank :=
      if Scan.isPreviousLineEmpty scene.bytes c.start then Doc.hardline else Doc.nil
    return .lineSuffix (.concat [Doc.hardline, blank, contents])
  else if c.block then
    return .concat [.text " ", contents]
  else
    return .concat [.lineSuffix (.concat [.text " ", contents]), .breakParent]

/-- The comments before a node and those after it. -/
def printAround (language : Language α) (scene : Scene) :
    List Nat → Walk (List Doc × List Doc)
  | [] => return ([], [])
  | index :: rest => do
    match (← comments).get? index with
    | some c =>
      match c.placement with
      | some .leading =>
        let doc ← leadingComment language scene index c
        let (leading, trailing) ← printAround language scene rest
        return (doc :: leading, trailing)
      | some .trailing =>
        let doc ← trailingComment language scene index c
        let (leading, trailing) ← printAround language scene rest
        return (leading, doc :: trailing)
      | _ => printAround language scene rest
    | none => printAround language scene rest

/-- The document of a node with its leading and trailing comments around it. -/
def withComments (language : Language α) (scene : Scene) (t : Tree α) (printed : Doc) :
    Walk Doc := do
  let indices := (← comments).of t.id
  if indices.isEmpty then return printed
  let (leading, trailing) ← printAround language scene indices
  return .concat (leading ++ printed :: trailing)

/-- The dangling comments of a node, one per line; indented one level, unless `sameIndent`. -/
def danglingComments (printComment : Comment → Except Error Doc) (t : Tree α)
    (sameIndent : Bool) : Walk Doc := do
  let cs ← comments
  let own := (cs.of t.id).filterMap fun i =>
    (cs.get? i).bind fun c => if c.placement == some .dangling then some (i, c) else none
  if own.isEmpty then return Doc.nil
  let parts ← own.mapM fun (index, c) => do
    modify fun st => { st with comments := st.comments.markPrinted index }
    let contents ← (printComment c : Except Error Doc)
    return if c.block then contents else .concat [contents, .breakParent]
  let joined := Doc.join Doc.hardline parts
  return if sameIndent then joined else .indent (.concat [Doc.hardline, joined])

/-! ## Nodes -/

/-- Does a leading comment ask for the node to be left as it is? -/
def isIgnored (language : Language α) (t : Tree α) : Walk Bool := do
  let cs ← comments
  return (cs.of t.id).any fun i =>
    (cs.get? i).any fun c => c.placement == some .leading && language.isIgnoreComment c

/-- The document of a node without its comments. -/
def printNode (language : Language α) (scene : Scene) (path : Tree.Path α)
    (children : List (Printable α)) : Walk Doc := do
  if ← isIgnored language path.node then verbatim scene path.node
  else
    match ← language.embed scene path children with
    | some doc => return doc
    | none => language.print scene path children

/-- The document of a node with its comments, and with cursors around it if it is asked for. -/
def visit (language : Language α) (scene : Scene) (path : Tree.Path α)
    (children : List (Printable α)) : Walk Doc := do
  let doc ← printNode language scene path children
  let doc :=
    if scene.cursorNode = some path.node.id then .concat [.cursor, doc, .cursor] else doc
  withComments language scene path.node doc

end Walk

namespace Printable

mutual

/-- A tree whose every node knows how it is printed. -/
def ofTree (language : Language α) (scene : Scene) (ancestors : List (Tree α)) :
    Tree α → Printable α
  | ⟨id, start, stop, info, children⟩ =>
    let path : Tree.Path α := ⟨⟨id, start, stop, info, children⟩, ancestors⟩
    let below := ofTrees language scene (path.node :: ancestors) children
    ⟨path, Walk.visit language scene path below, below⟩

def ofTrees (language : Language α) (scene : Scene) (ancestors : List (Tree α)) :
    List (Tree α) → List (Printable α)
  | [] => []
  | t :: rest => ofTree language scene ancestors t :: ofTrees language scene ancestors rest

end

end Printable

/-- The document of a whole tree, at column `alignment`, with its breaks carried outward. -/
def printTree (language : Language α) (scene : Scene) (tree : Tree α) (alignment : Nat) :
    Walk Doc := do
  let doc ← (Printable.ofTree language scene [] tree).print
  let doc :=
    if 0 < alignment then
      Doc.alignTo (.concat [Doc.hardline, doc]) alignment scene.options.tabWidth
    else doc
  return doc.propagateBreaks

end CodeFormatter
