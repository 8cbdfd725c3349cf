import CodeFormatter.Comment.Store
import CodeFormatter.Error

/-!
# Trees in one list

A parser hands over a *concrete* tree, with every node, token and comment of a text. Lowering keeps the nodes
in one list, the *arena*, in which they know their children by number. The tokens of a node are only named,
and the comments are lifted out.

A node is put into the arena before the nodes below it, whose numbers are not known yet. It learns about them
after they have been lowered (`Arena.patch`).
-/

namespace CodeFormatter

/-- A part of a concrete tree: a node, a token or a comment. -/
structure Concrete where
  kind : String
  /-- Does it have a name in the grammar? Tokens do not. -/
  named : Bool
  start : Nat
  stop : Nat
  /-- Does it say what the node above it does? -/
  operator : Bool
  children : List Concrete

/-- The kinds that are comments, and the kinds of leaves, below which nothing is kept. -/
structure Kinds where
  comments : List String
  leaves : List String

namespace Kinds

/-- The kinds of JavaScript. -/
def javaScript : Kinds := ⟨["comment", "html_comment"], ["string", "template_string", "regex"]⟩

variable (kinds : Kinds) (n : Concrete)

def isComment : Bool := kinds.comments.contains n.kind

def isLeaf : Bool := kinds.leaves.contains n.kind

def isNode : Bool := n.named && !kinds.isComment n

def isToken : Bool := !n.named && !kinds.isComment n

end Kinds

/-- A token that says what its node does. -/
structure Arena.Token where
  kind : String
  start : Nat
  deriving DecidableEq, Repr

/-- A node in an arena. -/
structure Arena.Entry where
  kind : String
  start : Nat
  stop : Nat
  /-- The numbers of its children. -/
  children : List UInt32
  /-- The kinds of its tokens, in order. -/
  tokens : List String
  operator : Option Arena.Token
  deriving DecidableEq, Repr

structure Arena where
  nodes : List Arena.Entry
  comments : List Comment
  deriving DecidableEq, Repr

namespace Concrete

/-- The first operator among the children. -/
def operator? (children : List Concrete) : Option Arena.Token :=
  (children.find? (·.operator)).map fun c => ⟨c.kind, c.start⟩

/-- A comment, with its text. -/
def comment (text : String) (n : Concrete) : Except Error Comment := do
  let own ← sliceOrError text n.start n.stop
  return { text := own, start := n.start, stop := n.stop, block := ['/', '*'].isPrefixOf own.toList }

end Concrete

namespace Arena

def empty : Arena := ⟨[], []⟩

/-- The number of the next node. -/
def next (a : Arena) : UInt32 := a.nodes.length.toUInt32

def push (a : Arena) (e : Entry) : Arena := { a with nodes := a.nodes ++ [e] }

/-- Tells a node about its children and tokens. -/
def patch (a : Arena) (id : UInt32) (children : List UInt32) (tokens : List String) : Arena :=
  { a with nodes := a.nodes.modify id.toNat fun e => { e with children, tokens } }

mutual

/-- Puts a node and what is below it into an arena, and tells its number. -/
def lower (kinds : Kinds) (text : String) : Concrete → Arena → Except Error (UInt32 × Arena)
  | ⟨kind, named, start, stop, operator, children⟩, a => do
    let id := a.next
    let a := a.push ⟨kind, start, stop, [], [], Concrete.operator? children⟩
    if kinds.isLeaf ⟨kind, named, start, stop, operator, children⟩ then return (id, a)
    else
      let (ids, tokens, a) ← lowerAll kinds text children a
      return (id, a.patch id ids tokens)

/-- Lowers the nodes of a list, and tells their numbers and the kinds of the tokens. -/
def lowerAll (kinds : Kinds) (text : String) :
    List Concrete → Arena → Except Error (List UInt32 × List String × Arena)
  | [], a => return ([], [], a)
  | c :: rest, a => do
    if kinds.isComment c then
      let comment ← c.comment text
      lowerAll kinds text rest { a with comments := a.comments ++ [comment] }
    else if c.named then
      let (id, a) ← lower kinds text c a
      let (ids, tokens, a) ← lowerAll kinds text rest a
      return (id :: ids, tokens, a)
    else
      let (ids, tokens, a) ← lowerAll kinds text rest a
      return (ids, c.kind :: tokens, a)

end

/-- The arena of a tree. Comments are in the order in which they start. -/
def ofConcrete (kinds : Kinds) (text : String) (root : Concrete) : Except Error Arena := do
  let (_, a) ← lower kinds text root .empty
  return { a with comments := Comments.sortByStart a.comments }

end Arena

end CodeFormatter
