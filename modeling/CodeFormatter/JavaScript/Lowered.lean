import CodeFormatter.Language
import CodeFormatter.JavaScript.Cst

/-!
# The tree that is printed

A concrete tree is *lowered* to what the printer needs: its nodes, numbered from the root on, each
with the texts of its own tokens and its operator. The comments are lifted out of it into a list.

Some nodes are leaves whatever they hold: strings, templates and regular expressions. What is below
them, comments included, is dropped.
-/

namespace CodeFormatter.JavaScript

/-- An operator and where it stands. -/
structure OperatorToken where
  text : String
  start : Nat
  deriving DecidableEq, Repr

/-- What is known of a node beside its span and its children. -/
structure Info where
  kind : Kind
  /-- The texts of its own tokens, in order. -/
  tokens : List String
  operator : Option OperatorToken
  deriving DecidableEq

/-- A node of a lowered tree. -/
abbrev Node := Tree Info

/-- The kind of a node. -/
def kindOf (t : Node) : Kind := t.info.kind

namespace Cst

/-- Kinds of nodes below which nothing is kept. -/
def isLeafKind (kind : Kind) : Bool :=
  kind = .string || kind = .templateString || kind = .regex

/-- The texts of the tokens in a list. -/
def tokenTexts (items : List Cst) : List String :=
  items.filterMap fun
    | .token text .. => some text
    | _ => none

/-- The first operator in a list. -/
def operator? (items : List Cst) : Option OperatorToken :=
  items.findSome? fun
    | .token text start _ true => some ⟨text, start⟩
    | _ => none

/-- What is kept of a node with these children. -/
def infoOf (kind : Kind) (children : List Cst) : Info :=
  { kind
    tokens := if isLeafKind kind then [] else tokenTexts children
    operator := operator? children }

mutual

/-- The nodes of a tree, numbered from `next` on in the order in which they start; and the number
after the last one. Tokens and comments are no nodes. -/
def lower (next : Nat) : Cst → List Node × Nat
  | .node kind start stop children =>
    let (below, after) := if isLeafKind kind then ([], next + 1) else lowerAll (next + 1) children
    ([⟨next, start, stop, infoOf kind children, below⟩], after)
  | _ => ([], next)

def lowerAll (next : Nat) : List Cst → List Node × Nat
  | [] => ([], next)
  | c :: rest =>
    let (nodes, next) := lower next c
    let (others, next) := lowerAll next rest
    (nodes ++ others, next)

end

mutual

/-- The comments of a tree, in order. -/
def comments : Cst → List Comment
  | .node kind _ _ children => if isLeafKind kind then [] else commentsAll children
  | .comment text start stop =>
    [{ text, start, stop, block := ['/', '*'].isPrefixOf text.toList }]
  | .token .. => []

def commentsAll : List Cst → List Comment
  | [] => []
  | c :: rest => comments c ++ commentsAll rest

end

/-- The lowered tree with its comments; nothing for a single token or comment. -/
def lowered? (c : Cst) : Option (Parsed Info) :=
  match (lower 0 c).1 with
  | [tree] => some { tree, comments := comments c }
  | _ => none

end Cst

end CodeFormatter.JavaScript
