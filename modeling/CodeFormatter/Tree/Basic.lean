/-!
# Syntax trees

A tree of nodes with spans in a text. What else is known of a node depends on the language and is
its `info`. Nodes carry a number, by which comments and cursors refer to them.

**Search.** `Tree.find?` gives the deepest node around an offset that satisfies a condition, with
the nodes above it.
-/

namespace CodeFormatter

/-- A node and, through its children, everything below it. Its span goes from byte `start` up to
byte `stop`. -/
structure Tree (α : Type) where
  id : Nat
  start : Nat
  stop : Nat
  info : α
  children : List (Tree α)

namespace Tree

variable {α : Type}

mutual

/-- The number of levels. -/
def depth : Tree α → Nat
  | ⟨_, _, _, _, children⟩ => 1 + depthAll children

/-- The largest depth in a list of trees. -/
def depthAll : List (Tree α) → Nat
  | [] => 0
  | t :: rest => max t.depth (depthAll rest)

end

/-- A node and the nodes above it, nearest first. -/
structure Path (α : Type) where
  node : Tree α
  ancestors : List (Tree α)

/-- The node one level up. -/
def Path.parent? (p : Path α) : Option (Tree α) := p.ancestors.head?

/-- The number of nodes on the way from the root. -/
def Path.depth (p : Path α) : Nat := p.ancestors.length + 1

/-- Is the offset inside the node or at one of its ends? -/
def covers (t : Tree α) (offset : Nat) : Bool := t.start ≤ offset && offset ≤ t.stop

mutual

/-- The search below `ancestors`: in the children first, in order, then the node itself. -/
def findFrom (offset : Nat) (p : Tree α → Bool) (ancestors : List (Tree α)) :
    Tree α → Option (Path α)
  | ⟨id, start, stop, info, children⟩ =>
    let t : Tree α := ⟨id, start, stop, info, children⟩
    if t.covers offset then
      match findAmong offset p (t :: ancestors) children with
      | some found => some found
      | none => if p t then some ⟨t, ancestors⟩ else none
    else none

def findAmong (offset : Nat) (p : Tree α → Bool) (ancestors : List (Tree α)) :
    List (Tree α) → Option (Path α)
  | [] => none
  | t :: rest =>
    match findFrom offset p ancestors t with
    | some found => some found
    | none => findAmong offset p ancestors rest

end

/-- The deepest node that covers `offset`, as all nodes above it do, and satisfies `p`; of several
the first. -/
def find? (t : Tree α) (offset : Nat) (p : Tree α → Bool) : Option (Path α) :=
  findFrom offset p [] t

end Tree

end CodeFormatter
