/-!
# Comments and their owners

A parser hands over the comments of a text as a list. The store keeps them in source order and
records for each one which node owns it and whether it is printed before, after or inside that node.
Nodes are known by their numbers.

Three views of the ownership are kept in step: the owner of a comment (`owner?`), the comments of a
node (`of`), and the marks in the comment itself.

Comments get into the output in two ways: one by one, each with its own call, or all at once with the source
around them. A comment is marked when it does, but marks do not add up. The store also logs these emissions, so
that it can be told how often a comment was written.
-/

namespace CodeFormatter

inductive Placement where
  | leading
  | trailing
  | dangling
  deriving DecidableEq, Repr

structure Comment where
  text : String
  /-- Where it stands in the source, in bytes. -/
  start : Nat
  stop : Nat
  /-- Does it end at its closing mark, and not at the end of its line? -/
  block : Bool
  attached : Bool := false
  placement : Option Placement := none
  printed : Bool := false
  deriving DecidableEq, Repr, Inhabited

/-- A way for comments to get into the output. -/
inductive Emission where
  | comment (index : Nat)
  | slice (start stop : Nat)
  deriving DecidableEq

/-- Does a comment get into the output with the emission? -/
def Emission.covers (index : Nat) (c : Comment) : Emission → Bool
  | .comment i => i == index
  | .slice start stop => start ≤ c.start && c.stop ≤ stop

/-- The comments of one text. A comment is known by its place in the list. -/
structure Comments where
  list : List Comment
  owners : List (Option Nat)
  /-- The comments of each node that was ever given one, in source order. -/
  byNode : List (Nat × List Nat)
  /-- All emissions so far, first to last. -/
  emitted : List Emission

namespace Comments

/-- The entry of `node` becomes `indices`. -/
def assign (node : Nat) (indices : List Nat) : List (Nat × List Nat) → List (Nat × List Nat)
  | [] => [(node, indices)]
  | (n, is) :: rest =>
    if n = node then (node, indices) :: rest else (n, is) :: assign node indices rest

theorem lookup_assign (node n : Nat) (indices : List Nat) (table : List (Nat × List Nat)) :
    (assign node indices table).lookup n = if n = node then some indices else table.lookup n := by
  induction table with
  | nil => by_cases h : n = node <;> simp [assign, List.lookup_cons, h, beq_false_of_ne]
  | cons entry rest ih =>
    obtain ⟨m, is⟩ := entry
    by_cases hm : m = node <;> by_cases hn : n = m <;>
      simp_all [assign, List.lookup_cons] <;> grind

/-- Puts a comment before the first one that does not start before it. -/
def insertByStart (c : Comment) : List Comment → List Comment
  | [] => [c]
  | d :: rest => if c.start ≤ d.start then c :: d :: rest else d :: insertByStart c rest

/-- In the order of their starts; comments with the same start keep theirs. -/
def sortByStart (cs : List Comment) : List Comment := cs.foldr insertByStart []

/-- A store in which no comment has an owner. -/
def ofList (cs : List Comment) : Comments :=
  { list := sortByStart cs, owners := cs.map fun _ => none, byNode := [], emitted := [] }

def size (cs : Comments) : Nat := cs.list.length

def get? (cs : Comments) (index : Nat) : Option Comment := cs.list[index]?

def owner? (cs : Comments) (index : Nat) : Option Nat := cs.owners[index]?.join

/-- The comments of a node, in source order. -/
def of (cs : Comments) (node : Nat) : List Nat := (cs.byNode.lookup node).getD []

/-- The start of a comment; comments that do not exist start at zero. -/
def startOf (cs : Comments) (index : Nat) : Nat := (cs.get? index).elim 0 (·.start)

/-- `index` put into a list that is sorted by start, before the comments that start where it does. -/
def place (cs : Comments) (index : Nat) (list : List Nat) : List Nat :=
  let before := list.takeWhile fun i => cs.startOf i < cs.startOf index
  before ++ index :: list.drop before.length

/-- Takes a comment from the node that owns it. -/
def release (cs : Comments) (index : Nat) : Comments :=
  match cs.owner? index with
  | some node =>
    { cs with
      owners := cs.owners.set index none
      byNode := assign node ((cs.of node).filter (· != index)) cs.byNode }
  | none => cs

/-- Gives a comment to a node, taking it from the node that had it. -/
def attachTo (cs : Comments) (index node : Nat) (placement : Placement) : Comments :=
  if index < cs.size then
    let cs := cs.release index
    let mark (c : Comment) : Comment := { c with attached := true, placement := some placement }
    { cs with
      list := cs.list.modify index mark
      owners := cs.owners.set index (some node)
      byNode := assign node (cs.place index (cs.of node)) cs.byNode }
  else cs

/-- Does a node own a comment with this placement? -/
def hasPlacement (cs : Comments) (node : Nat) (placement : Placement) : Bool :=
  (cs.of node).any fun i => (cs.get? i).any fun c => c.placement == some placement

def markPrinted (cs : Comments) (index : Nat) : Comments :=
  { cs with
    list := cs.list.modify index fun c => { c with printed := true }
    emitted := cs.emitted ++ [.comment index] }

/-- Marks every comment between two offsets. -/
def markPrintedWithin (cs : Comments) (start stop : Nat) : Comments :=
  { cs with
    list := cs.list.map fun c =>
      if start ≤ c.start && c.stop ≤ stop then { c with printed := true } else c
    emitted := cs.emitted ++ [.slice start stop] }

def firstUnprinted? (cs : Comments) : Option Comment := cs.list.find? fun c => !c.printed

end Comments

end CodeFormatter
