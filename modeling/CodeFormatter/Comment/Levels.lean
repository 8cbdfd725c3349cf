import CodeFormatter.Cache
import CodeFormatter.Comment.Attach

/-!
# Levels that are kept

Many comments are searched for in one tree, and the search comes to the same nodes again and again. The
owners below a node do not change, so they are computed when the search comes to it for the first time,
and kept under the number of the node. Otherwise the search is that of `surroundings`.
-/

namespace CodeFormatter.Attach

variable {α : Type}

/-- The owners below the nodes that a search has come to. -/
abbrev Levels (α : Type) := Cache Nat (Array (Tree α))

namespace Levels

/-- The owners below a node, computed if they are not kept. -/
def owners (canAttach : Tree α → Bool) (levels : Levels α) (t : Tree α) :
    Array (Tree α) × Levels α :=
  match levels.get? t.id with
  | some nodes => (nodes, levels)
  | none =>
    let nodes := (ownersBelow canAttach t).toArray
    (nodes, levels.insert t.id nodes)

/-- Goes down from `t` as long as a node below contains the span. -/
def descend (canAttach : Tree α → Bool) (start stop : Nat) :
    Nat → Levels α → Tree α → Option (Tree α) → Surroundings α × Levels α
  | 0, levels, _, enclosing => (⟨enclosing, none, none⟩, levels)
  | fuel + 1, levels, t, enclosing =>
    let (nodes, levels) := levels.owners canAttach t
    match search nodes start stop nodes.size 0 nodes.size none none with
    | .inside child => descend canAttach start stop fuel levels child (some child)
    | .between preceding following => (⟨enclosing, preceding, following⟩, levels)

/-- The nodes around a span, and the levels after the search. -/
def surroundings (canAttach : Tree α → Bool) (root : Tree α) (start stop : Nat) (levels : Levels α) :
    Surroundings α × Levels α :=
  levels.descend canAttach start stop root.depth root none

/-- The levels after searches for these spans. -/
def after (canAttach : Tree α → Bool) (root : Tree α) (spans : List (Nat × Nat)) : Levels α :=
  spans.foldl (fun levels (start, stop) => (levels.surroundings canAttach root start stop).2) .empty

end Levels

end CodeFormatter.Attach
