import CodeFormatter.Language
import CodeFormatter.Text.Blank

/-!
# Widening a range to whole nodes

A range of a text rarely starts and ends where a statement does. Its two ends are moved inward past
white space, each is taken to the innermost source element around it, and these two nodes are lifted
through the nodes above them until they cover each other. The root is never chosen this way.
-/

namespace CodeFormatter.Range

variable {α : Type}

/-- The range between character boundaries, without the white space at its ends. -/
def stripped (text : String) (start stop : Nat) : Nat × Nat :=
  let stop := ceilBoundary text stop
  let start := floorBoundary text (min start stop)
  match slice? text start stop with
  | none => (start, stop)
  | some range =>
    let cs := range.toList
    let start := start + (byteLength cs - byteLength (trimLeft cs))
    (start, start + byteLength (trimBoth cs))

/-- The last of `ancestors`, or `t`, before the first one that is the root or that `stop` refuses. -/
def lift (root : Tree α) (refuses : Tree α → Bool) (t : Tree α) : List (Tree α) → Tree α
  | [] => t
  | a :: rest => if a.id = root.id || refuses a then t else lift root refuses a rest

/-- Lifts the last node while the nodes above it start after the first one does, and the first node
while the nodes above it end before the last one does. -/
def siblingAncestors (root : Tree α) (first last : Tree.Path α) : Tree α × Tree α :=
  if first.node.id = last.node.id then (first.node, last.node)
  else
    (lift root (fun a => last.node.stop < a.stop) first.node first.ancestors,
      lift root (fun a => a.start < first.node.start) last.node last.ancestors)

/-- The range widened to whole nodes; nothing when an end lies outside of every source element. -/
def widen? (isSourceElement : Tree α → Bool) (root : Tree α) (text : String) (start stop : Nat) :
    Option (Nat × Nat) :=
  let (start, stop) := stripped text start stop
  match root.find? start isSourceElement, root.find? stop isSourceElement with
  | some first, some last =>
    let (first, last) := siblingAncestors root first last
    some (min first.start last.start, max first.stop last.stop)
  | _, _ => none

end CodeFormatter.Range
