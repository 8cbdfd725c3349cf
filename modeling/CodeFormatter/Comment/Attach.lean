import CodeFormatter.Language

/-!
# Owners for comments

Every comment of a text gets an owner and a placement.

**Surroundings.** The nodes around a comment are found by a search over the nodes of each level that
can own comments: first the innermost node that contains the comment, then its neighbours inside
that node.

**Rules.** The language may claim a comment. Otherwise a comment on a line of its own leads the node
after it, a comment at the end of its line trails the node before it, and a comment without a
neighbour dangles in the node around it.

**Ties.** Comments with code on both sides are collected while they stand between the same two
nodes. The run of them that only a gap separates from the node after them leads it; the others trail
the node before them.
-/

namespace CodeFormatter.Attach

variable {α : Type}

/-! ## Surroundings -/

mutual

/-- The nodes below `t` that can own comments, where nodes that cannot are looked through. -/
def ownersBelow (canAttach : Tree α → Bool) : Tree α → List (Tree α)
  | ⟨_, _, _, _, children⟩ => ownersAmong canAttach children

def ownersAmong (canAttach : Tree α → Bool) : List (Tree α) → List (Tree α)
  | [] => []
  | t :: rest =>
    (if canAttach t then [t] else ownersBelow canAttach t) ++ ownersAmong canAttach rest

end

/-- The outcome of a search among the nodes of one level. -/
inductive Nearby (α : Type) where
  | inside (t : Tree α)
  | between (preceding following : Option (Tree α))

/-- Searches `nodes` from `left` up to `right` for a span by halving. The neighbours found so far are
the nodes just outside these bounds. A node that overlaps the span ends the search. -/
def search (nodes : Array (Tree α)) (start stop : Nat) :
    Nat → Nat → Nat → Option (Tree α) → Option (Tree α) → Nearby α
  | 0, _, _, preceding, following => .between preceding following
  | fuel + 1, left, right, preceding, following =>
    if left < right then
      let middle := (left + right) / 2
      match nodes[middle]? with
      | none => .between preceding following
      | some t =>
        if t.start ≤ start && stop ≤ t.stop then .inside t
        else if t.stop ≤ start then search nodes start stop fuel (middle + 1) right (some t) following
        else if stop ≤ t.start then search nodes start stop fuel left middle preceding (some t)
        else .between preceding following
    else .between preceding following

/-- Goes down from `t` as long as a node below contains the span. -/
def descend (canAttach : Tree α → Bool) (start stop : Nat) :
    Nat → Tree α → Option (Tree α) → Surroundings α
  | 0, _, enclosing => ⟨enclosing, none, none⟩
  | fuel + 1, t, enclosing =>
    let nodes := (ownersBelow canAttach t).toArray
    match search nodes start stop nodes.size 0 nodes.size none none with
    | .inside child => descend canAttach start stop fuel child (some child)
    | .between preceding following => ⟨enclosing, preceding, following⟩

/-- The nodes around a span. -/
def surroundings (canAttach : Tree α → Bool) (root : Tree α) (start stop : Nat) : Surroundings α :=
  descend canAttach start stop root.depth root none

/-- Where a comment stands on its line. -/
def position (text : Bytes) (c : Comment) : CommentPosition :=
  if Scan.hasNewlineBackward text c.start then .ownLine
  else if Scan.hasNewline text c.stop then .endOfLine
  else .remaining

/-! ## Ties -/

/-- A comment, by its index, between two nodes. -/
structure Tie (α : Type) where
  index : Nat
  preceding : Tree α
  following : Tree α

/-- How many of `indices`, read from the last comment back, only gaps separate from `gapEnd`. -/
def leadingRun (isGapText : String → Bool) (text : String) (cs : Comments) :
    Nat → List Nat → Nat
  | _, [] => 0
  | gapEnd, index :: earlier =>
    match cs.get? index with
    | none => 0
    | some c =>
      if (slice? text c.stop gapEnd).any isGapText then
        leadingRun isGapText text cs c.start earlier + 1
      else 0

/-- Settles the ties that were collected. -/
def breakTies (isGapText : String → Bool) (text : String) (cs : Comments) (ties : List (Tie α)) :
    Comments :=
  match ties with
  | [] => cs
  | first :: _ =>
    let indices := ties.map (·.index)
    let run := leadingRun isGapText text cs first.following.start indices.reverse
    let trailing := indices.take (indices.length - run)
    let leading := indices.drop (indices.length - run)
    let cs := trailing.foldl (fun cs i => cs.attachTo i first.preceding.id .trailing) cs
    leading.foldl (fun cs i => cs.attachTo i first.following.id .leading) cs

/-! ## Attachment -/

/-- The comments and the ties that wait. -/
structure Progress (α : Type) where
  comments : Comments
  ties : List (Tie α)

/-- Settles the ties that wait. -/
def Progress.settle (language : Language α) (text : String) (p : Progress α) : Progress α :=
  { comments := breakTies language.isGapText text p.comments p.ties, ties := [] }

/-- Adds a tie. It joins the ones that wait if they have the same node after them. -/
def Progress.tie (language : Language α) (text : String) (p : Progress α) (tie : Tie α) :
    Progress α :=
  let p :=
    match p.ties.getLast? with
    | some last => if last.following.id = tie.following.id then p else p.settle language text
    | none => p
  { p with ties := p.ties ++ [tie] }

/-- The general rules. -/
def place (language : Language α) (text : String) (root : Tree α) (p : Progress α) (index : Nat)
    (position : CommentPosition) (around : Surroundings α) : Progress α :=
  let give (t : Tree α) (placement : Placement) : Progress α :=
    { p with comments := p.comments.attachTo index t.id placement }
  match position, around.preceding, around.following with
  | .ownLine, _, some following => give following .leading
  | .ownLine, some preceding, none => give preceding .trailing
  | .endOfLine, some preceding, _ => give preceding .trailing
  | .endOfLine, none, some following => give following .leading
  | .remaining, some preceding, some following =>
    p.tie language text ⟨index, preceding, following⟩
  | .remaining, some preceding, none => give preceding .trailing
  | .remaining, none, some following => give following .leading
  | _, none, none => give (around.enclosing.getD root) .dangling

/-- Gives one comment to its owner, or lets it wait. -/
def attachComment (language : Language α) (root : Tree α) (text : String) (bytes : Bytes)
    (p : Progress α) (index : Nat) : Progress α :=
  match p.comments.get? index with
  | none => p
  | some c =>
    let around := surroundings language.canAttach root c.start c.stop
    let position := position bytes c
    let p := if position = .remaining then p else p.settle language text
    match language.handleComment root c position around with
    | some (owner, placement) => { p with comments := p.comments.attachTo index owner placement }
    | none => place language text root p index position around

/-- Gives every comment to its owner. -/
def attach (language : Language α) (root : Tree α) (text : String) (cs : Comments) : Comments :=
  let bytes := bytesOf text
  let p := (List.range cs.size).foldl (attachComment language root text bytes) ⟨cs, []⟩
  (p.settle language text).comments

end CodeFormatter.Attach
