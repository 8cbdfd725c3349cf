import CodeFormatter.Language
import CodeFormatter.Text.Quoted

/-!
# Trees as text

Two views of a tree. The *clean* tree has labels only, so that the trees of two texts can be
compared when one is the other in a new layout; nodes that may come and go are left out of it. The
*dump* has one line per node, with its label and its span.
-/

namespace CodeFormatter

/-- A tree of labels. -/
inductive CleanTree where
  | node (label : String) (children : List CleanTree)
  deriving Inhabited

namespace CleanTree

mutual

/-- The labels, one per line, each level indented by two spaces. -/
def lines (level : Nat) : CleanTree → List String
  | .node label children =>
    (String.ofList (List.replicate (2 * level) ' ') ++ label ++ "\n") :: linesAll (level + 1) children

def linesAll (level : Nat) : List CleanTree → List String
  | [] => []
  | t :: rest => lines level t ++ linesAll level rest

end

/-- The tree as a text. It determines the tree as long as no label holds a newline. -/
def render (t : CleanTree) : String := String.join (t.lines 0)

mutual

/-- Are two trees equal? -/
def beq : CleanTree → CleanTree → Bool
  | .node a as, .node b bs => a == b && beqAll as bs

def beqAll : List CleanTree → List CleanTree → Bool
  | [], [] => true
  | a :: as, b :: bs => beq a b && beqAll as bs
  | _, _ => false

end

instance : BEq CleanTree := ⟨beq⟩

end CleanTree

namespace Tree

variable {α : Type}

mutual

/-- The labels of a tree without its redundant nodes. -/
def clean (language : Language α) (text : String) : Tree α → Except Error CleanTree
  | ⟨id, start, stop, info, children⟩ => do
    let label ← language.describe text ⟨id, start, stop, info, children⟩
    let children ← cleanAll language text children
    return .node label children

def cleanAll (language : Language α) (text : String) : List (Tree α) → Except Error (List CleanTree)
  | [] => return []
  | t :: rest => do
    if language.isRedundant t then cleanAll language text rest
    else
      let t ← clean language text t
      let rest ← cleanAll language text rest
      return t :: rest

end

/-- A node on a line of its own. A label of several lines is quoted. -/
def dumpLine (label : String) (t : Tree α) (level : Nat) : String :=
  let label := if label.toList.contains '\n' then Quoted.quote label else label
  String.ofList (List.replicate (2 * level) ' ') ++ label
    ++ " [" ++ toString t.start ++ ".." ++ toString t.stop ++ "]\n"

mutual

/-- One line per node, each level indented by two spaces. -/
def dumpLines (language : Language α) (text : String) (level : Nat) :
    Tree α → Except Error (List String)
  | ⟨id, start, stop, info, children⟩ => do
    let t : Tree α := ⟨id, start, stop, info, children⟩
    let label ← language.describe text t
    let below ← dumpLinesAll language text (level + 1) children
    return dumpLine label t level :: below

def dumpLinesAll (language : Language α) (text : String) (level : Nat) :
    List (Tree α) → Except Error (List String)
  | [] => return []
  | t :: rest => do
    let lines ← dumpLines language text level t
    let others ← dumpLinesAll language text level rest
    return lines ++ others

end

def dump (language : Language α) (text : String) (t : Tree α) : Except Error String :=
  String.join <$> t.dumpLines language text 0

end Tree

end CodeFormatter
