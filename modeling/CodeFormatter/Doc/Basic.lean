/-!
# Documents

A document describes every way a piece of code may be laid out: its texts, the places where a line
may break, how far lines are indented, and which parts are laid out on one line or broken as a unit.
Building one decides nothing; the layout (`CodeFormatter.Layout.Printer`) chooses.

**Groups** come in two kinds. A plain group is flat or broken. A conditional group has several
*states*, from the most compact to the most expanded, and the layout takes the first that fits.
-/

namespace CodeFormatter

/-- What a line break becomes when its group is flat, and how it is written otherwise. -/
inductive LineKind where
  /-- Nothing when flat. -/
  | soft
  /-- A space when flat. -/
  | normal
  /-- A newline in any case. -/
  | hard
  /-- A newline in any case, followed by no indentation but the root's. -/
  | literal
  deriving DecidableEq, Repr

/-- A line that breaks in any case. -/
def LineKind.isHard : LineKind → Bool
  | .hard | .literal => true
  | .soft | .normal => false

/-- How an alignment changes the indentation of its contents. -/
inductive Alignment where
  /-- So many spaces more. -/
  | spaces (n : Nat)
  /-- This text more. -/
  | text (s : String)
  /-- The innermost change undone. -/
  | dedent
  /-- Back to the marked root, or to none. -/
  | dedentToRoot
  /-- The current indentation becomes the root. -/
  | root
  deriving DecidableEq, Repr

/-- The name of a group, by which others ask how it was laid out. -/
abbrev GroupId := Nat

inductive Doc where
  | text (s : String)
  | concat (parts : List Doc)
  | line (kind : LineKind)
  | group (contents : Doc) (shouldBreak : Bool) (id : Option GroupId)
  | conditionalGroup (contents : Doc) (states : List Doc) (shouldBreak : Bool)
      (id : Option GroupId)
  | indent (contents : Doc)
  | align (alignment : Alignment) (contents : Doc)
  /-- Contents and separators in turn, filled into lines like the words of a paragraph. -/
  | fill (parts : List Doc)
  /-- One of two documents, by the mode of the named group, or of the one around. -/
  | ifBreak (broken flat : Doc) (groupId : Option GroupId)
  /-- Written at the end of the current line. -/
  | lineSuffix (contents : Doc)
  /-- A hard line, if a line suffix is waiting. -/
  | lineSuffixBoundary
  /-- Breaks every group around it. -/
  | breakParent
  /-- Removes spaces and tabs from the end of the current line. -/
  | trim
  /-- Records the current position of the output. -/
  | cursor
  deriving Inhabited

namespace Doc

/-! ## Builders -/

def nil : Doc := .concat []

/-- A space, or a newline when its group breaks. -/
def space : Doc := .line .normal

/-- Nothing, or a newline when its group breaks. -/
def softline : Doc := .line .soft

/-- A newline that also breaks every group around it. -/
def hardline : Doc := .concat [.line .hard, .breakParent]

/-- A newline without indentation that also breaks every group around it. -/
def literalline : Doc := .concat [.line .literal, .breakParent]

def groupOf (contents : Doc) : Doc := .group contents false none

/-- A group that breaks if `shouldBreak` says so. -/
def groupBreaking (contents : Doc) (shouldBreak : Bool) : Doc := .group contents shouldBreak none

/-- A group that tries `states` in order. Its contents are the first of them. -/
def conditional (states : List Doc) : Doc :=
  .conditionalGroup (states.headD nil) states false none

/-- One of two documents, by the mode of the group around. -/
def choose (broken flat : Doc) : Doc := .ifBreak broken flat none

/-- The documents with `separator` between each two. -/
def join (separator : Doc) (docs : List Doc) : Doc := .concat (docs.intersperse separator)

/-! ## Emptiness -/

mutual

/-- Does the document consist of empty texts only? -/
def isEmpty : Doc → Bool
  | .text s => s.isEmpty
  | .concat parts => allEmpty parts
  | _ => false

def allEmpty : List Doc → Bool
  | [] => true
  | d :: rest => isEmpty d && allEmpty rest

end

/-- Is the document just this text? -/
def isText (d : Doc) (s : String) : Bool :=
  match d with
  | .text t => t == s
  | _ => false

/-! ## Trailing lines -/

/-- A bare hard or literal line, or the mark that goes with one. -/
def isTrailingBreak : Doc → Bool
  | .breakParent => true
  | .line kind => kind.isHard
  | _ => false

mutual

/-- The document without the hard lines at its end. -/
def stripTrailingHardline : Doc → Doc
  | .concat parts => .concat (stripLast parts)
  | d => d

/-- The parts up to the last one that is no break; that one is stripped in turn. -/
def stripLast : List Doc → List Doc
  | [] => []
  | d :: rest =>
    if rest.all isTrailingBreak then
      if isTrailingBreak d then [] else [stripTrailingHardline d]
    else d :: stripLast rest

end

/-! ## Alignment to a column -/

/-- `doc` indented to column `size`, whatever indentation it is printed in: as many whole levels as
fit, then spaces. -/
def alignTo (doc : Doc) (size tabWidth : Nat) : Doc :=
  if size = 0 then doc
  else
    let tabWidth := max tabWidth 1
    let levels := Nat.repeat Doc.indent (size / tabWidth) doc
    .align .dedentToRoot (.align (.spaces (size % tabWidth)) levels)

/-! ## Size -/

mutual

/-- The number of steps that the layout of a document may take: a node costs one step, a part of a
fill one more, and a line suffix one for waiting and one for coming back. -/
def work : Doc → Nat
  | .text _ | .line _ | .breakParent | .trim | .cursor => 1
  | .lineSuffixBoundary => 2
  | .concat parts => 1 + workAll parts
  | .fill parts => 1 + workAll parts + parts.length
  | .group contents _ _ => 1 + work contents
  | .conditionalGroup contents states _ _ => 1 + work contents + workAll states
  | .indent contents | .align _ contents => 1 + work contents
  | .ifBreak broken flat _ => 1 + work broken + work flat
  | .lineSuffix contents => 2 + work contents

def workAll : List Doc → Nat
  | [] => 0
  | d :: rest => work d + workAll rest

end

/-- Every document takes at least one step. -/
theorem one_le_work : ∀ d : Doc, 1 ≤ d.work := by
  intro d
  cases d <;> simp only [work] <;> omega

end Doc

end CodeFormatter
