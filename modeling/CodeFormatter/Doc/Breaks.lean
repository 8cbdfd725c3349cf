import CodeFormatter.Doc.Basic

/-!
# Breaks that reach outward

A `breakParent` breaks every group around it, up to the nearest conditional group: such a group
chooses its state itself, so a break inside passes it only if its builder marked it.

`propagateBreaks` marks the groups and tells whether a break leaves the document. `willBreak` is the
coarser question whether printing must write a newline; it looks into conditional groups, too.
-/

namespace CodeFormatter.Doc

mutual

/-- Must the layout of the document hold a newline? -/
def willBreak : Doc → Bool
  | .breakParent => true
  | .line kind => kind.isHard
  | .group contents shouldBreak _ => shouldBreak || willBreak contents
  | .conditionalGroup contents states shouldBreak _ =>
    shouldBreak || willBreak contents || anyWillBreak states
  | .concat parts | .fill parts => anyWillBreak parts
  | .indent contents | .align _ contents | .lineSuffix contents => willBreak contents
  | .ifBreak broken flat _ => willBreak broken || willBreak flat
  | .text _ | .lineSuffixBoundary | .trim | .cursor => false

def anyWillBreak : List Doc → Bool
  | [] => false
  | d :: rest => willBreak d || anyWillBreak rest

end

mutual

/-- The document with every group marked that holds a break, and whether a break leaves it. -/
def propagate : Doc → Doc × Bool
  | .breakParent => (.breakParent, true)
  | .concat parts =>
    let (parts, found) := propagateAll parts
    (.concat parts, found)
  | .fill parts =>
    let (parts, found) := propagateAll parts
    (.fill parts, found)
  | .group contents shouldBreak id =>
    let (contents, found) := propagate contents
    (.group contents (shouldBreak || found) id, shouldBreak || found)
  | .conditionalGroup contents states shouldBreak id =>
    (.conditionalGroup (propagate contents).1 (propagateAll states).1 shouldBreak id, shouldBreak)
  | .indent contents =>
    let (contents, found) := propagate contents
    (.indent contents, found)
  | .align alignment contents =>
    let (contents, found) := propagate contents
    (.align alignment contents, found)
  | .lineSuffix contents =>
    let (contents, found) := propagate contents
    (.lineSuffix contents, found)
  | .ifBreak broken flat id =>
    let (broken, inBroken) := propagate broken
    let (flat, inFlat) := propagate flat
    (.ifBreak broken flat id, inBroken || inFlat)
  | .text s => (.text s, false)
  | .line kind => (.line kind, false)
  | .lineSuffixBoundary => (.lineSuffixBoundary, false)
  | .trim => (.trim, false)
  | .cursor => (.cursor, false)

def propagateAll : List Doc → List Doc × Bool
  | [] => ([], false)
  | d :: rest =>
    let (d, found) := propagate d
    let (rest, foundLater) := propagateAll rest
    (d :: rest, found || foundLater)

end

/-- The document with every group marked that holds a break. -/
def propagateBreaks (d : Doc) : Doc := (propagate d).1

end CodeFormatter.Doc
