import CodeFormatter.Doc.Basic

/-!
# Indentation

What stands at the start of a line. An indentation is the sequence of changes that lead to it, and
`Indentation.ofQueue` computes its text and width from that sequence alone.

**Tabs.** When lines are indented with tabs, an alignment that is followed by a further level
becomes one tab; only the alignments at the end stay spaces.
-/

namespace CodeFormatter.Layout

/-- The measures of the page. -/
structure Settings where
  width : Nat
  tabWidth : Nat
  useTabs : Bool
  newline : String
  deriving Repr, DecidableEq

/-- The usual page, `width` columns wide. -/
def Settings.ofWidth (width : Nat) : Settings :=
  { width, tabWidth := 2, useTabs := false, newline := "\n" }

/-- One change of the indentation. -/
inductive IndentPart where
  | level
  | spaces (n : Nat)
  | text (s : String)
  deriving DecidableEq, Repr

/-- An indentation: its text, its width in columns, which is counted in a machine word, the changes that
lead to it, outermost first, and the indentation that was marked as root. -/
structure Indentation where
  value : List Char
  width : UInt64
  queue : List IndentPart
  root : Option Indentation

namespace Indentation

/-- No indentation. -/
def none : Indentation := { value := [], width := 0, queue := [], root := Option.none }

/-- An indentation under construction: what is written, its width, and the alignments that still
wait, by their number and by their sum. -/
structure Draft where
  value : List Char
  width : UInt64
  pending : Nat
  pendingSpaces : Nat

namespace Draft

def empty : Draft := { value := [], width := 0, pending := 0, pendingSpaces := 0 }

/-- Writes the waiting alignments: as one tab each, or as spaces. -/
def flush (settings : Settings) (d : Draft) : Draft :=
  if settings.useTabs && 0 < d.pending then
    { value := d.value ++ List.replicate d.pending '\t'
      width := d.width + .ofNat (settings.tabWidth * d.pending)
      pending := 0, pendingSpaces := 0 }
  else
    { value := d.value ++ List.replicate d.pendingSpaces ' '
      width := d.width + .ofNat d.pendingSpaces
      pending := 0, pendingSpaces := 0 }

def add (settings : Settings) (d : Draft) : IndentPart → Draft
  | .level =>
    let d := d.flush settings
    let level := if settings.useTabs then ['\t'] else List.replicate settings.tabWidth ' '
    { d with value := d.value ++ level, width := d.width + .ofNat settings.tabWidth }
  | .text s =>
    let d := d.flush settings
    { d with value := d.value ++ s.toList, width := d.width + .ofNat s.length }
  | .spaces n => { d with pending := d.pending + 1, pendingSpaces := d.pendingSpaces + n }

end Draft

/-- The indentation that a sequence of changes leads to. -/
def ofQueue (settings : Settings) (queue : List IndentPart) (root : Option Indentation) :
    Indentation :=
  let d := queue.foldl (Draft.add settings) Draft.empty
  { value := d.value ++ List.replicate d.pendingSpaces ' '
    width := d.width + .ofNat d.pendingSpaces
    queue, root }

/-- One change more. -/
def push (settings : Settings) (i : Indentation) (part : IndentPart) : Indentation :=
  ofQueue settings (i.queue ++ [part]) i.root

/-- One level deeper. -/
def indent (settings : Settings) (i : Indentation) : Indentation := i.push settings .level

def align (settings : Settings) (i : Indentation) : Alignment → Indentation
  | .spaces 0 => i
  | .spaces n => i.push settings (.spaces n)
  | .text s => if s.isEmpty then i else i.push settings (.text s)
  | .dedent => ofQueue settings i.queue.dropLast i.root
  | .dedentToRoot => i.root.getD none
  | .root => { i with root := some i }

end Indentation

end CodeFormatter.Layout
