import CodeFormatter.Text.Slice

/-!
# The output

The text written so far, last character first, so that the end of the current line is at hand. Its
size in bytes is kept beside it: that is where a cursor stands.

**Columns** are counted in machine words. A count that runs over starts again at zero: no text is that
long, but the options may make a tab that wide.
-/

namespace CodeFormatter.Layout

/-- A space or a tab. -/
def isPadding (c : Char) : Bool := c == ' ' || c == '\t'

structure Output where
  /-- The characters, last one first. -/
  backward : List Char
  /-- Their number of bytes. -/
  size : Nat

namespace Output

def empty : Output := { backward := [], size := 0 }

def append (out : Output) (cs : List Char) : Output :=
  { backward := cs.reverse ++ out.backward, size := out.size + byteLength cs }

/-- The number of spaces and tabs at the end. -/
def padding (out : Output) : Nat := (out.backward.takeWhile isPadding).length

/-- Without the spaces and tabs at the end. -/
def trim (out : Output) : Output :=
  { backward := out.backward.dropWhile isPadding, size := out.size - out.padding }

def toString (out : Output) : String := String.ofList out.backward.reverse

end Output

/-- The number of spaces and tabs at the end of `cs` when `before` of them stand in front of it. -/
def paddingAfter (before : Nat) (cs : List Char) : Nat :=
  if cs.all isPadding then before + cs.length else (cs.reverse.takeWhile isPadding).length

/-- The column after `cs`, written from column `column` on. -/
def columnAfterText (column : UInt64) (cs : List Char) : UInt64 :=
  if cs.contains '\n' then .ofNat (cs.reverse.takeWhile (· != '\n')).length
  else column + .ofNat cs.length

end CodeFormatter.Layout
