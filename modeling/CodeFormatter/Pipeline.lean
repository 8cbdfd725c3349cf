import CodeFormatter.Comment.Attach
import CodeFormatter.Layout.Printer
import CodeFormatter.Range
import CodeFormatter.Tree.Dump
import CodeFormatter.Walk

/-!
# Formatting one text

The way of a text in one language: a byte-order mark is set aside, a pragma may be required or put
in, the text is parsed, its comments get their owners, its tree is printed and laid out. Every
comment has to be in the output, and the cursor is carried over.

**Ranges.** A range is formatted on its own, as a text that starts at the column of its first line,
and put back into the untouched text around it.
-/

namespace CodeFormatter

/-- A formatted text, and where the cursor has gone. -/
structure Formatted where
  formatted : String
  cursorOffset : Option Nat
  deriving DecidableEq, Repr

/-- The document of a text in any language, as `Scene.embedded`. -/
abbrev Embedding := String → Options → GroupId → Except Error (Doc × GroupId)

/-- The mark that some texts start with. It takes three bytes. -/
def byteOrderMark : Char := '\uFEFF'

namespace Pipeline

variable {α : Type}

def startsWithMark (text : String) : Bool := text.toList.head? == some byteOrderMark

def stripMark (text : String) : String :=
  if startsWithMark text then String.ofList text.toList.tail else text

/-- `text` after a mark, if there was one. -/
def restoreMark (marked : Bool) (text : String) : String :=
  if marked then String.ofList (byteOrderMark :: text.toList) else text

/-- Fails if a comment is missing from the output. -/
def ensureAllPrinted (cs : Comments) : Except Error Unit :=
  match cs.firstUnprinted? with
  | some c => .error (.commentNotPrinted (trim c.text))
  | none => .ok ()

/-- The comments of a parsed text with their owners. -/
def attached (language : Language α) (text : String) (parsed : Parsed α) : Comments :=
  Attach.attach language parsed.tree text (Comments.ofList parsed.comments)

/-! ## Documents -/

/-- The document of a text without a byte-order mark. -/
def docOfText (language : Language α) (embedding : Embedding) (options : Options) (text : String)
    (lastGroup : GroupId) : Except Error (Doc × GroupId) := do
  let text := language.preprocess options text
  let parsed ← language.parse options text
  let scene : Scene :=
    { language := language.name, text, bytes := bytesOf text, options, cursorNode := none
      embedded := embedding }
  let (doc, st) ← (printTree language scene parsed.tree 0).run
    { comments := attached language text parsed, lastGroup }
  ensureAllPrinted st.comments
  return (doc, st.lastGroup)

def cleanTree (language : Language α) (options : Options) (text : String) :
    Except Error CleanTree := do
  let text := language.preprocess options (stripMark text)
  (← language.parse options text).tree.clean language text

def dumpTree (language : Language α) (options : Options) (text : String) :
    Except Error String := do
  let text := language.preprocess options (stripMark text)
  (← language.parse options text).tree.dump language text

/-! ## Texts -/

/-- A text that is ready to be parsed. -/
structure Job where
  /-- Was there a byte-order mark? -/
  marked : Bool
  options : Options
  text : String

/-- Sets the byte-order mark aside, with it the three bytes it takes from every position. -/
def unmark (options : Options) (text : String) : Job :=
  if startsWithMark text then
    { marked := true
      options :=
        { options with
          rangeStart := options.rangeStart - 3
          rangeEnd := options.rangeEnd.map (· - 3)
          cursorOffset := options.cursorOffset.map (· - 3) }
      text := stripMark text }
  else { marked := false, options, text }

/-- Puts a pragma in if the options ask for one; a cursor moves on by what the text has grown. -/
def addPragma (language : Language α) (job : Job) : Except Error Job := do
  if job.options.insertPragma && !language.hasPragma job.text && job.options.formatsWholeFile then
    let text ← language.insertPragma job.text
    let added := text.utf8ByteSize - job.text.utf8ByteSize
    return { job with
      options := { job.options with cursorOffset := job.options.cursorOffset.map (· + added) }
      text }
  else return job

/-- Ready to be parsed. -/
def prepare (language : Language α) (options : Options) (text : String) : Except Error Job := do
  let job ← addPragma language (unmark options text)
  return { job with text := language.preprocess job.options job.text }

/-- The node at the cursor, and how far the cursor is from its start. -/
def cursorTarget (options : Options) (tree : Tree α) : Option (Nat × Nat) :=
  options.cursorOffset.bind fun offset =>
    (tree.find? offset fun _ => true).map fun found =>
      (found.node.id, offset - found.node.start)

/-- Where the cursor goes: as far behind the start of its node as it was, but not past its end. -/
def mapCursor (target : Option (Nat × Nat)) (printed : Layout.Printed) : Option Nat :=
  match target, printed.cursor with
  | some (_, distance), some start =>
    some (match printed.cursorEnd with
      | some stop => min (start + distance) stop
      | none => start + distance)
  | _, _ => none

/-- Prints a parsed text. At a column other than zero, it is given back without white space around
it, and without a cursor. -/
def printParsed (language : Language α) (embedding : Embedding) (job : Job) (parsed : Parsed α)
    (alignment : Nat) : Except Error Formatted := do
  let target := cursorTarget job.options parsed.tree
  let scene : Scene :=
    { language := language.name, text := job.text, bytes := bytesOf job.text
      options := job.options, cursorNode := target.map (·.1), embedded := embedding }
  let (doc, st) ← (printTree language scene parsed.tree alignment).run
    { comments := attached language job.text parsed, lastGroup := 0 }
  let page := job.options.page job.text
  let printed := Layout.print page doc
  ensureAllPrinted st.comments
  if 0 < alignment then
    return { formatted := trim printed.formatted ++ page.newline, cursorOffset := none }
  else
    return {
      formatted := restoreMark job.marked printed.formatted
      cursorOffset := (mapCursor target printed).map fun c => if job.marked then c + 3 else c }

/-- Formats the slice of a range at its column. -/
def formatSlice (language : Language α) (embedding : Embedding) (options : Options)
    (text : String) (alignment : Nat) : Except Error Formatted := do
  let job ← prepare language options text
  let parsed ← language.parse job.options job.text
  printParsed language embedding job parsed alignment

/-- The options for a slice at a column: what is left of the page, and the whole slice. -/
def sliceOptions (options : Options) (alignment : Nat) : Options :=
  { options with
    printWidth := options.printWidth - alignment
    rangeStart := 0
    rangeEnd := none
    cursorOffset := none
    requirePragma := false
    insertPragma := false }

/-- Formats the nodes of a range and leaves the text around them as it is. Nothing when the range is
the whole text. -/
def formatRange (language : Language α) (embedding : Embedding) (job : Job) (tree : Tree α) :
    Except Error (Option String) := do
  let text := job.text
  let size := text.utf8ByteSize
  let rangeEnd := min (job.options.rangeEnd.getD size) size
  if job.options.rangeStart = 0 && rangeEnd = size then return none
  match Range.widen? language.isSourceElement tree text job.options.rangeStart rangeEnd with
  | none => return some text
  | some (start, stop) =>
    let before ← sliceOrError text 0 start
    let line := (before.toList.reverse.takeWhile (· != '\n')).reverse
    let alignment := Scan.columnAfter job.options.tabWidth line
    let slice ← sliceOrError text start stop
    let formatted ← formatSlice language embedding (sliceOptions job.options alignment) slice alignment
    let after ← sliceOrError text stop size
    return some (before ++ trimEnd formatted.formatted ++ after)

/-- Formats a text, or a range of it. -/
def formatText (language : Language α) (embedding : Embedding) (options : Options)
    (text : String) : Except Error Formatted := do
  if options.requirePragma && !language.hasPragma (stripMark text) then
    return { formatted := text, cursorOffset := none }
  let job ← prepare language options text
  let parsed ← language.parse job.options job.text
  match ← formatRange language embedding job parsed.tree with
  | some formatted => return { formatted := restoreMark job.marked formatted, cursorOffset := none }
  | none => printParsed language embedding job parsed 0

end Pipeline

end CodeFormatter
