import CodeFormatter.Doc.Breaks
import CodeFormatter.Layout.Fits

/-!
# The layout of a document

A machine with a stack of commands prints a document from left to right. A group is measured once,
when it is reached: if its flat form fits on the rest of the line it is printed flat, otherwise
broken. Line suffixes wait in a queue and are printed before the next newline, or at the end.

**Termination.** `State.work` weighs what is on the stack and what waits in the queue, and every
step makes it smaller. So the work of the document is enough fuel for the whole run.
-/

namespace CodeFormatter.Layout

/-- A printed document, with the positions of its first two cursors. -/
structure Printed where
  formatted : String
  cursor : Option Nat
  cursorEnd : Option Nat
  deriving DecidableEq, Repr

structure State where
  out : Output
  column : UInt64
  /-- Still to be printed, next one first. -/
  commands : List Command
  /-- Line suffixes that wait for the end of the line, first one first. -/
  suffixes : List Command
  modes : GroupModes
  /-- A newline was written inside a flat group, so the groups after it are measured again. -/
  remeasure : Bool
  /-- The positions of the cursors, first one first. -/
  cursors : List Nat

/-- The steps an item may take. -/
def Item.work : Item → Nat
  | .doc d => d.work
  | .fillRest parts => 1 + Doc.workAll parts + parts.length

/-- The steps that these commands may take. -/
def workOf (commands : List Command) : Nat := commands.foldr (fun c n => c.item.work + n) 0

/-- The steps that are left: a waiting suffix takes one to come back. -/
def State.work (st : State) : Nat :=
  workOf st.commands + workOf st.suffixes + st.suffixes.length

namespace State

def start (d : Doc) : State :=
  { out := .empty, column := 0, commands := [⟨.none, .broken, .doc d⟩], suffixes := [], modes := []
    remeasure := false, cursors := [] }

/-- The columns that are left on the line. The width of the page is read as a signed 64-bit number:
a page wider than such numbers reach has no room at all. -/
def remaining (settings : Settings) (st : State) : Int :=
  Int.bmod ((settings.width : Int) - st.column.toNat) UInt64.size

def push (st : State) (indentation : Indentation) (mode : Mode) (d : Doc) : State :=
  { st with commands := ⟨indentation, mode, .doc d⟩ :: st.commands }

/-- Writes text that stands on the current line. -/
def write (st : State) (cs : List Char) : State :=
  { st with out := st.out.append cs, column := columnAfterText st.column cs }

/-- Removes the spaces and tabs at the end of the line; a cursor among them moves back. -/
def trim (st : State) : State :=
  let out := st.out.trim
  { st with
    out
    -- It does not go below zero.
    column := .ofNat (st.column.toNat - st.out.padding)
    cursors := st.cursors.map (min · out.size) }

/-- Puts the waiting suffixes on the stack, first one on top. -/
def release (st : State) : State :=
  { st with commands := st.suffixes ++ st.commands, suffixes := [] }

/-! ## Lines -/

/-- Writes a newline and the indentation after it. -/
def newline (settings : Settings) (st : State) (indentation : Indentation) : LineKind → State
  | .literal =>
    let root := indentation.root.getD .none
    { st with out := st.out.append (settings.newline.toList ++ root.value), column := root.width }
  | _ =>
    let st := st.trim
    { st with
      out := st.out.append (settings.newline.toList ++ indentation.value)
      column := indentation.width }

/-- A line that breaks. Waiting suffixes go first, and the line comes back after them. -/
def breakLine (settings : Settings) (st : State) (indentation : Indentation) (mode : Mode)
    (kind : LineKind) : State :=
  if st.suffixes.isEmpty then st.newline settings indentation kind
  else (st.push indentation mode (.line kind)).release

def printLine (settings : Settings) (st : State) (indentation : Indentation) (mode : Mode)
    (kind : LineKind) : State :=
  match mode, kind with
  | .flat, .normal => { st with out := st.out.append [' '], column := st.column + 1 }
  | .flat, .soft => st
  | .flat, _ => { st with remeasure := true }.breakLine settings indentation mode kind
  | .broken, _ => st.breakLine settings indentation mode kind

/-! ## Groups -/

/-- Does `d`, printed flat, fit on the rest of the line? -/
def fitsFlat (settings : Settings) (fuel : Nat) (st : State) (d : Doc) : Bool :=
  fits st.modes false fuel (st.remaining settings) 0 [(.flat, .doc d)] st.commands

/-- The state of a conditional group that is printed, when its contents do not fit flat. -/
def chooseState (settings : Settings) (fuel : Nat) (st : State) (contents : Doc)
    (states : List Doc) (shouldBreak : Bool) : Mode × Doc :=
  let last := states.getLast?.getD contents
  if shouldBreak then (.broken, last)
  else
    match states.tail.find? (st.fitsFlat settings fuel) with
    | some state => (.flat, state)
    | none => (.broken, last)

/-- Chooses a mode for a group, and for a conditional group a state. -/
def chooseLayout (settings : Settings) (fuel : Nat) (st : State) (contents : Doc)
    (states : Option (List Doc)) (shouldBreak : Bool) : Mode × Doc :=
  if !shouldBreak && st.fitsFlat settings fuel contents then (.flat, contents)
  else
    match states with
    | some states => st.chooseState settings fuel contents states shouldBreak
    | none => (.broken, contents)

def printGroup (settings : Settings) (fuel : Nat) (st : State) (indentation : Indentation)
    (mode : Mode) (contents : Doc) (states : Option (List Doc)) (shouldBreak : Bool)
    (id : Option GroupId) : State :=
  let measured := mode = .broken || st.remeasure
  let st := if measured then { st with remeasure := false } else st
  let (mode, chosen) :=
    if measured then st.chooseLayout settings fuel contents states shouldBreak
    else (if shouldBreak then .broken else .flat, contents)
  let st := st.push indentation mode chosen
  match id with
  | some id => { st with modes := (id, mode) :: st.modes }
  | none => st

/-! ## Fills -/

/-- Do `docs`, printed flat, fit on the rest of the line by themselves? -/
def fitsAlone (settings : Settings) (fuel : Nat) (st : State) (docs : List Doc) : Bool :=
  fits st.modes true fuel (st.remaining settings) 0 (docs.map (.flat, .doc ·)) []

/-- A separator breaks only when the content after it does not fit. -/
def printFill (settings : Settings) (fuel : Nat) (st : State) (indentation : Indentation)
    (mode : Mode) (parts : List Doc) : State :=
  match parts with
  | [] => st
  | content :: rest =>
    let contentMode := if st.fitsAlone settings fuel [content] then .flat else .broken
    match rest with
    | [] => st.push indentation contentMode content
    | [separator] =>
      (st.push indentation contentMode separator).push indentation contentMode content
    | separator :: second :: others =>
      let pairFits := st.fitsAlone settings fuel [content, separator, second]
      let tail : Command := ⟨indentation, mode, .fillRest (second :: others)⟩
      let st := { st with commands := tail :: st.commands }
      (st.push indentation (if pairFits then .flat else .broken) separator).push indentation
        (if pairFits then .flat else contentMode) content

/-! ## Steps -/

def printDoc (settings : Settings) (fuel : Nat) (st : State) (indentation : Indentation)
    (mode : Mode) : Doc → State
  | .text s => st.write s.toList
  | .concat parts =>
    { st with commands := parts.map (⟨indentation, mode, .doc ·⟩) ++ st.commands }
  | .cursor => { st with cursors := st.cursors ++ [st.out.size] }
  | .indent contents => st.push (indentation.indent settings) mode contents
  | .align alignment contents => st.push (indentation.align settings alignment) mode contents
  | .trim => st.trim
  | .group contents shouldBreak id =>
    st.printGroup settings fuel indentation mode contents none shouldBreak id
  | .conditionalGroup contents states shouldBreak id =>
    st.printGroup settings fuel indentation mode contents (some states) shouldBreak id
  | .fill parts => st.printFill settings fuel indentation mode parts
  | .ifBreak broken flat id =>
    st.push indentation mode
      (match choiceMode st.modes mode id with | .broken => broken | .flat => flat)
  | .lineSuffix contents =>
    { st with suffixes := st.suffixes ++ [⟨indentation, mode, .doc contents⟩] }
  | .lineSuffixBoundary =>
    if st.suffixes.isEmpty then st else st.push indentation mode (.line .hard)
  | .breakParent => st
  | .line kind => st.printLine settings indentation mode kind

/-- Prints the next command. When it was the last one, the waiting suffixes follow. -/
def step (settings : Settings) (fuel : Nat) (st : State) : State :=
  match st.commands with
  | [] => st
  | c :: commands =>
    let st := { st with commands }
    let st :=
      match c.item with
      | .fillRest parts => st.printFill settings fuel c.indentation c.mode parts
      | .doc d => st.printDoc settings fuel c.indentation c.mode d
    if st.commands.isEmpty then st.release else st

/-- Prints until nothing is left. A fit test may look at everything that is left and then at the
end, so it gets one step more than there is work. -/
def run (settings : Settings) : Nat → State → State
  | 0, st => st
  | fuel + 1, st =>
    if st.commands.isEmpty then st else run settings fuel (st.step settings (fuel + 2))

def finish (st : State) : Printed :=
  let st := st.trim
  { formatted := st.out.toString, cursor := st.cursors.head?, cursorEnd := st.cursors.tail.head? }

end State

/-- The layout of a document. Breaks are carried to the groups around them first. -/
def print (settings : Settings) (d : Doc) : Printed :=
  let d := d.propagateBreaks
  ((State.start d).run settings d.work).finish

end CodeFormatter.Layout
