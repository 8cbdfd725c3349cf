import CodeFormatter.Layout.Indentation
import CodeFormatter.Layout.Output

/-!
# Does it fit?

The test behind every choice of the layout: would these documents, followed by what is to be printed
after them, fit on the rest of the line? The test reads on up to the first newline that is certain,
and it takes each later document in the mode it will be printed in.
-/

namespace CodeFormatter.Layout

/-- How the lines of a group are laid out. -/
inductive Mode where
  | broken
  | flat
  deriving DecidableEq, Repr

/-- A document, or what is left of a fill. -/
inductive Item where
  | doc (d : Doc)
  | fillRest (parts : List Doc)

/-- Something to print: in which mode, after which indentation. -/
structure Command where
  indentation : Indentation
  mode : Mode
  item : Item

/-- The groups laid out so far, latest first. -/
abbrev GroupModes := List (GroupId × Mode)

/-- The mode that decides a choice: that of the named group, flat if it has not been printed, or
`mode` if none is named. -/
def choiceMode (modes : GroupModes) (mode : Mode) : Option GroupId → Mode
  | some id => (modes.lookup id).getD .flat
  | none => mode

/-- The next item to measure: from `stack`, and after that from `rest`. -/
def nextItem : List (Mode × Item) → List Command →
    Option (Mode × Item × List (Mode × Item) × List Command)
  | (mode, item) :: stack, rest => some (mode, item, stack, rest)
  | [], c :: rest => some (c.mode, c.item, [], rest)
  | [], [] => none

/-- Do the items of `stack` fit into `width` columns, and the start of `rest` after them? When
`mustBeFlat`, a group that has to break does not fit.

`padding` is the number of spaces and tabs at the end of what has been read; a `trim` gives their
columns back. Each step takes one item. -/
def fits (modes : GroupModes) (mustBeFlat : Bool) :
    Nat → Int → Nat → List (Mode × Item) → List Command → Bool
  | 0, _, _, _, _ => false
  | fuel + 1, width, padding, stack, rest =>
    if width < 0 then false
    else
      match nextItem stack rest with
      | none => true
      | some (mode, .fillRest parts, stack, rest) =>
        fits modes mustBeFlat fuel width padding (parts.map (mode, .doc ·) ++ stack) rest
      | some (mode, .doc d, stack, rest) =>
        match d with
        | .text s =>
          let cs := s.toList
          fits modes mustBeFlat fuel (width - cs.length) (paddingAfter padding cs) stack rest
        | .concat parts | .fill parts =>
          fits modes mustBeFlat fuel width padding (parts.map (mode, .doc ·) ++ stack) rest
        | .indent contents | .align _ contents =>
          fits modes mustBeFlat fuel width padding ((mode, .doc contents) :: stack) rest
        | .trim => fits modes mustBeFlat fuel (width + padding) 0 stack rest
        | .group contents shouldBreak _ | .conditionalGroup contents _ shouldBreak _ =>
          if mustBeFlat && shouldBreak then false
          else
            let mode := if shouldBreak then .broken else mode
            fits modes mustBeFlat fuel width padding ((mode, .doc contents) :: stack) rest
        | .ifBreak broken flat id =>
          let chosen := match choiceMode modes mode id with | .broken => broken | .flat => flat
          fits modes mustBeFlat fuel width padding ((mode, .doc chosen) :: stack) rest
        | .line kind =>
          match mode, kind with
          | .broken, _ | _, .hard | _, .literal => true
          | .flat, .normal => fits modes mustBeFlat fuel (width - 1) (padding + 1) stack rest
          | .flat, .soft => fits modes mustBeFlat fuel width padding stack rest
        | .lineSuffix _ | .lineSuffixBoundary | .breakParent | .cursor =>
          fits modes mustBeFlat fuel width padding stack rest

end CodeFormatter.Layout
