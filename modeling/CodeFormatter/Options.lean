import CodeFormatter.Error
import CodeFormatter.Layout.Indentation

/-!
# Options

What a user may choose for one text, which values are allowed, and how the options determine the
page that documents are laid out on.
-/

namespace CodeFormatter

/-- Where a list that is broken into lines ends in a comma. -/
inductive TrailingComma where
  | none
  /-- In objects and arrays. -/
  | es5
  /-- In arguments and parameters, too. -/
  | all
  deriving DecidableEq, Repr

namespace TrailingComma

def name : TrailingComma → String
  | .none => "none"
  | .es5 => "es5"
  | .all => "all"

def ofName (s : String) : Except ConfigError TrailingComma :=
  match s with
  | "none" => .ok .none
  | "es5" => .ok .es5
  | "all" => .ok .all
  | other => .error ⟨"trailingComma",
      "expected one of none, es5, all, but received `" ++ other ++ "`"⟩

end TrailingComma

/-- How lines end. -/
inductive EndOfLine where
  /-- As the first line of the text does. -/
  | auto
  | lf
  | crlf
  deriving DecidableEq, Repr

namespace EndOfLine

def name : EndOfLine → String
  | .auto => "auto"
  | .lf => "lf"
  | .crlf => "crlf"

def ofName (s : String) : Except ConfigError EndOfLine :=
  match s with
  | "auto" => .ok .auto
  | "lf" => .ok .lf
  | "crlf" => .ok .crlf
  | other => .error ⟨"endOfLine", "expected one of auto, lf, crlf, but received `" ++ other ++ "`"⟩

end EndOfLine

structure Options where
  printWidth : Nat := 80
  tabWidth : Nat := 2
  useTabs : Bool := false
  semi : Bool := true
  singleQuote : Bool := false
  bracketSpacing : Bool := true
  trailingComma : TrailingComma := .none
  /-- The range to format, in bytes; without an end it goes on to the end of the text. -/
  rangeStart : Nat := 0
  rangeEnd : Option Nat := none
  /-- The position of a cursor that is to be followed. -/
  cursorOffset : Option Nat := none
  requirePragma : Bool := false
  insertPragma : Bool := false
  endOfLine : EndOfLine := .auto
  /-- The name of the language. -/
  parser : Option String := none
  /-- Where the text comes from; its extension stands in for a missing name. -/
  filepath : Option String := none
  deriving DecidableEq, Repr

namespace Options

/-- Are the numbers allowed, alone and together? -/
def validate (o : Options) : Except ConfigError Unit :=
  if o.printWidth = 0 then
    .error ⟨"printWidth", "expected a positive integer, but received `0`"⟩
  else if o.tabWidth = 0 then
    .error ⟨"tabWidth", "expected a positive integer, but received `0`"⟩
  else
    match o.rangeEnd with
    | some stop =>
      if stop < o.rangeStart then
        .error ⟨"rangeStart",
          "range start " ++ toString o.rangeStart ++ " is after range end " ++ toString stop⟩
      else .ok ()
    | none => .ok ()

/-- Is the whole text to be formatted? -/
def formatsWholeFile (o : Options) : Bool := o.rangeStart == 0 && o.rangeEnd.isNone

theorem formatsWholeFile_iff {o : Options} :
    o.formatsWholeFile = true ↔ o.rangeStart = 0 ∧ o.rangeEnd = none := by
  simp [formatsWholeFile]

/-- The last component of a path that names a file. -/
def fileName? (path : String) : Option (List Char) :=
  let components := (path.toList.splitOn '/').filter fun c => c != [] && c != ['.']
  match components.getLast? with
  | some ['.', '.'] => none
  | name => name

/-- The components of a path. Empty ones and single points do not count, but for the first: a path from
the root starts with an empty component. -/
def pathComponents (path : String) : List (List Char) :=
  match path.toList.splitOn '/' with
  | [] | [[]] => []
  | first :: rest => first :: rest.filter fun c => c != [] && c != ['.']

/-- What follows the last point of a file name, if something stands before it. -/
def extension? (name : List Char) : Option String :=
  match name.reverse.span (· != '.') with
  | (_, []) | (_, [_]) => none
  | (after, _ :: _ :: _) => some (String.ofList after.reverse)

def fileExtension (o : Options) : Option String :=
  (o.filepath.bind fileName?).bind extension?

/-- What options are told apart by. Paths of the same components are the same path. -/
structure Key where
  /-- The options without their path. -/
  pathless : Options
  path : Option (List (List Char))
  deriving DecidableEq

def key (o : Options) : Key :=
  { pathless := { o with filepath := none }, path := o.filepath.map pathComponents }

/-- The page for a text. -/
def page (o : Options) (text : String) : Layout.Settings :=
  { width := o.printWidth
    tabWidth := o.tabWidth
    useTabs := o.useTabs
    newline :=
      match o.endOfLine with
      | .lf => "\n"
      | .crlf => "\r\n"
      | .auto => Scan.lineEnding (bytesOf text) }

end Options

end CodeFormatter
