import CodeFormatter.Doc.Dump
import CodeFormatter.Formatter
import CodeFormatter.CommandLine.Arguments
import CodeFormatter.CommandLine.Files

/-!
# Running a command

What a command prints, which files it changes and how it ends. Files are processed in the order in
which they are given; one that fails does not keep the others from being processed.
-/

namespace CodeFormatter.CommandLine

/-- What a command leaves behind. -/
structure Outcome where
  code : Nat
  stdout : String
  stderr : String
  files : Files

/-! ## Failures -/

/-- A message, and the messages of what caused the failure, outermost first. -/
structure Failure where
  message : String
  causes : List String

namespace Failure

def ofError (e : Error) : Failure :=
  ⟨e.messages.headD e.message, e.messages.tail⟩

/-- A failure inside of something that is told by `message`. -/
def within (message : String) (failure : Failure) : Failure :=
  ⟨message, failure.message :: failure.causes⟩

/-- All messages on one line. -/
def inline (failure : Failure) : String :=
  String.intercalate ": " (failure.message :: failure.causes)

/-- A message of several lines, with `first` before its first line and `further` before the
others. -/
def indented (first further message : String) : String :=
  first ++ String.intercalate ("\n" ++ further)
    ((message.toList.splitOn '\n').map String.ofList)

/-- The causes, one below the other; several are numbered. -/
def explainedCauses (causes : List String) : List String :=
  match causes with
  | [cause] => [indented "    " "    " cause]
  | _ => causes.zipIdx.map fun (cause, n) =>
    let number := toString n
    let padding := String.ofList (List.replicate (5 - number.length) ' ')
    indented (padding ++ number ++ ": ") "       " cause

/-- All messages, as the last words of a command. -/
def explained (failure : Failure) : String :=
  let causes :=
    if failure.causes.isEmpty then ""
    else "\n\nCaused by:\n" ++ String.intercalate "\n" (explainedCauses failure.causes)
  "Error: " ++ failure.message ++ causes ++ "\n"

end Failure

/-! ## Files -/

def readFile (files : Files) (path : String) : Except Failure String :=
  match files.read path with
  | .ok contents => .ok contents
  | .error e => .error ⟨"failed to read " ++ path, [e.message]⟩

/-- The formatted text, and the cursor if it was followed. -/
def formatContents (f : Formatter) (contents : String) (options : Options) (debugCheck : Bool) :
    Except Error (String × Option Nat) :=
  if debugCheck then (·, none) <$> f.debugCheck contents options
  else (fun r => (r.formatted, r.cursorOffset)) <$> f.formatWithCursor contents options

/-- What came of a file: its formatted text and whether it differs from what the file holds. -/
structure Formatting where
  formatted : String
  cursor : Option Nat
  changed : Bool

/-- Formats a file without touching it. -/
def formatFile (f : Formatter) (options : Options) (debugCheck : Bool) (files : Files)
    (path : String) : Except Failure Formatting := do
  let contents ← readFile files path
  match formatContents f contents { options with filepath := some path } debugCheck with
  | .ok (formatted, cursor) => return { formatted, cursor, changed := formatted != contents }
  | .error e => throw ((Failure.ofError e).within ("failed to format " ++ path))

/-- A file with what came of it. -/
structure Report where
  path : String
  result : Except Failure Formatting

/-- The files after one of them has been processed. -/
def settle (mode : Mode) (files : Files) (report : Report) : Files :=
  match mode, report.result with
  | .write, .ok r => if r.changed then files.write report.path (.ofText r.formatted) else files
  | _, _ => files

/-- Processes the files at all paths, one after the other. -/
def processAll (f : Formatter) (options : Options) (mode : Mode) (debugCheck : Bool) :
    Files → List String → List Report × Files
  | files, [] => ([], files)
  | files, path :: rest =>
    let report : Report := ⟨path, formatFile f options debugCheck files path⟩
    let (reports, files) := processAll f options mode debugCheck (settle mode files report) rest
    (report :: reports, files)

/-- What is printed for a file. -/
def Report.output (mode : Mode) (report : Report) : String :=
  match report.result with
  | .error _ => ""
  | .ok r =>
    match mode with
    | .print => "===== " ++ report.path ++ " =====\n" ++ r.formatted
    | .check => if r.changed then report.path ++ "\n" else ""
    | .write => ""

/-- Where the cursor of a file has gone. -/
def Report.note (mode : Mode) (report : Report) : String :=
  match mode, report.result with
  | .print, .ok r =>
    r.cursor.elim "" fun cursor => report.path ++ ": cursor at " ++ toString cursor ++ "\n"
  | _, _ => ""

/-- Why a file could not be formatted. -/
def Report.complaint (report : Report) : String :=
  match report.result with
  | .error failure => failure.inline ++ "\n"
  | .ok _ => ""

/-- Does a file make the command fail? -/
def Report.fails (mode : Mode) (report : Report) : Bool :=
  match report.result with
  | .error _ => true
  | .ok r => mode = .check && r.changed

/-! ## Commands -/

/-- A command that ends at once. -/
def failed (files : Files) (failure : Failure) : Outcome :=
  { code := 1, stdout := "", stderr := failure.explained, files }

/-- A command that ends well. -/
def succeeded (files : Files) (stdout : String) : Outcome :=
  { code := 0, stdout, stderr := "", files }

def formatFiles (f : Formatter) (files : Files) (paths : List String) (mode : Mode)
    (debugCheck : Bool) (options : Options) : Outcome :=
  let (reports, files) := processAll f options mode debugCheck files paths
  { code := if reports.any (·.fails mode) then 1 else 0
    stdout := String.join (reports.map (·.output mode))
    stderr := String.join (reports.map (·.note mode)) ++ String.join (reports.map (·.complaint))
    files }

/-- Formats what is typed in. -/
def formatInput (f : Formatter) (input : String) (files : Files) (mode : Mode)
    (debugCheck : Bool) (options : Options) : Outcome :=
  match formatContents f input options debugCheck with
  | .error e => failed files (.ofError e)
  | .ok (formatted, cursor) =>
    if mode = .print then
      { code := 0
        stdout := formatted
        stderr := cursor.elim "" fun cursor => "cursor: " ++ toString cursor ++ "\n"
        files }
    else { code := if formatted != input then 1 else 0, stdout := "", stderr := "", files }

/-- The document or the tree of a file. -/
def display (files : Files) (path purpose : String) (make : String → Except Error String) :
    Outcome :=
  match readFile files path with
  | .error failure => failed files failure
  | .ok contents =>
    match make contents with
    | .ok shown => succeeded files shown
    | .error e => failed files ((Failure.ofError e).within ("failed to " ++ purpose ++ path))

/-- Formats files or what is typed in. -/
def runFormat (f : Formatter) (input : String) (files : Files) (paths : List String)
    (write check debugCheck : Bool) (options : Options) : Outcome :=
  if write && check then failed files ⟨"--write and --check are mutually exclusive", []⟩
  else
    let mode := if write then .write else if check then .check else .print
    if paths.isEmpty then
      if mode = .write then failed files ⟨"--write needs at least one file", []⟩
      else formatInput f input files mode debugCheck options
    else formatFiles f files paths mode debugCheck options

/-- Runs a command. -/
def Command.run (f : Formatter) (input : String) (files : Files) : Command → Outcome
  | .format paths write check debugCheck options =>
    runFormat f input files paths write check debugCheck options
  | .showDoc path options =>
    display files path "build the doc of " fun contents =>
      (fun doc => doc.dump ++ "\n") <$> f.docOf contents { options with filepath := some path }
  | .showTree path parser =>
    display files path "parse " fun contents =>
      f.dumpTree contents { parser, filepath := some path }

/-- The name and the version of the program. -/
def versionText : String := "docfmt 0.1.0\n"

def helpText : String :=
  "Doc-based code formatter\n\n" ++
  "Usage: docfmt [OPTIONS] <COMMAND>\n\n" ++
  "Commands:\n" ++
  "  fmt   \n" ++
  "  doc   Print the Doc built for a file\n" ++
  "  tree  Print the syntax tree of a file\n" ++
  "  help  Print this message or the help of the given subcommand(s)\n\n" ++
  "Options:\n" ++
  "  -v, --verbose  Log pipeline stages (overridden by RUST_LOG)\n" ++
  "  -h, --help     Print help\n" ++
  "  -V, --version  Print version\n"

def usageText : String :=
  "error: the arguments are not understood\n\n" ++
  "Usage: docfmt [OPTIONS] <COMMAND>\n\n" ++
  "For more information, try '--help'.\n"

/-- Runs the command that the arguments stand for. -/
def run (f : Formatter) (args : List String) (input : String) (files : Files) : Outcome :=
  match Command.ofArguments args with
  | .ok command => command.run f input files
  | .error .help => succeeded files helpText
  | .error .version => succeeded files versionText
  | .error .misuse => { code := 2, stdout := "", stderr := usageText, files }

end CodeFormatter.CommandLine
