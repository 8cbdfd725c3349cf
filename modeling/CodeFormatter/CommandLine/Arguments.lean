import CodeFormatter.Options

/-!
# Arguments

What a user asks for on the command line. Arguments are read from the left, and the first one that
is wrong, or asks for help or for the version, ends the reading.

An option is given as `--name value` or `--name=value`, at most once. A value of its own may not
look like an option. After `--` everything is a path.
-/

namespace CodeFormatter.CommandLine

/-! ## Requests -/

/-- What is to be done with the files. -/
inductive Mode where
  /-- The formatted text is printed. -/
  | print
  /-- Files that change are written. -/
  | write
  /-- Files that would change are listed. -/
  | check
  deriving DecidableEq, Repr

inductive Command where
  /-- Formats files, or what is typed in if there are none. `write` and `check` exclude each
  other. -/
  | format (paths : List String) (write check debugCheck : Bool) (options : Options)
  /-- Shows the document of a file. -/
  | showDoc (path : String) (options : Options)
  /-- Shows the tree of a file. -/
  | showTree (path : String) (parser : Option String)
  deriving DecidableEq, Repr

/-- Why the arguments are not read to their end. -/
inductive Stop where
  | help
  | version
  /-- An argument is unknown, missing, repeated or malformed. -/
  | misuse
  deriving DecidableEq, Repr

/-! ## Values -/

/-- A number of at most 64 bits, perhaps after a plus sign. -/
def size? (s : String) : Option Nat :=
  let digits :=
    match s.toList with
    | '+' :: rest => rest
    | cs => cs
  if digits.isEmpty || !digits.all Char.isDigit then none
  else
    let n := digits.foldl (fun n c => 10 * n + (c.toNat - '0'.toNat)) 0
    if n < UInt64.size then some n else none

/-- An argument by its meaning. -/
inductive Argument where
  | flag (name : String)
  | option (name value : String)
  | path (path : String)
  deriving DecidableEq, Repr

/-- The arguments that a command takes. -/
structure Signature where
  flags : List String
  /-- Options, each with a test of its values. -/
  options : List (String × (String → Bool))
  /-- The largest number of paths, if there is one. -/
  maxPaths : Option Nat

/-- Anything. -/
def isAny (_ : String) : Bool := true

/-- A number. -/
def isSize (s : String) : Bool := (size? s).isSome

/-- The name of a way to use trailing commas. -/
def isTrailingComma (s : String) : Bool := (TrailingComma.ofName s) matches .ok _

/-- The name of a way to end lines. -/
def isEndOfLine (s : String) : Bool := (EndOfLine.ofName s) matches .ok _

/-- Options on the layout. -/
def styleOptions : List (String × (String → Bool)) :=
  [("print-width", isSize), ("tab-width", isSize), ("trailing-comma", isTrailingComma),
    ("end-of-line", isEndOfLine), ("range-start", isSize), ("range-end", isSize),
    ("cursor-offset", isSize), ("parser", isAny)]

/-- Flags on the layout. -/
def styleFlags : List String :=
  ["use-tabs", "no-semi", "single-quote", "no-bracket-spacing", "require-pragma", "insert-pragma"]

/-! ## Reading -/

/-- Was this flag or option given before? -/
def isRepeated (name : String) (before : List Argument) : Bool :=
  before.any fun
    | .flag n | .option n _ => n == name
    | .path _ => false

/-- Does an argument look like an option? A single hyphen does not. -/
def looksLikeOption (s : String) : Bool := s.toList.head? == some '-' && s != "-"

/-- A path, if one more is allowed. -/
def addPath (signature : Signature) (path : String) (before : List Argument) :
    Except Stop (List Argument) :=
  let count := before.countP (· matches .path _)
  if path.isEmpty || signature.maxPaths.any (· ≤ count) then .error .misuse
  else .ok (before ++ [.path path])

/-- A flag. -/
def addFlag (name : String) (before : List Argument) : Except Stop (List Argument) :=
  if isRepeated name before then .error .misuse else .ok (before ++ [.flag name])

/-- An option with its value. -/
def addOption (name value : String) (accepts : String → Bool) (before : List Argument) :
    Except Stop (List Argument) :=
  if isRepeated name before || !accepts value then .error .misuse
  else .ok (before ++ [.option name value])

/-- Flags of one letter each, after a single hyphen. -/
def addLetters (hasVersion : Bool) : List Char → List Argument → Except Stop (List Argument)
  | [], before => .ok before
  | 'v' :: rest, before => do addLetters hasVersion rest (← addFlag "verbose" before)
  | 'h' :: _, _ => .error .help
  | 'V' :: _, _ => .error (if hasVersion then .version else .misuse)
  | _ :: _, _ => .error .misuse

/-- The name of a long option, and its value if it is given with it. -/
def splitValue (cs : List Char) : String × Option String :=
  let name := cs.takeWhile (· != '=')
  match cs.drop name.length with
  | _ :: value => (String.ofList name, some (String.ofList value))
  | [] => (String.ofList name, none)

/-- What has been read. -/
structure Progress where
  arguments : List Argument
  /-- An option that waits for its value, with the test of it. -/
  waiting : Option (String × (String → Bool))
  /-- Only paths follow. -/
  pathsOnly : Bool

/-- Goes on with more arguments. -/
def Progress.with (p : Progress) (arguments : Except Stop (List Argument)) : Except Stop Progress :=
  (fun arguments => { p with arguments, waiting := none }) <$> arguments

/-- An argument that starts with two hyphens. -/
def readLong (signature : Signature) (p : Progress) (cs : List Char) : Except Stop Progress :=
  match splitValue cs with
  | ("help", none) => .error .help
  | (name, value) =>
    if name == "verbose" || signature.flags.contains name then
      if value.isSome then .error .misuse else p.with (addFlag name p.arguments)
    else
      match signature.options.lookup name, value with
      | some accepts, some value => p.with (addOption name value accepts p.arguments)
      | some accepts, none => .ok { p with waiting := some (name, accepts) }
      | none, _ => .error .misuse

/-- One argument. -/
def readArgument (signature : Signature) (p : Progress) (arg : String) : Except Stop Progress :=
  if p.pathsOnly then p.with (addPath signature arg p.arguments)
  else
    match p.waiting with
    | some (name, accepts) =>
      if looksLikeOption arg then .error .misuse
      else p.with (addOption name arg accepts p.arguments)
    | none =>
      match arg.toList with
      | ['-', '-'] => .ok { p with pathsOnly := true }
      | '-' :: '-' :: cs => readLong signature p cs
      | '-' :: c :: cs => p.with (addLetters false (c :: cs) p.arguments)
      | _ => p.with (addPath signature arg p.arguments)

/-- The arguments of a command. -/
def readArguments (signature : Signature) (args : List String) :
    Except Stop (List Argument) := do
  let p ← args.foldlM (readArgument signature) ⟨[], none, false⟩
  if p.waiting.isSome then throw .misuse else return p.arguments

/-! ## Commands -/

/-- Is a flag among the arguments? -/
def hasFlag (arguments : List Argument) (name : String) : Bool :=
  arguments.contains (.flag name)

/-- The value of an option among the arguments. -/
def value? (arguments : List Argument) (name : String) : Option String :=
  arguments.findSome? fun
    | .option n value => if n == name then some value else none
    | _ => none

/-- The paths among the arguments. -/
def paths (arguments : List Argument) : List String :=
  arguments.filterMap fun
    | .path p => some p
    | _ => none

/-- The options that the arguments on the layout stand for. -/
def styleOf (arguments : List Argument) : Options :=
  let size (name : String) : Option Nat := (value? arguments name).bind size?
  let named {α ε : Type} (ofName : String → Except ε α) (name : String) (default : α) : α :=
    ((value? arguments name).bind fun s => (ofName s).toOption).getD default
  { printWidth := (size "print-width").getD 80
    tabWidth := (size "tab-width").getD 2
    useTabs := hasFlag arguments "use-tabs"
    semi := !hasFlag arguments "no-semi"
    singleQuote := hasFlag arguments "single-quote"
    bracketSpacing := !hasFlag arguments "no-bracket-spacing"
    trailingComma := named TrailingComma.ofName "trailing-comma" .none
    rangeStart := (size "range-start").getD 0
    rangeEnd := size "range-end"
    cursorOffset := size "cursor-offset"
    requirePragma := hasFlag arguments "require-pragma"
    insertPragma := hasFlag arguments "insert-pragma"
    endOfLine := named EndOfLine.ofName "end-of-line" .auto
    parser := value? arguments "parser" }

/-- The command for formatting. -/
def readFormat (args : List String) : Except Stop Command := do
  let signature : Signature :=
    { flags := ["write", "check", "debug-check"] ++ styleFlags
      options := styleOptions
      maxPaths := none }
  let arguments ← readArguments signature args
  return .format (paths arguments) (hasFlag arguments "write") (hasFlag arguments "check")
    (hasFlag arguments "debug-check") (styleOf arguments)

/-- A command on a single file. -/
def readSingle (flags : List String) (options : List (String × (String → Bool)))
    (command : String → List Argument → Command) (args : List String) : Except Stop Command := do
  let arguments ← readArguments { flags, options, maxPaths := some 1 } args
  match paths arguments with
  | [path] => return command path arguments
  | _ => throw .misuse

/-- The command that all arguments stand for. -/
def readCommand (args : List String) (before : List Argument) : Except Stop Command :=
  match args with
  | [] => .error .misuse
  | "fmt" :: rest => readFormat rest
  | "doc" :: rest =>
    readSingle styleFlags styleOptions (fun path arguments => .showDoc path (styleOf arguments)) rest
  | "tree" :: rest =>
    readSingle [] [("parser", isAny)]
      (fun path arguments => .showTree path (value? arguments "parser")) rest
  | "help" :: _ | "--help" :: _ => .error .help
  | "--version" :: _ => .error .version
  | "--verbose" :: rest => do readCommand rest (← addFlag "verbose" before)
  | arg :: rest =>
    match arg.toList with
    | '-' :: c :: cs =>
      if c == '-' then .error .misuse
      else do readCommand rest (← addLetters true (c :: cs) before)
    | _ => .error .misuse

/-- The command that all arguments stand for. -/
def Command.ofArguments (args : List String) : Except Stop Command := readCommand args []

end CodeFormatter.CommandLine
