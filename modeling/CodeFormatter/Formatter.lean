import CodeFormatter.Cache
import CodeFormatter.Pipeline

/-!
# The formatter

A formatter knows a number of languages and formats texts in any of them. The language is named by
the options, or found by the extension of the file.

**Normalized options** are remembered under the key of the options: `resolve` reads what is remembered,
and `remember` adds to it. Nothing is forgotten before the cache is cleared.
-/

namespace CodeFormatter

/-- A language as a formatter sees it: what can be done with a text, whatever its trees hold. -/
structure Registered where
  name : String
  extensions : List String
  nesting : Nat
  format : Embedding → Options → String → Except Error Formatted
  docOf : Embedding → Options → String → GroupId → Except Error (Doc × GroupId)
  cleanTree : Options → String → Except Error CleanTree
  dumpTree : Options → String → Except Error String

/-- The formatter's view of a language. -/
def Registered.ofLanguage {α : Type} (l : Language α) : Registered :=
  { name := l.name
    extensions := l.extensions
    nesting := l.nesting
    format := Pipeline.formatText l
    docOf := Pipeline.docOfText l
    cleanTree := Pipeline.cleanTree l
    dumpTree := Pipeline.dumpTree l }

structure Formatter where
  languages : List Registered
  /-- Options that were normalized before. -/
  normalized : Cache Options.Key Options

namespace Formatter

/-- A formatter for these languages. -/
def ofLanguages (languages : List Registered) : Formatter :=
  { languages, normalized := .empty }

/-- One language more. -/
def withLanguage (f : Formatter) (l : Registered) : Formatter :=
  { f with languages := f.languages ++ [l] }

def languageNames (f : Formatter) : List String := f.languages.map (·.name)

/-! ## Options -/

/-- The first language for files with this extension. -/
def inferParser (f : Formatter) (options : Options) : Option String := do
  let extension ← options.fileExtension
  let l ← f.languages.find? fun l => l.extensions.contains extension
  return l.name

/-- Valid options, with the name of the language if the file tells it. -/
def computeNormalized (f : Formatter) (options : Options) : Except Error Options :=
  match options.validate with
  | .error e => .error (.config e)
  | .ok () =>
    .ok { options with parser := options.parser.orElse fun _ => f.inferParser options }

/-- Normalizes options, and remembers the outcome. -/
def normalize (f : Formatter) (options : Options) : Except Error Options × Formatter :=
  let resolved := f.normalized.resolve options.key fun _ => f.computeNormalized options
  (resolved.answer, { f with normalized := resolved.cache })

/-- The normalized options. -/
def resolve (f : Formatter) (options : Options) : Except Error Options := (f.normalize options).1

/-- The formatter after these options have been normalized. -/
def remember (f : Formatter) (options : Options) : Formatter := (f.normalize options).2

/-- Forgets the options that were normalized. -/
def clearCache (f : Formatter) : Formatter := { f with normalized := .empty }

/-- The language that normalized options name. -/
def languageFor (f : Formatter) (options : Options) : Except Error Registered :=
  match options.parser with
  | none => .error (.config
      ⟨"parser", "no parser given and none could be inferred from the file path"⟩)
  | some name =>
    match f.languages.find? fun l => l.name == name with
    | some l => .ok l
    | none => .error (.config ⟨"parser", "unknown parser `" ++ name ++ "`"⟩)

/-! ## Embedded texts -/

/-- The document of an embedded text, in which at most `depth - 1` further ones are nested. -/
def embedding (f : Formatter) : Nat → Embedding
  | 0, _, _, _ => .error .nestedTooDeep
  | depth + 1, text, options, lastGroup => do
    let options ← f.resolve options
    let l ← f.languageFor options
    l.docOf (embedding f depth) options text lastGroup

/-- How deep texts can nest in `text`: an embedded text is part of its host, and so shorter, unless
a language brings it along. A byte-order mark is no part of it. -/
def nesting (f : Formatter) (text : String) : Nat :=
  f.languages.foldr (fun l n => l.nesting + n) (Pipeline.stripMark text).utf8ByteSize

/-! ## Formatting -/

/-- The normalized options and the language they name. -/
def select (f : Formatter) (options : Options) : Except Error (Options × Registered) := do
  let options ← f.resolve options
  let l ← f.languageFor options
  return (options, l)

def formatWith (f : Formatter) (l : Registered) (options : Options) (text : String) :
    Except Error Formatted :=
  l.format (f.embedding (f.nesting text)) options text

/-- Formats a text and follows its cursor. -/
def formatWithCursor (f : Formatter) (text : String) (options : Options) :
    Except Error Formatted := do
  let (options, l) ← f.select options
  f.formatWith l options text

def format (f : Formatter) (text : String) (options : Options) : Except Error String :=
  (·.formatted) <$> f.formatWithCursor text options

/-- Is the text formatted already? A text that cannot be formatted is not. -/
def check (f : Formatter) (text : String) (options : Options) : Bool :=
  match f.format text options with
  | .ok formatted => formatted == text
  | .error _ => false

/-- The document that is printed for a text. -/
def docOf (f : Formatter) (text : String) (options : Options) : Except Error Doc := do
  let (options, l) ← f.select options
  let (doc, _) ← l.docOf (f.embedding (f.nesting text)) options (Pipeline.stripMark text) 0
  return doc

/-- Lays a document out on the page of the options. -/
def printDoc (f : Formatter) (doc : Doc) (options : Options) : Except Error Layout.Printed := do
  let options ← f.resolve options
  return Layout.print (options.page "") doc

/-- Formats a text twice, and compares its tree with that of the outcome. -/
def debugCheck (f : Formatter) (text : String) (options : Options) : Except Error String := do
  let options ← f.resolve options
  let options := { options with rangeStart := 0, rangeEnd := none, cursorOffset := none }
  let l ← f.languageFor options
  let first := (← f.formatWith l options text).formatted
  let second := (← f.formatWith l options first).formatted
  if first != second then throw (.notIdempotent first second)
  let before ← l.cleanTree options text
  let after ← l.cleanTree options first
  if before != after then throw (.treeChanged before.render after.render)
  return first

/-- The dump of the tree of a text. -/
def dumpTree (f : Formatter) (text : String) (options : Options) : Except Error String := do
  let (options, l) ← f.select options
  l.dumpTree options text

/-- Formats a text again and again, at most `limit` times, until it does not change or an error
occurs. -/
def iterate (f : Formatter) (options : Options) : Nat → String → List (Except Error String)
  | 0, _ => []
  | limit + 1, text =>
    match f.format text options with
    | .ok formatted =>
      .ok formatted :: (if formatted == text then [] else iterate f options limit formatted)
    | .error e => [.error e]

end Formatter

end CodeFormatter
