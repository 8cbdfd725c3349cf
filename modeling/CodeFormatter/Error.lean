import CodeFormatter.Text.Scan

/-!
# Errors

Why a text could not be formatted: it does not parse, the options contradict each other, or a
language's printer is at fault, which is noticed afterwards.
-/

namespace CodeFormatter

/-- A text that does not parse, and where. Lines and columns count from one, columns in bytes. -/
structure ParseError where
  message : String
  line : Nat
  column : Nat
  offset : Nat
  deriving DecidableEq, Repr

namespace ParseError

/-- An error at byte `offset` of `text`, or at its end if it is shorter. -/
def ofOffset (message text : String) (offset : Nat) : ParseError :=
  let before := (bytesOf text).take offset
  { message
    line := before.count 10 + 1
    column := (before.reverse.takeWhile (· != 10)).length + 1
    offset := before.length }

/-- The message with its place. -/
def describe (e : ParseError) : String :=
  e.message ++ " (" ++ toString e.line ++ ":" ++ toString e.column ++ ")"

end ParseError

/-- An option with a value that is not allowed, or not together with another. -/
structure ConfigError where
  option : String
  message : String
  deriving DecidableEq, Repr

/-- The message with the name of the option. -/
def ConfigError.describe (e : ConfigError) : String :=
  "invalid `" ++ e.option ++ "`: " ++ e.message

inductive Error where
  | parse (e : ParseError)
  | config (e : ConfigError)
  /-- A comment is missing from the output. -/
  | commentNotPrinted (text : String)
  /-- The output, formatted again, changes. -/
  | notIdempotent (first second : String)
  /-- The output parses to another tree. -/
  | treeChanged (before after : String)
  /-- A node or a comment does not lie in the text, or cuts a character. -/
  | invalidSpan
  /-- Texts embedded in each other do not end. -/
  | nestedTooDeep
  deriving DecidableEq, Repr

namespace Error

/-- The message for the user. -/
def message : Error → String
  | .parse e => "syntax error: " ++ e.describe
  | .config e => e.describe
  | .commentNotPrinted text => "internal error: comment \"" ++ text ++ "\" was not printed"
  | .notIdempotent _ _ => "internal error: formatting is not idempotent"
  | .treeChanged _ _ => "internal error: formatting changed the syntax tree"
  | .invalidSpan => "internal error: a span does not lie in the text"
  | .nestedTooDeep => "internal error: embedded texts do not end"

/-- The messages of the error and of what caused it, outermost first. -/
def messages : Error → List String
  | .parse e => ["syntax error: " ++ e.describe, e.describe]
  | .commentNotPrinted text =>
    [Error.message (.commentNotPrinted text), "comment \"" ++ text ++ "\" was not printed"]
  | .notIdempotent first second =>
    [Error.message (.notIdempotent first second), "formatting is not idempotent"]
  | .treeChanged before after =>
    [Error.message (.treeChanged before after), "formatting changed the syntax tree"]
  | e => [e.message]

end Error

/-- The slice of a text, or the error that there is none. -/
def sliceOrError (text : String) (start stop : Nat) : Except Error String :=
  match slice? text start stop with
  | some s => .ok s
  | none => .error .invalidSpan

end CodeFormatter
