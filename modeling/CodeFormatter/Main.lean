import CodeFormatter.JavaScript
import CodeFormatter.CommandLine.Run

/-!
# The program

Reads the files that the arguments name, runs the command, and writes what has changed.
-/

open CodeFormatter

/-- The paths that a command reads. -/
def pathsOf : Except CommandLine.Stop CommandLine.Command → List String
  | .ok (.format paths ..) => paths
  | .ok (.showDoc path _) | .ok (.showTree path _) => [path]
  | .error _ => []

/-- Does a command read what is typed in? -/
def readsInput : Except CommandLine.Stop CommandLine.Command → Bool
  | .ok (.format [] ..) => true
  | _ => false

/-- The contents of a file, if it can be read. -/
def readEntry (path : String) : IO (List (String × CommandLine.Contents)) := do
  try
    return [(path, ⟨← IO.FS.readBinFile path⟩)]
  catch _ => return []

/-- All that is typed in. -/
partial def readInput (stream : IO.FS.Stream) (before : String) : IO String := do
  let line ← stream.getLine
  if line.isEmpty then return before else readInput stream (before ++ line)

def main (args : List String) : IO UInt32 := do
  let command := CommandLine.Command.ofArguments args
  let entries := (← (pathsOf command).mapM readEntry).flatten
  let input ← if readsInput command then readInput (← IO.getStdin) "" else pure ""
  let outcome := CommandLine.run JavaScript.formatter args input ⟨entries⟩
  for (path, contents) in outcome.files.entries do
    if (entries.lookup path).any (· != contents) then IO.FS.writeBinFile path contents.bytes
  IO.print outcome.stdout
  IO.eprint outcome.stderr
  return outcome.code.toUInt32
