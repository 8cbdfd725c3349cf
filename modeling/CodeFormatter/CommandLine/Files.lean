/-!
# Files

The files of a directory, by their paths. A path is followed name by name: `.` stays, `..` goes back, and
whatever is passed has to be a directory. So `a` and `./a` name the same file, and so does `b/../a` if there is
a directory `b`.

**Contents.** A file holds bytes. They can be read as a text only if they are one.
-/

namespace CodeFormatter.CommandLine

/-- Why a file cannot be read. -/
inductive ReadError where
  | notFound
  | isDirectory
  | notDirectory
  | notText
  deriving DecidableEq, Repr

def ReadError.message : ReadError → String
  | .notFound => "No such file or directory (os error 2)"
  | .isDirectory => "Is a directory (os error 21)"
  | .notDirectory => "Not a directory (os error 20)"
  | .notText => "stream did not contain valid UTF-8"

/-- What a file holds. -/
structure Contents where
  bytes : ByteArray

namespace Contents

instance : DecidableEq Contents := fun contents others =>
  decidable_of_decidable_of_iff (p := contents.bytes.data = others.bytes.data)
    ⟨fun h => congrArg (fun data => Contents.mk ⟨data⟩) h, fun h => congrArg (·.bytes.data) h⟩

/-- A text as it is stored. -/
def ofText (text : String) : Contents := ⟨text.toUTF8⟩

/-- The text that is stored, if the bytes are one. -/
def text? (contents : Contents) : Option String := String.fromUTF8? contents.bytes

end Contents

/-- Texts may stand for files that hold them. -/
instance : Coe (List (String × String)) (List (String × Contents)) :=
  ⟨List.map fun (path, text) => (path, .ofText text)⟩

/-- A file that holds no text is shown as an empty one. -/
instance : Coe Contents String := ⟨fun contents => contents.text?.getD ""⟩

/-- Files with their contents. -/
structure Files where
  entries : List (String × Contents)

/-! ## Where paths lead -/

/-- A place among directories: the names on the way from the directory of the files, or from the root, for which
an empty name stands. -/
abbrev Location := List (List Char)

namespace Location

/-- The directory around. The root has none, and those around the directory of the files have no names. -/
def parent (l : Location) : Location :=
  match l.getLast? with
  | none | some ['.', '.'] => l ++ [['.', '.']]
  | some [] => l
  | some _ => l.dropLast

def enter (l : Location) (name : List Char) : Location :=
  if name.isEmpty || name == ['.'] then l
  else if name == ['.', '.'] then l.parent
  else l ++ [name]

/-- The directory of the files, the root, and what is around them. -/
def isOutside (l : Location) : Bool := l.all fun name => name.isEmpty || name == ['.', '.']

/-- The locations at which the names are looked up. -/
def passed (l : Location) : List (List Char) → List Location
  | [] => []
  | name :: names => l :: passed (l.enter name) names

end Location

namespace Files

/-- Where a path starts. -/
def start (path : String) : Location := if path.toList.head? == some '/' then [[]] else []

def names (path : String) : List (List Char) := path.toList.splitOn '/'

/-- Where a path leads. -/
def location (path : String) : Location := (names path).foldl Location.enter (start path)

/-- Do two paths name the same file? -/
def samePath (a b : String) : Bool := location a == location b

/-- The contents of a file. -/
def get? (files : Files) (path : String) : Option Contents :=
  (files.entries.find? fun (p, _) => samePath p path).map (·.2)

/-- Is there a file at the location? -/
def isFile (files : Files) (l : Location) : Bool := files.entries.any fun (p, _) => location p == l

/-- Is there a directory at the location? The path of each file passes some. -/
def isDirectory (files : Files) (l : Location) : Bool :=
  l.isOutside || files.entries.any fun (p, _) => ((start p).passed (names p)).contains l

/-- Follows the names from a location on. -/
def follow (files : Files) (l : Location) : List (List Char) → Except ReadError Location
  | [] => .ok l
  | name :: names =>
    if files.isDirectory l then files.follow (l.enter name) names
    else .error (if files.isFile l then .notDirectory else .notFound)

def read (files : Files) (path : String) : Except ReadError String :=
  if path.isEmpty then .error .notFound
  else
    match files.follow (start path) (names path) with
    | .error e => .error e
    | .ok l =>
      match files.get? path with
      | some contents => contents.text?.elim (.error .notText) .ok
      | none => .error (if files.isDirectory l then .isDirectory else .notFound)

/-- Gives a file new contents. -/
def write (files : Files) (path : String) (contents : Contents) : Files :=
  ⟨files.entries.map fun (p, old) => (p, if samePath p path then contents else old)⟩

end Files

end CodeFormatter.CommandLine
