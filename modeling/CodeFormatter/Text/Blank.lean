/-!
# Blank characters

The characters of the Unicode property `White_Space`, and the operations on texts that are defined
by it: trimming either end, splitting into words. Texts are lists of characters here; the functions
on `String` at the end go through them.
-/

namespace CodeFormatter

/-- The Unicode property `White_Space`. -/
def isBlank (c : Char) : Bool :=
  let n := c.toNat
  (9 ≤ n && n ≤ 13) || n == 0x20 || n == 0x85 || n == 0xA0 || n == 0x1680
    || (0x2000 ≤ n && n ≤ 0x200A) || n == 0x2028 || n == 0x2029 || n == 0x202F || n == 0x205F
    || n == 0x3000

/-- Core's class of white space is part of it. -/
theorem isBlank_of_isWhitespace {c : Char} (h : c.isWhitespace = true) : isBlank c = true := by
  simp only [Char.isWhitespace, Bool.or_eq_true, decide_eq_true_eq] at h
  rcases h with ((rfl | rfl) | rfl) | rfl <;> decide

/-! ## Lists of characters -/

def trimLeft (cs : List Char) : List Char := cs.dropWhile isBlank

def trimRight (cs : List Char) : List Char := (cs.reverse.dropWhile isBlank).reverse

def trimBoth (cs : List Char) : List Char := trimRight (trimLeft cs)

/-- The maximal runs of characters that are not blank. -/
def words (cs : List Char) : List (List Char) :=
  go cs []
where
  /-- `word` is the run being read, last character first. -/
  go : List Char → List Char → List (List Char)
    | [], word => if word.isEmpty then [] else [word.reverse]
    | c :: rest, word =>
      if isBlank c then
        if word.isEmpty then go rest [] else word.reverse :: go rest []
      else go rest (c :: word)

/-- The pieces between newlines: one more than there are newlines. -/
def pieces (cs : List Char) : List (List Char) := cs.splitOn '\n'

/-- The lines of a text: like `pieces`, but a text that ends in a newline has no line after it. -/
def textLines (cs : List Char) : List (List Char) :=
  match (pieces cs).reverse with
  | [] :: before => before.reverse
  | _ => pieces cs

/-! ## Strings -/

/-- Is `part` found in `cs`? -/
def isInfix (part : List Char) : List Char → Bool
  | [] => part.isEmpty
  | c :: rest => part.isPrefixOf (c :: rest) || isInfix part rest

def trimStart (s : String) : String := String.ofList (trimLeft s.toList)

def trimEnd (s : String) : String := String.ofList (trimRight s.toList)

def trim (s : String) : String := String.ofList (trimBoth s.toList)

/-- Every occurrence of `old`, found from the left without overlaps, becomes `new`. An empty `old`
occurs before every character and at the end. -/
def replaceAll (old new cs : List Char) : List Char :=
  if old.isEmpty then new ++ cs.flatMap (fun c => c :: new) else go cs.length cs
where
  /-- One character of `cs` is read per step, so its length is enough fuel. -/
  go : Nat → List Char → List Char
    | 0, cs => cs
    | _, [] => []
    | fuel + 1, c :: rest =>
      if old.isPrefixOf (c :: rest) then new ++ go fuel ((c :: rest).drop old.length)
      else c :: go fuel rest

end CodeFormatter
