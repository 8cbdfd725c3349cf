/-!
# Byte offsets and slices

Positions in a text are byte offsets into its UTF-8 form. A slice of a text exists only between two
*boundaries*: offsets at which a character starts, or the end of the text. `slice?` gives nothing
for any other pair of offsets, and callers decide what that means.
-/

namespace CodeFormatter

/-- Does a character of `text` start at byte `i`, or does the text end there? -/
def isBoundary (text : String) (i : Nat) : Bool := String.Pos.Raw.isValid text ⟨i⟩

/-- The text from byte `start` up to byte `stop`, when both are boundaries and in order. -/
def slice? (text : String) (start stop : Nat) : Option String :=
  if start ≤ stop && isBoundary text start && isBoundary text stop then
    some (String.Pos.Raw.extract text ⟨start⟩ ⟨stop⟩)
  else none

/-- The number of bytes of a list of characters in UTF-8. -/
def byteLength (cs : List Char) : Nat := cs.foldr (fun c n => c.utf8Size + n) 0

@[simp] theorem byteLength_nil : byteLength [] = 0 := rfl

@[simp] theorem byteLength_cons (c : Char) (cs : List Char) :
    byteLength (c :: cs) = c.utf8Size + byteLength cs := rfl

@[simp] theorem byteLength_append (as bs : List Char) :
    byteLength (as ++ bs) = byteLength as + byteLength bs := by
  induction as with
  | nil => simp
  | cons c cs ih => rw [List.cons_append, byteLength_cons, byteLength_cons, ih, Nat.add_assoc]

/-- The nearest boundary at or before byte `i`. -/
def floorBoundary (text : String) (i : Nat) : Nat :=
  go (min i text.utf8ByteSize)
where
  go : Nat → Nat
    | 0 => 0
    | i + 1 => if isBoundary text (i + 1) then i + 1 else go i

/-- The nearest boundary at or after byte `i`, or the end of the text. -/
def ceilBoundary (text : String) (i : Nat) : Nat :=
  go (text.utf8ByteSize - i) (min i text.utf8ByteSize)
where
  /-- `left` bytes lie between `i` and the end of the text. -/
  go : Nat → Nat → Nat
    | 0, i => i
    | left + 1, i => if isBoundary text i then i else go left (i + 1)

end CodeFormatter
