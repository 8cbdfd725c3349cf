import CodeFormatter.Walk

/-!
# What is read of a scene

The printer of a language may read all of a scene. The walk around it reads the bytes of the text, to place
comments, the text, to copy from it, and the node of the cursor.
-/

namespace CodeFormatter.Walk

variable {α : Type} {language : Language α} {a b : Scene}

theorem printAround_congr (h : a.bytes = b.bytes) (indices : List Nat) :
    printAround language a indices = printAround language b indices := by
  induction indices with
  | nil => rfl
  | cons index rest ih =>
    simp only [printAround, leadingComment, trailingComment, h, ih]

/-- Comments are placed by the bytes of the text. -/
theorem withComments_congr (h : a.bytes = b.bytes) (t : Tree α) :
    withComments language a t = withComments language b t := by
  funext printed
  simp only [withComments, printAround_congr h]

/-- Copies are made from the text. -/
theorem verbatim_congr (h : a.text = b.text) (t : Tree α) : verbatim a t = verbatim b t := by
  simp only [verbatim, source, h]

end CodeFormatter.Walk
