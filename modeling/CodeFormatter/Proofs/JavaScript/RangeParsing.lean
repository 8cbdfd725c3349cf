import CodeFormatter.Proofs.JavaScript.Ranges
import CodeFormatter.Proofs.Range

/-!
# Slices that parse

A range is widened to whole nodes, and the slice has to parse on its own. The two ends are lifted
independently of each other, and nothing in the search asks whether the nodes that they are lifted to
stand in one list. They can be a part of a `switch` and a statement in it, or the two branches of a
condition, and then the slice is no program (`not_parseable`).

**Condition** (`Together`). The innermost statements around the ends are the same, or they are in two
statements of one program or block, or one of them is such a statement and holds the other.

**Theorem (`format_range_ne_syntaxError`).** Under this condition the range is widened to a statement or
to statements in a row, so that formatting does not fail with a syntax error.
-/

namespace CodeFormatter.JavaScript

open Pipeline Printer CodeFormatter.Tree Walk

variable {done : Comments} {scene : Scene} {root tree t : Node} {job : Job}

/-! ## Errors -/

/-- The error is not that a text does not parse. -/
def NotSyntax (e : Error) : Prop := ∀ syntaxError, e ≠ .parse syntaxError

/-- The comments of JavaScript are printed, or cut a character. -/
theorem printsComments_notSyntax : PrintsComments NotSyntax (fun _ => True) done
    CommentText.print := by
  intro c _
  have hspan : NotSyntax .invalidSpan := nofun
  unfold CommentText.print
  split
  · refine (yields_sliceOrError hspan _ _ _).bind fun body _ => ?_
    split <;> trivial
  · trivial

/-- No printer fails with a syntax error. Code in a template that does not parse is copied. -/
theorem heritage_notSyntax (done : Comments) (scene : Scene) (root : Node) :
    Heritage done NotSyntax (fun _ => True) (fun _ => True) scene root where
  closed := by constructor <;> simp
  words := by simp
  spaced := by simp
  comments := printsComments_notSyntax
  span := nofun
  tokens := by simp
  operators := by simp
  copies := by simp
  strings := by simp
  code _ _ _ _ _ _ _ group := by
    cases scene.embedded _ _ group with
    | ok r => trivial
    | error e => exact id
  cursor := by simp

/-! ## Statements in a row -/

/-- Are the children of a node statements in a row? -/
def listsStatements (t : Node) : Bool := kindOf t = .program || kindOf t = .statementBlock

/-- Only the whole text is a program, and braces stand around the statements of a block. -/
structure Braced (root : Node) : Prop where
  program : ∀ t ∈ root.nodes, kindOf t = .program → t = root
  block : ∀ t ∈ root.nodes, kindOf t = .statementBlock → ∀ c ∈ t.children,
    t.start < c.start ∧ c.stop < t.stop

/-- Where a statement starts and stops, or several in a row. -/
inductive Statements (root : Node) : Nat → Nat → Prop
  | single {s : Node} (mem : s ∈ root.nodes) (statement : isSourceElement s = true) :
      Statements root s.start s.stop
  | several {list first last : Node} (mem : list ∈ root.nodes)
      (lists : listsStatements list = true) (first_mem : first ∈ list.children)
      (last_mem : last ∈ list.children) (first_statement : isSourceElement first = true)
      (last_statement : isSourceElement last = true) (before : first.stop ≤ last.start) :
      Statements root first.start last.stop

/-- Two statements are the same, or in two statements of one list, or one of them is in a list and
holds the other. -/
inductive Together (root first last : Node) : Prop
  | same (h : first = last)
  | inRow {list s₁ s₂ : Node} (mem : list ∈ root.nodes) (lists : listsStatements list = true)
      (mem₁ : s₁ ∈ list.children) (mem₂ : s₂ ∈ list.children)
      (statement₁ : isSourceElement s₁ = true) (statement₂ : isSourceElement s₂ = true)
      (first_mem : first ∈ s₁.nodes) (last_mem : last ∈ s₂.nodes) (before : s₁.stop ≤ s₂.start)
  | inside {list s : Node} (mem : list ∈ root.nodes) (lists : listsStatements list = true)
      (mem_list : s ∈ list.children) (first_mem : first ∈ s.nodes) (last_mem : last ∈ s.nodes)
      (eq : first = s ∨ last = s)

theorem Braced.bracketed (h : Braced root) {list first last : Node} (hmem : list ∈ root.nodes)
    (hlists : listsStatements list = true) (hfirst : first ∈ list.children)
    (hlast : last ∈ list.children) : Range.Bracketed root list first last := by
  refine ⟨hmem, hfirst, hlast, ?_⟩
  simp only [listsStatements, Bool.or_eq_true, decide_eq_true_eq] at hlists
  refine hlists.imp (h.program list hmem) fun hkind => ?_
  exact ⟨(h.block list hmem hkind first hfirst).1, (h.block list hmem hkind last hlast).2⟩

/-- The ends of the range that is asked for, without the blanks at its ends. -/
def endsOf (job : Job) : Nat × Nat := Range.stripped job.text job.options.rangeStart (rangeEnd job)

/-- The innermost statements around the two ends. -/
def innermost (tree : Node) (job : Job) : Option (Node × Node) := do
  let first ← tree.find? (endsOf job).1 isSourceElement
  let last ← tree.find? (endsOf job).2 isSourceElement
  return (first.node, last.node)

/-- **Statements that stand together are widened to statements in a row.** -/
theorem statements_of_widened (hroot : tree.WellFormed) (hbraced : Braced tree)
    (htogether : ∀ first last, innermost tree job = some (first, last) → Together tree first last)
    {start stop : Nat} (h : widened tree job = some (start, stop)) : Statements tree start stop := by
  rw [widened, Range.widen?] at h
  dsimp only at h
  split at h
  case h_2 => cases h
  case h_1 first last hfirst hlast =>
    have htogether : Together tree first.node last.node := by
      refine htogether _ _ ?_
      rw [innermost, endsOf, hfirst, hlast]
      rfl
    obtain ⟨hway₁, hstatement₁, -⟩ := wayIn_of_find? hfirst
    obtain ⟨hway₂, hstatement₂, -⟩ := wayIn_of_find? hlast
    by_cases heq : first.node = last.node
    · rw [Range.siblingAncestors, if_pos (by rw [heq])] at h
      simp only [heq, min_self, max_self] at h
      cases h
      exact .single hway₂.mem_nodes hstatement₂
    · cases htogether with
      | same h => exact absurd h heq
      | @inRow list s₁ s₂ mem lists mem₁ mem₂ statement₁ statement₂ first_mem last_mem before =>
        rw [Range.siblingAncestors_of_before hroot hway₁ hway₂ heq
          (hbraced.bracketed mem lists mem₁ mem₂) first_mem last_mem before] at h
        have hle : ∀ {s : Node}, s ∈ list.children → s.start ≤ s.stop := fun hs =>
          hroot.start_le_stop _ (mem_nodes_trans (mem_nodes_of_mem_children hs (mem_nodes_self _)) mem)
        have hle₁ := hle mem₁
        have hle₂ := hle mem₂
        dsimp only at h
        rw [min_eq_left (by omega), max_eq_right (by omega)] at h
        cases h
        exact .several mem lists mem₁ mem₂ statement₁ statement₂ before
      | @inside list s mem lists mem_list first_mem last_mem eq =>
        rw [Range.siblingAncestors_of_mem hroot hway₁ hway₂ heq
          (hbraced.bracketed mem lists mem_list mem_list) first_mem last_mem eq] at h
        simp only [min_self, max_self] at h
        cases h
        refine .single (mem_nodes_trans (mem_nodes_of_mem_children mem_list (mem_nodes_self s)) mem) ?_
        rcases eq with rfl | rfl
        · exact hstatement₁
        · exact hstatement₂

/-! ## Formatting -/

section Formatting

variable {p : TextParser} {embedding : Embedding} {parsed : Parsed Info} {options n : Options}
  {text : String}

theorem yields_printParsed_notSyntax (job : Job) (parsed : Parsed Info) (alignment : Nat) :
    Yields NotSyntax (fun _ => True) (printParsed (parsing p) embedding job parsed alignment) :=
  (yields_printParsed (fun _ => by simp [NotSyntax]) (heritage_notSyntax _ _ _) alignment).mono (fun _ => id)
    fun _ _ => trivial

/-- A range with an end is not the whole of a file, also when a byte-order mark is set aside. -/
theorem prepare_of_range {stop : Nat} (h : n.rangeEnd = some stop) :
    prepare language n text = .ok (unmark n text) := by
  have hpart : (unmark n text).options.formatsWholeFile = false := by
    rw [unmark]
    split <;> simp [Options.formatsWholeFile, h]
  refine prepare_of_not_putsPragma ?_
  rw [putsPragma, hpart, Bool.and_false]

/-- **The slice of a range parses.** If the parser accepts statements in a row, and the innermost
statements around the ends of the range stand together, then the slice consists of statements in a row,
and formatting does not fail with a syntax error. -/
theorem format_range_ne_syntaxError {stop : Nat} (hvalid : options.validate = .ok ())
    (hjs : IsJavaScript options) (hrange : options.rangeEnd = some stop)
    (hparse : p (stripMark text) = .ok parsed) (hroot : parsed.tree.WellFormed)
    (hbraced : Braced parsed.tree)
    (haccepts : ∀ start stop, Statements parsed.tree start stop → ∀ slice,
      slice? (stripMark text) start stop = some slice → ∃ parsed', p (stripMark slice) = .ok parsed')
    (htogether : ∀ first last, innermost parsed.tree (unmark (named options) text) =
      some (first, last) → Together parsed.tree first last) :
    (∀ start stop, widened parsed.tree (unmark (named options) text) = some (start, stop) →
        Statements parsed.tree start stop) ∧
      ∀ syntaxError, (formatterOf p).format text options ≠ .error (.parse syntaxError) := by
  have hstatements : ∀ start stop, widened parsed.tree (unmark (named options) text) =
      some (start, stop) → Statements parsed.tree start stop := fun start stop hwidened =>
    statements_of_widened hroot hbraced htogether hwidened
  refine ⟨hstatements, fun syntaxError hformat => ?_⟩
  have hyields : Yields NotSyntax (fun _ => True) ((formatterOf p).format text options) := by
    refine yields_format hvalid hjs (fun _ => trivial) fun _ => ?_
    have hprepare : prepare language (named options) text = .ok (unmark (named options) text) :=
      prepare_of_range hrange
    rw [hprepare]
    dsimp only [Yields]
    rw [unmark_text, hparse]
    refine ⟨?_, fun _ => yields_printParsed_notSyntax _ _ 0⟩
    refine yields_formatRange (R := fun _ => True) nofun (fun _ _ => trivial) ?_
    intro start stop _ hwidened before _ slice hslice
    rw [unmark_text] at hslice
    obtain ⟨parsed', hparsed'⟩ := haccepts start stop (hstatements start stop hwidened) slice
      (sliceOrError_eq_ok_iff.mp hslice)
    dsimp only
    rw [formatSlice_parsing, hparsed']
    exact (yields_printParsed_notSyntax _ _ _).mono (fun _ => id) fun _ _ _ _ => trivial
  rw [hformat] at hyields
  exact hyields syntaxError rfl

end Formatting

/-! ## Statements of one letter -/

/-- A statement that is a name of one letter with a semicolon. -/
def letterStatement (i : Nat) : Node :=
  ⟨2 * i + 1, 2 * i, 2 * i + 2, ⟨.expressionStatement, [";"], none⟩,
    [⟨2 * i + 2, 2 * i, 2 * i + 1, ⟨.identifier, [], none⟩, []⟩]⟩

/-- A program of such statements. -/
def lettersTree (count : Nat) : Node :=
  ⟨0, 0, 2 * count, ⟨.program, [], none⟩, (List.range count).map letterStatement⟩

/-- The parser for such programs. -/
def parseLetters : TextParser := fun text => .ok ⟨lettersTree (text.utf8ByteSize / 2), []⟩

/-- The options for the first two statements of a program. -/
def firstTwo : Options := { parser := some "javascript", rangeEnd := some 3 }

theorem format_range_letters :
    (formatterOf parseLetters).format "a;b;c;" firstTwo = .ok "a;\nb;c;" ∧
      ∀ syntaxError, (formatterOf parseLetters).format "a;b;c;" firstTwo ≠
        .error (.parse syntaxError) := by
  have hroot : (lettersTree 3).WellFormed := by
    constructor <;> simp [lettersTree, letterStatement, nodes, nodesAll, List.range_succ]
  have hbraced : Braced (lettersTree 3) := by
    constructor <;>
      simp [lettersTree, letterStatement, nodes, nodesAll, List.range_succ, kindOf]
  have hstatement : ∀ i < 3, letterStatement i ∈ (lettersTree 3).children := fun i hi =>
    List.mem_map_of_mem (List.mem_range.mpr hi)
  have htogether : ∀ first last,
      innermost (lettersTree 3) (unmark (named firstTwo) "a;b;c;") = some (first, last) →
      Together (lettersTree 3) first last := by
    intro first last h
    have heq : innermost (lettersTree 3) (unmark (named firstTwo) "a;b;c;") =
        some (letterStatement 0, letterStatement 1) := rfl
    cases heq.symm.trans h
    exact .inRow (mem_nodes_self _) rfl (hstatement 0 (by decide)) (hstatement 1 (by decide)) rfl rfl
      (mem_nodes_self _) (mem_nodes_self _) (by decide)
  have hvalid : firstTwo.validate = .ok () := rfl
  have hparse : parseLetters (stripMark "a;b;c;") = .ok ⟨lettersTree 3, []⟩ := rfl
  refine ⟨by decide +kernel, ?_⟩
  exact (format_range_ne_syntaxError hvalid rfl rfl hparse hroot hbraced (fun _ _ _ _ _ => ⟨_, rfl⟩)
    htogether).2

/-- The branches of a condition are no program. -/
theorem not_parseable :
    ¬ ∀ (text : String) (options : Options) (stop : Nat) (parsed : Parsed Info),
      options.validate = .ok () → IsJavaScript options → options.rangeEnd = some stop →
      parse text = .ok parsed →
      ∀ syntaxError, formatter.format text options ≠ .error (.parse syntaxError) := by
  intro h
  have hparse : (parse "if(a)b;else\x7bc\x7d").toOption.isSome = true := by decide +kernel
  obtain ⟨parsed, hparsed⟩ := Option.isSome_iff_exists.mp hparse
  have hformat : formatter.format "if(a)b;else\x7bc\x7d"
      { parser := some "javascript", rangeStart := 5, rangeEnd := some 13 } =
        .error (.parse ⟨"Unexpected token `else\x7bc\x7d`", 1, 3, 2⟩) := by
    decide +kernel
  exact h "if(a)b;else\x7bc\x7d" { parser := some "javascript", rangeStart := 5, rangeEnd := some 13 }
    13 parsed rfl rfl rfl (Formatter.eq_ok_of_toOption hparsed) _ hformat

end CodeFormatter.JavaScript
