import CodeFormatter.Proofs.JavaScript.CursorTracking
import CodeFormatter.Proofs.JavaScript.LayoutOptions
import CodeFormatter.Proofs.Walk.Rereading
import CodeFormatter.Proofs.Walk.Twins

/-!
# Trees that are read again

The outcome of formatting is a text in its turn, and is read again. If its tree has the same nodes with
the same words in them, if what is copied stands there letter for letter, if the same blank lines are
between statements, and if the comments have come to the same nodes, then everything that the printers
ask has the same answer (`SameAnswers`). One printer after the other is followed through both texts.

**Theorem (`Rereads.follows_printTree`).** Then both trees have the same document.
-/

namespace CodeFormatter.JavaScript

open Walk

variable {a b : Scene} {left right : Comments} {t u : Node}

/-! ## The same node in two texts -/

/-- A blank line follows both nodes, or neither. -/
def SameLine (a b : Scene) (c d : Node) : Prop :=
  Scan.isNextLineEmpty? a.bytes c.stop = Scan.isNextLineEmpty? b.bytes d.stop

/-- The first characters that the printers look for. -/
def initials : List (List Char) := [['(', '[', '`', '+', '-', '/'], ['+'], ['-']]

/-- Both nodes start with one of the characters that are looked for, or neither does. -/
def SameInitial (a b : Scene) (c d : Node) : Prop :=
  ∀ chars ∈ initials, Printer.startsWith a c chars = Printer.startsWith b d chars

/-- Does the operator of a node stand before this child? -/
def isPrefixed (t c : Node) : Bool := t.info.operator.any fun operator => operator.start < c.start

/-- What the printers ask about a node has the same answer in both texts. -/
structure SameAnswers (a b : Scene) (left right : Comments) (t u : Node) : Prop where
  kind : kindOf t = kindOf u
  comments : left.of t.id = right.of u.id
  operator : t.info.operator.map (·.text) = u.info.operator.map (·.text)
  prefixed : kindOf t = .updateExpression →
    List.Forall₂ (fun c d => isPrefixed t c = isPrefixed u d) t.children u.children
  keyword : kindOf t = .lexicalDeclaration ∨ kindOf t = .variableDeclaration →
    t.info.tokens.head? = u.info.tokens.head?
  words : ∀ word ∈ ["async", "*"], t.info.tokens.contains word = u.info.tokens.contains word
  initial : kindOf t = .expressionStatement ∨ kindOf t = .unaryExpression →
    List.Forall₂ (SameInitial a b) t.children u.children
  statements : kindOf t = .program ∨ kindOf t = .statementBlock →
    List.Forall₂ (SameLine a b) (Printer.doing t.children).dropLast
      (Printer.doing u.children).dropLast
  properties : kindOf t = .object →
    List.Forall₂ (SameLine a b) t.children.dropLast u.children.dropLast
  opened : kindOf t = .object → List.Forall₂
    (fun c d => Scan.hasNewlineInRange a.bytes t.start c.start =
      Scan.hasNewlineInRange b.bytes u.start d.start) (t.children.take 1) (u.children.take 1)
  holes : kindOf t = .array → Printer.hasHoles a t = Printer.hasHoles b u
  quotes : kindOf t = .string → Printer.string a t = Printer.string b u
  /-- What is copied is the same, and has the same comments in it. -/
  copied : ¬ HasLayout left a t →
    sliceOrError a.text t.start t.stop = sliceOrError b.text u.start u.stop ∧
      ∀ i c d, left.get? i = some c → right.get? i = some d →
        (t.Holds c.start c.stop ↔ u.Holds d.start d.stop)

/-- A tree of one text and a tree of the other are the same, node by node. -/
inductive Rereads (a b : Scene) (left right : Comments) : Node → Node → Prop
  | intro {t u : Node} (self : SameAnswers a b left right t u)
      (below : List.Forall₂ (Rereads a b left right) t.children u.children) :
      Rereads a b left right t u

theorem Rereads.self (h : Rereads a b left right t u) : SameAnswers a b left right t u := by
  cases h
  assumption

theorem Rereads.children (h : Rereads a b left right t u) :
    List.Forall₂ (Rereads a b left right) t.children u.children := by
  cases h
  assumption

/-- The printers work under the same options, nobody asks for a cursor, and code has the same document. -/
structure SameSettings (a b : Scene) : Prop where
  options : a.options = b.options
  cursorLeft : a.cursorNode = none
  cursorRight : b.cursorNode = none
  embedded : ∀ code : String, code.utf8ByteSize < a.text.utf8ByteSize →
    code.utf8ByteSize < b.text.utf8ByteSize → ∀ group,
      a.embedded code (Embedded.codeOptions a.options) group =
        b.embedded code (Embedded.codeOptions b.options) group

theorem readsTexts : language.ReadsTexts where
  print c e htext hblock := by
    change CommentText.print c = CommentText.print e
    rw [CommentText.print, CommentText.print, htext, hblock]
  ignore c e htext := by
    change CommentText.isIgnore c = CommentText.isIgnore e
    rw [CommentText.isIgnore, CommentText.isIgnore, htext]

namespace Printer

/-- The same child in both texts, with actions that print the same. -/
inductive SameChild (a b : Scene) (left right : Comments) : Child → Child → Prop
  | intro {c d : Child} (node : Rereads a b left right c.node d.node)
      (print : Follows left right c.print d.print)
      (below : List.Forall₂ (SameChild a b left right) c.children d.children) :
      SameChild a b left right c d

variable {c d : Child}

theorem SameChild.node (h : SameChild a b left right c d) : Rereads a b left right c.node d.node := by
  cases h
  assumption

theorem SameChild.print (h : SameChild a b left right c d) : Follows left right c.print d.print := by
  cases h
  assumption

theorem SameChild.children (h : SameChild a b left right c d) :
    List.Forall₂ (SameChild a b left right) c.children d.children := by
  cases h
  assumption

theorem SameChild.kind_eq (h : SameChild a b left right c d) : kind c = kind d := h.node.self.kind

variable {c' d' e e' : Child} {children children' : List Child}

/-- One by one, the same children. -/
abbrev SameChildren (a b : Scene) (left right : Comments) : List Child → List Child → Prop :=
  List.Forall₂ (SameChild a b left right)

theorem follows_printAll (h : SameChildren a b left right children children') :
    Follows left right (printAll children) (printAll children') :=
  follows_mapM (h.imp fun _ _ hc => hc.print)

theorem SameChildren.isEmpty_eq (h : SameChildren a b left right children children') :
    children.isEmpty = children'.isEmpty := by
  cases h <;> rfl

theorem SameChildren.all_kind (h : SameChildren a b left right children children') (k : Kind) :
    (children.all fun c => kind c = k) = children'.all fun c => kind c = k := by
  induction h with
  | nil => rfl
  | cons hc _ ih => rw [List.all_cons, List.all_cons, hc.kind_eq, ih]

section Printers

variable (hcomments : SameComments a b left right) (hof : left.of t.id = right.of u.id)

/-! ## Statements -/

theorem follows_blankLineAfter {c d : Node} (h : SameLine a b c d) :
    Follows left right (blankLineAfter a c) (blankLineAfter b d) := by
  rw [blankLineAfter, blankLineAfter, h]
  split
  · exact follows_pure _
  · exact follows_lift (.error .invalidSpan)

theorem follows_statementDocs (h : SameChildren a b left right children children')
    (hlines : List.Forall₂ (SameLine a b) (nodesOf children).dropLast
      (nodesOf children').dropLast) :
    Follows left right (statementDocs a children) (statementDocs b children') := by
  induction h with
  | nil => exact follows_pure _
  | @cons c c' rest rest' hc hrest ih =>
    cases hrest with
    | nil => exact hc.print.bind fun _ => follows_pure _
    | cons he hothers =>
      rw [statementDocs.eq_3 _ c _ (List.cons_ne_nil _ _),
        statementDocs.eq_3 _ c' _ (List.cons_ne_nil _ _)]
      obtain ⟨hline, hlines⟩ := List.forall₂_cons.mp hlines
      exact hc.print.bind fun d => (follows_blankLineAfter hline).bind fun blank =>
        (ih hlines).bind fun _ => follows_pure _

theorem sameChildren_meaningful (h : SameChildren a b left right children children') :
    SameChildren a b left right (meaningful children) (meaningful children') :=
  List.rel_filter (fun c c' hc => by simp [hc.kind_eq]) h

theorem follows_statements (h : SameChildren a b left right children children')
    (hlines : List.Forall₂ (SameLine a b) (doing (nodesOf children)).dropLast
      (doing (nodesOf children')).dropLast) :
    Follows left right (statements a children) (statements b children') :=
  (follows_statementDocs (sameChildren_meaningful h)
    (by rwa [nodesOf_meaningful, nodesOf_meaningful])).map _

include hcomments hof

theorem follows_dangling (sameIndent : Bool) :
    Follows left right (danglingComments CommentText.print t sameIndent)
      (danglingComments CommentText.print u sameIndent) :=
  follows_danglingComments readsTexts hcomments hof sameIndent

theorem follows_program (h : SameChildren a b left right children children')
    (hlines : List.Forall₂ (SameLine a b) (doing (nodesOf children)).dropLast
      (doing (nodesOf children')).dropLast) :
    Follows left right (program a t children) (program b u children') :=
  (follows_statements h hlines).bind fun _ =>
    (follows_hasDanglingComments hcomments hof).bind fun _ =>
      follows_ite ((follows_dangling hcomments hof true).bind fun _ => follows_pure _)
        (follows_pure _)

theorem follows_block (h : SameChildren a b left right children children')
    (hlines : List.Forall₂ (SameLine a b) (doing (nodesOf children)).dropLast
      (doing (nodesOf children')).dropLast) :
    Follows left right (block a t children) (block b u children') := by
  unfold block
  rw [(sameChildren_meaningful h).isEmpty_eq]
  refine (follows_hasDanglingComments hcomments hof).bind fun dangling =>
    follows_ite (follows_pure _) (follows_ite ((follows_statements h hlines).bind fun body => ?_) ?_)
  · exact follows_ite ((follows_dangling hcomments hof false).bind fun _ => follows_pure _)
      (follows_pure _)
  · exact follows_ite ((follows_dangling hcomments hof false).bind fun _ => follows_pure _)
      (follows_pure _)

omit hcomments hof

theorem follows_startsWith {c d : Node} (h : SameInitial a b c d) {chars : List Char}
    (hchars : chars ∈ initials) :
    Follows left right (startsWith a c chars) (startsWith b d chars) := by
  rw [← h chars hchars, startsWith, source]
  exact (follows_lift _).bind fun _ => follows_pure _

end Printers

/-- An expression as a statement. -/
theorem follows_expressionStatement (hs : SameSettings a b) (hc : SameChild a b left right c c')
    (hinitial : SameInitial a b c.node c'.node) :
    Follows left right (expressionStatement a c) (expressionStatement b c') := by
  unfold expressionStatement
  rw [hs.options]
  refine hc.print.bind fun d => follows_ite (follows_pure _) ?_
  refine (follows_startsWith hinitial (by simp [initials])).bind fun starts => ?_
  exact follows_ite (follows_pure _) (follows_pure _)

theorem follows_keywordStatement (hs : SameSettings a b) (keyword : String)
    {argument argument' : Option Child}
    (h : Option.Rel (SameChild a b left right) argument argument') :
    Follows left right (keywordStatement a keyword argument)
      (keywordStatement b keyword argument') := by
  unfold keywordStatement terminator
  rw [hs.options]
  cases h with
  | none => exact follows_pure _
  | some hc => exact hc.print.bind fun _ => follows_pure _

theorem follows_declaration (hs : SameSettings a b)
    (hkeyword : t.info.tokens.head? = u.info.tokens.head?)
    (h : SameChildren a b left right children children') :
    Follows left right (declaration a t children) (declaration b u children') := by
  have hvalue : (children.any fun c => 1 < c.node.children.length) =
      children'.any fun c => 1 < c.node.children.length := by
    clear hkeyword
    induction h with
    | nil => rfl
    | cons hc _ ih => rw [List.any_cons, List.any_cons, ih, hc.node.children.length_eq]
  unfold declaration terminator
  dsimp only
  rw [hkeyword, hvalue, hs.options]
  exact (follows_printAll h).bind fun _ => follows_pure _

/-! ## Branches and loops -/

theorem follows_clause (hc : SameChild a b left right c c') (forceSpace : Bool) :
    Follows left right (clause c forceSpace) (clause c' forceSpace) := by
  unfold clause
  rw [hc.kind_eq]
  exact follows_ite (follows_pure _) (hc.print.bind fun d =>
    follows_ite (follows_pure _) (follows_pure _))

theorem follows_lastDanglingIsLine (hcomments : SameComments a b left right)
    (hof : left.of t.id = right.of u.id) :
    Follows left right (lastDanglingIsLine t) (lastDanglingIsLine u) := by
  refine follows_comments fun cs cs' hleft hright => ?_
  have hrel := hcomments.rel_filterMap hleft hright (R := SameComment a b)
    (f := fun _ => Option.guard fun c => c.placement == some .dangling)
    (g := fun _ => Option.guard fun c => c.placement == some .dangling)
    (fun _ c e hsame => by
      rw [Option.guard, Option.guard, hsame.placement]
      split
      · exact .some hsame
      · exact .none) (right.of u.id).reverse
  simp only [Option.bind_guard] at hrel
  dsimp only
  rw [Comments.of_eq_of_unmarked hleft, Comments.of_eq_of_unmarked hright, hof]
  generalize (right.of u.id).reverse.filterMap _ = dangling at hrel ⊢
  generalize (right.of u.id).reverse.filterMap _ = dangling' at hrel ⊢
  cases hrel with
  | nil => exact follows_pure _
  | cons hsame _ =>
    rw [List.head?_cons, List.head?_cons, Option.any_some, Option.any_some, hsame.block]
    exact follows_pure _

theorem follows_ifStatement (hcomments : SameComments a b left right)
    (hof : left.of t.id = right.of u.id) {e e' : Option Child}
    (hc : SameChild a b left right c c') (hd : SameChild a b left right d d')
    (he : Option.Rel (SameChild a b left right) e e') :
    Follows left right (ifStatement t c d e) (ifStatement u c' d' e') := by
  unfold ifStatement
  refine hc.print.bind fun x => (follows_clause hd false).bind fun y => ?_
  cases he with
  | none => exact follows_pure _
  | some he =>
    dsimp only
    rw [hd.kind_eq]
    refine (follows_hasTrailingLineComment hcomments hd.node.self.comments).bind fun commented => ?_
    refine (follows_lastDanglingIsLine hcomments hof).bind fun isLine => ?_
    refine (follows_hasDanglingComments hcomments hof).bind fun dangling => follows_ite ?_ ?_
    · exact (follows_dangling hcomments hof true).bind fun _ => (follows_pure _).bind fun _ =>
        he.print.bind fun _ => follows_pure _
    · exact (follows_pure _).bind fun _ => he.print.bind fun _ => follows_pure _

theorem follows_whileStatement (hc : SameChild a b left right c c')
    (hd : SameChild a b left right d d') :
    Follows left right (whileStatement c d) (whileStatement c' d') :=
  hc.print.bind fun _ => (follows_clause hd false).bind fun _ => follows_pure _

theorem follows_elseClause (hc : SameChild a b left right c c') :
    Follows left right (elseClause c) (elseClause c') := by
  unfold elseClause
  rw [hc.kind_eq]
  exact (follows_clause hc _).bind fun _ => follows_pure _

/-! ## Assignments and operators -/

theorem follows_assignedValue (hc : SameChild a b left right c c') :
    Follows left right (assignedValue c) (assignedValue c') := by
  unfold assignedValue
  refine hc.print.bind fun d => ?_
  rw [hc.kind_eq]
  split <;> exact follows_pure _

theorem follows_assignment (hc : SameChild a b left right c c')
    (hd : SameChild a b left right d d') (sign : String) :
    Follows left right (assignment c sign d) (assignment c' sign d') :=
  hc.print.bind fun _ => (follows_assignedValue hd).bind fun _ => follows_pure _

/-- An operation in one text is the same one in the other. -/
theorem rel_operands?_same (hc : SameChild a b left right c c') :
    Option.Rel (fun x y => SameChild a b left right x.1 y.1 ∧ x.2.1 = y.2.1 ∧
      SameChild a b left right x.2.2 y.2.2) (operands? c) (operands? c') := by
  have hbelow := hc.children
  have hoperator := hc.node.self.operator
  unfold operands?
  rw [hc.kind_eq]
  generalize c.children = cs at hbelow ⊢
  generalize c'.children = cs' at hbelow ⊢
  cases kind c' with
  | binaryExpression =>
    rcases hbelow with _ | ⟨hleft, _ | ⟨hright, _ | _⟩⟩
    · exact .none
    · exact .none
    · generalize c.node.info.operator = operator at hoperator ⊢
      generalize c'.node.info.operator = operator' at hoperator ⊢
      cases operator with
      | none =>
        cases operator' with
        | none => exact .none
        | some y => cases hoperator
      | some x =>
        cases operator' with
        | none => cases hoperator
        | some y => exact .some ⟨hleft, Option.some.inj hoperator, hright⟩
    · exact .none
  | _ => exact .none

theorem follows_chain (fuel : Nat) (hc : SameChild a b left right c c') (operator : String)
    (hd : SameChild a b left right d d') :
    Follows left right (chain fuel c operator d) (chain fuel c' operator d') := by
  induction fuel generalizing c c' d d' operator with
  | zero => exact hc.print.bind fun x => hd.print.bind fun _ => follows_pure _
  | succ fuel ih =>
    have hend : ∀ first : List Doc,
        Follows left right (do return first ++ [text (" " ++ operator), Doc.space, ← d.print])
          (do return first ++ [text (" " ++ operator), Doc.space, ← d'.print]) := fun first =>
      hd.print.bind fun _ => follows_pure _
    have hwhole : Follows left right (do return [Doc.groupOf (← c.print)])
        (do return [Doc.groupOf (← c'.print)]) := hc.print.bind fun _ => follows_pure _
    rw [chain, chain]
    dsimp only
    have hoperands := rel_operands?_same hc
    generalize operands? c = operands at hoperands ⊢
    generalize operands? c' = operands' at hoperands ⊢
    cases hoperands with
    | none => exact hwhole.bind hend
    | @some operands operands' h =>
      obtain ⟨l, inner, r⟩ := operands
      obtain ⟨l', inner', r'⟩ := operands'
      obtain ⟨hl, hinner, hr⟩ := h
      obtain rfl : inner = inner' := hinner
      refine (follows_hasComments hc.node.self.comments).bind fun commented => follows_ite ?_ ?_
      · exact (ih hl inner hr).bind hend
      · exact hwhole.bind hend

theorem follows_binary {path path' : Tree.Path Info}
    (hdepth : path.node.depth = path'.node.depth)
    (hparent : path.parent?.map kindOf = path'.parent?.map kindOf)
    (hc : SameChild a b left right c c') (operator : String)
    (hd : SameChild a b left right d d') :
    Follows left right (binary path c operator d) (binary path' c' operator d') := by
  unfold binary
  rw [hdepth, hparent]
  exact (follows_chain _ hc operator hd).bind fun docs =>
    follows_ite (follows_pure _) (follows_pure _)

theorem follows_unary (hc : SameChild a b left right c c')
    (hinitial : SameInitial a b c.node c'.node) (operator : String) :
    Follows left right (unary a operator c) (unary b operator c') := by
  have hrest : ∀ spaced : Bool, Follows left right
      (do return Doc.concat [text operator, if spaced then text " " else Doc.nil, ← c.print])
      (do return Doc.concat [text operator, if spaced then text " " else Doc.nil, ← c'.print]) :=
    fun spaced => hc.print.bind fun _ => follows_pure _
  unfold unary
  refine follows_ite (hrest true) ?_
  split
  · rename_i hsign
    have hchars : operator.toList ∈ initials := by
      simp only [Bool.or_eq_true, beq_iff_eq] at hsign
      rcases hsign with rfl | rfl <;> simp [initials]
    exact (follows_startsWith hinitial hchars).bind fun spaced => hrest spaced
  · exact hrest false

theorem follows_update {operator operator' : OperatorToken} (hc : SameChild a b left right c c')
    (htext : operator.text = operator'.text)
    (hside : operator.start < c.node.start ↔ operator'.start < c'.node.start) :
    Follows left right (update operator c) (update operator' c') := by
  unfold update
  simp only [htext, hside]
  exact hc.print.bind fun _ => follows_pure _

theorem follows_ternary (hc : SameChild a b left right c c')
    (hd : SameChild a b left right d d') (he : SameChild a b left right e e') :
    Follows left right (ternary c d e) (ternary c' d' e') :=
  hc.print.bind fun _ => hd.print.bind fun _ => he.print.bind fun _ => follows_pure _

theorem follows_parenthesized (hc : SameChild a b left right c c') :
    Follows left right (parenthesized c) (parenthesized c') :=
  hc.print.bind fun _ => follows_pure _

/-! ## Functions and calls -/

theorem rel_childOfKind?_same (h : SameChildren a b left right children children') (k : Kind) :
    Option.Rel (SameChild a b left right) (childOfKind? k children)
      (childOfKind? k children') := by
  unfold childOfKind?
  induction h with
  | nil => exact .none
  | cons hc _ ih =>
    rw [List.find?_cons, List.find?_cons, hc.kind_eq]
    split
    · exact .some hc
    · exact ih

/-- Both are functions, or neither is. -/
theorem rel_function?_same
    (hwords : ∀ word ∈ ["async", "*"], t.info.tokens.contains word = u.info.tokens.contains word)
    (h : SameChildren a b left right children children') :
    Option.Rel (Follows left right) (function? t children) (function? u children') := by
  unfold function?
  rw [h.length_eq, hwords "async" (by simp), hwords "*" (by simp)]
  refine rel_bind (rel_childOfKind?_same h _) fun parameters parameters' hparameters =>
    rel_bind (rel_childOfKind?_same h _) fun body body' hbody => ?_
  have hname := rel_childOfKind?_same h .identifier
  dsimp only
  generalize childOfKind? .identifier children = name at hname ⊢
  generalize childOfKind? .identifier children' = name' at hname ⊢
  have hrest : ∀ opening named : List Doc, Follows left right
      (do
        let x ← parameters.print
        return Doc.concat (opening ++ named ++ [Doc.groupOf x, text " ", ← body.print]))
      (do
        let x ← parameters'.print
        return Doc.concat (opening ++ named ++ [Doc.groupOf x, text " ", ← body'.print])) :=
    fun opening named => hparameters.print.bind fun _ => hbody.print.bind fun _ => follows_pure _
  cases hname with
  | none => exact rel_bind_left fun _ => .some (hrest _ _)
  | some hname => exact rel_bind_left fun _ => .some (hname.print.bind fun _ => hrest _ _)

theorem follows_arrow (hasync : t.info.tokens.contains "async" = u.info.tokens.contains "async")
    (hc : SameChild a b left right c c') (hd : SameChild a b left right d d') :
    Follows left right (arrow t c d) (arrow u c' d') := by
  unfold arrow
  rw [hasync, hd.kind_eq]
  exact hc.print.bind fun x => hd.print.bind fun _ => follows_pure _

theorem follows_emptyBrackets (hcomments : SameComments a b left right)
    (hof : left.of t.id = right.of u.id) (opening closing : String) :
    Follows left right (emptyBrackets t opening closing) (emptyBrackets u opening closing) := by
  refine (follows_hasDanglingComments hcomments hof).bind fun dangling =>
    follows_ite (follows_pure _) (follows_comments fun cs cs' hleft hright => ?_)
  have hblocks := hcomments.any_eq hleft hright (·.block) (·.block) fun c e hsame => hsame.block
  dsimp only
  rw [Comments.of_eq_of_unmarked hleft, Comments.of_eq_of_unmarked hright, hof, funext hblocks]
  exact follows_ite ((follows_dangling hcomments hof true).bind fun _ => follows_pure _)
    ((follows_dangling hcomments hof false).bind fun _ => follows_pure _)

theorem follows_parameters (hs : SameSettings a b) (hcomments : SameComments a b left right)
    (hof : left.of t.id = right.of u.id) (h : SameChildren a b left right children children') :
    Follows left right (parameters a t children) (parameters b u children') := by
  have hlast := rel_getLast? h
  unfold parameters
  generalize children.getLast? = last at hlast ⊢
  generalize children'.getLast? = last' at hlast ⊢
  cases hlast with
  | none => exact follows_emptyBrackets hcomments hof _ _
  | some hc =>
    dsimp only
    rw [hc.kind_eq, hs.options]
    exact (follows_printAll h).bind fun _ => follows_pure _

theorem isHuggable_eq_same (h : SameChild a b left right c c') : isHuggable c = isHuggable c' := by
  have hbelow := h.node.children
  have hempty : c.node.children.isEmpty = c'.node.children.isEmpty := by
    generalize c.node.children = us at hbelow
    generalize c'.node.children = us' at hbelow
    cases hbelow <;> rfl
  have hbody : (c.node.children.getLast?.any fun body => kindOf body = .statementBlock ||
      kindOf body = .object || kindOf body = .array) =
      c'.node.children.getLast?.any fun body => kindOf body = .statementBlock ||
        kindOf body = .object || kindOf body = .array := by
    have hlast := rel_getLast? hbelow
    generalize c.node.children.getLast? = last at hlast ⊢
    generalize c'.node.children.getLast? = last' at hlast ⊢
    cases hlast with
    | none => rfl
    | some hsame => rw [Option.any_some, Option.any_some, hsame.self.kind]
  rw [isHuggable, isHuggable, h.kind_eq, hempty, hbody]

theorem follows_hugsLast (h : SameChildren a b left right children children') :
    Follows left right (hugsLast children) (hugsLast children') := by
  have hreverse := List.rel_reverse h
  unfold hugsLast
  generalize children.reverse = backwards at hreverse ⊢
  generalize children'.reverse = backwards' at hreverse ⊢
  cases hreverse with
  | nil => exact follows_pure _
  | @cons c c' before before' hc hbefore =>
    have hkinds : (before.head?.all fun d => kind d != kind c) =
        before'.head?.all fun d => kind d != kind c' := by
      rw [hc.kind_eq]
      cases hbefore with
      | nil => rfl
      | cons hd _ => rw [List.head?_cons, List.head?_cons, Option.all_some, Option.all_some, hd.kind_eq]
    dsimp only
    rw [isHuggable_eq_same hc, hkinds]
    exact (follows_hasComments hc.node.self.comments).bind fun _ => follows_pure _

theorem follows_arguments (hs : SameSettings a b) (hcomments : SameComments a b left right)
    (hof : left.of t.id = right.of u.id) (h : SameChildren a b left right children children') :
    Follows left right (arguments a t children) (arguments b u children') := by
  unfold arguments
  rw [h.isEmpty_eq, hs.options]
  refine follows_ite (follows_emptyBrackets hcomments hof _ _) ((follows_hugsLast h).bind fun hug =>
    (follows_printAll h).bind fun docs => ?_)
  exact follows_ite (follows_pure _) (follows_ite (follows_pure _) (follows_pure _))

/-! ## Objects and arrays -/

theorem follows_propertyDocs (h : SameChildren a b left right children children')
    (hlines : List.Forall₂ (SameLine a b) (nodesOf children).dropLast
      (nodesOf children').dropLast) :
    Follows left right (propertyDocs a children) (propertyDocs b children') := by
  induction h with
  | nil => exact follows_pure _
  | @cons c c' rest rest' hc hrest ih =>
    cases hrest with
    | nil => exact hc.print.bind fun _ => follows_pure _
    | cons he hothers =>
      rw [propertyDocs.eq_3 _ c _ (List.cons_ne_nil _ _),
        propertyDocs.eq_3 _ c' _ (List.cons_ne_nil _ _)]
      obtain ⟨hline, hlines⟩ := List.forall₂_cons.mp hlines
      exact hc.print.bind fun d => (follows_blankLineAfter hline).bind fun blank =>
        (ih hlines).bind fun _ => follows_pure _

theorem follows_object (hs : SameSettings a b) (hcomments : SameComments a b left right)
    (hof : left.of t.id = right.of u.id) (h : SameChildren a b left right children children')
    (hlines : List.Forall₂ (SameLine a b) (nodesOf children).dropLast
      (nodesOf children').dropLast)
    (hopened : List.Forall₂ (fun c d => Scan.hasNewlineInRange a.bytes t.start c.start =
      Scan.hasNewlineInRange b.bytes u.start d.start)
      ((nodesOf children).take 1) ((nodesOf children').take 1)) :
    Follows left right (object a t children) (object b u children') := by
  unfold object
  rw [hs.options]
  cases h with
  | nil => exact follows_emptyBrackets hcomments hof _ _
  | cons hc hrest =>
    dsimp only [List.head?_cons]
    rw [(List.forall₂_cons.mp hopened).1]
    exact (follows_propertyDocs (.cons hc hrest) hlines).bind fun _ => follows_pure _

theorem follows_array (hs : SameSettings a b) (hcomments : SameComments a b left right)
    (hof : left.of t.id = right.of u.id) (h : SameChildren a b left right children children') :
    Follows left right (array a t children) (array b u children') := by
  unfold array
  rw [h.isEmpty_eq, hs.options]
  exact follows_ite (follows_emptyBrackets hcomments hof _ _)
    ((follows_printAll h).bind fun _ => follows_pure _)

theorem follows_string (h : string a t = string b u) :
    Follows left right (string a t) (string b u) := by
  rw [← h, string, source]
  exact (follows_lift _).bind fun _ => follows_pure _

/-- Whether an array has holes is asked of the text alone. -/
theorem follows_hasHoles (h : hasHoles a t = hasHoles b u) :
    Follows left right (hasHoles a t) (hasHoles b u) := by
  rw [← h]
  unfold hasHoles
  generalize t.children = us
  generalize t.start + 1 = previous
  generalize true = isFirst
  have hcommas : ∀ start stop, Follows left right (commasBetween a start stop)
      (commasBetween a start stop) := fun start stop => (follows_lift _).bind fun _ => follows_pure _
  induction us generalizing previous isFirst with
  | nil => exact (hcommas _ _).bind fun _ => follows_pure _
  | cons u rest ih =>
    rw [hasHoles.go]
    exact (hcommas _ _).bind fun commas => follows_ite (follows_pure _) (ih _ _)

/-! ## Nodes -/

/-- Both nodes have an operator, with the same text, or neither does. -/
theorem operator_cases (h : SameAnswers a b left right t u) :
    (t.info.operator = none ∧ u.info.operator = none) ∨
      ∃ x y, t.info.operator = some x ∧ u.info.operator = some y ∧ x.text = y.text := by
  have hoperator := h.operator
  cases ht : t.info.operator with
  | none =>
    rw [ht, Option.map_none, eq_comm, Option.map_eq_none_iff] at hoperator
    exact .inl ⟨rfl, hoperator⟩
  | some x =>
    rw [ht, Option.map_some, eq_comm, Option.map_eq_some_iff] at hoperator
    obtain ⟨y, hu, htext⟩ := hoperator
    exact .inr ⟨x, y, rfl, hu, htext.symm⟩

/-- The layout of a node. -/
theorem follows_node (hs : SameSettings a b) (hcomments : SameComments a b left right)
    {path path' : Tree.Path Info} (hself : SameAnswers a b left right path.node path'.node)
    (hdepth : path.node.depth = path'.node.depth)
    (hparent : path.parent?.map kindOf = path'.parent?.map kindOf)
    (h : SameChildren a b left right children children')
    (hnodes : nodesOf children = path.node.children)
    (hnodes' : nodesOf children' = path'.node.children) :
    Follows left right (Printer.node a path children) (Printer.node b path' children') := by
  have hof := hself.comments
  have hnone : Follows left right (pure none : Walk (Option Doc)) (pure none) := follows_pure _
  have hlaid : ∀ {x y : Walk Doc}, Follows left right x y →
      Follows left right (some <$> x) (some <$> y) := fun hxy => hxy.map some
  have hbefore : ∀ {c c' : Child} (word : Doc), SameChild a b left right c c' →
      Follows left right (do return some (Doc.concat [word, ← c.print]))
        (do return some (Doc.concat [word, ← c'.print])) := fun word hc =>
    hc.print.bind fun _ => follows_pure _
  have hafter : ∀ {c c' d d' : Child} (before between after : List Doc),
      SameChild a b left right c c' → SameChild a b left right d d' →
      Follows left right
        (do return some (Doc.concat (before ++ (← c.print) :: between ++ (← d.print) :: after)))
        (do return some (Doc.concat (before ++ (← c'.print) :: between ++ (← d'.print) :: after))) :=
    fun before between after hc hd => hc.print.bind fun _ => hd.print.bind fun _ => follows_pure _
  have hstatements : kindOf path.node = .program ∨ kindOf path.node = .statementBlock →
      List.Forall₂ (SameLine a b) (doing (nodesOf children)).dropLast
        (doing (nodesOf children')).dropLast := by
    rw [hnodes, hnodes']
    exact hself.statements
  unfold Printer.node
  dsimp only
  rw [← hself.kind]
  cases hkind : kindOf path.node with
  | program => exact hlaid (follows_program hcomments hof h (hstatements (.inl hkind)))
  | statementBlock => exact hlaid (follows_block hcomments hof h (hstatements (.inr hkind)))
  | expressionStatement =>
    have hinitial := hself.initial (.inl hkind)
    rw [← hnodes, ← hnodes'] at hinitial
    rcases h with _ | ⟨hc, _ | _⟩
    · exact hnone
    · exact hlaid (follows_expressionStatement hs hc (List.forall₂_cons.mp hinitial).1)
    · exact hnone
  | lexicalDeclaration =>
    have hall := SameChildren.all_kind h .variableDeclarator
    cases h with
    | nil => exact hnone
    | cons hc hrest =>
      dsimp only
      rw [hall]
      exact follows_ite (hlaid (follows_declaration hs (hself.keyword (.inl hkind))
        (.cons hc hrest))) hnone
  | variableDeclaration =>
    have hall := SameChildren.all_kind h .variableDeclarator
    cases h with
    | nil => exact hnone
    | cons hc hrest =>
      dsimp only
      rw [hall]
      exact follows_ite (hlaid (follows_declaration hs (hself.keyword (.inr hkind))
        (.cons hc hrest))) hnone
  | variableDeclarator =>
    rcases h with _ | ⟨hc, _ | ⟨hd, _ | _⟩⟩
    · exact hnone
    · exact hlaid hc.print
    · exact hlaid (follows_assignment hc hd _)
    · exact hnone
  | ifStatement =>
    rcases h with _ | ⟨hc, _ | ⟨hd, _ | ⟨he, _ | _⟩⟩⟩
    · exact hnone
    · exact hnone
    · exact hlaid (follows_ifStatement hcomments hof hc hd .none)
    · exact hlaid (follows_ifStatement hcomments hof hc hd (.some he))
    · exact hnone
  | elseClause =>
    rcases h with _ | ⟨hc, _ | _⟩
    · exact hnone
    · exact hlaid (follows_elseClause hc)
    · exact hnone
  | whileStatement =>
    rcases h with _ | ⟨hc, _ | ⟨hd, _ | _⟩⟩
    · exact hnone
    · exact hnone
    · exact hlaid (follows_whileStatement hc hd)
    · exact hnone
  | returnStatement | throwStatement | breakStatement | continueStatement =>
    rcases h with _ | ⟨hc, _ | _⟩
    · exact hlaid (follows_keywordStatement hs _ .none)
    · exact hlaid (follows_keywordStatement hs _ (.some hc))
    · exact hnone
  | functionDeclaration | generatorFunctionDeclaration | functionExpression | generatorFunction =>
    have hfunction := rel_function?_same hself.words h
    dsimp only
    generalize function? path.node children = doc at hfunction ⊢
    generalize function? path'.node children' = doc' at hfunction ⊢
    cases hfunction with
    | none => exact hnone
    | some hdoc => exact hlaid hdoc
  | arrowFunction =>
    rcases h with _ | ⟨hc, _ | ⟨hd, _ | _⟩⟩
    · exact hnone
    · exact hnone
    · exact hlaid (follows_arrow (hself.words "async" (by simp)) hc hd)
    · exact hnone
  | formalParameters => exact hlaid (follows_parameters hs hcomments hof h)
  | callExpression =>
    rcases h with _ | ⟨hc, _ | ⟨hd, _ | ⟨he, _ | _⟩⟩⟩
    · exact hnone
    · exact hnone
    · exact hafter [] [] [] hc hd
    · dsimp only
      rw [hd.kind_eq]
      exact follows_ite (hafter [] [text "?."] [] hc he) hnone
    · exact hnone
  | newExpression =>
    rcases h with _ | ⟨hc, _ | ⟨hd, _ | _⟩⟩
    · exact hnone
    · exact hbefore _ hc
    · exact hafter [text "new "] [] [] hc hd
    · exact hnone
  | arguments => exact hlaid (follows_arguments hs hcomments hof h)
  | memberExpression =>
    rcases h with _ | ⟨hc, _ | ⟨hd, _ | ⟨he, _ | _⟩⟩⟩
    · exact hnone
    · exact hnone
    · exact hafter [] [text "."] [] hc hd
    · dsimp only
      rw [hd.kind_eq]
      exact follows_ite (hafter [] [text "?."] [] hc he) hnone
    · exact hnone
  | subscriptExpression =>
    rcases h with _ | ⟨hc, _ | ⟨hd, _ | ⟨he, _ | _⟩⟩⟩
    · exact hnone
    · exact hnone
    · exact hafter [] [text "["] [text "]"] hc hd
    · dsimp only
      rw [hd.kind_eq]
      exact follows_ite (hafter [] [text "?.["] [text "]"] hc he) hnone
    · exact hnone
  | binaryExpression =>
    rcases h with _ | ⟨hc, _ | ⟨hd, _ | _⟩⟩
    · exact hnone
    · exact hnone
    · rcases operator_cases hself with ⟨hx, hy⟩ | ⟨x, y, hx, hy, htext⟩
      · rw [hx, hy]
        exact hnone
      · rw [hx, hy]
        dsimp only
        rw [htext]
        exact hlaid (follows_binary hdepth hparent hc _ hd)
    · exact hnone
  | assignmentExpression =>
    rcases h with _ | ⟨hc, _ | ⟨hd, _ | _⟩⟩
    · exact hnone
    · exact hnone
    · exact hlaid (follows_assignment hc hd _)
    · exact hnone
  | augmentedAssignmentExpression =>
    rcases h with _ | ⟨hc, _ | ⟨hd, _ | _⟩⟩
    · exact hnone
    · exact hnone
    · rcases operator_cases hself with ⟨hx, hy⟩ | ⟨x, y, hx, hy, htext⟩
      · rw [hx, hy]
        exact hnone
      · rw [hx, hy]
        dsimp only
        rw [htext]
        exact hlaid (follows_assignment hc hd _)
    · exact hnone
  | unaryExpression =>
    have hinitial := hself.initial (.inr hkind)
    rw [← hnodes, ← hnodes'] at hinitial
    rcases h with _ | ⟨hc, _ | _⟩
    · exact hnone
    · rcases operator_cases hself with ⟨hx, hy⟩ | ⟨x, y, hx, hy, htext⟩
      · rw [hx, hy]
        exact hnone
      · rw [hx, hy]
        dsimp only
        rw [htext]
        exact hlaid (follows_unary hc (List.forall₂_cons.mp hinitial).1 _)
    · exact hnone
  | updateExpression =>
    have hprefixed := hself.prefixed hkind
    rw [← hnodes, ← hnodes'] at hprefixed
    rcases h with _ | ⟨hc, _ | _⟩
    · exact hnone
    · rcases operator_cases hself with ⟨hx, hy⟩ | ⟨x, y, hx, hy, htext⟩
      · rw [hx, hy]
        exact hnone
      · have hside := (List.forall₂_cons.mp hprefixed).1
        rw [isPrefixed, isPrefixed, hx, hy, Option.any_some, Option.any_some] at hside
        rw [hx, hy]
        exact hlaid (follows_update hc htext (decide_eq_decide.mp hside))
    · exact hnone
  | awaitExpression | spreadElement =>
    rcases h with _ | ⟨hc, _ | _⟩
    · exact hnone
    · exact hbefore _ hc
    · exact hnone
  | ternaryExpression =>
    rcases h with _ | ⟨hc, _ | ⟨hd, _ | ⟨he, _ | _⟩⟩⟩
    · exact hnone
    · exact hnone
    · exact hnone
    · exact hlaid (follows_ternary hc hd he)
    · exact hnone
  | parenthesizedExpression =>
    rcases h with _ | ⟨hc, _ | _⟩
    · exact hnone
    · exact hlaid (follows_parenthesized hc)
    · exact hnone
  | object =>
    have hproperties := hself.properties hkind
    have hopened := hself.opened hkind
    rw [← hnodes, ← hnodes'] at hproperties hopened
    exact hlaid (follows_object hs hcomments hof h hproperties hopened)
  | pair =>
    rcases h with _ | ⟨hc, _ | ⟨hd, _ | _⟩⟩
    · exact hnone
    · exact hnone
    · exact hafter [] [text ": "] [] hc hd
    · exact hnone
  | array =>
    exact (follows_hasHoles (hself.holes hkind)).bind fun _ =>
      follows_ite hnone (hlaid (follows_array hs hcomments hof h))
  | string => exact hlaid (follows_string (hself.quotes hkind))
  | _ => exact hnone

theorem follows_copied (hcomments : SameComments a b left right)
    (hself : SameAnswers a b left right t u) (hlayout : ¬ HasLayout left a t) :
    Follows left right (verbatim a t) (verbatim b u) :=
  follows_verbatim hcomments (hself.copied hlayout).1 (hself.copied hlayout).2

theorem follows_print (hs : SameSettings a b) (hcomments : SameComments a b left right)
    {path path' : Tree.Path Info} (hself : SameAnswers a b left right path.node path'.node)
    (hdepth : path.node.depth = path'.node.depth)
    (hparent : path.parent?.map kindOf = path'.parent?.map kindOf)
    (h : SameChildren a b left right children children')
    (hnodes : nodesOf children = path.node.children)
    (hnodes' : nodesOf children' = path'.node.children) :
    Follows left right (Printer.print a path children) (Printer.print b path' children') := by
  refine (follows_hasDanglingComments hcomments hself.comments).bind_reads
    (reads_hasDanglingComments path.node) ?_
  rw [← hself.kind]
  split
  · rename_i hcopied
    rw [Bool.and_eq_true, Bool.not_eq_true'] at hcopied
    exact follows_copied hcomments hself fun hlayout =>
      absurd (hlayout.dangling hcopied.1) (Bool.eq_false_iff.mp hcopied.2)
  · refine (follows_node hs hcomments hself hdepth hparent h hnodes hnodes').bind_of
      fun answer st st₁ _ hrun => ?_
    cases answer with
    | some d => exact follows_pure d
    | none => exact follows_copied hcomments hself fun hlayout =>
        hlayout.layout path.ancestors children hnodes st none st₁ hrun rfl

end Printer

/-! ## Code in templates -/

namespace Embedded

open Printer

variable {children children' : List Child}

/-- Both are templates with a tag, or neither is. -/
theorem rel_tagged?_same (hkind : kindOf t = kindOf u)
    (h : SameChildren a b left right children children') :
    Option.Rel (fun x y => SameChild a b left right x.1 y.1 ∧ SameChild a b left right x.2 y.2)
      (tagged? t children) (tagged? u children') := by
  unfold tagged?
  rw [hkind]
  cases kindOf u with
  | callExpression =>
    rcases h with _ | ⟨hc, _ | ⟨hd, _ | _⟩⟩
    · exact .none
    · exact .none
    · dsimp only
      rw [hc.node.self.kind, hd.node.self.kind]
      split
      · exact .some ⟨hc, hd⟩
      · exact .none
    · exact .none
  | _ => exact .none

/-- Code that is smaller than both texts has the same document. -/
theorem follows_codeDoc? (hs : SameSettings a b) {code : String}
    (ha : code.utf8ByteSize < a.text.utf8ByteSize) (hb : code.utf8ByteSize < b.text.utf8ByteSize) :
    Follows left right (codeDoc? a code) (codeDoc? b code) := by
  intro st st' hstep r st₁ hrun
  have hsame := hs.embedded code ha hb st.lastGroup
  rw [hstep.lastGroup] at hsame
  obtain ⟨st₂, st₃, hget, hrun⟩ := bind_eq_ok.mp hrun
  cases hget
  cases hdoc : a.embedded code (codeOptions a.options) st'.lastGroup with
  | ok doc =>
    simp only [hstep.lastGroup, hdoc] at hrun
    cases hrun
    refine ⟨{ st' with lastGroup := doc.2 }, bind_eq_ok.mpr ⟨st', st', rfl, ?_⟩, hstep.left,
      hstep.right, hstep.printed, rfl⟩
    simp only [← hsame, hdoc]
    rfl
  | error e =>
    cases e <;> simp only [hstep.lastGroup, hdoc] at hrun <;> cases hrun
    refine ⟨st', bind_eq_ok.mpr ⟨st', st', rfl, ?_⟩, hstep⟩
    simp only [← hsame, hdoc]
    rfl

theorem follows_print (hs : SameSettings a b) {path path' : Tree.Path Info}
    (hself : SameAnswers a b left right path.node path'.node)
    (h : SameChildren a b left right children children') :
    Follows left right (Embedded.print a path children) (Embedded.print b path' children') := by
  have hnone : Follows left right (pure none : Walk (Option Doc)) (pure none) := follows_pure _
  have hafter : ∀ {c c' : Child} (rest : List Doc), SameChild a b left right c c' →
      Follows left right (do return some (Doc.concat ((← c.print) :: rest)))
        (do return some (Doc.concat ((← c'.print) :: rest))) := fun rest hc =>
    hc.print.bind fun _ => follows_pure _
  have htagged := rel_tagged?_same hself.kind h
  have hkinds : ∀ tag template, tagged? path.node children = some (tag, template) →
      kindOf path.node = .callExpression ∧ children = [tag, template] ∧
        kindOf tag.node = .identifier ∧ kindOf template.node = .templateString :=
    fun tag template => of_tagged?
  unfold Embedded.print
  generalize tagged? path.node children = parts at htagged hkinds ⊢
  generalize tagged? path'.node children' = parts' at htagged ⊢
  cases htagged with
  | none => exact hnone
  | @some parts parts' hparts =>
    obtain ⟨tag, template⟩ := parts
    obtain ⟨tag', template'⟩ := parts'
    obtain ⟨htag, htemplate⟩ := hparts
    obtain ⟨-, -, hname, hquoted⟩ := hkinds tag template rfl
    have hraw := (htemplate.node.self.copied (not_hasLayout_of_copied (.inl hquoted))).1
    have hword := (htag.node.self.copied (not_hasLayout_of_copied (.inr hname))).1
    refine follows_source_bind hraw fun raw hslice => follows_source_bind hword fun name _ => ?_
    refine follows_ite hnone ?_
    split
    · exact hafter _ htag
    · rename_i hblank
      have hne : contents raw ≠ [] := fun hnil => hblank (by rw [hnil]; rfl)
      refine (follows_codeDoc? hs (size_contents_lt hslice hne)
        (size_contents_lt (hraw ▸ hslice) hne)).bind fun doc => ?_
      cases doc with
      | none => exact hnone
      | some doc => exact hafter _ htag

end Embedded

/-! ## Trees -/

theorem Rereads.depth_eq (h : Rereads a b left right t u) : t.depth = u.depth := by
  induction t using Tree.induction generalizing u with
  | node t ih =>
    have hbelow := (List.forall₂_and_left _ _).mpr ⟨ih, h.children⟩
    have hall : ∀ {ts us : List Node},
        List.Forall₂ (fun t u => (∀ {u}, Rereads a b left right t u → t.depth = u.depth) ∧
          Rereads a b left right t u) ts us → Tree.depthAll ts = Tree.depthAll us := by
      intro ts us hall
      induction hall with
      | nil => rfl
      | cons hc _ ih => rw [Tree.depthAll, Tree.depthAll, hc.1 hc.2, ih]
    obtain ⟨_, _, _, _, _⟩ := t
    obtain ⟨_, _, _, _, _⟩ := u
    rw [Tree.depth, Tree.depth, hall hbelow]

section Trees

open Printer

variable (hs : SameSettings a b) (hcomments : SameComments a b left right)

include hs hcomments

/-- A node with its comments. -/
theorem follows_visit {path path' : Tree.Path Info} {children children' : List Child}
    (hnode : Rereads a b left right path.node path'.node)
    (hparent : path.parent?.map kindOf = path'.parent?.map kindOf)
    (h : SameChildren a b left right children children')
    (hnodes : nodesOf children = path.node.children)
    (hnodes' : nodesOf children' = path'.node.children) :
    Follows left right (visit language a path children) (visit language b path' children') := by
  have hself := hnode.self
  have hprint : Follows left right (printNode language a path children)
      (printNode language b path' children') := by
    refine (follows_isIgnored readsTexts hcomments hself.comments).bind_reads
      (reads_isIgnored path.node) ?_
    split
    · rename_i hignored
      exact follows_copied hcomments hself fun hlayout => by
        rw [hlayout.wanted] at hignored
        cases hignored
    · refine (Embedded.follows_print hs hself h).bind fun answer => ?_
      cases answer with
      | some d => exact follows_pure d
      | none => exact follows_print hs hcomments hself hnode.depth_eq hparent h hnodes hnodes'
  refine hprint.bind fun d => ?_
  rw [if_neg (by simp [hs.cursorLeft]), if_neg (by simp [hs.cursorRight])]
  exact follows_withComments readsTexts hcomments hself.comments d

theorem Rereads.sameChild (h : Rereads a b left right t u) (ancestors ancestors' : List Node)
    (hparent : ancestors.head?.map kindOf = ancestors'.head?.map kindOf) :
    SameChild a b left right (Printable.ofTree language a ancestors t)
      (Printable.ofTree language b ancestors' u) := by
  induction t using Tree.induction generalizing u ancestors ancestors' with
  | node t ih =>
    have hbelow : SameChildren a b left right (JavaScript.below a ancestors t)
        (JavaScript.below b ancestors' u) := by
      rw [JavaScript.below, JavaScript.below, ofTrees_eq, ofTrees_eq]
      refine List.forall₂_map_left_iff.mpr (List.forall₂_map_right_iff.mpr ?_)
      refine ((List.forall₂_and_left _ _).mpr ⟨ih, h.children⟩).imp fun c d hcd => ?_
      exact hcd.1 hcd.2 _ _ (by simp [h.self.kind])
    refine .intro ?_ ?_ ?_
    · rwa [node_ofTree, node_ofTree]
    · rw [print_ofTree, print_ofTree]
      exact follows_visit hs hcomments h hparent hbelow (map_node_below a ancestors t)
        (map_node_below b ancestors' u)
    · rw [children_ofTree, children_ofTree]
      exact hbelow

/-- **The tree of the text that was read again has the same document.** -/
theorem Rereads.follows_printTree (h : Rereads a b left right t u) (alignment : Nat) :
    Follows left right (printTree language a t alignment) (printTree language b u alignment) := by
  unfold printTree
  rw [hs.options]
  exact (h.sameChild hs hcomments [] [] rfl).print.bind fun d => follows_pure _

end Trees

end CodeFormatter.JavaScript
