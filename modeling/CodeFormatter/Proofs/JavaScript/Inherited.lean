import CodeFormatter.Proofs.JavaScript.Outlines
import CodeFormatter.Proofs.Walk.Ends

/-!
# What the documents of a tree inherit

The printers put documents together in a few ways only: one after the other, in groups, indented, as
choices. A property that is closed under these ways (`Closed`) passes from what a printer gets to what
it makes. What it gets is its own words, all on one line, the tokens and operators of the tree, the
copies of nodes, the comments, and the documents of code in templates.

Each printer has one lemma here. It says how the printer ends (`Ends`): with a document that has the
property, or with an error of one of the actions that it calls.

**Theorem (`Heritage.printTree`).** A closed property that all texts of a tree have is one of its
document.
-/

namespace CodeFormatter.JavaScript

/-- Is the text on one line? -/
def isInline (s : String) : Bool := s.toList.all fun c => c != '\n' && c != '\r'

namespace Printer

open CodeFormatter.Tree Walk

/-- What all printers rely on. A printer fails where it does not find a place in the text. -/
structure Inherits (done : Comments) (E : Error → Prop) (Own : String → Prop) (Q : Doc → Prop) :
    Prop where
  closed : Closed Own Q
  words : ∀ s, isInline s = true → Own s
  spaced : ∀ s, Own s → Own (" " ++ s)
  comments : PrintsComments E Q done CommentText.print
  span : E .invalidSpan

variable {done : Comments} {E : Error → Prop} {Own : String → Prop} {Q : Doc → Prop}
  {scene : Scene} {t : Node} {c d : Child} {children : List Child}

/-- A child with the property, as all nodes below it have. -/
inductive Heir (done : Comments) (E : Error → Prop) (Own : String → Prop) (Q : Doc → Prop) :
    Child → Prop
  | intro {c : Child} (print : Ends done E c.print Q)
      (operator : ∀ o ∈ c.node.info.operator, Own o.text)
      (below : ∀ d ∈ c.children, Heir done E Own Q d) : Heir done E Own Q c

theorem Heir.print (h : Heir done E Own Q c) : Ends done E c.print Q := by
  cases h
  assumption

/-- The operator of an operand that is a chain itself. -/
theorem operator_of_operands? {left right : Child} {operator : String}
    (h : operands? c = some (left, operator, right)) :
    ∃ o ∈ c.node.info.operator, operator = o.text := by
  unfold operands? at h
  split at h
  · rename_i o _ _ hoperator
    cases h
    exact ⟨o, hoperator, rfl⟩
  · cases h

theorem ends_printAll (hc : ∀ c ∈ children, Heir done E Own Q c) :
    Ends done E (printAll children) fun docs => ∀ d ∈ docs, Q d :=
  ends_mapM fun c hmem => (hc c hmem).print

namespace Inherits

variable (h : Inherits done E Own Q)

include h

theorem word {s : String} (hs : isInline s = true) : Q (text s) := h.closed.text s (h.words s hs)

theorem dangling (t : Node) (sameIndent : Bool) :
    Ends done E (danglingComments CommentText.print t sameIndent) Q :=
  ends_danglingComments h.closed h.comments t sameIndent

theorem concat (parts : List Doc) (hparts : ∀ d ∈ parts, Q d) : Q (.concat parts) :=
  h.closed.concat parts hparts

/-! ## Pieces -/

theorem terminator (scene : Scene) : Q (terminator scene) :=
  Closed.ite _ (h.word (by decide)) h.closed.nil

theorem trailingComma (wanted : Bool) : Q (trailingComma wanted) :=
  Closed.ite _ (h.closed.choose _ _ (h.word (by decide)) h.closed.nil) h.closed.nil

theorem blankLineAfter (scene : Scene) (t : Node) :
    Ends done E (blankLineAfter scene t) fun _ => True := by
  unfold Printer.blankLineAfter
  split
  · exact ends_pure trivial
  · exact ends_throw h.span

theorem startsWith (scene : Scene) (t : Node) (chars : List Char) :
    Ends done E (startsWith scene t chars) fun _ => True :=
  (ends_source h.span t).bind_pure fun _ _ => trivial

/-! ## Statements -/

theorem statementDocs (hc : ∀ c ∈ children, Heir done E Own Q c) :
    Ends done E (statementDocs scene children) fun docs => ∀ d ∈ docs, Q d := by
  induction children using statementDocs.induct with
  | case1 => exact ends_pure (by simp)
  | case2 last =>
    exact (hc last List.mem_cons_self).print.bind_pure fun d hd => by simpa using hd
  | case3 c rest hrest ih =>
    rw [statementDocs.eq_3 _ _ _ hrest]
    refine (hc c List.mem_cons_self).print.bind fun d hd => ?_
    refine (h.blankLineAfter scene c.node).bind fun blank _ => ?_
    refine (ih fun e he => hc e (List.mem_cons_of_mem c he)).bind_pure fun ds hds => ?_
    cases blank <;> simpa [hd, h.closed.hardline] using hds

theorem statements (hc : ∀ c ∈ children, Heir done E Own Q c) :
    Ends done E (statements scene children) Q :=
  (h.statementDocs fun c hmem => hc c (List.mem_filter.mp hmem).1).map fun _ hds => h.concat _ hds

theorem program (hc : ∀ c ∈ children, Heir done E Own Q c) :
    Ends done E (program scene t children) Q := by
  have hparts : ∀ body dangling : List Doc, (∀ d ∈ body, Q d) → (∀ d ∈ dangling, Q d) →
      Q (.concat (if (body ++ dangling).isEmpty then [] else body ++ dangling ++ [Doc.hardline])) := by
    intro body dangling hbody hdangling
    refine h.concat _ fun d hd => ?_
    split at hd
    · cases hd
    · simp only [List.mem_append, List.mem_singleton] at hd
      rcases hd with (hd | hd) | rfl
      · exact hbody d hd
      · exact hdangling d hd
      · exact h.closed.hardline
  refine (h.statements hc).bind fun body hbody => ?_
  have hbodies : ∀ d ∈ (if body.isEmpty then [] else [body]), Q d := by
    split <;> simp [hbody]
  refine (ends_hasDanglingComments t).bind fun hasDangling _ => ends_ite ?_ ?_
  · refine (h.dangling t true).bind fun comments hcomments => ends_pure (hparts _ _ hbodies ?_)
    split <;> simp [hcomments, h.closed.hardline]
  · exact ends_pure (hparts _ [] hbodies (by simp))

theorem block (hc : ∀ c ∈ children, Heir done E Own Q c) :
    Ends done E (block scene t children) Q := by
  have hparts : ∀ body dangling : List Doc, (∀ d ∈ body, Q d) → (∀ d ∈ dangling, Q d) →
      Q (.concat ([text "\x7b"] ++ body ++ dangling ++ [Doc.hardline, text "\x7d"])) := by
    intro body dangling hbody hdangling
    have hopening : Q (text "\x7b") := h.word (by decide)
    have hclosing : Q (text "\x7d") := h.word (by decide)
    refine h.concat _ fun d hd => ?_
    simp only [List.mem_append, List.mem_cons, List.not_mem_nil, or_false] at hd
    rcases hd with ((rfl | hd) | hd) | rfl | rfl
    · exact hopening
    · exact hbody d hd
    · exact hdangling d hd
    · exact h.closed.hardline
    · exact hclosing
  have hend : ∀ (hasDangling : Bool) (body : List Doc), (∀ d ∈ body, Q d) →
      Ends done E (if hasDangling = true then
          danglingComments CommentText.print t false >>= fun comments =>
            pure (Doc.concat ([text "\x7b"] ++ body ++ [comments] ++ [Doc.hardline, text "\x7d"]))
        else pure (Doc.concat ([text "\x7b"] ++ body ++ [] ++ [Doc.hardline, text "\x7d"]))) Q := by
    intro hasDangling body hbody
    refine ends_ite ?_ (ends_pure (hparts body [] hbody (by simp)))
    exact (h.dangling t false).bind_pure fun comments hcomments =>
      hparts body _ hbody (by simpa using hcomments)
  refine (ends_hasDanglingComments t).bind fun hasDangling _ => ends_ite ?_ ?_
  · exact ends_pure (h.word (by decide))
  · simp only [pure_bind]
    refine ends_ite ((h.statements hc).bind fun body hbody => hend _ _ ?_) (hend _ _ (by simp))
    have hinner := h.closed.indent _ (h.concat [Doc.hardline, body]
      (by simp [hbody, h.closed.hardline]))
    simpa using hinner

theorem expressionStatement (hc : Heir done E Own Q c) :
    Ends done E (expressionStatement scene c) Q := by
  have hsemicolon : Q (text ";") := h.word (by decide)
  refine hc.print.bind fun doc hdoc => ends_ite (ends_pure (h.concat _ ?_)) ?_
  · simp [hdoc, hsemicolon]
  · refine (h.startsWith scene c.node _).bind fun starts _ => ends_ite (ends_pure ?_) (ends_pure hdoc)
    exact h.concat _ (by simp [hdoc, hsemicolon])

theorem keywordStatement {argument : Option Child} (hc : ∀ c ∈ argument, Heir done E Own Q c)
    {keyword : String} (hkeyword : isInline keyword = true) :
    Ends done E (keywordStatement scene keyword argument) Q := by
  have hparts : ∀ ds : List Doc, (∀ d ∈ ds, Q d) →
      Q (.concat ([text keyword] ++ ds ++ [Printer.terminator scene])) := by
    intro ds hds
    refine h.concat _ fun d hd => ?_
    simp only [List.mem_append, List.mem_singleton] at hd
    rcases hd with (rfl | hd) | rfl
    · exact h.word hkeyword
    · exact hds d hd
    · exact h.terminator scene
  unfold Printer.keywordStatement
  cases argument with
  | none => exact ends_pure (hparts [] (by simp))
  | some c =>
    have hspace : Q (text " ") := h.word (by decide)
    exact (hc c rfl).print.bind fun d hd => ends_pure (hparts _ (by simp [hd, hspace]))

theorem furtherVariables (hasValue : Bool) {docs : List Doc} (hdocs : ∀ d ∈ docs, Q d) :
    ∀ d ∈ furtherVariables hasValue docs, Q d := by
  intro d hd
  obtain ⟨e, he, hd⟩ := List.mem_flatMap.mp hd
  simp only [List.mem_cons, List.not_mem_nil, or_false] at hd
  rcases hd with rfl | rfl | rfl
  · exact h.word (by decide)
  · exact Closed.ite _ h.closed.hardline h.closed.space
  · exact hdocs _ he

theorem declaration (hc : ∀ c ∈ children, Heir done E Own Q c)
    (htokens : ∀ s ∈ t.info.tokens, Own s) : Ends done E (declaration scene t children) Q := by
  have hkeyword : Q (text (t.info.tokens.head?.getD "var")) := by
    cases htoken : t.info.tokens.head? with
    | none => exact h.word (by decide)
    | some s => exact h.closed.text s (htokens s (List.mem_of_mem_head? htoken))
  have hspace : Q (text " ") := h.word (by decide)
  refine (ends_printAll hc).bind_pure fun docs hdocs => h.closed.groupOf (h.concat _ ?_)
  have hfirst : Q (docs.head?.getD Doc.nil) := by
    cases docs with
    | nil => exact h.closed.nil
    | cons d rest => exact hdocs d List.mem_cons_self
  have hrest := h.closed.indent _ (h.concat _ (h.furtherVariables
    (children.any fun c => 1 < c.node.children.length)
    fun d hd => hdocs d (List.mem_of_mem_tail hd)))
  simp [hkeyword, hspace, hfirst, hrest, h.terminator scene]

/-! ## Branches and loops -/

theorem clause (hc : Heir done E Own Q c) (forceSpace : Bool) :
    Ends done E (clause c forceSpace) Q := by
  have hspace : Q (text " ") := h.word (by decide)
  unfold Printer.clause
  refine ends_ite (ends_pure (h.word (by decide))) (hc.print.bind fun doc hdoc => ends_ite ?_ ?_)
  · exact ends_pure (h.concat _ (by simp [hdoc, hspace]))
  · exact ends_pure (h.closed.indent _ (h.concat _ (by simp [hdoc, h.closed.space])))

theorem ifStatement {condition consequence : Child} {alternative : Option Child}
    (hcondition : Heir done E Own Q condition) (hconsequence : Heir done E Own Q consequence)
    (halternative : ∀ c ∈ alternative, Heir done E Own Q c) :
    Ends done E (ifStatement t condition consequence alternative) Q := by
  have hspace : Q (text " ") := h.word (by decide)
  refine hcondition.print.bind fun d hd => (h.clause hconsequence false).bind fun e he => ?_
  have hopening : Q (Doc.groupOf (.concat [text "if ", d, e])) := by
    have hif : Q (text "if ") := h.word (by decide)
    exact h.closed.groupOf (h.concat _ (by simp [hif, hd, he]))
  cases alternative with
  | none => exact ends_pure hopening
  | some alternative =>
    have halternative := (halternative alternative rfl).print
    have hline : ∀ b : Bool, Q (if b then text " " else Doc.hardline) := fun b =>
      Closed.ite _ hspace h.closed.hardline
    have hline' : ∀ b : Bool, Q (if b then Doc.hardline else text " ") := fun b =>
      Closed.ite _ h.closed.hardline hspace
    have hparts : ∀ (b : Bool) (dangling : List Doc), (∀ d ∈ dangling, Q d) → ∀ f, Q f →
        Q (.concat ([Doc.groupOf (.concat [text "if ", d, e]),
          if b then text " " else Doc.hardline] ++ dangling ++ [f])) := by
      intro b dangling hdangling f hf
      refine h.concat _ fun x hx => ?_
      simp only [List.mem_append, List.mem_cons, List.not_mem_nil, or_false] at hx
      rcases hx with ((rfl | rfl) | hx) | rfl
      · exact hopening
      · exact hline b
      · exact hdangling x hx
      · exact hf
    refine (ends_hasTrailingLineComment _).bind fun trails _ => ?_
    refine ends_ask.bind fun isLine _ => (ends_hasDanglingComments t).bind fun hasDangling _ => ?_
    simp only [pure_bind]
    refine ends_ite ((h.dangling t true).bind fun comments hcomments => ?_) ?_
    · exact halternative.bind fun f hf =>
        ends_pure (hparts _ _ (List.forall_mem_cons.mpr ⟨hcomments, List.forall_mem_singleton.mpr (hline' _)⟩) f hf)
    · exact halternative.bind fun f hf => ends_pure (hparts _ [] (by simp) f hf)

theorem whileStatement {condition body : Child} (hcondition : Heir done E Own Q condition)
    (hbody : Heir done E Own Q body) : Ends done E (whileStatement condition body) Q := by
  have hwhile : Q (text "while ") := h.word (by decide)
  exact hcondition.print.bind fun d hd => (h.clause hbody false).bind_pure fun e he =>
    h.closed.groupOf (h.concat _ (by simp [hwhile, hd, he]))

theorem elseClause {body : Child} (hbody : Heir done E Own Q body) :
    Ends done E (elseClause body) Q := by
  have helse : Q (text "else") := h.word (by decide)
  exact (h.clause hbody _).bind_pure fun e he =>
    h.concat _ (by simp [helse, h.closed.groupOf he])

/-! ## Assignments and operators -/

theorem assignedValue (hc : Heir done E Own Q c) : Ends done E (assignedValue c) Q := by
  have hspace : Q (text " ") := h.word (by decide)
  refine hc.print.bind fun doc hdoc => ?_
  have hline := h.closed.groupOf (h.closed.indent _ (h.concat [Doc.space, doc]
    (by simp [hdoc, h.closed.space])))
  split
  case h_5 => exact ends_pure (h.concat _ (by simp [hdoc, hspace]))
  all_goals exact ends_pure hline

theorem assignment {target value : Child} {sign : String} (htarget : Heir done E Own Q target)
    (hvalue : Heir done E Own Q value) (hsign : Own sign) :
    Ends done E (assignment target sign value) Q := by
  have hword : Q (text (" " ++ sign)) := h.closed.text _ (h.spaced sign hsign)
  exact htarget.print.bind fun d hd => (h.assignedValue hvalue).bind_pure fun e he =>
    h.concat _ (by simp [hd, hword, he])

/-- A chain of operators goes down into its left operand. -/
theorem chain {fuel : Nat} {left right : Child} {operator : String}
    (hleft : Heir done E Own Q left) (hright : Heir done E Own Q right) (hown : Own operator) :
    Ends done E (chain fuel left operator right) fun docs => ∀ d ∈ docs, Q d := by
  have hparts : ∀ (operator : String) (first : List Doc), Own operator → (∀ d ∈ first, Q d) →
      ∀ e, Q e → ∀ d ∈ first ++ [text (" " ++ operator), Doc.space, e], Q d := by
    intro operator first hown hfirst e he d hd
    simp only [List.mem_append, List.mem_cons, List.not_mem_nil, or_false] at hd
    rcases hd with hd | rfl | rfl | rfl
    · exact hfirst d hd
    · exact h.closed.text _ (h.spaced operator hown)
    · exact h.closed.space
    · exact he
  induction fuel generalizing left operator right with
  | zero =>
    exact hleft.print.bind fun d hd => hright.print.bind_pure fun e he =>
      hparts operator [Doc.groupOf d] hown (by simpa using h.closed.groupOf hd) e he
  | succ fuel ih =>
    have hwhole : Ends done E (do return [Doc.groupOf (← left.print)])
        fun docs : List Doc => ∀ d ∈ docs, Q d :=
      hleft.print.bind_pure fun d hd => by simpa using h.closed.groupOf hd
    have hend : ∀ first : Walk (List Doc), Ends done E first (fun docs => ∀ d ∈ docs, Q d) →
        Ends done E (first >>= fun ds => right.print >>= fun e =>
          pure (ds ++ [text (" " ++ operator), Doc.space, e])) fun docs => ∀ d ∈ docs, Q d := by
      intro first hfirst
      refine hfirst.bind fun ds hds => hright.print.bind fun e he => ends_pure ?_
      exact hparts operator ds hown hds e he
    rw [Printer.chain]
    dsimp only
    cases hoperands : operands? left with
    | none => exact hend _ hwhole
    | some operands =>
      obtain ⟨innerLeft, inner, innerRight⟩ := operands
      obtain ⟨o, ho, rfl⟩ := operator_of_operands? hoperands
      obtain ⟨-, hinner, hbelow⟩ := hleft
      rw [children_of_operands? hoperands] at hbelow
      refine (ends_hasComments left.node).bind fun commented _ => ends_ite ?_ (hend _ hwhole)
      exact hend _ (ih (hbelow _ (by simp)) (hbelow _ (by simp)) (hinner o ho))

theorem binary {path : Tree.Path Info} {left right : Child} {operator : String}
    (hleft : Heir done E Own Q left) (hright : Heir done E Own Q right) (hown : Own operator) :
    Ends done E (binary path left operator right) Q := by
  refine (h.chain hleft hright hown).bind fun parts hparts => ends_ite ?_ ?_
  · exact ends_pure (h.closed.groupOf (h.concat _ hparts))
  · have hfirst : Q (.concat (parts.take 1)) :=
      h.concat _ fun d hd => hparts d (List.mem_of_mem_take hd)
    have hrest : Q (.indent (.concat (parts.drop 1))) :=
      h.closed.indent _ (h.concat _ fun d hd => hparts d (List.mem_of_mem_drop hd))
    exact ends_pure (h.closed.groupOf (h.concat _ (List.forall_mem_cons.mpr
      ⟨hfirst, List.forall_mem_singleton.mpr hrest⟩)))

theorem unary {operator : String} (hc : Heir done E Own Q c) (hown : Own operator) :
    Ends done E (unary scene operator c) Q := by
  have hoperator : Q (text operator) := h.closed.text _ hown
  have hspace : ∀ spaced : Bool, Q (if spaced then text " " else Doc.nil) := fun _ =>
    Closed.ite _ (h.word (by decide)) h.closed.nil
  have hend : ∀ spaced : Bool, Ends done E (c.print >>= fun d => pure (Doc.concat
      [text operator, if spaced then text " " else Doc.nil, d])) Q := fun spaced =>
    hc.print.bind_pure fun d hd => h.concat _ (List.forall_mem_cons.mpr ⟨hoperator,
      List.forall_mem_cons.mpr ⟨hspace spaced, List.forall_mem_singleton.mpr hd⟩⟩)
  unfold Printer.unary
  simp only [pure_bind]
  refine ends_ite (hend true) (ends_ite ?_ (hend false))
  exact (h.startsWith scene c.node _).bind fun spaced _ => hend spaced

theorem update {operator : OperatorToken} (hc : Heir done E Own Q c) (hown : Own operator.text) :
    Ends done E (update operator c) Q := by
  have hoperator : Q (text operator.text) := h.closed.text _ hown
  refine hc.print.bind_pure fun d hd => h.concat _ ?_
  split <;> simp [hd, hoperator]

theorem ternary {condition consequence alternative : Child}
    (hcondition : Heir done E Own Q condition) (hconsequence : Heir done E Own Q consequence)
    (halternative : Heir done E Own Q alternative) :
    Ends done E (ternary condition consequence alternative) Q := by
  have hmark : Q (text "? ") := h.word (by decide)
  have hcolon : Q (text ": ") := h.word (by decide)
  refine hcondition.print.bind fun d hd => hconsequence.print.bind fun e he =>
    halternative.print.bind_pure fun f hf => h.closed.groupOf (h.concat _ ?_)
  have hinner := h.closed.indent _ (h.concat
    [Doc.space, text "? ", e, Doc.space, text ": ", f]
    (by simp [h.closed.space, hmark, he, hcolon, hf]))
  simp [hd, hinner]

theorem parenthesized (hc : Heir done E Own Q c) : Ends done E (parenthesized c) Q := by
  have hopening : Q (text "(") := h.word (by decide)
  have hclosing : Q (text ")") := h.word (by decide)
  refine hc.print.bind_pure fun d hd => h.closed.groupOf (h.concat _ ?_)
  have hinner := h.closed.indent _ (h.concat [Doc.softline, d]
    (by simp [h.closed.softline, hd]))
  simp [hopening, hinner, h.closed.softline, hclosing]

/-! ## Functions and calls -/

theorem function? {doc : Walk Doc} (hc : ∀ c ∈ children, Heir done E Own Q c)
    (hdoc : function? t children = some doc) : Ends done E doc Q := by
  obtain ⟨name, parameters, body, -, -, -, hperm, rfl⟩ := eq_functionOf hdoc
  have hheir : ∀ c ∈ name.toList ++ [parameters, body], Heir done E Own Q c := fun c hmem =>
    hc c (hperm.mem_iff.mpr hmem)
  have hspace : Q (text " ") := h.word (by decide)
  have hopening : ∀ x ∈ functionOpening t, Q x := by
    have hword : ∀ (b : Bool) {s : String}, Q (text s) → ∀ x ∈ if b then [text s] else [], Q x := by
      intro b s hs
      cases b <;> simp [hs]
    simp only [functionOpening, List.forall_mem_append, List.forall_mem_singleton]
    exact ⟨⟨hword _ (h.word (by decide)), h.word (by decide)⟩, hword _ (h.word (by decide))⟩
  have hbehind : ∀ before : List Doc, (∀ x ∈ before, Q x) →
      Ends done E (functionBehind before parameters body) Q := fun before hbefore =>
    (hheir parameters (by simp)).print.bind fun d hd =>
      (hheir body (by simp)).print.bind_pure fun e he => h.concat _ <|
        List.forall_mem_append.mpr ⟨hbefore, by simp [h.closed.groupOf hd, hspace, he]⟩
  cases name with
  | none => exact hbehind _ hopening
  | some c =>
    exact (hheir c (by simp)).print.bind fun d hd => hbehind _ <|
      List.forall_mem_append.mpr ⟨hopening, by simp [hspace, hd]⟩

theorem arrow {parameters body : Child} (hparameters : Heir done E Own Q parameters)
    (hbody : Heir done E Own Q body) : Ends done E (arrow t parameters body) Q := by
  have hspace : Q (text " ") := h.word (by decide)
  refine hparameters.print.bind fun d hd => hbody.print.bind_pure fun e he =>
    h.closed.groupOf (h.concat _ fun x hx => ?_)
  simp only [List.mem_append, List.mem_cons, List.not_mem_nil, or_false] at hx
  rcases hx with (hx | rfl | rfl) | hx
  · split at hx
    · rw [List.mem_singleton.mp hx]
      exact h.word (by decide)
    · cases hx
  · exact hd
  · exact h.word (by decide)
  · split at hx
    · rcases List.mem_pair.mp hx with rfl | rfl
      · exact hspace
      · exact he
    · rw [List.mem_singleton.mp hx]
      exact h.closed.groupOf (h.closed.indent _ (h.concat _ (by simp [h.closed.space, he])))

/-! ## Lists -/

theorem emptyBrackets (t : Node) {opening closing : String} (hopening : isInline opening = true)
    (hclosing : isInline closing = true) (hboth : isInline (opening ++ closing) = true) :
    Ends done E (emptyBrackets t opening closing) Q := by
  have hfirst : Q (text opening) := h.word hopening
  have hlast : Q (text closing) := h.word hclosing
  refine (ends_hasDanglingComments t).bind fun hasDangling _ => ends_ite ?_ ?_
  · exact ends_pure (h.word hboth)
  · refine ends_comments.bind fun cs _ => ends_ite ?_ ?_
    · exact (h.dangling t true).bind_pure fun comments hcomments =>
        h.concat _ (by simp [hfirst, hcomments, hlast])
    · exact (h.dangling t false).bind_pure fun comments hcomments => h.closed.groupOf
        (h.concat _ (by simp [hfirst, hcomments, h.closed.softline, hlast]))

theorem bracketed (opening closing : String) (hopening : isInline opening = true)
    (hclosing : isInline closing = true) {docs : List Doc} (hdocs : ∀ d ∈ docs, Q d)
    {trailing : Doc} (htrailing : Q trailing) (shouldBreak : Bool) :
    Q (bracketed opening closing docs trailing shouldBreak) := by
  have hfirst : Q (text opening) := h.word hopening
  have hlast : Q (text closing) := h.word hclosing
  have hcomma : Q (.concat [text ",", Doc.space]) := by
    have hword : Q (text ",") := h.word (by decide)
    exact h.concat _ (by simp [hword, h.closed.space])
  have hinner := h.closed.indent _ (h.concat
    [Doc.softline, Doc.join (.concat [text ",", Doc.space]) docs]
    (by simp [h.closed.softline, h.closed.join hcomma hdocs]))
  exact h.closed.group _ _ (h.concat _
    (by simp [hfirst, hinner, htrailing, h.closed.softline, hlast]))

theorem parameters (hc : ∀ c ∈ children, Heir done E Own Q c) :
    Ends done E (parameters scene t children) Q := by
  unfold Printer.parameters
  split
  · exact h.emptyBrackets t (by decide) (by decide) (by decide)
  · exact (ends_printAll hc).bind_pure fun docs hdocs =>
      h.bracketed _ _ (by decide) (by decide) hdocs (h.trailingComma _) false

theorem hugged {docs : List Doc} {allBroken : Doc} (hdocs : ∀ d ∈ docs, Q d)
    (hbroken : Q allBroken) : Q (hugged docs allBroken) := by
  have hopening : Q (text "(") := h.word (by decide)
  have hclosing : Q (text ")") := h.word (by decide)
  have hcomma : Q (text ", ") := h.word (by decide)
  have hflat : Q (.concat [text "(", Doc.join (text ", ") docs, text ")"]) :=
    h.concat _ (by simp [hopening, h.closed.join hcomma hdocs, hclosing])
  have hlast : Q (docs.getLast?.getD Doc.nil) := by
    cases hget : docs.getLast? with
    | none => exact h.closed.nil
    | some d => exact hdocs d (List.mem_of_getLast? hget)
  have hlastBroken : Q (.concat ([text "("] ++ (docs.dropLast.flatMap fun d => [d, text ", "])
      ++ [Doc.groupBreaking (docs.getLast?.getD Doc.nil) true, text ")"])) := by
    refine h.concat _ fun d hd => ?_
    simp only [List.mem_append, List.mem_cons, List.not_mem_nil, or_false, List.mem_flatMap] at hd
    rcases hd with (rfl | ⟨e, he, rfl | rfl⟩) | rfl | rfl
    · exact hopening
    · exact hdocs _ (List.dropLast_subset _ he)
    · exact hcomma
    · exact h.closed.group _ true hlast
    · exact hclosing
  have hchoice := h.closed.conditional _ (List.cons_ne_nil _ _) (List.forall_mem_cons.mpr
    ⟨hflat, List.forall_mem_cons.mpr ⟨hlastBroken, List.forall_mem_singleton.mpr hbroken⟩⟩)
  exact h.concat _ (List.forall_mem_cons.mpr
    ⟨Closed.ite _ h.closed.breakParent h.closed.nil, List.forall_mem_singleton.mpr hchoice⟩)

theorem arguments (hc : ∀ c ∈ children, Heir done E Own Q c) :
    Ends done E (arguments scene t children) Q := by
  unfold Printer.arguments
  refine ends_ite (h.emptyBrackets t (by decide) (by decide) (by decide)) ?_
  have hhugs : Ends done E (hugsLast children) fun _ => True := by
    unfold hugsLast
    split
    · exact ends_pure trivial
    · exact (ends_hasComments _).bind_pure fun _ _ => trivial
  refine hhugs.bind fun hug _ => (ends_printAll hc).bind fun docs hdocs => ?_
  have hbroken := fun shouldBreak => h.bracketed "(" ")" (by decide) (by decide) hdocs
    (h.trailingComma (scene.options.trailingComma = .all)) shouldBreak
  exact ends_ite (ends_pure (hbroken false)) (ends_ite (ends_pure (hbroken true))
    (ends_pure (h.hugged hdocs (hbroken true))))

theorem propertyDocs (hc : ∀ c ∈ children, Heir done E Own Q c) :
    Ends done E (propertyDocs scene children) fun docs => ∀ d ∈ docs, Q d := by
  have hcomma : Q (text ",") := h.word (by decide)
  induction children using propertyDocs.induct with
  | case1 => exact ends_pure (by simp)
  | case2 last =>
    exact (hc last List.mem_cons_self).print.bind_pure fun d hd => by simpa using hd
  | case3 c rest hrest ih =>
    rw [propertyDocs.eq_3 _ _ _ hrest]
    refine (hc c List.mem_cons_self).print.bind fun d hd => ?_
    refine (h.blankLineAfter scene c.node).bind fun blank _ => ?_
    refine (ih fun e he => hc e (List.mem_cons_of_mem c he)).bind_pure fun ds hds => ?_
    cases blank <;> simpa [hd, hcomma, h.closed.space, h.closed.hardline] using hds

theorem object (hc : ∀ c ∈ children, Heir done E Own Q c) :
    Ends done E (object scene t children) Q := by
  unfold Printer.object
  split
  · exact h.emptyBrackets t (by decide) (by decide) (by decide)
  · refine (h.propertyDocs hc).bind_pure fun docs hdocs => h.closed.group _ _ (h.concat _ ?_)
    have hopening : Q (text "\x7b") := h.word (by decide)
    have hclosing : Q (text "\x7d") := h.word (by decide)
    have hline : Q (if scene.options.bracketSpacing then Doc.space else Doc.softline) :=
      Closed.ite _ h.closed.space h.closed.softline
    have hinner := h.closed.indent _ (h.concat _ (List.forall_mem_cons.mpr
      ⟨hline, List.forall_mem_singleton.mpr (h.concat _ hdocs)⟩))
    have hend := List.forall_mem_cons.mpr ⟨h.trailingComma (scene.options.trailingComma != .none),
      List.forall_mem_cons.mpr ⟨hline, List.forall_mem_singleton.mpr hclosing⟩⟩
    exact List.forall_mem_cons.mpr ⟨hopening, List.forall_mem_cons.mpr ⟨hinner, hend⟩⟩

theorem array (hc : ∀ c ∈ children, Heir done E Own Q c) :
    Ends done E (array scene t children) Q := by
  unfold Printer.array
  refine ends_ite (h.emptyBrackets t (by decide) (by decide) (by decide)) ?_
  exact (ends_printAll hc).bind_pure fun docs hdocs =>
    h.bracketed _ _ (by decide) (by decide) hdocs (h.trailingComma _) false

theorem commasBetween (scene : Scene) (start stop : Nat) :
    Ends done E (commasBetween scene start stop) fun _ => True :=
  (ends_lift (yields_sliceOrError h.span _ _ _)).bind_pure fun _ _ => trivial

theorem hasHoles (scene : Scene) (t : Node) :
    Ends done E (hasHoles scene t) fun _ => True := by
  have hgo : ∀ (us : List Node) (previous : Nat) (isFirst : Bool),
      Ends done E (hasHoles.go scene t previous isFirst us) fun _ => True := by
    intro us
    induction us with
    | nil =>
      intro previous isFirst
      exact (h.commasBetween scene _ _).bind_pure fun _ _ => trivial
    | cons u rest ih =>
      intro previous isFirst
      exact (h.commasBetween scene _ _).bind fun commas _ =>
        ends_ite (ends_pure trivial) (ih u.stop false)
  exact hgo _ _ _

theorem string (hcopy : ∀ s, sliceOrError scene.text t.start t.stop = .ok s →
      ∀ preferred, preferred = '"' ∨ preferred = '\'' →
        Q (.text (String.ofList (requoted preferred s.toList)))) :
    Ends done E (string scene t) Q := by
  refine (ends_source h.span t).bind_pure fun s hs => hcopy s hs _ ?_
  split
  · exact .inr rfl
  · exact .inl rfl

/-! ## Nodes -/

theorem amid {before between after : List String} {x y : Doc}
    (hwords : ∀ ws ∈ [before, between, after], ∀ w ∈ ws, isInline w = true) (hx : Q x) (hy : Q y) :
    Q (amid before between after x y) := by
  have htexts : ∀ ws ∈ [before, between, after], ∀ d ∈ ws.map text, Q d := by
    intro ws hws d hd
    obtain ⟨w, hw, rfl⟩ := List.mem_map.mp hd
    exact h.word (hwords ws hws w hw)
  refine h.concat _ (List.forall_mem_append.mpr ⟨htexts before (by simp), List.forall_mem_cons.mpr
    ⟨hx, List.forall_mem_append.mpr ⟨htexts between (by simp), List.forall_mem_cons.mpr
      ⟨hy, htexts after (by simp)⟩⟩⟩⟩)

/-- The layout of a node, if it has one. -/
theorem node {path : Tree.Path Info} (hc : ∀ c ∈ children, Heir done E Own Q c)
    (htokens : ∀ s ∈ path.node.info.tokens, Own s)
    (hoperator : ∀ o ∈ path.node.info.operator, Own o.text)
    (hstring : kindOf path.node = .string → ∀ s,
      sliceOrError scene.text path.node.start path.node.stop = .ok s →
      ∀ preferred, preferred = '"' ∨ preferred = '\'' →
        Q (.text (String.ofList (requoted preferred s.toList)))) :
    Ends done E (node scene path children) fun answer => ∀ d ∈ answer, Q d := by
  have hlaid : ∀ {x : Walk Doc}, Ends done E x Q →
      Ends done E (some <$> x) fun answer => ∀ d ∈ answer, Q d := fun hx =>
    hx.map fun d hd => by simpa using hd
  have hnone : Ends done E (pure none) fun answer : Option Doc => ∀ d ∈ answer, Q d :=
    ends_pure (by simp)
  have hpair : ∀ {c d : Child} {before between after : List String},
      (∀ ws ∈ [before, between, after], ∀ w ∈ ws, isInline w = true) → Heir done E Own Q c →
      Heir done E Own Q d → Ends done E
        (c.print >>= fun x => d.print >>= fun y => pure (some (Printer.amid before between after x y)))
        fun answer => ∀ d ∈ answer, Q d := fun hwords hc hd =>
    hc.print.bind fun x hx => hd.print.bind_pure fun y hy => by
      simpa using h.amid hwords hx hy
  have hlayout := nodeLayout_node scene path children
  generalize Printer.node scene path children = laid at hlayout ⊢
  cases hlayout with
  | copied => exact hnone
  | program => exact hlaid (h.program hc)
  | block => exact hlaid (h.block hc)
  | expression => exact hlaid (h.expressionStatement (hc _ (by simp)))
  | declaration => exact hlaid (h.declaration hc htokens)
  | declarator => exact hlaid (hc _ (by simp)).print
  | assignment hsign =>
    refine hlaid (h.assignment (hc _ (by simp)) (hc _ (by simp)) ?_)
    rcases hsign with ⟨-, rfl⟩ | ⟨-, hsign⟩
    · exact h.words _ (by decide)
    · obtain ⟨operator, hmem, rfl⟩ := Option.map_eq_some_iff.mp hsign
      exact hoperator _ hmem
  | branch => exact hlaid (h.ifStatement (hc _ (by simp)) (hc _ (by simp)) (by simp))
  | @fork _ _ alternative =>
    refine hlaid (h.ifStatement (hc _ (by simp)) (hc _ (by simp)) ?_)
    simpa using hc alternative (by simp)
  | otherwise => exact hlaid (h.elseClause (hc _ (by simp)))
  | loop => exact hlaid (h.whileStatement (hc _ (by simp)) (hc _ (by simp)))
  | jump argument hwords =>
    have hinline : ∀ w ∈ jumpWords, isInline w.2 = true := by decide
    exact hlaid (h.keywordStatement (by simpa using hc) (hinline _ hwords))
  | function _ hdoc => exact hlaid (h.function? hc hdoc)
  | arrow => exact hlaid (h.arrow (hc _ (by simp)) (hc _ (by simp)))
  | parameters => exact hlaid (h.parameters hc)
  | arguments => exact hlaid (h.arguments hc)
  | object => exact hlaid (h.object hc)
  | array => exact (h.hasHoles scene path.node).bind fun holes _ => ends_ite hnone (hlaid (h.array hc))
  | pair before between after hwords =>
    have hinline : ∀ e ∈ pairWords, ∀ ws ∈ [e.2.1, e.2.2.1, e.2.2.2], ∀ w ∈ ws, isInline w = true := by decide
    exact hpair (hinline _ hwords) (hc _ (by simp)) (hc _ (by simp))
  | optional between after hwords =>
    have hinline : ∀ e ∈ optionalWords, ∀ ws ∈ [[], e.2.1, e.2.2], ∀ w ∈ ws, isInline w = true := by decide
    exact hpair (hinline _ hwords) (hc _ (by simp)) (hc _ (by simp))
  | single hwords =>
    have hinline : ∀ w ∈ singleWords, isInline w.2 = true := by decide
    refine (hc _ (by simp)).print.bind_pure fun x hx => ?_
    have hword := h.word (hinline _ hwords)
    simpa using h.concat _ (List.forall_mem_cons.mpr ⟨hword, List.forall_mem_singleton.mpr hx⟩)
  | binary _ hmem => exact hlaid (h.binary (hc _ (by simp)) (hc _ (by simp)) (hoperator _ hmem))
  | unary _ hmem => exact hlaid (h.unary (hc _ (by simp)) (hoperator _ hmem))
  | update _ hmem => exact hlaid (h.update (hc _ (by simp)) (hoperator _ hmem))
  | ternary => exact hlaid (h.ternary (hc _ (by simp)) (hc _ (by simp)) (hc _ (by simp)))
  | parenthesized => exact hlaid (h.parenthesized (hc _ (by simp)))
  | string hkind => exact hlaid (h.string (hstring hkind))

end Inherits

/-! ## Trees -/

/-- All texts that a tree brings along have the property. -/
structure Heritage (done : Comments) (E : Error → Prop) (Own : String → Prop) (Q : Doc → Prop)
    (scene : Scene) (root : Node) : Prop extends Inherits done E Own Q where
  tokens : ∀ t ∈ root.nodes, ∀ s ∈ t.info.tokens, Own s
  operators : ∀ t ∈ root.nodes, ∀ o ∈ t.info.operator, Own o.text
  copies : ∀ t ∈ root.nodes, ∀ s, sliceOrError scene.text t.start t.stop = .ok s → Q (.text s)
  strings : ∀ t ∈ root.nodes, kindOf t = .string → ∀ s,
    sliceOrError scene.text t.start t.stop = .ok s → ∀ preferred, preferred = '"' ∨ preferred = '\'' →
      Q (.text (String.ofList (requoted preferred s.toList)))
  /-- The document of code has it, and its errors are as they should be. Code that does not parse is
  copied. -/
  code : ∀ t ∈ root.nodes, ∀ tag template code, HoldsCode scene.text t tag template code →
    Embedded.isPlain code = true → ∀ group, Yields (fun e => (∀ syntaxError, e ≠ .parse syntaxError) → E e)
      (fun r => Q r.1.stripTrailingHardline)
      (scene.embedded (String.ofList code) (Embedded.codeOptions scene.options) group)
  /-- Cursors may stand around any document, or around that of the node they are asked for. -/
  cursor : ∀ t ∈ root.nodes, scene.cursorNode = some t.id →
    (∀ d, Q d → Q (.concat [.cursor, d, .cursor])) ∨ ∀ ancestors children,
      Ends done E (printNode language scene ⟨t, ancestors⟩ children) fun d =>
        Q (.concat [.cursor, d, .cursor])

namespace Heritage

variable {root : Node} (h : Heritage done E Own Q scene root)

include h

theorem codeDoc? {tag template : Node} {code : List Char} (ht : t ∈ root.nodes)
    (hcode : HoldsCode scene.text t tag template code) (hplain : Embedded.isPlain code = true) :
    Ends done E (Embedded.codeDoc? scene (String.ofList code)) fun answer =>
      ∀ d ∈ answer, Q d.stripTrailingHardline := by
  intro st hst
  have hyields := h.code t ht tag template code hcode hplain st.lastGroup
  rw [Embedded.codeDoc?, get_bind]
  cases hrun : scene.embedded (String.ofList code) (Embedded.codeOptions scene.options)
    st.lastGroup with
  | ok r =>
    rw [hrun] at hyields
    exact ⟨hst, fun d hd => Option.mem_some.mp hd ▸ hyields⟩
  | error e =>
    rw [hrun] at hyields
    cases e with
    | parse e => exact ⟨hst, by simp⟩
    | config | commentNotPrinted | notIdempotent | treeChanged | invalidSpan | nestedTooDeep =>
      exact hyields (by simp)

theorem embed {path : Tree.Path Info} (ht : path.node ∈ root.nodes)
    (hnodes : nodesOf children = path.node.children)
    (hc : ∀ c ∈ children, Heir done E Own Q c) :
    Ends done E (Embedded.print scene path children) fun answer => ∀ d ∈ answer, Q d := by
  unfold Embedded.print
  cases htagged : Embedded.tagged? path.node children with
  | none => exact ends_pure (by simp)
  | some parts =>
    obtain ⟨tag, template⟩ := parts
    obtain ⟨hkind, hchildren, htag, htemplate⟩ := Embedded.of_tagged? htagged
    have hprint := (hc tag (by simp [hchildren])).print
    have hquote : Q (.text "`") := h.word (by decide)
    refine (ends_source h.span template.node).bind fun raw hraw => ?_
    refine (ends_source h.span tag.node).bind fun s hs => ?_
    refine ends_cases (fun _ => ends_pure (by simp)) fun hplain => ends_ite ?_ ?_
    · refine hprint.bind_pure fun d hd => ?_
      have hquotes : Q (.text "``") := h.word (by decide)
      simpa using h.concat [d, .text "``"] (by simp [hd, hquotes])
    · simp only [Bool.or_eq_true, Bool.not_eq_true', not_or, Bool.not_eq_false] at hplain
      have hcode : HoldsCode scene.text path.node tag.node template.node (Embedded.contents raw) :=
        ⟨hkind, by rw [← hnodes, hchildren]; rfl, htag, htemplate, ⟨s, hs, hplain.1⟩,
          ⟨raw, hraw, rfl⟩⟩
      refine (h.codeDoc? ht hcode hplain.2).bind_option (fun e he => ?_) (ends_pure (by simp))
      refine hprint.bind_pure fun d hd => ?_
      have hinner := h.closed.indent _ (h.concat [Doc.hardline, e.stripTrailingHardline]
        (by simp [h.closed.hardline, he]))
      simpa using h.concat [d, .text "`",
        .indent (.concat [Doc.hardline, e.stripTrailingHardline]), Doc.hardline, .text "`"]
        (by simp [hd, hquote, hinner, h.closed.hardline])

theorem copy (ht : t ∈ root.nodes) : Ends done E (verbatim scene t) Q :=
  ends_verbatim h.span (h.copies t ht)

theorem printNode {path : Tree.Path Info} (ht : path.node ∈ root.nodes)
    (hnodes : nodesOf children = path.node.children)
    (hc : ∀ c ∈ children, Heir done E Own Q c) :
    Ends done E (printNode language scene path children) Q := by
  refine (ends_isIgnored language path.node).bind fun ignored _ => ends_ite (h.copy ht) ?_
  refine (h.embed ht hnodes hc).bind_option (fun d hd => ends_pure hd) ?_
  refine (ends_hasDanglingComments path.node).bind fun hasDangling _ => ends_ite (h.copy ht) ?_
  exact (h.node hc (h.tokens _ ht) (h.operators _ ht) (h.strings _ ht)).bind_option
    (fun d hd => ends_pure hd) (h.copy ht)

theorem visit {path : Tree.Path Info} (ht : path.node ∈ root.nodes)
    (hnodes : nodesOf children = path.node.children)
    (hc : ∀ c ∈ children, Heir done E Own Q c) :
    Ends done E (visit language scene path children) Q := by
  have hprint := h.printNode ht hnodes hc
  have hcomments : ∀ d, Q d → Ends done E (withComments language scene path.node d) Q :=
    fun d hd => ends_withComments h.closed (h.words _ (by decide)) h.comments path.node hd
  unfold Walk.visit
  by_cases hcursor : scene.cursorNode = some path.node.id
  · have haround : Ends done E (Walk.printNode language scene path children) fun d =>
        Q (.concat [.cursor, d, .cursor]) := by
      rcases h.cursor _ ht hcursor with hcursors | hown
      · exact hprint.mono hcursors
      · exact hown path.ancestors children
    refine haround.bind fun d hd => ?_
    rw [if_pos hcursor]
    exact hcomments _ hd
  · refine hprint.bind fun d hd => ?_
    rw [if_neg hcursor]
    exact hcomments d hd

/-- **Each node hands the property down to its document.** -/
theorem heir (ht : t ∈ root.nodes) (ancestors : List Node) :
    Heir done E Own Q (Printable.ofTree language scene ancestors t) := by
  induction t using Tree.induction generalizing ancestors with
  | node t ih =>
    have hbelow : ∀ c ∈ below scene ancestors t, Heir done E Own Q c := by
      intro p hp
      obtain ⟨c, hc, rfl⟩ := mem_below.mp hp
      exact ih c hc (mem_nodes_trans (mem_nodes_of_mem_children hc (mem_nodes_self c)) ht) _
    refine .intro ?_ ?_ ?_
    · rw [print_ofTree]
      exact Heritage.visit h ht (map_node_below scene ancestors t) hbelow
    · rw [node_ofTree]
      exact h.operators t ht
    · rw [children_ofTree]
      exact hbelow

/-- **A closed property that all texts of a tree have is one of its document**, before the document is
moved to its column. -/
theorem printTree (alignment : Nat) :
    Ends done E (printTree language scene root alignment) fun d => ∃ e, Q e ∧
      d = (if 0 < alignment then
          Doc.alignTo (.concat [Doc.hardline, e]) alignment scene.options.tabWidth
        else e).propagateBreaks :=
  (h.heir (mem_nodes_self root) []).print.bind_pure fun e he => ⟨e, he, rfl⟩

end Heritage

/-! ## Properties of all texts -/

section Everywhere

variable {root : Node}

theorem printsComments_of_closed {Q : Doc → Prop} (hQ : Closed (fun _ => True) Q) :
    PrintsComments (fun _ => True) Q done CommentText.print := by
  intro c _
  unfold CommentText.print
  split
  · refine (yields_sliceOrError trivial _ _ _).bind fun body _ => ?_
    dsimp only
    split
    · refine hQ.concat _ fun d hd => ?_
      simp only [List.mem_cons, List.not_mem_nil, or_false] at hd
      rcases hd with rfl | rfl | rfl
      · exact hQ.text _ trivial
      · refine hQ.join hQ.hardline fun d hd => ?_
        obtain ⟨line, -, rfl⟩ := List.mem_map.mp hd
        exact hQ.text _ trivial
      · exact hQ.text _ trivial
    · exact hQ.text _ trivial
  · exact hQ.text _ trivial

/-- A property that all texts have. Only code and cursors can stand in its way. -/
theorem heritage_of_closed {Q : Doc → Prop} (hQ : Closed (fun _ => True) Q)
    (hcode : ∀ code group, Yields (fun _ => True) (fun r => Q r.1.stripTrailingHardline)
      (scene.embedded code (Embedded.codeOptions scene.options) group))
    (hcursor : ∀ t ∈ root.nodes, scene.cursorNode = some t.id → ∀ ancestors children,
      Ends done (fun _ => True) (printNode language scene ⟨t, ancestors⟩ children) fun d =>
        Q (.concat [.cursor, d, .cursor])) :
    Heritage done (fun _ => True) (fun _ => True) Q scene root where
  closed := hQ
  words := by simp
  spaced := by simp
  comments := printsComments_of_closed hQ
  span := trivial
  tokens := by simp
  operators := by simp
  copies _ _ _ _ := hQ.text _ trivial
  strings _ _ _ _ _ _ _ := hQ.text _ trivial
  code _ _ _ _ _ _ _ group := (hcode _ group).mono (fun _ _ _ => trivial) fun _ h => h
  cursor t ht hid := .inr (hcursor t ht hid)

/-- All documents in the document are of the kinds that printers make. -/
abbrev Printed : Doc → Prop := Doc.Every (isPrinted · = true)

theorem closed_printed : Closed (fun _ => True) Printed :=
  closed_of_children fun _ _ hprinted hchildren => .intro hprinted hchildren

theorem Printed.propagateBreaks {d : Doc} (h : Printed d) : Printed d.propagateBreaks :=
  Doc.Every.propagateBreaks (fun d hd => by cases d <;> exact hd) h

end Everywhere

end Printer

end CodeFormatter.JavaScript
