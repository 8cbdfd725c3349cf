import CodeFormatter.Proofs.CursorNeutrality
import CodeFormatter.Proofs.JavaScript.AnyParser

/-!
# JavaScript printers do not look into documents

Each printer is run in parallel to itself, once with documents of the children that have a cursor in them. It
makes twins of twins. Two of the printers look at what they get: a call whose last argument may be hugged asks
whether an argument must break, which twins agree on, and a program asks whether it is empty, which its
statements are not, for no node below it is (`IsSolid`).

**Theorem (`formatted_withCursor`).** Where the cursor is makes no difference to the layout of a document, nor
to a formatted program.
-/

namespace CodeFormatter.JavaScript

open Walk Doc

variable {scene : Scene} {node offset : Option Nat} {t : Node} {c c' d d' : Printable Info}
  {children children' : List (Printable Info)}

/-- A node below the program. It is not empty. -/
def IsSolid (t : Node) : Prop := kindOf t ≠ .program ∧ t.start < t.stop

instance (t : Node) : Decidable (IsSolid t) := inferInstanceAs (Decidable (_ ∧ _))

namespace Printer

/-- The children with and without a cursor below them. -/
abbrev TwinChildren : List Child → List Child → Prop := List.Forall₂ Printable.Twins

theorem kind_eq (h : Printable.Twins c c') : kind c = kind c' := by rw [kind, kind, h.node]

/-- Twins whose printer writes something itself. -/
theorem parallel_twins {e e' : Doc} {firm : Prop} (h : e.pieces = e'.pieces) (he : e.isEmpty = false)
    (he' : e'.isEmpty = false) : Parallel (pure e : Walk Doc) (pure e') (Twins firm) :=
  parallel_pure (twins_of_pieces_eq h he he')

theorem parallel_printAll (h : TwinChildren children children') :
    Parallel (printAll children) (printAll children') TwinLists := by
  unfold printAll
  induction h with
  | nil => exact parallel_pure .nil
  | cons hc _ ih =>
    rw [List.mapM_cons, List.mapM_cons]
    exact hc.print.bind fun d d' hd => ih.bind fun ds ds' hds => parallel_pure (.cons hd hds)

theorem isEmpty_eq (h : TwinChildren children children') : children.isEmpty = children'.isEmpty := by
  cases h <;> rfl

theorem any_node_eq (h : TwinChildren children children') (p : Node → Bool) :
    (children.any fun c => p c.node) = children'.any fun c => p c.node := by
  have hmap : ∀ cs : List Child, (cs.any fun c => p c.node) = (cs.map (·.node)).any p := fun cs =>
    List.any_map.symm
  rw [hmap, hmap, Printable.Twins.map_node h]

theorem all_node_eq (h : TwinChildren children children') (p : Node → Bool) :
    (children.all fun c => p c.node) = children'.all fun c => p c.node := by
  have hmap : ∀ cs : List Child, (cs.all fun c => p c.node) = (cs.map (·.node)).all p := fun cs =>
    List.all_map.symm
  rw [hmap, hmap, Printable.Twins.map_node h]

/-! ## Statements -/

/-- A hard line or none. -/
theorem twinLists_blank (blank : Bool) :
    TwinLists (if blank then [hardline] else []) (if blank then [hardline] else []) := by
  cases blank
  · exact .nil
  · exact .cons (twins_self rfl) .nil

theorem parallel_statementDocs (h : TwinChildren children children') :
    Parallel (statementDocs scene children) (statementDocs (scene.pointing node offset) children')
      TwinLists := by
  induction h with
  | nil => exact parallel_pure .nil
  | @cons c c' rest rest' hc hrest ih =>
    cases hrest with
    | nil => exact hc.print.bind fun d d' hd => parallel_pure (.cons hd .nil)
    | cons he hothers =>
      rw [statementDocs.eq_3 _ c _ (List.cons_ne_nil _ _), statementDocs.eq_3 _ c' _ (List.cons_ne_nil _ _)]
      refine hc.print.bind fun d d' hd => ?_
      rw [← hc.node]
      refine parallel_bind_left fun blank => ih.bind fun ds ds' hds => parallel_pure (.cons hd ?_)
      exact .cons (twins_self rfl) (List.rel_append (twinLists_blank blank) hds)

theorem twinChildren_meaningful (h : TwinChildren children children') :
    TwinChildren (meaningful children) (meaningful children') :=
  List.rel_filter (fun c c' hc => by simp [kind_eq hc]) h

/-- Statements, and whether there are any. -/
theorem parallel_statements (h : TwinChildren children children') :
    Parallel (statements scene children) (statements (scene.pointing node offset) children')
      fun d d' => d.pieces = d'.pieces ∧ d.isEmpty = d'.isEmpty := by
  refine (parallel_statementDocs (twinChildren_meaningful h)).map fun ds ds' hds => ?_
  rw [pieces_concat, pieces_concat]
  exact ⟨hds.flatMap_pieces, hds.isEmpty.1.trans hds.isEmpty.2.symm⟩

theorem parallel_program (h : TwinChildren children children') :
    Parallel (program scene t children) (program (scene.pointing node offset) t children')
      (Twins False) := by
  unfold program
  refine (parallel_statements h).bind fun body body' hbody => ?_
  obtain ⟨hpieces, hempty⟩ := hbody
  dsimp only
  rw [hempty]
  cases body'.isEmpty with
  | true => exact parallel_self fun _ => ⟨rfl, False.elim⟩
  | false =>
    refine parallel_bind_left fun dangling => ?_
    cases dangling with
    | true => exact parallel_bind_left fun comments => parallel_pure ⟨by simp [hpieces], False.elim⟩
    | false => exact parallel_pure ⟨by simp [hpieces], False.elim⟩

theorem parallel_block (h : TwinChildren children children') :
    Parallel (block scene t children) (block (scene.pointing node offset) t children') (Twins True) := by
  -- What stands between the braces: the statements, if there are any, and comments.
  have hinside : ∀ (dangling : Bool) {body body' : List Doc},
      body.flatMap Doc.pieces = body'.flatMap Doc.pieces →
      Parallel
        (if dangling then do
          let comments ← danglingComments CommentText.print t false
          return .concat ([text "\x7b"] ++ body ++ [comments] ++ [hardline, text "\x7d"])
        else return .concat ([text "\x7b"] ++ body ++ [] ++ [hardline, text "\x7d"]))
        (if dangling then do
          let comments ← danglingComments CommentText.print t false
          return .concat ([text "\x7b"] ++ body' ++ [comments] ++ [hardline, text "\x7d"])
        else return .concat ([text "\x7b"] ++ body' ++ [] ++ [hardline, text "\x7d"])) (Twins True) :=
    fun dangling body body' hbody => parallel_ite
      (parallel_bind_left fun comments => parallel_twins (by simp [hbody]) rfl rfl)
      (parallel_twins (by simp [hbody]) rfl rfl)
  unfold block
  rw [isEmpty_eq (twinChildren_meaningful h)]
  refine parallel_bind_left fun dangling => parallel_ite (parallel_pure (twins_self rfl)) (parallel_ite ?_ ?_)
  · exact (parallel_statements h).bind fun d d' hd => hinside dangling (by simp [condensed, hd.1])
  · exact hinside dangling rfl

/-- An expression as a statement. -/
theorem parallel_expressionStatement (hc : Printable.Twins c c') :
    Parallel (expressionStatement scene c) (expressionStatement (scene.pointing node offset) c')
      (Twins True) := by
  refine hc.print.bind fun d d' hd => ?_
  rw [← hc.node]
  have hsemi : Twins True (concat [d, text ";"]) (concat [d', text ";"]) := hd.between [] [text ";"]
  have hstart : Twins True (concat [text ";", d]) (concat [text ";", d']) := hd.between [text ";"] []
  exact parallel_ite (parallel_pure hsemi)
    (parallel_bind_left fun starts => parallel_ite (parallel_pure hstart) (parallel_pure hd))

theorem parallel_keywordStatement {keyword : String} (hkeyword : keyword.isEmpty = false)
    {argument argument' : Option Child} (h : Option.Rel Printable.Twins argument argument') :
    Parallel (keywordStatement scene keyword argument)
      (keywordStatement (scene.pointing node offset) keyword argument') (Twins True) := by
  have hfirst : ∀ ds, (concat (text keyword :: ds)).isEmpty = false := fun ds =>
    isEmpty_concat_eq_false List.mem_cons_self hkeyword
  cases h with
  | none => exact parallel_twins rfl (hfirst _) (hfirst _)
  | some hc =>
    exact hc.print.bind fun d d' hd => parallel_twins (by simp [hd.pieces]; rfl) (hfirst _) (hfirst _)

theorem parallel_declaration (h : TwinChildren children children') :
    Parallel (declaration scene t children) (declaration (scene.pointing node offset) t children')
      (Twins True) := by
  have hvalue : (children.any fun c => 1 < c.node.children.length) =
      children'.any fun c => 1 < c.node.children.length :=
    any_node_eq h fun u => 1 < u.children.length
  have hfurther : ∀ {ds ds' : List Doc}, TwinLists ds ds' → ∀ hasValue,
      (furtherVariables hasValue ds).flatMap Doc.pieces = (furtherVariables hasValue ds').flatMap Doc.pieces :=
    fun hds hasValue => hds.flatMap_pieces_between [text ",", if hasValue then hardline else space] []
  unfold declaration
  dsimp only
  rw [hvalue]
  refine (parallel_printAll h).bind fun docs docs' hdocs => parallel_twins ?_ rfl rfl
  cases hdocs with
  | nil => rfl
  | cons hd hrest =>
    simp only [groupOf, pieces_group, condensed, pieces_concat, List.flatMap_cons, List.headD_cons, hd.pieces,
      pieces_indent, List.tail_cons, hfurther hrest]
    rfl

/-! ## Branches and loops -/

theorem parallel_clause (hc : Printable.Twins c c') (forceSpace : Bool) :
    Parallel (clause c forceSpace) (clause c' forceSpace) (Twins True) := by
  unfold clause
  rw [kind_eq hc]
  refine parallel_ite (parallel_pure (twins_self rfl)) (hc.print.bind fun d d' hd => parallel_ite ?_ ?_)
  · exact parallel_twins (by simp [hd.pieces]) rfl rfl
  · exact parallel_twins (by simp [condensed, hd.pieces]) rfl rfl

theorem parallel_ifStatement {e e' : Option Child} (hc : Printable.Twins c c') (hd : Printable.Twins d d')
    (he : Option.Rel Printable.Twins e e') :
    Parallel (ifStatement t c d e) (ifStatement t c' d' e') (Twins True) := by
  unfold ifStatement
  refine hc.print.bind fun x x' hx => (parallel_clause hd false).bind fun y y' hy => ?_
  have hopening : (groupOf (concat [text "if ", x, y])).pieces =
      (groupOf (concat [text "if ", x', y'])).pieces := by
    simp [groupOf, condensed, hx.pieces, hy.pieces]
  cases he with
  | none => exact parallel_twins hopening rfl rfl
  | some he =>
    dsimp only
    rw [hd.node, kind_eq hd]
    refine parallel_bind_left fun commented => ?_
    refine parallel_bind_left fun isLine => parallel_bind_left fun dangling => ?_
    refine parallel_ite (parallel_bind_left fun comments => ?_) ?_
    · exact parallel_bind_left fun docs => he.print.bind fun z z' hz =>
        parallel_twins (by simp [hopening, hz.pieces]) rfl rfl
    · exact parallel_bind_left fun docs => he.print.bind fun z z' hz =>
        parallel_twins (by simp [hopening, hz.pieces]) rfl rfl

theorem parallel_whileStatement (hc : Printable.Twins c c') (hd : Printable.Twins d d') :
    Parallel (whileStatement c d) (whileStatement c' d') (Twins True) :=
  hc.print.bind fun x x' hx => (parallel_clause hd false).bind fun y y' hy =>
    parallel_twins (by simp [groupOf, condensed, hx.pieces, hy.pieces]) rfl rfl

theorem parallel_elseClause (hc : Printable.Twins c c') :
    Parallel (elseClause c) (elseClause c') (Twins True) := by
  unfold elseClause
  rw [kind_eq hc]
  exact (parallel_clause hc _).bind fun d d' hd =>
    parallel_twins (by simp [groupOf, condensed, hd.pieces]) rfl rfl

/-! ## Assignments and operators -/

theorem parallel_assignedValue (hc : Printable.Twins c c') :
    Parallel (assignedValue c) (assignedValue c') (Twins True) := by
  unfold assignedValue
  refine hc.print.bind fun d d' hd => ?_
  have hgroup : Twins True (groupOf (.indent (.concat [space, d]))) (groupOf (.indent (.concat [space, d']))) :=
    twins_of_pieces_eq (by simp [groupOf, condensed, hd.pieces]) rfl rfl
  rw [kind_eq hc]
  split
  · exact parallel_pure hgroup
  · exact parallel_pure hgroup
  · exact parallel_pure hgroup
  · exact parallel_pure hgroup
  · exact parallel_pure (hd.between [text " "] [])

theorem parallel_assignment (hc : Printable.Twins c c') (hd : Printable.Twins d d') (sign : String) :
    Parallel (assignment c sign d) (assignment c' sign d') (Twins True) :=
  hc.print.bind fun x x' hx => (parallel_assignedValue hd).bind fun y y' hy =>
    parallel_twins (by simp [hx.pieces, hy.pieces]) (isEmpty_concat_eq_false List.mem_cons_self hx.left)
      (isEmpty_concat_eq_false List.mem_cons_self hx.right)

/-- An operation on two nodes is one on their twins. -/
theorem rel_operands? (hc : Printable.Twins c c') :
    Option.Rel (fun x y => Printable.Twins x.1 y.1 ∧ x.2.1 = y.2.1 ∧ Printable.Twins x.2.2 y.2.2)
      (operands? c) (operands? c') := by
  have hbelow := hc.children
  unfold operands?
  rw [kind_eq hc, hc.node]
  generalize c.children = cs at hbelow ⊢
  generalize c'.children = cs' at hbelow ⊢
  cases kind c' with
  | binaryExpression =>
    rcases hbelow with _ | ⟨hleft, _ | ⟨hright, _ | _⟩⟩
    · exact .none
    · exact .none
    · cases (Printable.node c').info.operator with
      | none => exact .none
      | some operator => exact .some ⟨hleft, rfl, hright⟩
    · exact .none
  | _ => exact .none

theorem parallel_chain (fuel : Nat) (hc : Printable.Twins c c') (operator : String)
    (hd : Printable.Twins d d') :
    Parallel (chain fuel c operator d) (chain fuel c' operator d')
      fun ds ds' => ds.map Doc.pieces = ds'.map Doc.pieces := by
  induction fuel generalizing c c' d d' operator with
  | zero =>
    exact hc.print.bind fun x x' hx => hd.print.bind fun y y' hy => parallel_pure
      (by simp [groupOf, condensed, hx.pieces, hy.pieces])
  | succ fuel ih =>
    have hend : ∀ {first first' : List Doc}, first.map Doc.pieces = first'.map Doc.pieces →
        Parallel (do return first ++ [text (" " ++ operator), space, ← d.print])
          (do return first' ++ [text (" " ++ operator), space, ← d'.print])
          fun ds ds' => ds.map Doc.pieces = ds'.map Doc.pieces := fun hfirst =>
      hd.print.bind fun y y' hy => parallel_pure (by simp [hfirst, hy.pieces])
    have hwhole : Parallel (do return [groupOf (← c.print)]) (do return [groupOf (← c'.print)])
        fun ds ds' : List Doc => ds.map Doc.pieces = ds'.map Doc.pieces :=
      hc.print.bind fun x x' hx => parallel_pure (by simp [groupOf, condensed, hx.pieces])
    rw [chain, chain]
    dsimp only
    have hoperands := rel_operands? hc
    generalize operands? c = operands at hoperands ⊢
    generalize operands? c' = operands' at hoperands ⊢
    cases hoperands with
    | none => exact hwhole.bind fun ds ds' hds => hend hds
    | @some operands operands' h =>
      obtain ⟨left, inner, right⟩ := operands
      obtain ⟨left', inner', right'⟩ := operands'
      obtain ⟨hleft, hinner, hright⟩ := h
      obtain rfl : inner = inner' := hinner
      rw [← hc.node]
      refine parallel_bind_left fun commented => parallel_ite ?_ ?_
      · exact (ih hleft inner hright).bind fun ds ds' hds => hend hds
      · exact hwhole.bind fun ds ds' hds => hend hds

theorem parallel_binary {path : Tree.Path Info} (hc : Printable.Twins c c') (operator : String)
    (hd : Printable.Twins d d') :
    Parallel (binary path c operator d) (binary path c' operator d') (Twins True) := by
  refine (parallel_chain _ hc operator hd).bind fun ds ds' hds => parallel_ite ?_ ?_
  · exact parallel_twins (by simp [groupOf, condensed, List.flatMap_def, hds]) rfl rfl
  · refine parallel_twins ?_ rfl rfl
    simp [groupOf, condensed, List.flatMap_def, List.map_take, hds]

theorem parallel_unary (hc : Printable.Twins c c') (operator : String) :
    Parallel (unary scene operator c) (unary (scene.pointing node offset) operator c') (Twins True) := by
  have hrest : ∀ spaced : Bool,
      Parallel (do return .concat [text operator, if spaced then text " " else Doc.nil, ← c.print])
        (do return .concat [text operator, if spaced then text " " else Doc.nil, ← c'.print]) (Twins True) :=
    fun spaced => hc.print.bind fun d d' hd =>
      parallel_pure (hd.between [text operator, if spaced then text " " else Doc.nil] [])
  unfold unary
  rw [← hc.node]
  exact parallel_ite (hrest true)
    (parallel_ite (parallel_bind_left fun spaced => hrest spaced) (hrest false))

theorem parallel_update (hc : Printable.Twins c c') (operator : OperatorToken) :
    Parallel (update operator c) (update operator c') (Twins True) := by
  unfold update
  rw [← hc.node]
  refine hc.print.bind fun d d' hd => ?_
  split
  · exact parallel_pure (hd.between [text operator.text] [])
  · exact parallel_pure (hd.between [] [text operator.text])

theorem parallel_ternary {e e' : Child} (hc : Printable.Twins c c') (hd : Printable.Twins d d')
    (he : Printable.Twins e e') : Parallel (ternary c d e) (ternary c' d' e') (Twins True) :=
  hc.print.bind fun x x' hx => hd.print.bind fun y y' hy => he.print.bind fun z z' hz =>
    parallel_twins (by simp [groupOf, condensed, hx.pieces, hy.pieces, hz.pieces]) rfl rfl

theorem parallel_parenthesized (hc : Printable.Twins c c') :
    Parallel (parenthesized c) (parenthesized c') (Twins True) :=
  hc.print.bind fun d d' hd => parallel_twins (by simp [groupOf, condensed, hd.pieces]) rfl rfl

/-! ## Functions and calls -/

theorem rel_childOfKind? (h : TwinChildren children children') (k : Kind) :
    Option.Rel Printable.Twins (childOfKind? k children) (childOfKind? k children') := by
  unfold childOfKind?
  induction h with
  | nil => exact .none
  | cons hc _ ih =>
    rw [List.find?_cons, List.find?_cons, kind_eq hc]
    split
    · exact .some hc
    · exact ih

/-- Both are functions, or neither is. -/
theorem rel_function? (h : TwinChildren children children') :
    Option.Rel (fun x y => Parallel x y (Twins True)) (function? t children) (function? t children') := by
  unfold function?
  rw [h.length_eq]
  refine rel_bind (rel_childOfKind? h _) fun parameters parameters' hparameters =>
    rel_bind (rel_childOfKind? h _) fun body body' hbody => ?_
  have hname := rel_childOfKind? h .identifier
  dsimp only
  generalize childOfKind? .identifier children = name at hname ⊢
  generalize childOfKind? .identifier children' = name' at hname ⊢
  have hrest : ∀ (opening : List Doc) {named named' : List Doc},
      named.flatMap Doc.pieces = named'.flatMap Doc.pieces →
      Parallel
        (do
          let x ← parameters.print
          return .concat (opening ++ named ++ [groupOf x, text " ", ← body.print]))
        (do
          let x ← parameters'.print
          return .concat (opening ++ named' ++ [groupOf x, text " ", ← body'.print])) (Twins True) :=
    fun opening named named' hnamed =>
      hparameters.print.bind fun x x' hx => hbody.print.bind fun y y' hy => parallel_twins
        (by simp [groupOf, condensed, hnamed, hx.pieces, hy.pieces])
        (isEmpty_concat_eq_false (d := text " ") (by simp) rfl)
        (isEmpty_concat_eq_false (d := text " ") (by simp) rfl)
  cases hname with
  | none => exact rel_bind_left fun _ => .some (hrest _ rfl)
  | some hname =>
    refine rel_bind_left fun _ => .some (hname.print.bind fun z z' hz => hrest _ ?_)
    simp [hz.pieces]

theorem parallel_arrow (hc : Printable.Twins c c') (hd : Printable.Twins d d') :
    Parallel (arrow t c d) (arrow t c' d') (Twins True) := by
  unfold arrow
  rw [kind_eq hd]
  refine hc.print.bind fun x x' hx => hd.print.bind fun y y' hy => parallel_twins ?_ rfl rfl
  cases staysAfterArrow (kind d') <;> simp [groupOf, condensed, hx.pieces, hy.pieces]

/-- Brackets around nothing do not depend on the cursor. -/
theorem parallel_emptyBrackets {opening closing : String} (hopening : (text opening).isEmpty = false)
    (hboth : (text (opening ++ closing)).isEmpty = false) :
    Parallel (emptyBrackets t opening closing) (emptyBrackets t opening closing) (Twins True) := by
  refine parallel_bind_left fun dangling => parallel_ite (parallel_pure (twins_self hboth))
    (parallel_bind_left fun cs => parallel_ite (parallel_bind_left fun comments => ?_)
      (parallel_bind_left fun comments => parallel_pure (twins_self rfl)))
  exact parallel_pure (twins_self (isEmpty_concat_eq_false List.mem_cons_self hopening))

theorem twins_bracketed {ds ds' : List Doc} (h : TwinLists ds ds') (opening closing : String)
    (trailing : Doc) (shouldBreak : Bool) :
    Twins True (bracketed opening closing ds trailing shouldBreak)
      (bracketed opening closing ds' trailing shouldBreak) := by
  refine twins_of_pieces_eq ?_ rfl rfl
  simp [bracketed, groupBreaking, join, condensed, h.flatMap_pieces_intersperse]

theorem parallel_parameters (h : TwinChildren children children') :
    Parallel (parameters scene t children) (parameters (scene.pointing node offset) t children')
      (Twins True) := by
  have hlast := rel_getLast? h
  unfold parameters
  generalize children.getLast? = last at hlast ⊢
  generalize children'.getLast? = last' at hlast ⊢
  cases hlast with
  | none => exact parallel_emptyBrackets rfl rfl
  | some hc =>
    dsimp only
    rw [kind_eq hc]
    exact (parallel_printAll h).bind fun ds ds' hds => parallel_pure (twins_bracketed hds _ _ _ _)

theorem isHuggable_eq (h : Printable.Twins c c') : isHuggable c = isHuggable c' := by
  rw [isHuggable, isHuggable, kind_eq h, h.node]

/-- Whether the last argument is hugged depends on the nodes. -/
theorem hugsLast_eq (h : TwinChildren children children') : hugsLast children = hugsLast children' := by
  have hreverse := List.rel_reverse h
  unfold hugsLast
  generalize children.reverse = backwards at hreverse ⊢
  generalize children'.reverse = backwards' at hreverse ⊢
  cases hreverse with
  | nil => rfl
  | cons hc hbefore =>
    have hhuggable := isHuggable_eq hc
    have hkinds := kind_eq hc
    dsimp only
    rw [hc.node, hhuggable, hkinds]
    cases hbefore with
    | nil => rfl
    | cons hd _ => rw [List.head?_cons, List.head?_cons, Option.all_some, Option.all_some, kind_eq hd]

/-- The three layouts of a call. -/
theorem twins_hugged {ds ds' : List Doc} (h : TwinLists ds ds') {broken broken' : Doc}
    (hbroken : broken.pieces = broken'.pieces) : Twins True (hugged ds broken) (hugged ds' broken') := by
  have hflat : (concat [text "(", join (text ", ") ds, text ")"]).pieces =
      (concat [text "(", join (text ", ") ds', text ")"]).pieces := by
    simp [join, h.flatMap_pieces_intersperse]
  have hbefore : (ds.dropLast.flatMap fun d => [d, text ", "]).flatMap Doc.pieces =
      (ds'.dropLast.flatMap fun d => [d, text ", "]).flatMap Doc.pieces :=
    h.dropLast.flatMap_pieces_between [] [text ", "]
  have hlast : (ds.getLast?.getD Doc.nil).pieces = (ds'.getLast?.getD Doc.nil).pieces := by
    have hrel := rel_getLast? h
    generalize ds.getLast? = last at hrel ⊢
    generalize ds'.getLast? = last' at hrel ⊢
    cases hrel with
    | none => rfl
    | some hd => exact hd.pieces
  have hfirm : ∀ (d : Doc) (states : List Doc), (concat [d, conditional states]).isEmpty = false :=
    fun d states => isEmpty_concat_eq_false (d := conditional states) (by simp) rfl
  refine twins_of_pieces_eq ?_ (hfirm _ _) (hfirm _ _)
  rw [hugged, hugged, h.anyWillBreak]
  simp [conditional, groupBreaking, condensed, hflat, hbefore, hlast, hbroken]

theorem parallel_arguments (h : TwinChildren children children') :
    Parallel (arguments scene t children) (arguments (scene.pointing node offset) t children')
      (Twins True) := by
  unfold arguments
  rw [isEmpty_eq h, hugsLast_eq h]
  refine parallel_ite (parallel_emptyBrackets rfl rfl) (parallel_bind_left fun hug =>
    (parallel_printAll h).bind fun ds ds' hds => ?_)
  have hbroken : ∀ shouldBreak, Twins True
      (bracketed "(" ")" ds (trailingComma (scene.options.trailingComma = .all)) shouldBreak)
      (bracketed "(" ")" ds' (trailingComma (scene.options.trailingComma = .all)) shouldBreak) :=
    twins_bracketed hds _ _ _
  refine parallel_ite (parallel_pure (hbroken false)) ?_
  rw [hds.dropLast.anyWillBreak]
  exact parallel_ite (parallel_pure (hbroken true)) (parallel_pure (twins_hugged hds (hbroken true).pieces))

/-! ## Objects and arrays -/

theorem parallel_propertyDocs (h : TwinChildren children children') :
    Parallel (propertyDocs scene children) (propertyDocs (scene.pointing node offset) children') TwinLists := by
  induction h with
  | nil => exact parallel_pure .nil
  | @cons c c' rest rest' hc hrest ih =>
    cases hrest with
    | nil => exact hc.print.bind fun d d' hd => parallel_pure (.cons hd .nil)
    | cons he hothers =>
      rw [propertyDocs.eq_3 _ c _ (List.cons_ne_nil _ _), propertyDocs.eq_3 _ c' _ (List.cons_ne_nil _ _)]
      refine hc.print.bind fun d d' hd => ?_
      rw [← hc.node]
      refine parallel_bind_left fun blank => ih.bind fun ds ds' hds => parallel_pure (.cons hd ?_)
      exact .cons (twins_self rfl) (.cons (twins_self rfl) (List.rel_append (twinLists_blank blank) hds))

theorem parallel_object (h : TwinChildren children children') :
    Parallel (object scene t children) (object (scene.pointing node offset) t children') (Twins True) := by
  unfold object
  cases h with
  | nil => exact parallel_emptyBrackets rfl rfl
  | cons hc hrest =>
    dsimp only [List.head?_cons]
    rw [hc.node]
    refine (parallel_propertyDocs (.cons hc hrest)).bind fun ds ds' hds => parallel_twins ?_ rfl rfl
    simp only [groupBreaking, pieces_group, condensed, pieces_concat, List.flatMap_cons, List.flatMap_nil,
      pieces_indent, hds.flatMap_pieces]
    rfl

theorem hasHoles_pointing : hasHoles (scene.pointing node offset) t = hasHoles scene t := by
  have hgo : ∀ (us : List Node) previous isFirst, hasHoles.go (scene.pointing node offset) t previous isFirst us =
      hasHoles.go scene t previous isFirst us := by
    intro us
    induction us with
    | nil => exact fun _ _ => rfl
    | cons u rest ih =>
      intro previous isFirst
      rw [hasHoles.go, hasHoles.go, ih]
      rfl
  exact hgo _ _ _

theorem parallel_array (h : TwinChildren children children') :
    Parallel (array scene t children) (array (scene.pointing node offset) t children') (Twins True) := by
  unfold array
  rw [isEmpty_eq h]
  exact parallel_ite (parallel_emptyBrackets rfl rfl)
    ((parallel_printAll h).bind fun ds ds' hds => parallel_pure (twins_bracketed hds _ _ _ _))

/-! ## Strings -/

theorem requoted_ne_nil {preferred : Char} {raw : List Char} (h : raw ≠ []) : requoted preferred raw ≠ [] := by
  cases raw with
  | nil => exact absurd rfl h
  | cons quote rest =>
    rw [requoted]
    split <;> exact List.cons_ne_nil _ _

theorem parallel_string {firm : Prop} (hfirm : firm → t.start < t.stop) :
    Parallel (string scene t) (string (scene.pointing node offset) t) (Twins firm) := by
  refine (parallel_lift (sliceOrError scene.text t.start t.stop)).bind fun raw raw' hraw => ?_
  obtain ⟨rfl, hraw⟩ := hraw
  refine parallel_pure ⟨rfl, fun hf => ?_⟩
  have hraw : raw.toList ≠ [] := by simpa using isEmpty_of_sliceOrError (hfirm hf) hraw
  have hne : ∀ preferred, (String.ofList (requoted preferred raw.toList)).isEmpty = false :=
    fun preferred => by simpa using requoted_ne_nil hraw
  exact ⟨hne _, hne _⟩

/-! ## Nodes -/

theorem parallel_node {path : Tree.Path Info} (h : TwinChildren children children') :
    Parallel (Printer.node scene path children) (Printer.node (scene.pointing node offset) path children')
      (Option.Rel (Twins (IsSolid path.node))) := by
  have hnone : Parallel (pure none) (pure none) (Option.Rel (Twins (IsSolid path.node))) :=
    parallel_pure .none
  have hlaid : ∀ {x y : Walk Doc}, Parallel x y (Twins True) →
      Parallel (some <$> x) (some <$> y) (Option.Rel (Twins (IsSolid path.node))) :=
    fun hxy => hxy.map fun d d' hd => .some hd.of_firm
  have hbefore : ∀ {c c' : Child} (word : Doc), Printable.Twins c c' →
      Parallel (do return some (.concat [word, ← c.print])) (do return some (.concat [word, ← c'.print]))
        (Option.Rel (Twins (IsSolid path.node))) := fun word hc =>
    hc.print.bind fun x x' hx => parallel_pure (.some (hx.between [word] []).of_firm)
  have hafter : ∀ {c c' d d' : Child} (before between after : List Doc), Printable.Twins c c' →
      Printable.Twins d d' →
      Parallel
        (do return some (.concat (before ++ (← c.print) :: between ++ (← d.print) :: after)))
        (do return some (.concat (before ++ (← c'.print) :: between ++ (← d'.print) :: after)))
        (Option.Rel (Twins (IsSolid path.node))) := fun before between after hc hd =>
    hc.print.bind fun x x' hx => hd.print.bind fun y y' hy => parallel_pure (.some (twins_of_pieces_eq
      (by simp [hx.pieces, hy.pieces]) (isEmpty_concat_eq_false (by simp) hx.left)
      (isEmpty_concat_eq_false (by simp) hx.right)))
  have hargument : ∀ {cs cs' : List Child}, TwinChildren cs cs' →
      Option.Rel Printable.Twins cs.head? cs'.head? := fun hcs => by
    cases hcs with
    | nil => exact .none
    | cons hc _ => exact .some hc
  unfold Printer.node
  dsimp only
  cases hkind : kindOf path.node with
  | program =>
    refine (parallel_program h).map fun d d' hd => .some ⟨hd.pieces, fun hsolid => absurd hkind hsolid.1⟩
  | statementBlock => exact hlaid (parallel_block h)
  | expressionStatement =>
    rcases h with _ | ⟨hc, _ | _⟩
    · exact hnone
    · exact hlaid (parallel_expressionStatement hc)
    · exact hnone
  | lexicalDeclaration | variableDeclaration =>
    have hall : (children.all fun c => kind c = .variableDeclarator) =
        children'.all fun c => kind c = .variableDeclarator :=
      all_node_eq h fun u => kindOf u = .variableDeclarator
    cases h with
    | nil => exact hnone
    | cons hc hrest =>
      dsimp only
      rw [hall]
      exact parallel_ite (hlaid (parallel_declaration (.cons hc hrest))) hnone
  | variableDeclarator =>
    rcases h with _ | ⟨hc, _ | ⟨hd, _ | _⟩⟩
    · exact hnone
    · exact hlaid hc.print
    · exact hlaid (parallel_assignment hc hd _)
    · exact hnone
  | ifStatement =>
    rcases h with _ | ⟨hc, _ | ⟨hd, _ | ⟨he, _ | _⟩⟩⟩
    · exact hnone
    · exact hnone
    · exact hlaid (parallel_ifStatement hc hd .none)
    · exact hlaid (parallel_ifStatement hc hd (.some he))
    · exact hnone
  | elseClause =>
    rcases h with _ | ⟨hc, _ | _⟩
    · exact hnone
    · exact hlaid (parallel_elseClause hc)
    · exact hnone
  | whileStatement =>
    rcases h with _ | ⟨hc, _ | ⟨hd, _ | _⟩⟩
    · exact hnone
    · exact hnone
    · exact hlaid (parallel_whileStatement hc hd)
    · exact hnone
  | returnStatement | throwStatement | breakStatement | continueStatement =>
    rcases h with _ | ⟨hc, _ | _⟩
    · exact hlaid (parallel_keywordStatement rfl .none)
    · exact hlaid (parallel_keywordStatement rfl (.some hc))
    · exact hnone
  | functionDeclaration | generatorFunctionDeclaration | functionExpression | generatorFunction =>
    have hfunction := rel_function? (t := path.node) h
    dsimp only
    generalize function? path.node children = doc at hfunction ⊢
    generalize function? path.node children' = doc' at hfunction ⊢
    cases hfunction with
    | none => exact hnone
    | some hdoc => exact hlaid hdoc
  | arrowFunction =>
    rcases h with _ | ⟨hc, _ | ⟨hd, _ | _⟩⟩
    · exact hnone
    · exact hnone
    · exact hlaid (parallel_arrow hc hd)
    · exact hnone
  | formalParameters => exact hlaid (parallel_parameters h)
  | callExpression =>
    rcases h with _ | ⟨hc, _ | ⟨hd, _ | ⟨he, _ | _⟩⟩⟩
    · exact hnone
    · exact hnone
    · exact hafter [] [] [] hc hd
    · dsimp only
      rw [kind_eq hd]
      exact parallel_ite (hafter [] [text "?."] [] hc he) hnone
    · exact hnone
  | newExpression =>
    rcases h with _ | ⟨hc, _ | ⟨hd, _ | _⟩⟩
    · exact hnone
    · exact hbefore _ hc
    · exact hafter [text "new "] [] [] hc hd
    · exact hnone
  | arguments => exact hlaid (parallel_arguments h)
  | memberExpression =>
    rcases h with _ | ⟨hc, _ | ⟨hd, _ | ⟨he, _ | _⟩⟩⟩
    · exact hnone
    · exact hnone
    · exact hafter [] [text "."] [] hc hd
    · dsimp only
      rw [kind_eq hd]
      exact parallel_ite (hafter [] [text "?."] [] hc he) hnone
    · exact hnone
  | subscriptExpression =>
    rcases h with _ | ⟨hc, _ | ⟨hd, _ | ⟨he, _ | _⟩⟩⟩
    · exact hnone
    · exact hnone
    · exact hafter [] [text "["] [text "]"] hc hd
    · dsimp only
      rw [kind_eq hd]
      exact parallel_ite (hafter [] [text "?.["] [text "]"] hc he) hnone
    · exact hnone
  | binaryExpression =>
    rcases h with _ | ⟨hc, _ | ⟨hd, _ | _⟩⟩
    · exact hnone
    · exact hnone
    · cases path.node.info.operator with
      | none => exact hnone
      | some operator => exact hlaid (parallel_binary hc _ hd)
    · exact hnone
  | assignmentExpression =>
    rcases h with _ | ⟨hc, _ | ⟨hd, _ | _⟩⟩
    · exact hnone
    · exact hnone
    · exact hlaid (parallel_assignment hc hd _)
    · exact hnone
  | augmentedAssignmentExpression =>
    rcases h with _ | ⟨hc, _ | ⟨hd, _ | _⟩⟩
    · exact hnone
    · exact hnone
    · cases path.node.info.operator with
      | none => exact hnone
      | some operator => exact hlaid (parallel_assignment hc hd _)
    · exact hnone
  | unaryExpression =>
    rcases h with _ | ⟨hc, _ | _⟩
    · exact hnone
    · cases path.node.info.operator with
      | none => exact hnone
      | some operator => exact hlaid (parallel_unary hc _)
    · exact hnone
  | updateExpression =>
    rcases h with _ | ⟨hc, _ | _⟩
    · exact hnone
    · cases path.node.info.operator with
      | none => exact hnone
      | some operator => exact hlaid (parallel_update hc _)
    · exact hnone
  | awaitExpression | spreadElement =>
    rcases h with _ | ⟨hc, _ | _⟩
    · exact hnone
    · exact hbefore _ hc
    · exact hnone
  | ternaryExpression =>
    rcases h with _ | ⟨hc, _ | ⟨hd, _ | ⟨he, _ | _⟩⟩⟩
    · exact hnone
    · exact hnone
    · exact hnone
    · exact hlaid (parallel_ternary hc hd he)
    · exact hnone
  | parenthesizedExpression =>
    rcases h with _ | ⟨hc, _ | _⟩
    · exact hnone
    · exact hlaid (parallel_parenthesized hc)
    · exact hnone
  | object => exact hlaid (parallel_object h)
  | pair =>
    rcases h with _ | ⟨hc, _ | ⟨hd, _ | _⟩⟩
    · exact hnone
    · exact hnone
    · exact hafter [] [text ": "] [] hc hd
    · exact hnone
  | array =>
    dsimp only
    rw [hasHoles_pointing]
    refine parallel_bind_left fun holes => ?_
    exact parallel_ite hnone (hlaid (parallel_array h))
  | string => exact (parallel_string fun hsolid => hsolid.2).map fun d d' hd => .some hd
  | _ => exact hnone

theorem parallel_print {path : Tree.Path Info} (h : TwinChildren children children') :
    Parallel (Printer.print scene path children) (Printer.print (scene.pointing node offset) path children')
      (Twins (IsSolid path.node)) := by
  have hsize : IsSolid path.node → path.node.start < path.node.stop := fun hsolid => hsolid.2
  have hcopy : Parallel (verbatim scene path.node) (verbatim (scene.pointing node offset) path.node)
      (Twins (IsSolid path.node)) := parallel_verbatim hsize
  refine parallel_bind_left fun dangling => parallel_ite hcopy ((parallel_node h).bind fun a a' ha => ?_)
  cases ha with
  | none => exact hcopy
  | some hd => exact parallel_pure hd

end Printer

/-! ## Code in templates -/

namespace Embedded

/-- Both are templates with a tag, or neither is. -/
theorem rel_tagged? (h : Printer.TwinChildren children children') :
    Option.Rel (fun x y => Printable.Twins x.1 y.1 ∧ Printable.Twins x.2 y.2) (tagged? t children)
      (tagged? t children') := by
  unfold tagged?
  cases kindOf t with
  | callExpression =>
    rcases h with _ | ⟨hc, _ | ⟨hd, _ | _⟩⟩
    · exact .none
    · exact .none
    · dsimp only
      rw [hc.node, hd.node]
      split
      · exact .some ⟨hc, hd⟩
      · exact .none
    · exact .none
  | _ => exact .none

/-- Code is formatted without a cursor. -/
theorem codeDoc?_pointing (code : String) :
    codeDoc? (scene.pointing node offset) code = codeDoc? scene code := rfl

theorem parallel_print {path : Tree.Path Info} {firm : Prop} (h : Printer.TwinChildren children children') :
    Parallel (Embedded.print scene path children) (Embedded.print (scene.pointing node offset) path children')
      (Option.Rel (Twins firm)) := by
  have htagged := rel_tagged? (t := path.node) h
  have hnone : Parallel (pure none) (pure none) (Option.Rel (Twins firm)) := parallel_pure .none
  have hafter : ∀ {c c' : Printable Info} (rest : List Doc), Printable.Twins c c' →
      Parallel (do return some (.concat ((← c.print) :: rest))) (do return some (.concat ((← c'.print) :: rest)))
        (Option.Rel (Twins firm)) := fun rest hc =>
    hc.print.bind fun x x' hx => parallel_pure (.some (hx.between [] rest).of_firm)
  unfold Embedded.print
  generalize tagged? path.node children = parts at htagged ⊢
  generalize tagged? path.node children' = parts' at htagged ⊢
  cases htagged with
  | none => exact hnone
  | @some parts parts' hparts =>
    obtain ⟨tag, template⟩ := parts
    obtain ⟨tag', template'⟩ := parts'
    obtain ⟨htag, htemplate⟩ := hparts
    dsimp only
    rw [htag.node, htemplate.node]
    refine parallel_bind_left fun raw => parallel_bind_left fun name => parallel_ite hnone
      (parallel_ite (hafter _ htag) ?_)
    rw [codeDoc?_pointing]
    refine parallel_bind_left fun doc => ?_
    cases doc with
    | none => exact hnone
    | some doc => exact hafter _ htag

end Embedded

/-! ## The language -/

/-- In the trees of this parser nodes below others are solid. -/
def GivesSolidTrees (p : TextParser) : Prop :=
  ∀ text parsed, p text = .ok parsed → ∀ t ∈ parsed.tree.nodes, ∀ u ∈ t.children, IsSolid u

theorem makesTwins_parsing (p : TextParser) : (parsing p).MakesTwins IsSolid where
  span _ hsolid := hsolid.2
  print _ _ _ _ _ _ hchildren := Printer.parallel_print hchildren
  embed _ _ _ _ _ _ hchildren := Embedded.parallel_print hchildren

theorem overlooksCursor_parsing {p : TextParser} (hp : GivesSolidTrees p) :
    (parsing p).OverlooksCursor IsSolid where
  toMakesTwins := makesTwins_parsing p
  preprocess _ _ _ := rfl
  parse _ _ _ := rfl
  below _ := hp

/-- **Cursors never change a layout.** A document with cursors around any of the documents in it is printed as
the one without them. So the formatted text does not depend on where the cursor is, in any language that leaves
it to the formatter to put cursors into documents, and JavaScript is one of them. -/
theorem formatted_withCursor {d d' : Doc} (hd : d.WithCursors d') (settings : Layout.Settings)
    {languages : List Registered} (hlanguages : ∀ r ∈ languages,
      ∃ (β : Type) (l : Language β) (Solid : Tree β → Prop), r = .ofLanguage l ∧ l.OverlooksCursor Solid)
    {p : TextParser} (hp : GivesSolidTrees p) (text : String) (o : Options) (c : Option Nat) :
    (Layout.print settings d').formatted = (Layout.print settings d).formatted ∧
      (Formatter.ofLanguages languages).format text (o.withCursor c) =
        (Formatter.ofLanguages languages).format text (o.withCursor none) ∧
      (formatterOf p).format text (o.withCursor c) = (formatterOf p).format text (o.withCursor none) := by
  refine ⟨Layout.formatted_withCursors hd settings, format_withCursor hlanguages text o c, ?_⟩
  refine format_withCursor (fun r hr => ?_) text o c
  exact ⟨Info, parsing p, IsSolid, List.mem_singleton.mp hr, overlooksCursor_parsing hp⟩

/-- The parser, for a call only. -/
def parseCall : TextParser := fun text => if text = "f(a,[b])" then parse text else .error .invalidSpan

theorem givesSolidTrees_parseCall : GivesSolidTrees parseCall := by
  intro text parsed h t ht u hu
  unfold parseCall at h
  split at h
  · rename_i htext
    subst htext
    have hsolid : (parse "f(a,[b])").toOption.all (fun parsed =>
        parsed.tree.nodes.all fun t => t.children.all fun u => decide (IsSolid u)) = true := by
      decide +kernel
    rw [h] at hsolid
    exact of_decide_eq_true (List.all_eq_true.mp (List.all_eq_true.mp hsolid t ht) u hu)
  · cases h

/-- A word of a paragraph between cursors, and a call with a cursor in its last argument. -/
theorem formatted_withCursor_call :
    (Layout.print (.ofWidth 3) (.fill [.text "ab", .line .soft, .concat [.cursor, .text "c", .cursor]])).formatted =
        "abc" ∧
      (formatterOf parseCall).format "f(a,[b])" { parser := some "javascript", cursorOffset := some 5 } =
        .ok "f(a, [b]);\n" := by
  have hd : (Doc.fill [.text "ab", .line .soft, .text "c"]).WithCursors
      (.fill [.text "ab", .line .soft, .concat [.cursor, .text "c", .cursor]]) :=
    .single (.fill [.text "ab", .line .soft] [] (.around _))
  have hlanguages : ∀ r ∈ [Registered.ofLanguage (parsing parseCall)],
      ∃ (β : Type) (l : Language β) (Solid : Tree β → Prop), r = .ofLanguage l ∧ l.OverlooksCursor Solid :=
    fun r hr => ⟨Info, parsing parseCall, IsSolid, List.mem_singleton.mp hr,
      overlooksCursor_parsing givesSolidTrees_parseCall⟩
  obtain ⟨hlayout, -, hformat⟩ := formatted_withCursor hd (.ofWidth 3) hlanguages givesSolidTrees_parseCall
    "f(a,[b])" { parser := some "javascript" } (some 5)
  exact ⟨hlayout.trans (by decide +kernel), hformat.trans (by decide +kernel)⟩

end CodeFormatter.JavaScript
