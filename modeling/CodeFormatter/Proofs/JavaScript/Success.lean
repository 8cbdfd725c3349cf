import CodeFormatter.Proofs.JavaScript.IgnoredNodes
import CodeFormatter.Proofs.JavaScript.NodeLayouts
import CodeFormatter.Proofs.Walk.Success

/-!
# The printers succeed

A printer looks at the source of the nodes that it prints, at what follows a statement, and at the
commas of an array. If these places exist in the text, and there are no comments and no code in
templates, then each printer makes a document.
-/

namespace CodeFormatter.JavaScript.Printer

open Scan CodeFormatter.Tree Walk

variable {scene : Scene} {t : Node} {c d : Child} {children : List Child}

/-- A child whose document can be made, as can those of the nodes below it, and whose places exist in
the text. -/
inductive Ready (scene : Scene) : Child → Prop
  | intro {c : Child} (print : Succeeds c.print)
      (slice : ∃ s, sliceOrError scene.text c.node.start c.node.stop = .ok s)
      (line : ∃ blank, isNextLineEmpty? scene.bytes c.node.stop = some blank)
      (below : ∀ d ∈ c.children, Ready scene d) : Ready scene c

namespace Ready

theorem print (h : Ready scene c) : Succeeds c.print := by
  cases h
  assumption

theorem source (h : Ready scene c) : Succeeds (Walk.source scene c.node) := by
  obtain ⟨-, ⟨s, hs⟩, -, -⟩ := h
  exact succeeds_source hs

theorem blankLineAfter (h : Ready scene c) : Succeeds (blankLineAfter scene c.node) := by
  obtain ⟨-, -, ⟨blank, hblank⟩, -⟩ := h
  rw [Printer.blankLineAfter, hblank]
  exact succeeds_pure _

theorem startsWith (h : Ready scene c) (chars : List Char) :
    Succeeds (startsWith scene c.node chars) := h.source.bind_pure

end Ready

/-! ## Questions about comments -/

theorem succeeds_hasComments (t : Node) : Succeeds (hasComments t) := succeeds_comments.bind_pure

theorem succeeds_hasTrailingLineComment (t : Node) : Succeeds (hasTrailingLineComment t) :=
  succeeds_comments.bind_pure

theorem succeeds_lastDanglingIsLine (t : Node) : Succeeds (lastDanglingIsLine t) :=
  succeeds_comments.bind_pure

/-! ## Statements -/

theorem succeeds_printAll (h : ∀ c ∈ children, Ready scene c) : Succeeds (printAll children) :=
  succeeds_mapM fun c hc => (h c hc).print

theorem succeeds_statementDocs (h : ∀ c ∈ children, Ready scene c) :
    Succeeds (statementDocs scene children) := by
  induction children using statementDocs.induct with
  | case1 => exact succeeds_pure _
  | case2 last => exact (h last List.mem_cons_self).print.bind_pure
  | case3 c rest hrest ih =>
    have hc := h c List.mem_cons_self
    rw [statementDocs.eq_3 _ _ _ hrest]
    exact hc.print.bind fun _ => hc.blankLineAfter.bind fun _ =>
      (ih fun d hd => h d (List.mem_cons_of_mem c hd)).bind_pure

theorem succeeds_statements (h : ∀ c ∈ children, Ready scene c) :
    Succeeds (statements scene children) :=
  (succeeds_statementDocs fun c hc => h c (List.mem_filter.mp hc).1).map

theorem succeeds_program (h : ∀ c ∈ children, Ready scene c) :
    Succeeds (program scene t children) :=
  (succeeds_statements h).bind fun _ => .bind_hasDanglingComments (succeeds_pure _)

theorem succeeds_block (h : ∀ c ∈ children, Ready scene c) :
    Succeeds (block scene t children) := by
  refine .bind_hasDanglingComments ?_
  dsimp only
  split
  · exact succeeds_pure _
  · split
    · exact (succeeds_statements h).bind fun _ => succeeds_pure _
    · exact succeeds_pure _

theorem succeeds_expressionStatement (h : Ready scene c) :
    Succeeds (expressionStatement scene c) := by
  refine h.print.bind fun doc => ?_
  split
  · exact succeeds_pure _
  · refine (h.startsWith _).bind fun leads => ?_
    split <;> exact succeeds_pure _

theorem succeeds_keywordStatement {argument : Option Child} (h : ∀ c ∈ argument, Ready scene c)
    (keyword : String) : Succeeds (keywordStatement scene keyword argument) := by
  cases argument with
  | none => exact succeeds_pure _
  | some c => exact (h c rfl).print.bind fun _ => succeeds_pure _

theorem succeeds_declaration (h : ∀ c ∈ children, Ready scene c) :
    Succeeds (declaration scene t children) := (succeeds_printAll h).bind_pure

theorem succeeds_clause (h : Ready scene c) (forceSpace : Bool) : Succeeds (clause c forceSpace) := by
  unfold clause
  split
  · exact succeeds_pure _
  · refine h.print.bind fun doc => ?_
    split <;> exact succeeds_pure _

theorem succeeds_ifStatement {condition consequence : Child} {alternative : Option Child}
    (hcondition : Ready scene condition) (hconsequence : Ready scene consequence)
    (halternative : ∀ c ∈ alternative, Ready scene c) :
    Succeeds (ifStatement t condition consequence alternative) := by
  refine hcondition.print.bind fun _ => (succeeds_clause hconsequence false).bind fun _ => ?_
  cases alternative with
  | none => exact succeeds_pure _
  | some alternative =>
    refine (succeeds_hasTrailingLineComment _).bind fun _ =>
      (succeeds_lastDanglingIsLine t).bind fun _ => .bind_hasDanglingComments ?_
    simp only [Bool.false_eq_true, if_false, pure_bind]
    exact (halternative alternative rfl).print.bind fun _ => succeeds_pure _

theorem succeeds_whileStatement {condition body : Child} (hcondition : Ready scene condition)
    (hbody : Ready scene body) : Succeeds (whileStatement condition body) :=
  hcondition.print.bind fun _ => (succeeds_clause hbody false).bind_pure

theorem succeeds_elseClause {body : Child} (hbody : Ready scene body) :
    Succeeds (elseClause body) := (succeeds_clause hbody _).bind_pure

/-! ## Expressions -/

theorem succeeds_assignment {target value : Child} (htarget : Ready scene target)
    (hvalue : Ready scene value) (sign : String) : Succeeds (assignment target sign value) := by
  refine htarget.print.bind fun _ => Succeeds.bind_pure ?_
  refine hvalue.print.bind fun _ => ?_
  split <;> exact succeeds_pure _

/-- A chain of operators goes down into its left operand. -/
theorem succeeds_chain {fuel : Nat} {left right : Child} {operator : String}
    (hleft : Ready scene left) (hright : Ready scene right) :
    Succeeds (chain fuel left operator right) := by
  induction fuel generalizing left operator right with
  | zero => exact hleft.print.bind fun _ => hright.print.bind_pure
  | succ fuel ih =>
    have hwhole : Succeeds (do return [Doc.groupOf (← left.print)]) := hleft.print.bind_pure
    rw [chain]
    dsimp only
    cases hoperands : operands? left with
    | none => exact hwhole.bind fun _ => hright.print.bind_pure
    | some operands =>
      obtain ⟨innerLeft, inner, innerRight⟩ := operands
      refine (succeeds_hasComments left.node).bind fun commented => ?_
      split
      · obtain ⟨-, -, -, hbelow⟩ := hleft
        rw [children_of_operands? hoperands] at hbelow
        exact (ih (hbelow _ (by simp)) (hbelow _ (by simp))).bind fun _ => hright.print.bind_pure
      · exact hwhole.bind fun _ => hright.print.bind_pure

theorem succeeds_binary {path : Tree.Path Info} {left right : Child} (hleft : Ready scene left)
    (hright : Ready scene right) (operator : String) :
    Succeeds (binary path left operator right) := by
  refine (succeeds_chain hleft hright).bind fun parts => ?_
  split <;> exact succeeds_pure _

theorem succeeds_unary (h : Ready scene c) (operator : String) :
    Succeeds (unary scene operator c) := by
  unfold unary
  simp only [pure_bind]
  split
  · exact h.print.bind_pure
  · split
    · exact (h.startsWith _).bind fun _ => h.print.bind_pure
    · exact h.print.bind_pure

theorem succeeds_update (h : Ready scene c) (operator : OperatorToken) :
    Succeeds (update operator c) := h.print.bind_pure

theorem succeeds_ternary {condition consequence alternative : Child}
    (hcondition : Ready scene condition) (hconsequence : Ready scene consequence)
    (halternative : Ready scene alternative) :
    Succeeds (ternary condition consequence alternative) :=
  hcondition.print.bind fun _ => hconsequence.print.bind fun _ => halternative.print.bind_pure

theorem succeeds_parenthesized (h : Ready scene c) : Succeeds (parenthesized c) := h.print.bind_pure

theorem succeeds_function? {doc : Walk Doc} (h : ∀ c ∈ children, Ready scene c)
    (hdoc : function? t children = some doc) : Succeeds doc := by
  obtain ⟨name, parameters, body, -, -, -, hperm, rfl⟩ := eq_functionOf hdoc
  have hready : ∀ c ∈ name.toList ++ [parameters, body], Ready scene c := fun c hc =>
    h c (hperm.mem_iff.mpr hc)
  have hbehind : ∀ before : List Doc, Succeeds (functionBehind before parameters body) := fun _ =>
    (hready parameters (by simp)).print.bind fun _ => (hready body (by simp)).print.bind_pure
  cases name with
  | none => exact hbehind _
  | some c => exact (hready c (by simp)).print.bind fun _ => hbehind _

theorem succeeds_arrow {parameters body : Child} (hparameters : Ready scene parameters)
    (hbody : Ready scene body) : Succeeds (arrow t parameters body) :=
  hparameters.print.bind fun _ => hbody.print.bind_pure

/-! ## Lists -/

theorem succeeds_emptyBrackets (t : Node) (opening closing : String) :
    Succeeds (emptyBrackets t opening closing) := .bind_hasDanglingComments (succeeds_pure _)

theorem succeeds_parameters (h : ∀ c ∈ children, Ready scene c) :
    Succeeds (parameters scene t children) := by
  unfold parameters
  split
  · exact succeeds_emptyBrackets t _ _
  · exact (succeeds_printAll h).bind_pure

theorem succeeds_hugsLast (children : List Child) : Succeeds (hugsLast children) := by
  unfold hugsLast
  split
  · exact succeeds_pure _
  · exact (succeeds_hasComments _).bind_pure

theorem succeeds_arguments (h : ∀ c ∈ children, Ready scene c) :
    Succeeds (arguments scene t children) := by
  unfold arguments
  split
  · exact succeeds_emptyBrackets t _ _
  · refine (succeeds_hugsLast children).bind fun hug => (succeeds_printAll h).bind fun docs => ?_
    dsimp only
    split
    · exact succeeds_pure _
    · split <;> exact succeeds_pure _

theorem succeeds_propertyDocs (h : ∀ c ∈ children, Ready scene c) :
    Succeeds (propertyDocs scene children) := by
  induction children using propertyDocs.induct with
  | case1 => exact succeeds_pure _
  | case2 last => exact (h last List.mem_cons_self).print.bind_pure
  | case3 c rest hrest ih =>
    have hc := h c List.mem_cons_self
    rw [propertyDocs.eq_3 _ _ _ hrest]
    exact hc.print.bind fun _ => hc.blankLineAfter.bind fun _ =>
      (ih fun d hd => h d (List.mem_cons_of_mem c hd)).bind_pure

theorem succeeds_object (h : ∀ c ∈ children, Ready scene c) :
    Succeeds (object scene t children) := by
  unfold object
  split
  · exact succeeds_emptyBrackets t _ _
  · exact (succeeds_propertyDocs h).bind_pure

theorem succeeds_array (h : ∀ c ∈ children, Ready scene c) :
    Succeeds (array scene t children) := by
  unfold array
  split
  · exact succeeds_emptyBrackets t _ _
  · exact (succeeds_printAll h).bind_pure

theorem succeeds_string {s : String} (h : sliceOrError scene.text t.start t.stop = .ok s) :
    Succeeds (string scene t) := (succeeds_source h).bind_pure

/-! ## Nodes -/

/-- **The layout of a node succeeds.** -/
theorem succeeds_node {path : Tree.Path Info} (h : ∀ c ∈ children, Ready scene c)
    (hslice : ∃ s, sliceOrError scene.text path.node.start path.node.stop = .ok s)
    (hholes : kindOf path.node = .array → Succeeds (hasHoles scene path.node)) :
    Succeeds (node scene path children) := by
  obtain ⟨s, hs⟩ := hslice
  have hlayout := nodeLayout_node scene path children
  generalize node scene path children = laid at hlayout ⊢
  cases hlayout with
  | copied => exact succeeds_pure _
  | program => exact (succeeds_program h).map
  | block => exact (succeeds_block h).map
  | expression => exact (succeeds_expressionStatement (h _ (by simp))).map
  | declaration => exact (succeeds_declaration h).map
  | declarator => exact (h _ (by simp)).print.map
  | assignment => exact (succeeds_assignment (h _ (by simp)) (h _ (by simp)) _).map
  | branch => exact (succeeds_ifStatement (h _ (by simp)) (h _ (by simp)) (by simp)).map
  | @fork _ _ alternative =>
    refine (succeeds_ifStatement (h _ (by simp)) (h _ (by simp)) ?_).map
    simpa using h alternative (by simp)
  | otherwise => exact (succeeds_elseClause (h _ (by simp))).map
  | loop => exact (succeeds_whileStatement (h _ (by simp)) (h _ (by simp))).map
  | jump => exact (succeeds_keywordStatement (by simpa using h) _).map
  | function _ hdoc => exact (succeeds_function? h hdoc).map
  | arrow => exact (succeeds_arrow (h _ (by simp)) (h _ (by simp))).map
  | parameters => exact (succeeds_parameters h).map
  | arguments => exact (succeeds_arguments h).map
  | object => exact (succeeds_object h).map
  | array hkind =>
    refine (hholes hkind).bind fun holes => ?_
    split
    · exact succeeds_pure _
    · exact (succeeds_array h).map
  | pair | optional => exact (h _ (by simp)).print.bind fun _ => (h _ (by simp)).print.bind_pure
  | single => exact (h _ (by simp)).print.bind_pure
  | binary => exact (succeeds_binary (h _ (by simp)) (h _ (by simp)) _).map
  | unary => exact (succeeds_unary (h _ (by simp)) _).map
  | update => exact (succeeds_update (h _ (by simp)) _).map
  | ternary => exact (succeeds_ternary (h _ (by simp)) (h _ (by simp)) (h _ (by simp))).map
  | parenthesized => exact (succeeds_parenthesized (h _ (by simp))).map
  | string => exact (succeeds_string hs).map

/-! ## Trees -/

/-- What a scene has to offer for the nodes of a tree. -/
structure Legible (scene : Scene) (root : Node) : Prop where
  slices : ∀ t ∈ root.nodes, ∃ s, sliceOrError scene.text t.start t.stop = .ok s
  lines : ∀ t ∈ root.nodes, ∃ blank, isNextLineEmpty? scene.bytes t.stop = some blank
  holes : ∀ t ∈ root.nodes, kindOf t = .array → Succeeds (hasHoles scene t)
  codeFree : CodeFree scene.text root

namespace Legible

variable {root : Node}

theorem verbatim (h : Legible scene root) (ht : t ∈ root.nodes) : Succeeds (verbatim scene t) := by
  obtain ⟨s, hs⟩ := h.slices t ht
  exact succeeds_verbatim hs

/-- No template holds code, so that nothing is embedded. -/
theorem embed (h : Legible scene root) {path : Tree.Path Info} (ht : path.node ∈ root.nodes)
    (hnodes : children.map (·.node) = path.node.children) (hready : ∀ c ∈ children, Ready scene c) :
    ∀ log group, Embedded.print scene path children (bareState log group) =
      .ok (none, bareState log group) := by
  intro log group
  unfold Embedded.print
  cases htagged : Embedded.tagged? path.node children with
  | none => rfl
  | some parts =>
    obtain ⟨tag, template⟩ := parts
    obtain ⟨hkind, hchildren, htag, htemplate⟩ := Embedded.of_tagged? htagged
    obtain ⟨-, ⟨raw, hraw⟩, -, -⟩ := hready template (by simp [hchildren])
    obtain ⟨-, ⟨s, hs⟩, -, -⟩ := hready tag (by simp [hchildren])
    have hcode : Embedded.isCodeTag s = false := by
      by_contra hcode
      refine h.codeFree path.node ht tag.node template.node (Embedded.contents raw)
        ⟨hkind, ?_, htag, htemplate, ⟨s, hs, by simpa using hcode⟩, ⟨raw, hraw, rfl⟩⟩
      rw [← hnodes, hchildren]
      rfl
    simp only [Walk.source, hraw, hs]
    show (if (!Embedded.isCodeTag s || _) = true then _ else _ : Walk (Option Doc)) _ = _
    rw [hcode]
    rfl

theorem print (h : Legible scene root) {path : Tree.Path Info} (ht : path.node ∈ root.nodes)
    (hready : ∀ c ∈ children, Ready scene c) : Succeeds (print scene path children) := by
  refine .bind_hasDanglingComments ?_
  refine (succeeds_node hready (h.slices _ ht) (h.holes _ ht)).bind fun answer => ?_
  cases answer with
  | none => exact h.verbatim ht
  | some d => exact succeeds_pure d

theorem visit (h : Legible scene root) {path : Tree.Path Info} (ht : path.node ∈ root.nodes)
    (hnodes : children.map (·.node) = path.node.children) (hready : ∀ c ∈ children, Ready scene c) :
    Succeeds (visit language scene path children) := by
  refine Succeeds.bind ?_ fun d => succeeds_withComments language scene path.node _
  refine (succeeds_comments.bind_pure).bind fun ignored => ?_
  split
  · exact h.verbatim ht
  · intro log group
    obtain ⟨d, log', last, hd⟩ := h.print ht hready log group
    exact ⟨d, log', last, bind_eq_ok.mpr ⟨none, _, h.embed ht hnodes hready log group, hd⟩⟩

/-- **Every node can be printed.** -/
theorem ready (h : Legible scene root) (ht : t ∈ root.nodes) (ancestors : List Node) :
    Ready scene (Printable.ofTree language scene ancestors t) := by
  induction t using Tree.induction generalizing ancestors with
  | node t ih =>
    have hbelow : ∀ c ∈ below scene ancestors t, Ready scene c := by
      intro p hp
      obtain ⟨c, hc, rfl⟩ := mem_below.mp hp
      exact ih c hc (mem_nodes_trans (mem_nodes_of_mem_children hc (mem_nodes_self c)) ht) _
    refine .intro ?_ ?_ ?_ ?_
    · rw [print_ofTree]
      exact h.visit ht (map_node_below scene ancestors t) hbelow
    · rw [node_ofTree]
      exact h.slices t ht
    · rw [node_ofTree]
      exact h.lines t ht
    · rw [children_ofTree]
      exact hbelow

theorem succeeds_printTree (h : Legible scene root) : Succeeds (printTree language scene root 0) :=
  (h.ready (mem_nodes_self root) []).print.bind_pure

end Legible

end CodeFormatter.JavaScript.Printer
