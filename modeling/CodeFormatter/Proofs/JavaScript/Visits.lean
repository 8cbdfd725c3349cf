import CodeFormatter.JavaScript
import CodeFormatter.Proofs.JavaScript.NodeLayouts
import CodeFormatter.Proofs.Walk.Marks
import Mathlib.Data.List.Perm.Subperm
import Mathlib.Data.Option.Basic

/-!
# What the printers visit

Each printer lays out the documents of the nodes below its own. Here is, printer by printer, which
of them it prints, and whether it prints the comments inside its node. Not every printer goes
through the children one by one: empty statements and the marks of optional accesses are left out,
and a chain of operators reaches through its operands.

**Theorem (`Parts.marks_print`).** Whether a node is laid out or copied, its printer marks all that
is due for the nodes below it, and the comments inside it. A block is never copied.
-/

namespace CodeFormatter.JavaScript.Printer

open Walk

variable {done : Comments} {scene : Scene} {M : Node → Nat → Prop} {t : Node} {c d : Child}
  {children : List Child}

/-- Printing the node marks what is due for it. -/
abbrev Prints (done : Comments) (M : Node → Nat → Prop) (c : Child) : Prop :=
  Marks done c.print fun _ => M c.node

/-- The comment is to be printed inside the node. -/
def Dangles (done : Comments) (t : Node) (i : Nat) : Prop :=
  i ∈ done.of t.id ∧ isInside done i = true

/-! ## Questions -/

theorem quiet_source (scene : Scene) (t : Node) : Quiet (source scene t) := quiet_lift _

theorem quiet_startsWith (scene : Scene) (t : Node) (chars : List Char) :
    Quiet (startsWith scene t chars) :=
  (quiet_source scene t).bind fun _ => quiet_pure _

theorem quiet_blankLineAfter (scene : Scene) (t : Node) : Quiet (blankLineAfter scene t) := by
  rw [blankLineAfter]
  split
  · exact quiet_pure _
  · exact quiet_lift (.error .invalidSpan)

theorem not_dangles (h : done.hasPlacement t.id .dangling = false) (i : Nat) :
    ¬ Dangles done t i := by
  rintro ⟨hi, hinside⟩
  refine Bool.eq_false_iff.mp h ((done.hasPlacement_iff _ _).mpr ⟨i, hi, ?_⟩)
  exact beq_iff_eq.mp hinside

theorem marks_dangling (t : Node) (sameIndent : Bool) :
    Marks done (danglingComments CommentText.print t sameIndent) fun _ => Dangles done t :=
  marks_danglingComments language t sameIndent

/-- Printers that print the comments inside a node ask first whether there are any. -/
theorem marks_ite_dangling {β : Type} {x y : Walk β} (hx : Marks done x fun _ => Dangles done t)
    (hy : Quiet y) : Marks done (if done.hasPlacement t.id .dangling = true then x else y) fun _ =>
      Dangles done t := by
  cases hdangling : done.hasPlacement t.id .dangling
  · exact hy.marks fun _ => not_dangles hdangling
  · exact hx

/-! ## One or two nodes -/

theorem visits_single {β : Type} (hc : Prints done M c) (f : Doc → β) :
    Marks done (c.print >>= fun x => pure (f x)) fun _ => Visits M [c] :=
  hc.visits_cons fun _ => (quiet_pure _).visits_nil

theorem visits_pair {β : Type} (hc : Prints done M c) (hd : Prints done M d)
    (f : Doc → Doc → β) :
    Marks done (c.print >>= fun x => d.print >>= fun y => pure (f x y)) fun _ => Visits M [c, d] :=
  hc.visits_cons fun _ => visits_single hd _

/-! ## Statements -/

theorem visits_statementDocs (h : ∀ c ∈ children, Prints done M c) :
    Marks done (statementDocs scene children) fun _ => Visits M children := by
  induction children using statementDocs.induct with
  | case1 => exact (quiet_pure _).visits_nil
  | case2 last =>
    rw [statementDocs]
    exact visits_single (h last List.mem_cons_self) _
  | case3 c rest hrest ih =>
    rw [statementDocs.eq_3 _ _ _ hrest]
    refine (h c List.mem_cons_self).visits_cons fun _ => ?_
    refine (quiet_blankLineAfter scene c.node).bind_marks fun _ => ?_
    exact (ih fun d hd => h d (List.mem_cons_of_mem c hd)).bind_quiet fun _ => quiet_pure _

theorem visits_statements (h : ∀ c ∈ children, Prints done M c) :
    Marks done (statements scene children) fun _ => Visits M (meaningful children) :=
  (visits_statementDocs fun c hc => h c (List.mem_filter.mp hc).1).map _

theorem marks_program (h : ∀ c ∈ children, Prints done M c) :
    Marks done (program scene t children) fun _ i =>
      Visits M (meaningful children) i ∨ Dangles done t i := by
  rw [program]
  refine (visits_statements h).seq fun body => ?_
  refine (reads_hasDanglingComments t).bind_marks (marks_ite_dangling ?_ (quiet_pure _))
  exact (marks_dangling t true).bind_quiet fun _ => quiet_pure _

theorem marks_block (h : ∀ c ∈ children, Prints done M c) :
    Marks done (block scene t children) fun _ i =>
      Visits M (meaningful children) i ∨ Dangles done t i := by
  have hnone : (meaningful children).isEmpty = true → ∀ i, ¬ Visits M (meaningful children) i := by
    rintro hempty i ⟨p, hp, -⟩
    rw [List.isEmpty_iff.mp hempty] at hp
    cases hp
  rw [block]
  refine (reads_hasDanglingComments t).bind_marks ?_
  simp only [pure_bind]
  split
  · rename_i hnothing
    simp only [Bool.not_not, Bool.and_eq_true, Bool.not_eq_true'] at hnothing
    refine (quiet_pure _).marks fun _ i hi => ?_
    exact hi.elim (hnone hnothing.1 i) (not_dangles hnothing.2 i)
  · split
    · refine (visits_statements h).seq fun body => ?_
      refine marks_ite_dangling ?_ (quiet_pure _)
      exact (marks_dangling t false).bind_quiet fun _ => quiet_pure _
    · rename_i hempty
      simp only [Bool.not_eq_true', Bool.not_eq_false] at hempty
      refine Marks.mono (marks_ite_dangling ?_ (quiet_pure _)) fun _ i hi =>
        hi.resolve_left (hnone hempty i)
      exact (marks_dangling t false).bind_quiet fun _ => quiet_pure _

theorem visits_expressionStatement (h : Prints done M c) :
    Marks done (expressionStatement scene c) fun _ => Visits M [c] := by
  rw [expressionStatement]
  refine h.visits_cons fun doc => Quiet.visits_nil ?_
  split
  · exact quiet_pure _
  · refine (quiet_startsWith _ _ _).bind fun _ => ?_
    split <;> exact quiet_pure _

theorem visits_keywordStatement {keyword : String} {argument : Option Child}
    (h : ∀ c ∈ argument, Prints done M c) :
    Marks done (keywordStatement scene keyword argument) fun _ => Visits M argument.toList := by
  unfold keywordStatement
  cases argument with
  | none => exact (quiet_pure _).visits_nil
  | some c => exact visits_single (h c rfl) _

theorem visits_declaration (h : ∀ c ∈ children, Prints done M c) :
    Marks done (declaration scene t children) fun _ => Visits M children := by
  rw [declaration]
  exact (visits_mapM h).bind_quiet fun _ => quiet_pure _

/-! ## Branches and loops -/

/-- An empty statement is not printed, but nothing is due for it. -/
theorem visits_clause {forceSpace : Bool} (h : Prints done M c)
    (hskip : kind c = .emptyStatement → ∀ i, ¬ M c.node i) :
    Marks done (clause c forceSpace) fun _ => Visits M [c] := by
  rw [clause]
  split
  · rename_i hkind
    refine (quiet_pure _).marks fun _ i hi => hskip hkind i ?_
    simpa [Visits] using hi
  · refine h.visits_cons fun doc => Quiet.visits_nil ?_
    split <;> exact quiet_pure _

theorem quiet_hasTrailingLineComment (t : Node) : Quiet (hasTrailingLineComment t) :=
  quiet_comments.bind fun _ => quiet_pure _

theorem quiet_lastDanglingIsLine (t : Node) : Quiet (lastDanglingIsLine t) :=
  quiet_comments.bind fun _ => quiet_pure _

theorem visits_ifThen {condition consequence : Child} (hcondition : Prints done M condition)
    (hconsequence : Prints done M consequence)
    (hskip : kind consequence = .emptyStatement → ∀ i, ¬ M consequence.node i) :
    Marks done (ifStatement t condition consequence none) fun _ =>
      Visits M [condition, consequence] :=
  hcondition.visits_cons fun _ =>
    (visits_clause hconsequence hskip).bind_quiet fun _ => quiet_pure _

theorem marks_ifElse {condition consequence alternative : Child}
    (hcondition : Prints done M condition) (hconsequence : Prints done M consequence)
    (hskip : kind consequence = .emptyStatement → ∀ i, ¬ M consequence.node i)
    (halternative : Prints done M alternative) :
    Marks done (ifStatement t condition consequence (some alternative)) fun _ i =>
      Visits M [condition, consequence, alternative] i ∨ Dangles done t i := by
  refine Marks.mono (S := fun _ i => M condition.node i ∨ Visits M [consequence] i ∨
    Visits M [alternative] i ∨ Dangles done t i) ?_ fun _ i hi => ?_
  · refine hcondition.seq fun _ => (visits_clause hconsequence hskip).seq fun _ => ?_
    refine (quiet_hasTrailingLineComment _).bind_marks fun _ => ?_
    refine (quiet_lastDanglingIsLine _).bind_marks fun _ => ?_
    refine (reads_hasDanglingComments t).bind_marks ?_
    simp only [pure_bind]
    split
    · exact ((marks_dangling t true).seq fun _ => visits_single halternative _).mono
        fun _ i => Or.symm
    · rename_i hdangling
      refine (visits_single halternative _).mono fun _ i hi => hi.resolve_right (not_dangles ?_ i)
      exact Bool.eq_false_iff.mpr hdangling
  · simp only [Visits, List.mem_cons, List.not_mem_nil, or_false, exists_eq_or_imp,
      exists_eq_left] at hi ⊢
    tauto

theorem visits_whileStatement {condition body : Child} (hcondition : Prints done M condition)
    (hbody : Prints done M body) (hskip : kind body = .emptyStatement → ∀ i, ¬ M body.node i) :
    Marks done (whileStatement condition body) fun _ => Visits M [condition, body] := by
  rw [whileStatement]
  exact hcondition.visits_cons fun _ => (visits_clause hbody hskip).bind_quiet fun _ => quiet_pure _

theorem visits_elseClause {body : Child} (hbody : Prints done M body)
    (hskip : kind body = .emptyStatement → ∀ i, ¬ M body.node i) :
    Marks done (elseClause body) fun _ => Visits M [body] := by
  rw [elseClause]
  exact (visits_clause hbody hskip).bind_quiet fun _ => quiet_pure _

/-! ## Assignments and operators -/

theorem visits_assignedValue (h : Prints done M c) :
    Marks done (assignedValue c) fun _ => Visits M [c] := by
  rw [assignedValue]
  refine h.visits_cons fun _ => Quiet.visits_nil ?_
  split <;> exact quiet_pure _

theorem visits_assignment {target value : Child} {sign : String} (htarget : Prints done M target)
    (hvalue : Prints done M value) :
    Marks done (assignment target sign value) fun _ => Visits M [target, value] := by
  rw [assignment]
  exact htarget.visits_cons fun _ => (visits_assignedValue hvalue).bind_quiet fun _ => quiet_pure _

/-- A node of a printed tree: printing it marks what is due, and the same holds below it. -/
inductive Sound (done : Comments) (M : Node → Nat → Prop) : Child → Prop
  | intro {c : Child} (prints : Prints done M c)
      (nodes : c.children.map (·.node) = c.node.children)
      (below : ∀ d ∈ c.children, Sound done M d) : Sound done M c

theorem Sound.prints (h : Sound done M c) : Prints done M c := by
  cases h
  assumption

theorem children_of_operands? {left right : Child} {operator : String}
    (h : operands? c = some (left, operator, right)) : c.children = [left, right] := by
  unfold operands? at h
  split at h
  · rename_i hchildren _
    cases h
    exact hchildren
  · cases h

/-- A chain prints the operands of an operand without comments in its place. -/
theorem visits_chain {fuel : Nat} {left right : Child} {operator : String}
    (hparts : ∀ t i, M t i → done.of t.id = [] → ∃ c ∈ t.children, M c i)
    (hleft : Sound done M left) (hright : Sound done M right) :
    Marks done (chain fuel left operator right) fun _ => Visits M [left, right] := by
  induction fuel generalizing left operator right with
  | zero =>
    exact visits_pair hleft.prints hright.prints _
  | succ fuel ih =>
    have hwhole := visits_single hleft.prints fun d => [Doc.groupOf d]
    rw [chain]
    dsimp only
    cases hoperands : operands? left with
    | none => exact hwhole.visits_append fun _ => visits_single hright.prints _
    | some operands =>
      obtain ⟨innerLeft, inner, innerRight⟩ := operands
      refine (reads_hasComments left.node).bind_marks ?_
      split
      · rename_i hflat
        have hnone : done.of left.node.id = [] := by
          simp only [Bool.not_not, Bool.and_eq_true, List.isEmpty_iff] at hflat
          exact hflat.2
        obtain ⟨-, hnodes, hbelow⟩ := hleft
        have hchildren := children_of_operands? hoperands
        rw [hchildren] at hnodes hbelow
        refine ((ih (hbelow _ (by simp)) (hbelow _ (by simp))).visits_append fun _ =>
          visits_single hright.prints _).mono fun _ i hi => ?_
        have hi : Visits M ([left] ++ [right]) i := hi
        rw [visits_append] at hi ⊢
        rcases hi with ⟨p, hp, hi⟩ | hi
        · cases List.mem_singleton.mp hp
          obtain ⟨t, ht, hi⟩ := hparts _ i hi hnone
          rw [← hnodes, List.mem_map] at ht
          obtain ⟨q, hq, rfl⟩ := ht
          exact .inl ⟨q, hq, hi⟩
        · exact .inr hi
      · exact hwhole.visits_append fun _ => visits_single hright.prints _

theorem visits_binary {path : Tree.Path Info} {left right : Child} {operator : String}
    (hparts : ∀ t i, M t i → done.of t.id = [] → ∃ c ∈ t.children, M c i)
    (hleft : Sound done M left) (hright : Sound done M right) :
    Marks done (binary path left operator right) fun _ => Visits M [left, right] := by
  rw [binary]
  refine (visits_chain hparts hleft hright).bind_quiet fun _ => ?_
  split <;> exact quiet_pure _

theorem visits_unary {operator : String} (h : Prints done M c) :
    Marks done (unary scene operator c) fun _ => Visits M [c] := by
  unfold unary
  simp only [pure_bind]
  split
  · exact visits_single h _
  · split
    · exact (quiet_startsWith _ _ _).bind_marks fun _ => visits_single h _
    · exact visits_single h _

theorem visits_update {operator : OperatorToken} (h : Prints done M c) :
    Marks done (update operator c) fun _ => Visits M [c] :=
  visits_single h _

theorem visits_ternary {condition consequence alternative : Child}
    (hcondition : Prints done M condition) (hconsequence : Prints done M consequence)
    (halternative : Prints done M alternative) :
    Marks done (ternary condition consequence alternative) fun _ =>
      Visits M [condition, consequence, alternative] :=
  hcondition.visits_cons fun _ => visits_pair hconsequence halternative _

theorem visits_parenthesized (h : Prints done M c) :
    Marks done (parenthesized c) fun _ => Visits M [c] :=
  visits_single h _

/-! ## Functions and calls -/

theorem of_childOfKind? {k : Kind} (h : childOfKind? k children = some c) :
    c ∈ children ∧ kind c = k :=
  ⟨List.mem_of_find?_eq_some h, by simpa using List.find?_some h⟩

/-- What a function starts with, up to its name. -/
def functionOpening (t : Node) : List Doc :=
  (if t.info.tokens.contains "async" then [text "async "] else []) ++ [text "function"]
    ++ (if t.info.tokens.contains "*" then [text "*"] else [])

/-- The parameters and the body of a function, behind its opening and its name. -/
def functionBehind (before : List Doc) (parameters body : Child) : Walk Doc := do
  let d ← parameters.print
  let e ← body.print
  return .concat (before ++ [Doc.groupOf d, text " ", e])

/-- A function that is made of these parts. -/
def functionOf (t : Node) (name : Option Child) (parameters body : Child) : Walk Doc :=
  match name with
  | some c => c.print >>= fun d => functionBehind (functionOpening t ++ [text " ", d]) parameters body
  | none => functionBehind (functionOpening t) parameters body

/-- The parts of a function that is laid out are its children. -/
theorem eq_functionOf {doc : Walk Doc} (hdoc : function? t children = some doc) :
    ∃ (name : Option Child) (parameters body : Child), (∀ c ∈ name, kind c = .identifier) ∧
      kind parameters = .formalParameters ∧ kind body = .statementBlock ∧
      children.Perm (name.toList ++ [parameters, body]) ∧
      doc = functionOf t name parameters body := by
  simp only [function?, Option.bind_eq_bind, Option.bind_eq_some_iff] at hdoc
  obtain ⟨parameters, hparameters, body, hbody, ⟨⟩, hlength, hdoc⟩ := hdoc
  rw [Option.guard_eq_some'] at hlength
  obtain ⟨hmem, hkind⟩ := of_childOfKind? hparameters
  obtain ⟨hmem', hkind'⟩ := of_childOfKind? hbody
  have hne : parameters ≠ body := by
    rintro rfl
    simp [hkind] at hkind'
  -- Parts of different kinds are different, and there are no more children than parts.
  have hname : ∀ c ∈ childOfKind? .identifier children, c ∈ children ∧ kind c = .identifier :=
    fun c hc => of_childOfKind? hc
  refine ⟨childOfKind? .identifier children, parameters, body, fun c hc => (hname c hc).2, hkind,
    hkind', (List.Subperm.perm_of_length_le (List.subperm_of_subset ?_ ?_) ?_).symm, ?_⟩
  · cases hfound : childOfKind? .identifier children with
    | none => simp [hne]
    | some name =>
      have hkname := (hname name hfound).2
      have hnames : name ≠ parameters ∧ name ≠ body := by
        constructor <;> rintro rfl <;> simp_all
      simp [hne, hnames]
  · intro c hc
    rcases List.mem_append.mp hc with hc | hc
    · exact (hname c (by simpa using hc)).1
    · rcases List.mem_pair.mp hc with rfl | rfl
      · exact hmem
      · exact hmem'
  · rw [hlength, List.length_append]
    simp [Nat.add_comm]
  · cases hdoc
    cases childOfKind? .identifier children <;>
      simp [functionOf, functionBehind, functionOpening]

theorem visits_function? {doc : Walk Doc} (h : ∀ c ∈ children, Prints done M c)
    (hdoc : function? t children = some doc) : Marks done doc fun _ => Visits M children := by
  obtain ⟨name, parameters, body, -, -, -, hperm, rfl⟩ := eq_functionOf hdoc
  have hprints : ∀ c ∈ name.toList ++ [parameters, body], Prints done M c := fun c hc =>
    h c (hperm.mem_iff.mpr hc)
  have hbehind : ∀ before : List Doc, Marks done (functionBehind before parameters body)
      fun _ => Visits M [parameters, body] := fun _ =>
    visits_pair (hprints parameters (by simp)) (hprints body (by simp)) _
  have hparts : Marks done (functionOf t name parameters body)
      fun _ => Visits M (name.toList ++ [parameters, body]) := by
    cases name with
    | none => exact hbehind _
    | some c => exact (hprints c (by simp)).visits_cons fun _ => hbehind _
  exact hparts.mono fun _ _ hi => hi.of_subset hperm.subset

theorem visits_arrow {parameters body : Child} (hparameters : Prints done M parameters)
    (hbody : Prints done M body) :
    Marks done (arrow t parameters body) fun _ => Visits M [parameters, body] :=
  visits_pair hparameters hbody _

theorem marks_emptyBrackets (t : Node) (opening closing : String) :
    Marks done (emptyBrackets t opening closing) fun _ => Dangles done t := by
  rw [emptyBrackets]
  refine (reads_hasDanglingComments t).bind_marks ?_
  split
  · rename_i hnone
    exact (quiet_pure _).marks fun _ => not_dangles (by simpa using hnone)
  · refine quiet_comments.bind_marks fun cs => ?_
    dsimp only
    split <;> exact (marks_dangling t _).bind_quiet fun _ => quiet_pure _

/-- A list of nothing is printed as brackets around the comments in it. -/
theorem marks_of_nil (hnil : children = []) (opening closing : String) :
    Marks done (emptyBrackets t opening closing) fun _ i =>
      Visits M children i ∨ children = [] ∧ Dangles done t i := by
  refine (marks_emptyBrackets t opening closing).mono fun _ i hi => ?_
  simpa [hnil, Visits] using hi

theorem marks_of_ne_nil {x : Walk Doc} (hne : children ≠ [])
    (hx : Marks done x fun _ => Visits M children) :
    Marks done x fun _ i => Visits M children i ∨ children = [] ∧ Dangles done t i :=
  hx.mono fun _ _ hi => hi.resolve_right fun hi => hne hi.1

theorem marks_parameters (h : ∀ c ∈ children, Prints done M c) :
    Marks done (parameters scene t children) fun _ i =>
      Visits M children i ∨ children = [] ∧ Dangles done t i := by
  unfold parameters
  cases hlast : children.getLast? with
  | none => exact marks_of_nil (List.getLast?_eq_none_iff.mp hlast) _ _
  | some last =>
    refine marks_of_ne_nil ?_ ((visits_mapM h).bind_quiet fun _ => quiet_pure _)
    rintro rfl
    cases hlast

theorem quiet_hugsLast (children : List Child) : Quiet (hugsLast children) := by
  rw [hugsLast]
  split
  · exact quiet_pure _
  · exact (quiet_comments.bind fun _ => quiet_pure _).bind fun _ => quiet_pure _

theorem marks_arguments (h : ∀ c ∈ children, Prints done M c) :
    Marks done (arguments scene t children) fun _ i =>
      Visits M children i ∨ children = [] ∧ Dangles done t i := by
  rw [arguments]
  split
  · rename_i hempty
    exact marks_of_nil (List.isEmpty_iff.mp hempty) _ _
  · rename_i hempty
    refine (quiet_hugsLast children).bind_marks fun hug => ?_
    refine marks_of_ne_nil (mt List.isEmpty_iff.mpr hempty)
      ((visits_mapM h).bind_quiet fun docs => ?_)
    dsimp only
    split
    · exact quiet_pure _
    · split <;> exact quiet_pure _

/-! ## Objects and arrays -/

theorem visits_propertyDocs (h : ∀ c ∈ children, Prints done M c) :
    Marks done (propertyDocs scene children) fun _ => Visits M children := by
  induction children using propertyDocs.induct with
  | case1 => exact (quiet_pure _).visits_nil
  | case2 last =>
    rw [propertyDocs]
    exact visits_single (h last List.mem_cons_self) _
  | case3 c rest hrest ih =>
    rw [propertyDocs.eq_3 _ _ _ hrest]
    refine (h c List.mem_cons_self).visits_cons fun _ => ?_
    refine (quiet_blankLineAfter scene c.node).bind_marks fun _ => ?_
    exact (ih fun d hd => h d (List.mem_cons_of_mem c hd)).bind_quiet fun _ => quiet_pure _

theorem marks_object (h : ∀ c ∈ children, Prints done M c) :
    Marks done (object scene t children) fun _ i =>
      Visits M children i ∨ children = [] ∧ Dangles done t i := by
  unfold object
  cases hfirst : children.head? with
  | none => exact marks_of_nil (List.head?_eq_none_iff.mp hfirst) _ _
  | some first =>
    refine marks_of_ne_nil ?_ ((visits_propertyDocs h).bind_quiet fun _ => quiet_pure _)
    rintro rfl
    cases hfirst

theorem quiet_commasBetween (scene : Scene) (start stop : Nat) :
    Quiet (commasBetween scene start stop) :=
  (quiet_lift _).bind fun _ => quiet_pure _

theorem quiet_hasHoles (scene : Scene) (t : Node) : Quiet (hasHoles scene t) := by
  have hgo : ∀ ts previous isFirst, Quiet (hasHoles.go scene t previous isFirst ts) := by
    intro ts
    induction ts with
    | nil => exact fun _ _ => (quiet_commasBetween _ _ _).bind fun _ => quiet_pure _
    | cons u rest ih =>
      intro previous isFirst
      refine (quiet_commasBetween _ _ _).bind fun commas => ?_
      generalize (commas != if isFirst = true then 0 else 1) = misplaced
      cases misplaced
      · exact ih _ _
      · exact quiet_pure _
  exact hgo _ _ _

theorem marks_array (h : ∀ c ∈ children, Prints done M c) :
    Marks done (array scene t children) fun _ i =>
      Visits M children i ∨ children = [] ∧ Dangles done t i := by
  rw [array]
  split
  · rename_i hempty
    exact marks_of_nil (List.isEmpty_iff.mp hempty) _ _
  · rename_i hempty
    exact marks_of_ne_nil (mt List.isEmpty_iff.mpr hempty)
      ((visits_mapM h).bind_quiet fun _ => quiet_pure _)

theorem quiet_string (scene : Scene) (t : Node) : Quiet (string scene t) :=
  (quiet_source scene t).bind fun _ => quiet_pure _

/-! ## Nodes -/

/-- What a layout of a node relies on. -/
structure Parts (done : Comments) (M : Node → Nat → Prop) (t : Node) (children : List Child) :
    Prop where
  sound : ∀ c ∈ children, Sound done M c
  skipped : ∀ c ∈ children, language.canAttach c.node = false → ∀ i, ¬ M c.node i
  chained : ∀ t i, M t i → done.of t.id = [] → ∃ c ∈ t.children, M c i
  leaf : kindOf t = .string → children = []
  dangling : printsDangling (kindOf t) = true → ∀ i, Dangles done t i →
    kindOf t = .program ∨ kindOf t = .statementBlock ∨ children = [] ∨
      kindOf t = .ifStatement ∧ 2 < children.length

/-- All that is due for a node that has a layout. -/
def Laid (done : Comments) (M : Node → Nat → Prop) (t : Node) (children : List Child)
    (answer : Option Doc) (i : Nat) : Prop :=
  answer.isSome = true ∧
    (Visits M children i ∨ printsDangling (kindOf t) = true ∧ Dangles done t i)

theorem laid_none : Marks done (pure none) (Laid done M t children) := marks_none

theorem laid_of_marks {x : Walk (Option Doc)} {A : Nat → Prop} (hx : Marks done x fun _ => A)
    (hA : ∀ i, Visits M children i ∨ printsDangling (kindOf t) = true ∧ Dangles done t i → A i) :
    Marks done x (Laid done M t children) :=
  hx.mono fun _ i hi => hA i hi.2

theorem laid_of_visits {x : Walk (Option Doc)} {k : Kind} (hkind : kindOf t = k)
    (hk : printsDangling k = false) (hx : Marks done x fun _ => Visits M children) :
    Marks done x (Laid done M t children) := by
  refine laid_of_marks hx fun i hi => hi.resolve_right fun hdangling => ?_
  rw [hkind, hk] at hdangling
  cases hdangling.1

namespace Parts

theorem prints (h : Parts done M t children) (hc : c ∈ children) : Prints done M c :=
  (h.sound c hc).prints

theorem not_empty (h : Parts done M t children) (hc : c ∈ children)
    (hkind : kind c = .emptyStatement) (i : Nat) : ¬ M c.node i := by
  refine h.skipped c hc ?_ i
  have hkind : kindOf c.node = .emptyStatement := hkind
  simp [language, hkind]

/-- Nothing is due for empty statements. -/
theorem visits_meaningful (h : Parts done M t children) {i : Nat} (hi : Visits M children i) :
    Visits M (meaningful children) i := by
  obtain ⟨c, hc, hi⟩ := hi
  refine ⟨c, List.mem_filter.mpr ⟨hc, bne_iff_ne.mpr fun hkind => h.not_empty hc hkind i hi⟩, hi⟩

/-- Nothing is due for the mark of an optional access. -/
theorem visits_optional {mark : Child} (h : Parts done M t [c, mark, d])
    (hmark : kind mark = .optionalChain) {i : Nat} (hi : Visits M [c, mark, d] i) :
    Visits M [c, d] i := by
  have hkind : kindOf mark.node = .optionalChain := hmark
  have hnone := h.skipped mark (by simp) (by simp [language, hkind]) i
  simp only [Visits, List.mem_cons, List.not_mem_nil, or_false, exists_eq_or_imp,
    exists_eq_left] at hi ⊢
  tauto

/-- Comments are inside brackets only if nothing else is. -/
theorem laid_bracketed (h : Parts done M t children) {k : Kind} (hkind : kindOf t = k)
    (hk : k ≠ .program ∧ k ≠ .statementBlock ∧ k ≠ .ifStatement) {x : Walk Doc}
    (hx : Marks done x fun _ i => Visits M children i ∨ children = [] ∧ Dangles done t i) :
    Marks done (some <$> x) (Laid done M t children) := by
  refine laid_of_marks (hx.map some) fun i hi => hi.imp_right fun hdangling => ⟨?_, hdangling.2⟩
  have hplace := h.dangling hdangling.1 i hdangling.2
  rw [hkind] at hplace
  tauto

/-- **A layout is complete.** -/
theorem laid {path : Tree.Path Info} (h : Parts done M path.node children) :
    Marks done (node scene path children) (Laid done M path.node children) := by
  have hprints : ∀ c ∈ children, Prints done M c := fun c => h.prints
  have hlayout := nodeLayout_node scene path children
  generalize node scene path children = laid at hlayout ⊢
  cases hlayout with
  | copied => exact laid_none
  | program =>
    exact laid_of_marks ((marks_program hprints).map some) fun i hi =>
      hi.imp h.visits_meaningful And.right
  | block =>
    exact laid_of_marks ((marks_block hprints).map some) fun i hi =>
      hi.imp h.visits_meaningful And.right
  | expression hkind =>
    exact laid_of_visits hkind rfl ((visits_expressionStatement (h.prints (by simp))).map some)
  | declaration hkind =>
    have hk : printsDangling (kindOf path.node) = false := by
      rcases hkind with hkind | hkind <;> rw [hkind] <;> rfl
    exact laid_of_visits rfl hk ((visits_declaration hprints).map some)
  | declarator hkind =>
    exact laid_of_visits hkind rfl ((h.prints (by simp)).visits_self.map some)
  | assignment hkind =>
    have hk : printsDangling (kindOf path.node) = false := by
      rcases hkind with ⟨hkind | hkind, -⟩ | ⟨hkind, -⟩ <;> rw [hkind] <;> rfl
    exact laid_of_visits rfl hk
      ((visits_assignment (h.prints (by simp)) (h.prints (by simp))).map some)
  | branch hkind =>
    refine laid_of_marks ((visits_ifThen (h.prints (by simp)) (h.prints (by simp))
      (h.not_empty (by simp))).map some) fun i hi => hi.resolve_right fun hdangling => ?_
    have hplace := h.dangling hdangling.1 i hdangling.2
    simp [hkind] at hplace
  | fork =>
    exact laid_of_marks ((marks_ifElse (h.prints (by simp)) (h.prints (by simp))
      (h.not_empty (by simp)) (h.prints (by simp))).map some) fun i hi => hi.imp_right And.right
  | otherwise hkind =>
    exact laid_of_visits hkind rfl ((visits_elseClause (h.prints (by simp))
      (h.not_empty (by simp))).map some)
  | loop hkind =>
    exact laid_of_visits hkind rfl ((visits_whileStatement (h.prints (by simp))
      (h.prints (by simp)) (h.not_empty (by simp))).map some)
  | jump argument hwords =>
    have hk : ∀ w ∈ jumpWords, printsDangling w.1 = false := by decide
    exact laid_of_visits rfl (hk _ hwords)
      ((visits_keywordStatement (by simpa using hprints)).map some)
  | function hkind hdoc =>
    have hk : ∀ k ∈ [Kind.functionDeclaration, .generatorFunctionDeclaration, .functionExpression,
      .generatorFunction], printsDangling k = false := by decide
    exact laid_of_visits rfl (hk _ hkind) ((visits_function? hprints hdoc).map some)
  | arrow hkind =>
    exact laid_of_visits hkind rfl
      ((visits_arrow (h.prints (by simp)) (h.prints (by simp))).map some)
  | parameters hkind => exact h.laid_bracketed hkind (by decide) (marks_parameters hprints)
  | arguments hkind => exact h.laid_bracketed hkind (by decide) (marks_arguments hprints)
  | object hkind => exact h.laid_bracketed hkind (by decide) (marks_object hprints)
  | array hkind =>
    refine (quiet_hasHoles scene path.node).bind_marks fun holes => ?_
    split
    · exact laid_none
    · exact h.laid_bracketed hkind (by decide) (marks_array hprints)
  | pair before between after hwords =>
    have hk : ∀ w ∈ pairWords, printsDangling w.1 = false := by decide
    exact laid_of_visits rfl (hk _ hwords) (visits_pair (h.prints (by simp)) (h.prints (by simp)) _)
  | optional between after hwords hmark =>
    have hk : ∀ w ∈ optionalWords, printsDangling w.1 = false := by decide
    exact laid_of_visits rfl (hk _ hwords)
      ((visits_pair (h.prints (by simp)) (h.prints (by simp)) _).mono fun _ _ => h.visits_optional hmark)
  | single hwords =>
    have hk : ∀ w ∈ singleWords, printsDangling w.1 = false := by decide
    exact laid_of_visits rfl (hk _ hwords) (visits_single (h.prints (by simp)) _)
  | binary hkind =>
    exact laid_of_visits hkind rfl ((visits_binary h.chained (h.sound _ (by simp))
      (h.sound _ (by simp))).map some)
  | unary hkind => exact laid_of_visits hkind rfl ((visits_unary (h.prints (by simp))).map some)
  | update hkind => exact laid_of_visits hkind rfl ((visits_update (h.prints (by simp))).map some)
  | ternary hkind =>
    exact laid_of_visits hkind rfl ((visits_ternary (h.prints (by simp)) (h.prints (by simp))
      (h.prints (by simp))).map some)
  | parenthesized hkind =>
    exact laid_of_visits hkind rfl ((visits_parenthesized (h.prints (by simp))).map some)
  | string hkind =>
    have hnil := h.leaf hkind
    subst hnil
    exact laid_of_visits hkind rfl ((quiet_string scene path.node).visits_nil.map some)

theorem node_of_block {path : Tree.Path Info} (h : kindOf path.node = .statementBlock) :
    node scene path children = some <$> block scene path.node children := by
  obtain ⟨⟨id, start, stop, ⟨kind, tokens, operator⟩, below⟩, ancestors⟩ := path
  cases h
  rfl

/-- **What a printer marks.** It lays the node out, or copies it; a block is never copied. -/
theorem marks_print (path : Tree.Path Info) (h : Parts done M path.node children) {A : Nat → Prop}
    (hparts : ∀ i, A i → Visits M children i ∨ Dangles done path.node i)
    (hcopy : kindOf path.node ≠ .statementBlock → ∀ i, A i →
      ∃ c, done.get? i = some c ∧ path.node.Holds c.start c.stop) :
    Marks done (print scene path children) fun _ => A := by
  have hverbatim : kindOf path.node ≠ .statementBlock →
      Marks done (verbatim scene path.node) fun _ => A := fun hkind =>
    (marks_verbatim scene path.node).mono fun _ => hcopy hkind
  rw [print]
  refine (reads_hasDanglingComments path.node).bind_marks ?_
  split
  · rename_i hcopied
    refine hverbatim fun hkind => ?_
    simp [hkind, printsDangling] at hcopied
  · rename_i hlaid
    have hparts : ∀ i, A i → Visits M children i ∨
        printsDangling (kindOf path.node) = true ∧ Dangles done path.node i := by
      refine fun i hi => (hparts i hi).imp_right fun hdangles => ⟨?_, hdangles⟩
      by_contra hnone
      refine hlaid (Bool.and_eq_true_iff.mpr ⟨?_, by simpa using hnone⟩)
      by_contra hplacement
      exact not_dangles (Bool.eq_false_iff.mpr hplacement) i hdangles
    by_cases hblock : kindOf path.node = .statementBlock
    · rw [node_of_block hblock, bind_map_left]
      exact ((marks_block fun c => h.prints).mono fun _ i hi =>
        (hparts i hi).imp h.visits_meaningful And.right).bind_quiet fun _ => quiet_pure _
    · exact (h.laid.mono fun _ i hi => ⟨hi.1, hparts i hi.2⟩).bind_option (fun _ => quiet_pure _)
        (hverbatim hblock)

end Parts

end CodeFormatter.JavaScript.Printer

namespace CodeFormatter.JavaScript.Embedded

open Walk

variable {done : Comments} {scene : Scene} {M : Node → Nat → Prop}

theorem quiet_codeDoc? (scene : Scene) (code : String) : Quiet (codeDoc? scene code) := by
  intro st b st' h
  obtain ⟨st₁, st₂, hget, h⟩ := bind_eq_ok.mp h
  cases hget
  cases hdoc : scene.embedded code (codeOptions scene.options) st.lastGroup with
  | ok r =>
    simp only [hdoc] at h
    cases h
    rfl
  | error e =>
    cases e <;> simp only [hdoc] at h <;> cases h
    rfl

theorem of_tagged? {t : Node} {children : List (Printable Info)} {tag template : Printable Info}
    (h : tagged? t children = some (tag, template)) :
    kindOf t = .callExpression ∧ children = [tag, template] ∧
      kindOf tag.node = .identifier ∧ kindOf template.node = .templateString := by
  unfold tagged? at h
  split at h
  · rename_i hkind
    split at h
    · rename_i hkinds
      cases h
      simpa [hkind] using hkinds
    · cases h
  · cases h

/-- Of a template with code only the tag is printed. -/
theorem marks_print (path : Tree.Path Info) {children : List (Printable Info)} {A : Nat → Prop}
    (h : ∀ c ∈ children, Printer.Prints done M c)
    (hcode : ∀ tag template s, tagged? path.node children = some (tag, template) →
      sliceOrError scene.text tag.node.start tag.node.stop = .ok s → isCodeTag s = true →
      ∀ i, A i → M tag.node i) :
    Marks done (print scene path children) fun answer i => answer.isSome = true ∧ A i := by
  unfold print
  cases htagged : tagged? path.node children with
  | none => exact marks_none
  | some parts =>
    obtain ⟨tag, template⟩ := parts
    refine (Printer.quiet_source scene template.node).bind_marks fun raw => ?_
    refine marks_lift_bind fun s hs => ?_
    split
    · exact marks_none
    · rename_i hplain
      have htag : tag ∈ children := by simp [(of_tagged? htagged).2.1]
      have hprints : Marks done tag.print fun _ => A := (h tag htag).mono fun _ =>
        hcode tag template s htagged hs (by simp_all)
      have hsome : ∀ f : Doc → Doc, Marks done (tag.print >>= fun d => pure (some (f d)))
          fun answer i => answer.isSome = true ∧ A i := fun f =>
        (hprints.bind_quiet fun _ => quiet_pure _).mono fun _ _ => And.right
      split
      · exact hsome _
      · refine (quiet_codeDoc? scene _).bind_marks fun doc => ?_
        cases doc with
        | none => exact marks_none
        | some doc => exact hsome _

end CodeFormatter.JavaScript.Embedded
