import CodeFormatter.Proofs.JavaScript.Visits
import CodeFormatter.Proofs.Layout.Leaves
import CodeFormatter.Proofs.Walk.Gives

/-!
# What the printers lay out

For each printer, the leaves of the documents it makes: words, punctuation marks, and the documents
of the nodes below. They are the same in all layouts of a document, but for blanks and for commas at
the end of lists. For a call this means that the three ways to lay out its arguments agree
(`lays_hugged`).

A chain of operators is the one printer that reaches further down than to the children of its node.
Its leaves are those of a tree of operators that has been opened up (`Chained`), so its lemma is about
a node and all nodes below it (`Sown`).
-/

namespace CodeFormatter.JavaScript.Printer

open Walk Layout

variable {keep : Char → Bool} {Aside : Doc → Prop} {P : Node → Doc → Prop} {done : Comments}
  {scene : Scene} {t : Node} {c d : Child} {children : List Child}

/-! ## What a layout relies on -/

/-- Blanks do not count. If commas do, the options allow none at the end of a list. What is printed
for the comments inside a node is aside. -/
structure Counts (keep : Char → Bool) (Aside : Doc → Prop) (done : Comments) (scene : Scene) :
    Prop where
  space : keep ' ' = false
  comma : keep ',' = true → scene.options.trailingComma = .none
  dangling : ∀ (t : Node) (sameIndent : Bool),
    Gives done (danglingComments CommentText.print t sameIndent) Aside

/-- The document of a node is as `P` says. -/
abbrev Delivers (done : Comments) (P : Node → Doc → Prop) (c : Child) : Prop :=
  Gives done c.print (P c.node)

/-- The same for all nodes below it. -/
inductive Sown (done : Comments) (P : Node → Doc → Prop) : Child → Prop
  | intro {c : Child} (delivers : Delivers done P c)
      (nodes : c.children.map (·.node) = c.node.children)
      (below : ∀ d ∈ c.children, Sown done P d) : Sown done P c

theorem Sown.delivers (h : Sown done P c) : Delivers done P c := by
  cases h
  assumption

/-- The nodes of some children. -/
abbrev nodesOf (children : List Child) : List Node := children.map (·.node)

namespace Counts

theorem word_space (h : Counts keep Aside done scene) :
    (word keep " " : List (Char ⊕ Node)) = [] := by
  simp [word, h.space]

/-- A space does not count. -/
theorem space_text (h : Counts keep Aside done scene) : Builds keep Aside P [] (text " ") :=
  (Builds.text " ").of_eq h.word_space

/-- A comma that is not wanted in every layout does not count. -/
theorem trailingComma (h : Counts keep Aside done scene) {wanted : Bool}
    (hwanted : wanted = true → scene.options.trailingComma ≠ .none) :
    Lays (β := Node) keep Aside [] (trailingComma wanted) := by
  cases wanted with
  | false => exact .nil
  | true =>
    have hcomma : keep ',' = false := by
      by_contra hkeep
      exact hwanted rfl (h.comma (by simpa using hkeep))
    have hnone : (letters keep "," : List (Leaf Node)) = [] := by simp [letters, hcomma]
    have htext : Lays (β := Node) keep Aside (letters keep ",") (text ",") := .text ","
    rw [hnone] at htext
    exact .choose none htext .nil

/-- Without comments nothing is printed for them. -/
theorem of_bare (hspace : keep ' ' = false)
    (hcomma : keep ',' = true → scene.options.trailingComma = .none) :
    Counts keep (· = Doc.nil) (Comments.ofList []) scene :=
  ⟨hspace, hcomma, fun t sameIndent =>
    gives_danglingComments_nil CommentText.print t sameIndent rfl⟩

end Counts

/-- Nothing counts but the nodes below. -/
theorem counts_nothing (done : Comments) (scene : Scene) :
    Counts (fun _ => false) (fun _ => True) done scene :=
  ⟨rfl, nofun, fun t sameIndent => gives_danglingComments language t sameIndent⟩

section Statements

variable (keep Aside)

/-! ## Statements -/

theorem builds_statementDocs (h : ∀ c ∈ children, Delivers done P c) :
    Gives done (statementDocs scene children)
      (BuildsAll keep Aside P (partsOf (nodesOf children))) := by
  induction children using statementDocs.induct with
  | case1 => exact gives_pure .nil
  | case2 last =>
    rw [statementDocs]
    exact (h last List.mem_cons_self).bind fun d hd => gives_pure (.singleton (.part hd))
  | case3 c rest hrest ih =>
    rw [statementDocs.eq_3 _ _ _ hrest]
    refine (h c List.mem_cons_self).bind fun d hd => ?_
    refine (quiet_blankLineAfter scene c.node).bind_gives fun blank => ?_
    refine (ih fun e he => h e (List.mem_cons_of_mem c he)).bind fun ds hds => ?_
    refine gives_pure (.cons (.part hd) (.skip .hardline ?_))
    cases blank with
    | false => exact hds
    | true => exact .skip .hardline hds

theorem builds_statements (h : ∀ c ∈ children, Delivers done P c) :
    Gives done (statements scene children)
      (Builds keep Aside P (partsOf (nodesOf (meaningful children)))) := by
  have hdocs : Gives done (statementDocs scene (meaningful children))
      (BuildsAll keep Aside P (partsOf (nodesOf (meaningful children)))) :=
    builds_statementDocs keep Aside fun c hc => h c (List.mem_filter.mp hc).1
  exact (hdocs.mono fun _ hds => hds.concat).map

/-- Printers that print the comments inside a node ask first whether there are any. -/
theorem gives_ite_dangling {β : Type} {x y : Walk β} {Q : β → Prop} (hx : Gives done x Q)
    (hy : Gives done y Q) :
    Gives done (if done.hasPlacement t.id .dangling = true then x else y) Q := by
  split
  · exact hx
  · exact hy

end Statements

theorem builds_program (hcounts : Counts keep Aside done scene)
    (h : ∀ c ∈ children, Delivers done P c) :
    Gives done (program scene t children)
      (Builds keep Aside P (partsOf (nodesOf (meaningful children)))) := by
  rw [program]
  refine (builds_statements keep Aside h).bind fun body hbody => ?_
  have hparts : ∀ dangling, BuildsAll keep Aside P [] dangling →
      Builds keep Aside P (partsOf (nodesOf (meaningful children)))
        (.concat (if ((if body.isEmpty then [] else [body]) ++ dangling).isEmpty then []
          else (if body.isEmpty then [] else [body]) ++ dangling ++ [Doc.hardline])) := by
    intro dangling hdangling
    cases hempty : body.isEmpty with
    | true =>
      refine hbody.vanish hempty ?_
      cases dangling with
      | nil => exact .nil
      | cons d rest => exact (hdangling.append (.singleton .hardline)).concat
    | false =>
      refine Builds.of_eq (BuildsAll.cons hbody (hdangling.append (.singleton .hardline))).concat ?_
      exact List.append_nil _
  refine (reads_hasDanglingComments t).bind_gives (gives_ite_dangling ?_ ?_)
  · refine (hcounts.dangling t true).bind fun comments hcomments => ?_
    refine gives_pure (hparts _ ?_)
    split
    · exact .singleton (.aside hcomments)
    · exact .skip .hardline (.singleton (.aside hcomments))
  · exact gives_pure (hparts [] .nil)

theorem builds_block (hcounts : Counts keep Aside done scene)
    (h : ∀ c ∈ children, Delivers done P c) :
    Gives done (block scene t children) (Builds keep Aside P
      (word keep "\x7b" ++ partsOf (nodesOf (meaningful children)) ++ word keep "\x7d")) := by
  have hparts : ∀ body dangling, BuildsAll keep Aside P
      (partsOf (nodesOf (meaningful children))) body → BuildsAll keep Aside P [] dangling →
      Builds keep Aside P
        (word keep "\x7b" ++ partsOf (nodesOf (meaningful children)) ++ word keep "\x7d")
        (.concat ([text "\x7b"] ++ body ++ dangling ++ [Doc.hardline, text "\x7d"])) := by
    intro body dangling hbody hdangling
    refine BuildsAll.concat (.of_eq ((((BuildsAll.singleton (.text _)).append hbody).append
      hdangling).append (.skip .hardline (.singleton (.text _)))) ?_)
    rw [List.append_nil]
  have hcomments : ∀ body, BuildsAll keep Aside P (partsOf (nodesOf (meaningful children))) body →
      ∀ comments, Aside comments → Builds keep Aside P
        (word keep "\x7b" ++ partsOf (nodesOf (meaningful children)) ++ word keep "\x7d")
        (.concat ([text "\x7b"] ++ body ++ [comments] ++ [Doc.hardline, text "\x7d"])) :=
    fun body hbody comments haside => hparts body _ hbody (.singleton (.aside haside))
  have hnone : (meaningful children).isEmpty = true →
      BuildsAll keep Aside P (partsOf (nodesOf (meaningful children))) [] := by
    intro hempty
    rw [List.isEmpty_iff.mp hempty]
    exact .nil
  rw [block]
  refine (reads_hasDanglingComments t).bind_gives ?_
  simp only [pure_bind]
  split
  · rename_i hnothing
    simp only [Bool.not_not, Bool.and_eq_true, List.isEmpty_iff] at hnothing
    refine gives_pure ((Builds.text _).of_eq ?_)
    rw [hnothing.1, nodesOf, List.map_nil, partsOf_nil, List.append_nil, ← word_append]
    rfl
  · split
    · refine (builds_statements keep Aside h).bind fun body hbody => ?_
      have hbody : BuildsAll keep Aside P (partsOf (nodesOf (meaningful children)))
          [.indent (.concat [Doc.hardline, body])] :=
        .singleton (.indent (BuildsAll.skip .hardline (.singleton hbody)).concat)
      refine gives_ite_dangling ?_ (gives_pure (hparts _ [] hbody .nil))
      exact (hcounts.dangling t false).bind fun comments haside =>
        gives_pure (hcomments _ hbody comments haside)
    · rename_i hempty
      simp only [Bool.not_eq_true', Bool.not_eq_false] at hempty
      refine gives_ite_dangling ?_ (gives_pure (hparts [] [] (hnone hempty) .nil))
      exact (hcounts.dangling t false).bind fun comments haside =>
        gives_pure (hcomments [] (hnone hempty) comments haside)

variable (keep Aside) in
/-- A statement may get a semicolon, in front or behind. -/
theorem builds_expressionStatement (h : Delivers done P c) :
    Gives done (expressionStatement scene c) fun d =>
      ∃ before ∈ ["", ";"], ∃ after ∈ ["", ";"],
        Builds keep Aside P (word keep before ++ .inr c.node :: word keep after) d := by
  rw [expressionStatement]
  refine h.bind fun doc hdoc => ?_
  split
  · refine gives_pure ⟨"", by simp, ";", by simp, BuildsAll.concat (.of_eq
      (.cons (.part hdoc) (.singleton (.text ";"))) ?_)⟩
    simp
  · refine (quiet_startsWith _ _ _).bind_gives fun starts => ?_
    split
    · refine gives_pure ⟨";", by simp, "", by simp, BuildsAll.concat (.of_eq
        (.cons (.text ";") (.singleton (.part hdoc))) ?_)⟩
      simp
    · refine gives_pure ⟨"", by simp, "", by simp, (Builds.part hdoc).of_eq ?_⟩
      simp

variable (keep Aside P) in
theorem builds_terminator (scene : Scene) : ∃ ending ∈ ["", ";"],
    Builds keep Aside P (word keep ending) (terminator scene) := by
  unfold terminator
  split
  · exact ⟨";", by simp, .text ";"⟩
  · exact ⟨"", by simp, .nil⟩

theorem builds_keywordStatement (hcounts : Counts keep Aside done scene) {keyword : String}
    {argument : Option Child} (h : ∀ c ∈ argument, Delivers done P c) :
    Gives done (keywordStatement scene keyword argument) fun d => ∃ ending ∈ ["", ";"],
      Builds keep Aside P
        (word keep keyword ++ partsOf (nodesOf argument.toList) ++ word keep ending) d := by
  obtain ⟨ending, hending, hterminator⟩ := builds_terminator keep Aside P scene
  unfold keywordStatement
  cases argument with
  | none =>
    refine gives_pure ⟨ending, hending, BuildsAll.concat (.of_eq
      (.append (.append (.singleton (.text keyword)) .nil) (.singleton hterminator)) ?_)⟩
    simp
  | some c =>
    refine (h c rfl).bind fun doc hdoc => gives_pure ⟨ending, hending, BuildsAll.concat (.of_eq
      (.append (.append (.singleton (.text keyword))
        (.skip hcounts.space_text (.singleton (.part hdoc)))) (.singleton hterminator)) ?_)⟩
    simp

/-- A list of variables after the first one, each after a comma. -/
theorem builds_furtherVariables {hasValue : Bool} {docs : List Doc}
    (h : List.Forall₂ (fun c d => P c.node d) children docs) :
    BuildsAll keep Aside P ((nodesOf children).flatMap fun u => word keep "," ++ [.inr u])
      (furtherVariables hasValue docs) := by
  induction h with
  | nil => exact .nil
  | cons hd _ ih =>
    rw [furtherVariables, List.flatMap_cons, nodesOf, List.map_cons, List.flatMap_cons]
    refine BuildsAll.append ?_ ih
    refine .cons (.text ",") (.skip ?_ (.singleton (.part hd)))
    split
    · exact .hardline
    · exact .line .normal

theorem builds_declaration (hcounts : Counts keep Aside done scene) {rest : List Child}
    (h : ∀ d ∈ c :: rest, Delivers done P d) :
    Gives done (declaration scene t (c :: rest)) fun d => ∃ ending ∈ ["", ";"],
      Builds keep Aside P (word keep (t.info.tokens.head?.getD "var") ++ .inr c.node ::
        ((nodesOf rest).flatMap fun u => word keep "," ++ [.inr u]) ++ word keep ending) d := by
  obtain ⟨ending, hending, hterminator⟩ := builds_terminator keep Aside P scene
  rw [declaration]
  refine (gives_mapM h).bind fun docs hdocs => ?_
  cases hdocs with
  | cons hd hrest =>
    refine gives_pure ⟨ending, hending, Builds.groupOf (BuildsAll.concat (.of_eq
      (.cons (.text _) (.skip hcounts.space_text (.cons (.part hd)
        (.cons (builds_furtherVariables hrest).concat.indent (.singleton hterminator))))) ?_))⟩
    simp

/-! ## Branches and loops -/

/-- An empty statement is printed as a semicolon. -/
def clauseShape (keep : Char → Bool) (t : Node) : List (Char ⊕ Node) :=
  if kindOf t = .emptyStatement then word keep ";" else [.inr t]

theorem builds_clause (hcounts : Counts keep Aside done scene) {forceSpace : Bool}
    (h : Delivers done P c) :
    Gives done (clause c forceSpace) (Builds keep Aside P (clauseShape keep c.node)) := by
  unfold clause clauseShape
  by_cases hkind : kind c = .emptyStatement
  · have hnode : kindOf c.node = .emptyStatement := hkind
    rw [if_pos hkind, if_pos hnode]
    exact gives_pure (.text ";")
  · have hnode : kindOf c.node ≠ .emptyStatement := hkind
    rw [if_neg hkind, if_neg hnode]
    refine h.bind fun doc hdoc => ?_
    split
    · exact gives_pure (BuildsAll.skip hcounts.space_text (.singleton (.part hdoc))).concat
    · exact gives_pure (BuildsAll.skip (.line .normal) (.singleton (.part hdoc))).concat.indent

theorem builds_ifThen (hcounts : Counts keep Aside done scene) {condition consequence : Child}
    (hcondition : Delivers done P condition) (hconsequence : Delivers done P consequence) :
    Gives done (ifStatement t condition consequence none) (Builds keep Aside P
      (word keep "if " ++ .inr condition.node :: clauseShape keep consequence.node)) := by
  refine hcondition.bind fun d hd => (builds_clause hcounts hconsequence).bind fun e he => ?_
  refine gives_pure (Builds.groupOf (BuildsAll.concat (.of_eq
    (.cons (.text _) (.cons (.part hd) (.singleton he))) ?_)))
  simp

theorem builds_ifElse (hcounts : Counts keep Aside done scene)
    {condition consequence alternative : Child} (hcondition : Delivers done P condition)
    (hconsequence : Delivers done P consequence) (halternative : Delivers done P alternative) :
    Gives done (ifStatement t condition consequence (some alternative)) (Builds keep Aside P
      (word keep "if " ++ .inr condition.node :: clauseShape keep consequence.node
        ++ [.inr alternative.node])) := by
  refine hcondition.bind fun d hd => (builds_clause hcounts hconsequence).bind fun e he => ?_
  refine (quiet_hasTrailingLineComment _).bind_gives fun trails => ?_
  refine (quiet_lastDanglingIsLine _).bind_gives fun isLine => ?_
  have hopening : Builds keep Aside P
      (word keep "if " ++ .inr condition.node :: clauseShape keep consequence.node)
      (Doc.groupOf (.concat [text "if ", d, e])) := by
    refine Builds.groupOf (BuildsAll.concat (.of_eq
      (.cons (.text _) (.cons (.part hd) (.singleton he))) ?_))
    simp
  have hspace : ∀ b : Bool, Builds keep Aside P [] (if b then text " " else Doc.hardline) := by
    intro b
    cases b
    · exact .hardline
    · exact hcounts.space_text
  have hline : ∀ b : Bool, Builds keep Aside P [] (if b then Doc.hardline else text " ") := by
    intro b
    cases b
    · exact hcounts.space_text
    · exact .hardline
  -- Something aside may stand before the alternative.
  have hparts : ∀ (b : Bool) (dangling : List Doc), BuildsAll keep Aside P [] dangling → ∀ f,
      P alternative.node f → Builds keep Aside P
        (word keep "if " ++ .inr condition.node :: clauseShape keep consequence.node
          ++ [.inr alternative.node])
        (.concat ([Doc.groupOf (.concat [text "if ", d, e]),
          if b then text " " else Doc.hardline] ++ dangling ++ [f])) := by
    intro b dangling hdangling f hf
    refine BuildsAll.concat (.of_eq (((BuildsAll.cons hopening (.singleton (hspace b))).append
      hdangling).append (.singleton (.part hf))) ?_)
    simp
  refine (reads_hasDanglingComments t).bind_gives ?_
  simp only [pure_bind]
  refine gives_ite_dangling ?_ ?_
  · refine (hcounts.dangling t true).bind fun comments haside => ?_
    refine halternative.bind fun f hf => gives_pure (hparts _ _ ?_ f hf)
    exact .skip (.aside haside) (.singleton (hline _))
  · exact halternative.bind fun f hf => gives_pure (hparts _ [] .nil f hf)

theorem builds_whileStatement (hcounts : Counts keep Aside done scene) {condition body : Child}
    (hcondition : Delivers done P condition) (hbody : Delivers done P body) :
    Gives done (whileStatement condition body) (Builds keep Aside P
      (word keep "while " ++ .inr condition.node :: clauseShape keep body.node)) := by
  refine hcondition.bind fun d hd => (builds_clause hcounts hbody).bind fun e he => ?_
  refine gives_pure (Builds.groupOf (BuildsAll.concat (.of_eq
    (.cons (.text _) (.cons (.part hd) (.singleton he))) ?_)))
  simp

theorem builds_elseClause (hcounts : Counts keep Aside done scene) {body : Child}
    (hbody : Delivers done P body) :
    Gives done (elseClause body)
      (Builds keep Aside P (word keep "else" ++ clauseShape keep body.node)) := by
  refine (builds_clause hcounts hbody).bind fun e he => gives_pure ?_
  exact (BuildsAll.cons (.text _) (.singleton he.groupOf)).concat

/-! ## Assignments and operators -/

theorem builds_assignedValue (hcounts : Counts keep Aside done scene) (h : Delivers done P c) :
    Gives done (assignedValue c) (Builds keep Aside P [.inr c.node]) := by
  rw [assignedValue]
  refine h.bind fun doc hdoc => ?_
  split
  case h_5 =>
    exact gives_pure (BuildsAll.skip hcounts.space_text (.singleton (.part hdoc))).concat
  all_goals
    exact gives_pure
      (BuildsAll.skip (.line .normal) (.singleton (.part hdoc))).concat.indent.groupOf

theorem builds_assignment (hcounts : Counts keep Aside done scene) {target value : Child}
    {sign : String} (htarget : Delivers done P target) (hvalue : Delivers done P value) :
    Gives done (assignment target sign value) (Builds keep Aside P
      (.inr target.node :: word keep (" " ++ sign) ++ [.inr value.node])) := by
  rw [assignment]
  refine htarget.bind fun d hd => (builds_assignedValue hcounts hvalue).bind fun e he => ?_
  refine gives_pure (BuildsAll.concat (.of_eq
    (.cons (.part hd) (.cons (.text _) (.singleton he))) ?_))
  simp

/-- The leaves of a chain of operators: an operand without comments may be opened up. -/
inductive Chained (keep : Char → Bool) (done : Comments) :
    Node → String → Node → List (Char ⊕ Node) → Prop
  | whole (left : Node) (operator : String) (right : Node) : Chained keep done left operator right
      (.inr left :: word keep (" " ++ operator) ++ [.inr right])
  | opened {left innerLeft innerRight right : Node} {operator : String} {inner : OperatorToken}
      {shape : List (Char ⊕ Node)} : kindOf left = .binaryExpression →
      left.children = [innerLeft, innerRight] → left.info.operator = some inner →
      done.of left.id = [] → Chained keep done innerLeft inner.text innerRight shape →
      Chained keep done left operator right (shape ++ word keep (" " ++ operator) ++ [.inr right])

theorem operands?_eq {left right : Child} {operator : String}
    (h : operands? c = some (left, operator, right)) :
    kindOf c.node = .binaryExpression ∧ c.children = [left, right] ∧
      ∃ inner, c.node.info.operator = some inner ∧ inner.text = operator := by
  unfold operands? at h
  split at h
  · rename_i hkind hchildren hoperator
    cases h
    exact ⟨hkind, hchildren, _, hoperator, rfl⟩
  · cases h

/-- An operand comes after an operator. -/
theorem builds_operand {shape : List (Char ⊕ Node)} {docs : List Doc} {u : Node} {e : Doc}
    (hdocs : BuildsAll keep Aside P shape docs) (operator : String) (he : P u e) :
    BuildsAll keep Aside P (shape ++ word keep (" " ++ operator) ++ [.inr u])
      (docs ++ [text (" " ++ operator), Doc.space, e]) := by
  rw [List.append_assoc]
  exact hdocs.append (.cons (.text _) (.skip (.line .normal) (.singleton (.part he))))

variable (keep Aside) in
theorem builds_chain {fuel : Nat} {left right : Child} {operator : String}
    (hleft : Sown done P left) (hright : Sown done P right) :
    Gives done (chain fuel left operator right) fun docs => ∃ shape,
      Chained keep done left.node operator right.node shape ∧
        BuildsAll keep Aside P shape docs := by
  induction fuel generalizing left operator right with
  | zero =>
    refine hleft.delivers.bind fun d hd => hright.delivers.bind fun e he => gives_pure ?_
    exact ⟨_, .whole _ _ _, builds_operand (.singleton (Builds.part hd).groupOf) operator he⟩
  | succ fuel ih =>
    have hend : ∀ x : Walk (List Doc), (Gives done x fun docs => ∃ shape,
          BuildsAll keep Aside P shape docs ∧ Chained keep done left.node operator right.node
            (shape ++ word keep (" " ++ operator) ++ [.inr right.node])) →
        Gives done (x >>= fun docs => right.print >>= fun e =>
          pure (docs ++ [text (" " ++ operator), Doc.space, e])) fun docs => ∃ shape,
            Chained keep done left.node operator right.node shape ∧
              BuildsAll keep Aside P shape docs := fun x hx =>
      hx.bind fun docs hdocs => hright.delivers.bind fun e he => by
        obtain ⟨_, hdocs, hshape⟩ := hdocs
        exact gives_pure ⟨_, hshape, builds_operand hdocs operator he⟩
    have hwhole : Gives done (left.print >>= fun d => pure [Doc.groupOf d]) fun docs => ∃ shape,
        BuildsAll keep Aside P shape docs ∧ Chained keep done left.node operator right.node
          (shape ++ word keep (" " ++ operator) ++ [.inr right.node]) :=
      hleft.delivers.bind fun d hd =>
        gives_pure ⟨[.inr left.node], .singleton (Builds.part hd).groupOf, .whole _ _ _⟩
    rw [chain]
    dsimp only
    cases hoperands : operands? left with
    | none => exact hend _ hwhole
    | some operands =>
      obtain ⟨innerLeft, inner, innerRight⟩ := operands
      obtain ⟨hkind, hchildren, token, htoken, rfl⟩ := operands?_eq hoperands
      obtain ⟨-, hnodes, hbelow⟩ := hleft
      rw [hchildren] at hnodes hbelow
      refine (reads_hasComments left.node).bind_gives ?_
      split
      · rename_i hflat
        have hnone : done.of left.node.id = [] := by
          simp only [Bool.not_not, Bool.and_eq_true, List.isEmpty_iff] at hflat
          exact hflat.2
        refine hend _ <| (ih (hbelow innerLeft (by simp)) (hbelow innerRight (by simp))).mono ?_
        rintro docs ⟨_, hshape, hdocs⟩
        exact ⟨_, hdocs, .opened hkind hnodes.symm htoken hnone hshape⟩
      · exact hend _ hwhole

variable (keep Aside) in
theorem builds_binary {path : Tree.Path Info} {left right : Child} {operator : String}
    (hleft : Sown done P left) (hright : Sown done P right) :
    Gives done (binary path left operator right) fun d => ∃ shape,
      Chained keep done left.node operator right.node shape ∧ Builds keep Aside P shape d := by
  rw [binary]
  refine (builds_chain keep Aside hleft hright).bind ?_
  rintro docs ⟨shape, hshape, hdocs⟩
  split
  · exact gives_pure ⟨shape, hshape, hdocs.concat.groupOf⟩
  · rw [← List.take_append_drop 1 docs] at hdocs
    obtain ⟨s, s', rfl, hfirst, hrest⟩ := hdocs.of_append
    exact gives_pure ⟨_, hshape, Builds.groupOf (BuildsAll.concat
      (.cons hfirst.concat (.singleton hrest.concat.indent)))⟩

theorem builds_unary (hcounts : Counts keep Aside done scene) {operator : String}
    (h : Delivers done P c) :
    Gives done (unary scene operator c)
      (Builds keep Aside P (word keep operator ++ [.inr c.node])) := by
  have hend : ∀ spaced : Bool, Gives done (c.print >>= fun e => pure (Doc.concat
        [text operator, if spaced then text " " else Doc.nil, e]))
      (Builds keep Aside P (word keep operator ++ [.inr c.node])) := fun spaced =>
    h.bind fun d hd => gives_pure <| BuildsAll.concat <|
      .cons (.text operator) (.skip (by cases spaced; exacts [.nil, hcounts.space_text])
        (.singleton (.part hd)))
  unfold unary
  simp only [pure_bind]
  split
  · exact hend true
  · split
    · exact (quiet_startsWith _ _ _).bind_gives hend
    · exact hend false

theorem builds_update {operator : OperatorToken} (h : Delivers done P c) :
    Gives done (update operator c) (Builds keep Aside P
      (if operator.start < c.node.start then word keep operator.text ++ [.inr c.node]
        else .inr c.node :: word keep operator.text)) := by
  refine h.bind fun d hd => gives_pure ?_
  split
  · exact (BuildsAll.cons (.text _) (.singleton (.part hd))).concat
  · exact (BuildsAll.cons (.part hd) (.singleton (.text _))).concat

theorem builds_ternary {condition consequence alternative : Child}
    (hcondition : Delivers done P condition) (hconsequence : Delivers done P consequence)
    (halternative : Delivers done P alternative) :
    Gives done (ternary condition consequence alternative) (Builds keep Aside P
      (.inr condition.node :: word keep "? " ++ .inr consequence.node :: word keep ": "
        ++ [.inr alternative.node])) := by
  refine hcondition.bind fun d hd => hconsequence.bind fun e he => halternative.bind
    fun f hf => gives_pure (Builds.groupOf (BuildsAll.concat (.of_eq
      (.cons (.part hd) (.singleton (BuildsAll.concat (.skip (.line .normal) (.cons (.text _)
        (.cons (.part he) (.skip (.line .normal) (.cons (.text _)
          (.singleton (.part hf)))))))).indent)) ?_)))
  simp

theorem builds_parenthesized (h : Delivers done P c) :
    Gives done (parenthesized c)
      (Builds keep Aside P (word keep "(" ++ .inr c.node :: word keep ")")) := by
  refine h.bind fun d hd => gives_pure (Builds.groupOf (BuildsAll.concat (.of_eq
    (.cons (.text _) (.cons (BuildsAll.skip (.line .soft) (.singleton (.part hd))).concat.indent
      (.skip (.line .soft) (.singleton (.text _))))) ?_)))
  simp

/-! ## Functions and calls -/

/-- A function: what goes before, its name, its parameters and its body. -/
def functionShape (keep : Char → Bool) (t : Node) (name : Option Node) (parameters body : Node) :
    List (Char ⊕ Node) :=
  word keep (if t.info.tokens.contains "async" then "async " else "") ++ word keep "function"
    ++ word keep (if t.info.tokens.contains "*" then "*" else "") ++ partsOf name.toList
    ++ [.inr parameters, .inr body]

theorem builds_functionOpening (keep : Char → Bool) (Aside : Doc → Prop) (P : Node → Doc → Prop)
    (t : Node) : BuildsAll keep Aside P
      (word keep (if t.info.tokens.contains "async" then "async " else "") ++ word keep "function"
        ++ word keep (if t.info.tokens.contains "*" then "*" else "")) (functionOpening t) := by
  have hword : ∀ (b : Bool) (s : String), BuildsAll keep Aside P (word keep (if b then s else ""))
      (if b then [text s] else []) := by
    intro b s
    cases b
    · exact .nil
    · exact .singleton (.text s)
  exact ((hword _ _).append (.singleton (.text _))).append (hword _ _)

theorem builds_function? (hcounts : Counts keep Aside done scene) {doc : Walk Doc}
    (h : ∀ c ∈ children, Delivers done P c) (hdoc : function? t children = some doc) :
    ∃ (name : Option Node) (parameters body : Node), (∀ u ∈ name, kindOf u = .identifier) ∧
      kindOf parameters = .formalParameters ∧ kindOf body = .statementBlock ∧
      (nodesOf children).Perm (name.toList ++ [parameters, body]) ∧
      Gives done doc (Builds keep Aside P (functionShape keep t name parameters body)) := by
  obtain ⟨name, parameters, body, hkname, hkparameters, hkbody, hperm, rfl⟩ := eq_functionOf hdoc
  have hdelivers : ∀ c ∈ name.toList ++ [parameters, body], Delivers done P c := fun c hc =>
    h c (hperm.mem_iff.mpr hc)
  refine ⟨name.map (·.node), parameters.node, body.node, ?_, hkparameters, hkbody, ?_, ?_⟩
  · rintro u hu
    obtain ⟨c, hc, rfl⟩ := Option.mem_map.mp hu
    exact hkname c hc
  · have hmap := hperm.map (·.node)
    rw [List.map_append] at hmap
    cases name <;> exact hmap
  · have hopening := builds_functionOpening keep Aside P t
    have hbehind : ∀ {ls before}, BuildsAll keep Aside P ls before →
        Gives done (functionBehind before parameters body)
          (Builds keep Aside P (ls ++ [.inr parameters.node, .inr body.node])) := fun hbefore =>
      (hdelivers parameters (by simp)).bind fun d hd => (hdelivers body (by simp)).bind
        fun e he => gives_pure (BuildsAll.concat (hbefore.append
          (.cons (Builds.part hd).groupOf (.skip hcounts.space_text (.singleton (.part he))))))
    cases name with
    | none => simpa [functionOf, functionShape] using hbehind hopening
    | some c =>
      refine (hdelivers c (by simp)).bind fun d hd => ?_
      have hname := hopening.append (.skip hcounts.space_text (.singleton (.part hd)))
      simpa [functionShape] using hbehind hname

theorem builds_arrow (hcounts : Counts keep Aside done scene) {parameters body : Child}
    (hparameters : Delivers done P parameters) (hbody : Delivers done P body) :
    Gives done (arrow t parameters body) (Builds keep Aside P
      (word keep (if t.info.tokens.contains "async" then "async " else "")
        ++ .inr parameters.node :: word keep " =>" ++ [.inr body.node])) := by
  refine hparameters.bind fun d hd => hbody.bind fun e he => gives_pure (Builds.groupOf
    (BuildsAll.concat ?_))
  have hasync : BuildsAll keep Aside P
      (word keep (if t.info.tokens.contains "async" then "async " else ""))
      (if t.info.tokens.contains "async" then [text "async "] else []) := by
    split
    · exact .singleton (.text _)
    · exact .nil
  have hrest : BuildsAll keep Aside P [.inr body.node]
      (if staysAfterArrow (kind body) then [text " ", e]
        else [Doc.groupOf (.indent (.concat [Doc.space, e]))]) := by
    split
    · exact .skip hcounts.space_text (.singleton (.part he))
    · exact .singleton (BuildsAll.skip (.line .normal) (.singleton (.part he))).concat.indent.groupOf
  refine ((hasync.append (.cons (.part hd) (.singleton (.text _)))).append hrest).of_eq ?_
  simp

/-! ## Lists between brackets -/

/-- The documents of some children, each with its node. -/
theorem exists_documents {docs : List Doc}
    (h : List.Forall₂ (fun c d => P c.node d) children docs) :
    ∃ xs : List (Node × Doc), xs.map (·.1) = nodesOf children ∧ xs.map (·.2) = docs ∧
      ∀ x ∈ xs, P x.1 x.2 := by
  induction h with
  | nil => exact ⟨[], rfl, rfl, by simp⟩
  | @cons c d _ _ hd _ ih =>
    obtain ⟨xs, hnodes, hdocs, hxs⟩ := ih
    refine ⟨(c.node, d) :: xs, ?_, ?_, List.forall_mem_cons.mpr ⟨hd, hxs⟩⟩
    · rw [List.map_cons, hnodes]
      rfl
    · rw [List.map_cons, hdocs]

/-- A list of nodes between brackets. -/
def listShape (keep : Char → Bool) (opening closing : String) (us : List Node) :
    List (Char ⊕ Node) := word keep opening ++ separated keep us ++ word keep closing

section Brackets

variable {opening closing : String} {xs : List (Node × Doc)}

/-- The leaves of such a list. -/
def listed (keep : Char → Bool) (opening closing : String) (xs : List (Node × Doc)) :
    List (Leaf Node) := letters keep opening ++ joined keep xs ++ letters keep closing

theorem builds_of_listed {d : Doc} (h : Lays keep Aside (listed keep opening closing xs) d)
    (hxs : ∀ x ∈ xs, P x.1 x.2) :
    Builds keep Aside P (listShape keep opening closing (xs.map (·.1))) d := by
  refine ⟨_, h, ?_, fun b e hmem => ?_⟩
  · rw [listed, List.map_append, List.map_append, map_shape_letters, map_shape_letters,
      map_shape_joined, listShape]
  · have hjoined : .part b e ∈ joined keep xs := by simpa [listed, letters] using hmem
    exact hxs (b, e) (mem_joined hjoined)

/-- A comma and a place to break. -/
theorem lays_comma : Lays (β := Node) keep Aside (letters keep ",")
    (.concat [text ",", Doc.space]) := by
  have h := Lays.cons (.text "," : Lays keep Aside _ _) (.cons (.line (β := Node) .normal) .nil)
  rwa [List.append_nil, List.append_nil] at h

theorem lays_bracketed {trailing : Doc} (htrailing : Lays (β := Node) keep Aside [] trailing)
    (shouldBreak : Bool) : Lays keep Aside (listed keep opening closing xs)
      (bracketed opening closing (xs.map (·.2)) trailing shouldBreak) := by
  have hinner : Lays keep Aside _ (.indent (.concat
      [Doc.softline, Doc.join (.concat [text ",", Doc.space]) (xs.map (·.2))])) :=
    .indent (.cons (.line (β := Node) .soft) (.cons (lays_intersperse lays_comma xs) .nil))
  have hall := Lays.group shouldBreak none (.cons (.text opening) (.cons hinner
    (.cons htrailing (.cons (.line .soft) (.cons (.text closing) .nil)))))
  rw [List.append_nil, List.append_nil, List.nil_append, List.nil_append, List.nil_append,
    ← List.append_assoc] at hall
  exact hall

/-- **A call lays out the same arguments in each of its ways.** -/
theorem lays_hugged (hspace : keep ' ' = false) {allBroken : Doc}
    (hbroken : Lays keep Aside (listed keep "(" ")" xs) allBroken) (hne : xs ≠ []) :
    Lays keep Aside (listed keep "(" ")" xs) (hugged (xs.map (·.2)) allBroken) := by
  have hsep : Lays (β := Node) keep Aside (letters keep ",") (text ", ") := by
    have h : (letters keep ", " : List (Leaf Node)) = letters keep "," := by
      simp [letters, List.filter_cons, hspace]
    rw [← h]
    exact .text ", "
  have hflat := Lays.cons (.text "(") (.cons (lays_intersperse hsep xs) (.cons (.text ")") .nil))
  have hlast := Lays.cons (.text "(") (lays_last hsep
    (fun _ _ (h : Lays keep Aside _ _) => h.group true none) (.text ")") hne)
  rw [List.append_nil, ← List.append_assoc] at hflat
  rw [← List.append_assoc] at hlast
  have hchoice : Lays keep Aside (listed keep "(" ")" xs) (Doc.conditional
      [.concat [text "(", Doc.join (text ", ") (xs.map (·.2)), text ")"],
        .concat ([text "("] ++ (xs.map (·.2)).dropLast.flatMap (fun d => [d, text ", "])
          ++ [Doc.groupBreaking ((xs.map (·.2)).getLast?.getD Doc.nil) true, text ")"]),
        allBroken]) := by
    refine .conditional false none fun e he => ?_
    simp only [List.headD_cons, List.mem_cons, List.not_mem_nil, or_false] at he
    rcases he with rfl | rfl | rfl | rfl
    · exact hflat
    · exact hflat
    · exact hlast
    · exact hbroken
  have hbreaks : Lays (β := Node) keep Aside []
      (if Doc.anyWillBreak (xs.map (·.2)) then .breakParent else Doc.nil) := by
    split
    · exact .breakParent
    · exact .nil
  have hall := Lays.cons hbreaks (.cons hchoice .nil)
  rwa [List.append_nil, List.nil_append] at hall

end Brackets

theorem builds_emptyBrackets (hcounts : Counts keep Aside done scene) (t : Node)
    (opening closing : String) :
    Gives done (emptyBrackets t opening closing)
      (Builds keep Aside P (listShape keep opening closing [])) := by
  have hshape : (listShape keep opening closing [] : List (Char ⊕ Node)) =
      word keep opening ++ word keep closing := by
    rw [listShape, separated, List.append_nil]
  rw [emptyBrackets, hshape]
  refine (reads_hasDanglingComments t).bind_gives ?_
  split
  · exact gives_pure ((Builds.text _).of_eq (word_append keep opening closing))
  · refine quiet_comments.bind_gives fun cs => ?_
    dsimp only
    split
    · refine (hcounts.dangling t true).bind fun comments haside => gives_pure ?_
      exact (BuildsAll.cons (.text _) (.skip (.aside haside) (.singleton (.text _)))).concat
    · refine (hcounts.dangling t false).bind fun comments haside => gives_pure (Builds.groupOf ?_)
      exact (BuildsAll.cons (.text _) (.skip (.aside haside) (.skip (.line .soft)
        (.singleton (.text _))))).concat

theorem builds_parameters (hcounts : Counts keep Aside done scene)
    (h : ∀ c ∈ children, Delivers done P c) :
    Gives done (parameters scene t children)
      (Builds keep Aside P (listShape keep "(" ")" (nodesOf children))) := by
  unfold parameters
  cases hlast : children.getLast? with
  | none =>
    rw [List.getLast?_eq_none_iff.mp hlast]
    exact builds_emptyBrackets hcounts t "(" ")"
  | some last =>
    refine (gives_mapM h).bind fun docs hdocs => gives_pure ?_
    obtain ⟨xs, hnodes, rfl, hxs⟩ := exists_documents hdocs
    rw [← hnodes]
    refine builds_of_listed (lays_bracketed (hcounts.trailingComma fun hwanted => ?_) false) hxs
    simp only [Bool.and_eq_true, decide_eq_true_eq] at hwanted
    simp [hwanted.1]

theorem builds_arguments (hcounts : Counts keep Aside done scene)
    (h : ∀ c ∈ children, Delivers done P c) :
    Gives done (arguments scene t children)
      (Builds keep Aside P (listShape keep "(" ")" (nodesOf children))) := by
  rw [arguments]
  split
  · rename_i hempty
    rw [List.isEmpty_iff.mp hempty]
    exact builds_emptyBrackets hcounts t "(" ")"
  · rename_i hempty
    refine (quiet_hugsLast children).bind_gives fun hug => ?_
    refine (gives_mapM h).bind fun docs hdocs => ?_
    obtain ⟨xs, hnodes, rfl, hxs⟩ := exists_documents hdocs
    have hne : xs ≠ [] := by
      rintro rfl
      exact hempty (List.isEmpty_iff.mpr (List.map_eq_nil_iff.mp hnodes.symm))
    have hbroken : ∀ shouldBreak, Lays keep Aside (listed keep "(" ")" xs)
        (bracketed "(" ")" (xs.map (·.2)) (trailingComma (scene.options.trailingComma = .all))
          shouldBreak) :=
      lays_bracketed (hcounts.trailingComma fun hwanted => by
        simp only [decide_eq_true_eq] at hwanted
        simp [hwanted])
    rw [← hnodes]
    dsimp only
    split
    · exact gives_pure (builds_of_listed (hbroken false) hxs)
    · split
      · exact gives_pure (builds_of_listed (hbroken true) hxs)
      · exact gives_pure (builds_of_listed (lays_hugged hcounts.space (hbroken true) hne) hxs)

theorem builds_array (hcounts : Counts keep Aside done scene)
    (h : ∀ c ∈ children, Delivers done P c) :
    Gives done (array scene t children)
      (Builds keep Aside P (listShape keep "[" "]" (nodesOf children))) := by
  rw [array]
  split
  · rename_i hempty
    rw [List.isEmpty_iff.mp hempty]
    exact builds_emptyBrackets hcounts t "[" "]"
  · refine (gives_mapM h).bind fun docs hdocs => gives_pure ?_
    obtain ⟨xs, hnodes, rfl, hxs⟩ := exists_documents hdocs
    rw [← hnodes]
    refine builds_of_listed (lays_bracketed (hcounts.trailingComma fun hwanted => ?_) false) hxs
    simpa using hwanted

variable (keep Aside) in
theorem builds_propertyDocs (h : ∀ c ∈ children, Delivers done P c) :
    Gives done (propertyDocs scene children)
      (BuildsAll keep Aside P (separated keep (nodesOf children))) := by
  induction children using propertyDocs.induct with
  | case1 => exact gives_pure .nil
  | case2 last =>
    rw [propertyDocs]
    exact (h last List.mem_cons_self).bind fun d hd => gives_pure (.singleton (.part hd))
  | case3 c rest hrest ih =>
    rw [propertyDocs.eq_3 _ _ _ hrest]
    refine (h c List.mem_cons_self).bind fun d hd => ?_
    refine (quiet_blankLineAfter scene c.node).bind_gives fun blank => ?_
    refine (ih fun e he => h e (List.mem_cons_of_mem c he)).bind fun ds hds => ?_
    have hblank : BuildsAll keep Aside P [] (if blank then [Doc.hardline] else []) := by
      cases blank with
      | false => exact .nil
      | true => exact .singleton .hardline
    obtain ⟨e, rest, rfl⟩ := List.exists_cons_of_ne_nil hrest
    refine gives_pure (.of_eq ((BuildsAll.cons (.part hd) (.cons (.text ",")
      (.skip (.line .normal) hblank))).append hds) ?_)
    simp [nodesOf, separated]

theorem builds_object (hcounts : Counts keep Aside done scene)
    (h : ∀ c ∈ children, Delivers done P c) :
    Gives done (object scene t children)
      (Builds keep Aside P (listShape keep "\x7b" "\x7d" (nodesOf children))) := by
  unfold object
  cases hfirst : children.head? with
  | none =>
    rw [List.head?_eq_none_iff.mp hfirst]
    exact builds_emptyBrackets hcounts t "\x7b" "\x7d"
  | some first =>
    refine (builds_propertyDocs keep Aside h).bind fun docs hdocs => ?_
    have hline : Builds keep Aside P []
        (if scene.options.bracketSpacing then Doc.space else Doc.softline) := by
      split
      · exact .line .normal
      · exact .line .soft
    have htrailing : Builds keep Aside P []
        (trailingComma (scene.options.trailingComma != .none)) :=
      ⟨[], hcounts.trailingComma (by simp), rfl, by simp⟩
    refine gives_pure (Builds.group (BuildsAll.concat (.of_eq (.cons (.text _)
      (.cons (BuildsAll.skip hline (.singleton hdocs.concat)).concat.indent (.skip htrailing
        (.skip hline (.singleton (.text _)))))) ?_)) _ none)
    rw [listShape, List.append_assoc]

end CodeFormatter.JavaScript.Printer
