import CodeFormatter.Proofs.JavaScript.CommentTotality
import CodeFormatter.Proofs.JavaScript.Layouts

/-!
# The outline of a node

A node is printed in one of three ways: it is copied, it is a template with code, or it is laid out.
In the last case the leaves of its document are listed by its `Outline`, kind by kind: the words and
marks that are printed, and the nodes below that are printed between them.

**Theorem (`sown_of_form`).** What holds of the document of a node whenever it holds of the documents
below, holds at every node of a tree.
-/

namespace CodeFormatter.JavaScript.Printer

open Walk Layout CodeFormatter.Tree

variable {keep : Char → Bool} {Aside : Doc → Prop} {P : Node → Doc → Prop} {done : Comments}
  {scene : Scene} {t : Node} {c d : Child} {children : List Child}

/-! ## Nodes -/

/-- The nodes that do something. -/
def doing (us : List Node) : List Node := us.filter fun u => kindOf u != .emptyStatement

theorem nodesOf_meaningful (children : List Child) :
    nodesOf (meaningful children) = doing (nodesOf children) := by
  rw [nodesOf, meaningful, doing, nodesOf, List.filter_map]
  rfl

theorem separated_cons (u : Node) (rest : List Node) :
    separated keep (u :: rest) = .inr u :: rest.flatMap fun v => word keep "," ++ [.inr v] := by
  induction rest generalizing u with
  | nil => rfl
  | cons v rest ih => simp [separated, ih]

/-- The outline of a node: the leaves of its document, if it is laid out. Of the texts that are
printed around the nodes below, only the blanks between them are left out. -/
inductive Outline (keep : Char → Bool) (done : Comments) (scene : Scene) (t : Node) :
    List (Char ⊕ Node) → Prop
  | program : kindOf t = .program → Outline keep done scene t (partsOf (doing t.children))
  | block : kindOf t = .statementBlock → Outline keep done scene t
      (word keep "\x7b" ++ partsOf (doing t.children) ++ word keep "\x7d")
  | expression {u : Node} {before after : String} : kindOf t = .expressionStatement →
      t.children = [u] → before ∈ ["", ";"] → after ∈ ["", ";"] → Outline keep done scene t
        (word keep before ++ .inr u :: word keep after)
  | declaration {ending : String} :
      kindOf t = .lexicalDeclaration ∨ kindOf t = .variableDeclaration → t.children ≠ [] →
      ending ∈ ["", ";"] → Outline keep done scene t
        (word keep (t.info.tokens.head?.getD "var") ++ separated keep t.children
          ++ word keep ending)
  | declarator {u : Node} : kindOf t = .variableDeclarator → t.children = [u] →
      Outline keep done scene t [.inr u]
  | assignment {u v : Node} {sign : String} :
      (kindOf t = .variableDeclarator ∨ kindOf t = .assignmentExpression) ∧ sign = "="
        ∨ kindOf t = .augmentedAssignmentExpression ∧ t.info.operator.map (·.text) = some sign →
      t.children = [u, v] → Outline keep done scene t
        (.inr u :: word keep (" " ++ sign) ++ [.inr v])
  | branch {condition consequence : Node} : kindOf t = .ifStatement →
      t.children = [condition, consequence] → Outline keep done scene t
        (word keep "if " ++ .inr condition :: clauseShape keep consequence)
  | fork {condition consequence alternative : Node} : kindOf t = .ifStatement →
      t.children = [condition, consequence, alternative] → Outline keep done scene t
        (word keep "if " ++ .inr condition :: clauseShape keep consequence ++ [.inr alternative])
  | otherwise {body : Node} : kindOf t = .elseClause → t.children = [body] →
      Outline keep done scene t (word keep "else" ++ clauseShape keep body)
  | loop {condition body : Node} : kindOf t = .whileStatement → t.children = [condition, body] →
      Outline keep done scene t (word keep "while " ++ .inr condition :: clauseShape keep body)
  | jump {keyword ending : String} :
      (kindOf t, keyword) ∈ [(Kind.returnStatement, "return"), (.throwStatement, "throw"),
        (.breakStatement, "break"), (.continueStatement, "continue")] →
      t.children.length ≤ 1 → ending ∈ ["", ";"] → Outline keep done scene t
        (word keep keyword ++ partsOf t.children ++ word keep ending)
  | function {name : Option Node} {parameters body : Node} :
      kindOf t ∈ [Kind.functionDeclaration, .generatorFunctionDeclaration, .functionExpression,
        .generatorFunction] →
      (∀ u ∈ name, kindOf u = .identifier) → kindOf parameters = .formalParameters →
      kindOf body = .statementBlock → t.children.Perm (name.toList ++ [parameters, body]) →
      Outline keep done scene t (functionShape keep t name parameters body)
  | arrow {parameters body : Node} : kindOf t = .arrowFunction → t.children = [parameters, body] →
      Outline keep done scene t
        (word keep (if t.info.tokens.contains "async" then "async " else "")
          ++ .inr parameters :: word keep " =>" ++ [.inr body])
  | brackets {opening closing : String} :
      (kindOf t, opening, closing) ∈ [(Kind.formalParameters, "(", ")"), (.arguments, "(", ")"),
        (.object, "\x7b", "\x7d"), (.array, "[", "]")] →
      Outline keep done scene t (listShape keep opening closing t.children)
  | access {u v : Node} (middle closing : String) :
      (kindOf t, middle, closing) ∈ [(Kind.callExpression, "", ""), (.memberExpression, ".", ""),
        (.subscriptExpression, "[", "]"), (.pair, ": ", "")] →
      t.children = [u, v] → Outline keep done scene t
        (.inr u :: word keep middle ++ .inr v :: word keep closing)
  | optional {u mark v : Node} (middle closing : String) :
      (kindOf t, middle, closing) ∈ [(Kind.callExpression, "?.", ""),
        (.memberExpression, "?.", ""), (.subscriptExpression, "?.[", "]")] →
      t.children = [u, mark, v] → kindOf mark = .optionalChain → Outline keep done scene t
        (.inr u :: word keep middle ++ .inr v :: word keep closing)
  | creation : kindOf t = .newExpression → t.children.length ∈ [1, 2] →
      Outline keep done scene t (word keep "new " ++ partsOf t.children)
  | operation {u v : Node} {operator : OperatorToken} {shape : List (Char ⊕ Node)} :
      kindOf t = .binaryExpression → t.children = [u, v] → t.info.operator = some operator →
      Chained keep done u operator.text v shape → Outline keep done scene t shape
  | before {u : Node} (sign : String) :
      (kindOf t, sign) ∈ [(Kind.awaitExpression, "await "), (.spreadElement, "...")]
        ∨ kindOf t = .unaryExpression ∧ t.info.operator.map (·.text) = some sign →
      t.children = [u] → Outline keep done scene t (word keep sign ++ [.inr u])
  | update {u : Node} {operator : OperatorToken} : kindOf t = .updateExpression →
      t.children = [u] → t.info.operator = some operator → Outline keep done scene t
        (if operator.start < u.start then word keep operator.text ++ [.inr u]
          else .inr u :: word keep operator.text)
  | ternary {condition consequence alternative : Node} : kindOf t = .ternaryExpression →
      t.children = [condition, consequence, alternative] → Outline keep done scene t
        (.inr condition :: word keep "? " ++ .inr consequence :: word keep ": "
          ++ [.inr alternative])
  | parenthesized {u : Node} : kindOf t = .parenthesizedExpression → t.children = [u] →
      Outline keep done scene t (word keep "(" ++ .inr u :: word keep ")")
  | string {s : String} : kindOf t = .string →
      sliceOrError scene.text t.start t.stop = .ok s → Outline keep done scene t
        (word keep (String.ofList
          (requoted (if scene.options.singleQuote then '\'' else '"') s.toList)))

/-- A document with leaves as the outline of the node says. -/
def Outlined (keep : Char → Bool) (Aside : Doc → Prop) (P : Node → Doc → Prop) (done : Comments)
    (scene : Scene) (t : Node) (d : Doc) : Prop :=
  ∃ shape, Outline keep done scene t shape ∧ Builds keep Aside P shape d

section Answers

variable {x : Walk Doc} {shape : List (Char ⊕ Node)}

theorem outlined_none : Gives done (pure none) fun answer =>
    ∀ d ∈ answer, Outlined keep Aside P done scene t d :=
  gives_pure (by simp)

theorem outlined_some (hx : Gives done x (Outlined keep Aside P done scene t)) :
    Gives done (some <$> x) fun answer => ∀ d ∈ answer, Outlined keep Aside P done scene t d :=
  (hx.mono fun _ hd => by simpa using hd).map

theorem outlined_of_builds (hshape : Outline keep done scene t shape)
    (hx : Gives done x (Builds keep Aside P shape)) :
    Gives done (some <$> x) fun answer => ∀ d ∈ answer, Outlined keep Aside P done scene t d :=
  outlined_some (hx.mono fun _ hd => ⟨shape, hshape, hd⟩)

theorem outlined_single (hc : Delivers done P c) {f : Doc → Doc}
    (hshape : Outline keep done scene t shape)
    (hf : ∀ d, P c.node d → Builds keep Aside P shape (f d)) :
    Gives done (c.print >>= fun d => pure (some (f d))) fun answer =>
      ∀ d ∈ answer, Outlined keep Aside P done scene t d :=
  hc.bind fun d hd => gives_pure (by simpa using ⟨shape, hshape, hf d hd⟩)

theorem outlined_pair (hc : Delivers done P c) (hd : Delivers done P d) {f : Doc → Doc → Doc}
    (hshape : Outline keep done scene t shape)
    (hf : ∀ e e', P c.node e → P d.node e' → Builds keep Aside P shape (f e e')) :
    Gives done (c.print >>= fun e => d.print >>= fun e' => pure (some (f e e'))) fun answer =>
      ∀ d ∈ answer, Outlined keep Aside P done scene t d :=
  hc.bind fun e he => outlined_single hd hshape fun e' he' => hf e e' he he'

theorem outlined_jump (hcounts : Counts keep Aside done scene) {keyword : String}
    {argument : Option Child}
    (hkind : (kindOf t, keyword) ∈ [(Kind.returnStatement, "return"), (.throwStatement, "throw"),
      (.breakStatement, "break"), (.continueStatement, "continue")])
    (hnodes : nodesOf argument.toList = t.children) (h : ∀ c ∈ argument, Delivers done P c) :
    Gives done (some <$> keywordStatement scene keyword argument) fun answer =>
      ∀ d ∈ answer, Outlined keep Aside P done scene t d := by
  refine outlined_some ((builds_keywordStatement hcounts h).mono ?_)
  rintro d ⟨ending, hending, hd⟩
  refine ⟨_, .jump hkind ?_ hending, hd.of_eq (by rw [hnodes])⟩
  rw [← hnodes]
  cases argument <;> simp

end Answers

/-- Two documents with words around them. -/
theorem builds_amid {u v : Node} {e e' : Doc} (he : P u e) (he' : P v e')
    (before between after : List String) : Builds keep Aside P
      (before.flatMap (word keep) ++ .inr u ::
        (between.flatMap (word keep) ++ .inr v :: after.flatMap (word keep)))
      (amid before between after e e') := by
  have htexts : ∀ ws : List String,
      BuildsAll keep Aside P (ws.flatMap (word keep)) (ws.map text) := by
    intro ws
    induction ws with
    | nil => exact .nil
    | cons w ws ih => exact .cons (.text w) ih
  exact ((htexts before).append (.cons (.part he) ((htexts between).append
    (.cons (.part he') (htexts after))))).concat

/-- Calls, accesses and pairs. -/
theorem outline_pair {u v : Node} {before between after : List String}
    (hwords : (kindOf t, before, between, after) ∈ pairWords) (hchildren : t.children = [u, v]) :
    Outline keep done scene t (before.flatMap (word keep) ++ .inr u ::
      (between.flatMap (word keep) ++ .inr v :: after.flatMap (word keep))) := by
  simp only [pairWords, List.mem_cons, List.not_mem_nil, or_false, Prod.mk.injEq] at hwords
  rcases hwords with ⟨hkind, rfl, rfl, rfl⟩ | ⟨hkind, rfl, rfl, rfl⟩ | ⟨hkind, rfl, rfl, rfl⟩ |
    ⟨hkind, rfl, rfl, rfl⟩ | ⟨hkind, rfl, rfl, rfl⟩
  · simpa using Outline.access "" "" (by simp [hkind]) hchildren
  · simpa [hchildren] using Outline.creation hkind (by simp [hchildren])
  · simpa using Outline.access "." "" (by simp [hkind]) hchildren
  · simpa using Outline.access "[" "]" (by simp [hkind]) hchildren
  · simpa using Outline.access ": " "" (by simp [hkind]) hchildren

theorem outline_optional {u mark v : Node} {between after : List String}
    (hwords : (kindOf t, between, after) ∈ optionalWords) (hchildren : t.children = [u, mark, v])
    (hmark : kindOf mark = .optionalChain) :
    Outline keep done scene t
      (.inr u :: (between.flatMap (word keep) ++ .inr v :: after.flatMap (word keep))) := by
  simp only [optionalWords, List.mem_cons, List.not_mem_nil, or_false, Prod.mk.injEq] at hwords
  rcases hwords with ⟨hkind, rfl, rfl⟩ | ⟨hkind, rfl, rfl⟩ | ⟨hkind, rfl, rfl⟩
  · simpa using Outline.optional "?." "" (by simp [hkind]) hchildren hmark
  · simpa using Outline.optional "?." "" (by simp [hkind]) hchildren hmark
  · simpa using Outline.optional "?.[" "]" (by simp [hkind]) hchildren hmark

theorem outline_single {u : Node} {sign : String} (hwords : (kindOf t, sign) ∈ singleWords)
    (hchildren : t.children = [u]) : Outline keep done scene t (word keep sign ++ [.inr u]) := by
  simp only [singleWords, List.mem_cons, List.not_mem_nil, or_false, Prod.mk.injEq] at hwords
  rcases hwords with ⟨hkind, rfl⟩ | hwords
  · simpa [hchildren] using Outline.creation hkind (by simp [hchildren])
  · exact .before sign (.inl (by simpa using hwords)) hchildren

/-- **The layout of a node has its outline.** -/
theorem outlined_node (hcounts : Counts keep Aside done scene) {path : Tree.Path Info}
    (hnodes : nodesOf children = path.node.children) (h : ∀ c ∈ children, Sown done P c) :
    Gives done (node scene path children) fun answer =>
      ∀ d ∈ answer, Outlined keep Aside P done scene path.node d := by
  have hdelivers : ∀ c ∈ children, Delivers done P c := fun c hc => (h c hc).delivers
  have hlist : ∀ {opening closing : String}, (kindOf path.node, opening, closing) ∈
      [(Kind.formalParameters, "(", ")"), (.arguments, "(", ")"), (.object, "\x7b", "\x7d"),
        (.array, "[", "]")] →
      Outline keep done scene path.node (listShape keep opening closing (nodesOf children)) :=
    fun hkind => hnodes ▸ .brackets hkind
  have hlayout := nodeLayout_node scene path children
  generalize node scene path children = laid at hlayout ⊢
  cases hlayout with
  | copied => exact outlined_none
  | program hkind =>
    refine outlined_of_builds (.program hkind) ?_
    rw [← hnodes, ← nodesOf_meaningful]
    exact builds_program hcounts hdelivers
  | block hkind =>
    refine outlined_of_builds (.block hkind) ?_
    rw [← hnodes, ← nodesOf_meaningful]
    exact builds_block hcounts hdelivers
  | expression hkind =>
    refine outlined_some ((builds_expressionStatement keep Aside (hdelivers _ (by simp))).mono ?_)
    rintro d ⟨before, hbefore, after, hafter, hd⟩
    exact ⟨_, .expression hkind hnodes.symm hbefore hafter, hd⟩
  | declaration hkind hne =>
    obtain ⟨c, rest, rfl⟩ := List.exists_cons_of_ne_nil hne
    refine outlined_some ((builds_declaration hcounts hdelivers).mono ?_)
    rintro d ⟨ending, hending, hd⟩
    refine ⟨_, .declaration hkind ?_ hending, hd.of_eq ?_⟩
    · rw [← hnodes]
      exact List.cons_ne_nil _ _
    · rw [← hnodes, nodesOf, nodesOf, List.map_cons, separated_cons]
  | declarator hkind =>
    exact outlined_of_builds (.declarator hkind hnodes.symm)
      ((hdelivers _ (by simp)).mono fun _ hd => .part hd)
  | assignment hsign =>
    exact outlined_of_builds (.assignment hsign hnodes.symm)
      (builds_assignment hcounts (hdelivers _ (by simp)) (hdelivers _ (by simp)))
  | branch hkind =>
    exact outlined_of_builds (.branch hkind hnodes.symm)
      (builds_ifThen hcounts (hdelivers _ (by simp)) (hdelivers _ (by simp)))
  | fork hkind =>
    exact outlined_of_builds (.fork hkind hnodes.symm)
      (builds_ifElse hcounts (hdelivers _ (by simp)) (hdelivers _ (by simp)) (hdelivers _ (by simp)))
  | otherwise hkind =>
    exact outlined_of_builds (.otherwise hkind hnodes.symm)
      (builds_elseClause hcounts (hdelivers _ (by simp)))
  | loop hkind =>
    exact outlined_of_builds (.loop hkind hnodes.symm)
      (builds_whileStatement hcounts (hdelivers _ (by simp)) (hdelivers _ (by simp)))
  | jump argument hwords => exact outlined_jump hcounts hwords hnodes (by simpa using hdelivers)
  | function hkind hdoc =>
    obtain ⟨name, parameters, body, hname, hparameters, hbody, hperm, hgives⟩ :=
      builds_function? hcounts hdelivers hdoc
    rw [hnodes] at hperm
    exact outlined_of_builds (.function hkind hname hparameters hbody hperm) hgives
  | arrow hkind =>
    exact outlined_of_builds (.arrow hkind hnodes.symm)
      (builds_arrow hcounts (hdelivers _ (by simp)) (hdelivers _ (by simp)))
  | parameters hkind =>
    exact outlined_of_builds (hlist (by simp [hkind])) (builds_parameters hcounts hdelivers)
  | arguments hkind =>
    exact outlined_of_builds (hlist (by simp [hkind])) (builds_arguments hcounts hdelivers)
  | object hkind =>
    exact outlined_of_builds (hlist (by simp [hkind])) (builds_object hcounts hdelivers)
  | array hkind =>
    refine (quiet_hasHoles scene path.node).bind_gives fun holes => ?_
    split
    · exact outlined_none
    · exact outlined_of_builds (hlist (by simp [hkind])) (builds_array hcounts hdelivers)
  | pair before between after hwords =>
    exact outlined_pair (hdelivers _ (by simp)) (hdelivers _ (by simp))
      (outline_pair hwords hnodes.symm) fun e e' he he' => builds_amid he he' before between after
  | optional between after hwords hmark =>
    exact outlined_pair (hdelivers _ (by simp)) (hdelivers _ (by simp))
      (outline_optional hwords hnodes.symm hmark) fun e e' he he' => builds_amid he he' [] between after
  | single hwords =>
    exact outlined_single (hdelivers _ (by simp)) (outline_single hwords hnodes.symm)
      fun d hd => (BuildsAll.cons (.text _) (.singleton (.part hd))).concat
  | binary hkind hoperator =>
    refine outlined_some ((builds_binary keep Aside (h _ (by simp)) (h _ (by simp))).mono ?_)
    rintro d ⟨shape, hshape, hd⟩
    exact ⟨shape, .operation hkind hnodes.symm hoperator hshape, hd⟩
  | unary hkind hoperator =>
    exact outlined_of_builds (.before _ (.inr ⟨hkind, by rw [hoperator]; rfl⟩) hnodes.symm)
      (builds_unary hcounts (hdelivers _ (by simp)))
  | update hkind hoperator =>
    exact outlined_of_builds (.update hkind hnodes.symm hoperator)
      (builds_update (hdelivers _ (by simp)))
  | ternary hkind =>
    exact outlined_of_builds (.ternary hkind hnodes.symm)
      (builds_ternary (hdelivers _ (by simp)) (hdelivers _ (by simp)) (hdelivers _ (by simp)))
  | parenthesized hkind =>
    exact outlined_of_builds (.parenthesized hkind hnodes.symm)
      (builds_parenthesized (hdelivers _ (by simp)))
  | string hkind =>
    refine outlined_some ((gives_source path.node).bind fun s hs => gives_pure ?_)
    exact ⟨_, .string hkind hs, .text _⟩

/-! ## Parts of an outline -/

section Parts

variable {shape : List (Char ⊕ Node)} {u v : Node}

theorem inr_mem_word {s : String} : (.inr u : Char ⊕ Node) ∉ word keep s := by
  simp [word]

theorem inr_mem_partsOf {us : List Node} : .inr u ∈ partsOf us ↔ u ∈ us := by
  simp [partsOf]

theorem inr_mem_separated {us : List Node} : .inr u ∈ separated keep us ↔ u ∈ us := by
  cases us with
  | nil => simp [separated]
  | cons v rest => simp [separated_cons, inr_mem_word]

theorem inr_mem_clauseShape (hu : kindOf u ≠ .emptyStatement) : .inr u ∈ clauseShape keep u := by
  simp [clauseShape, hu]

/-- Only chains without a comment are opened up. -/
theorem inr_mem_of_chained {operator : String} {left right : Node}
    (h : Chained keep done left operator right shape)
    (hkept : kindOf v = .binaryExpression → done.of v.id ≠ [])
    (hv : v ∈ left.nodes ∨ v ∈ right.nodes) : ∃ u, .inr u ∈ shape ∧ v ∈ u.nodes := by
  induction h with
  | whole left operator right =>
    rcases hv with hv | hv
    · exact ⟨left, by simp, hv⟩
    · exact ⟨right, by simp, hv⟩
  | @opened left innerLeft innerRight right operator inner shape hkind hchildren _ hnone _ ih =>
    rcases hv with hv | hv
    · rcases mem_nodes.mp hv with rfl | ⟨c, hc, hv⟩
      · exact absurd hnone (hkept hkind)
      · rw [hchildren] at hc
        have hinner : v ∈ innerLeft.nodes ∨ v ∈ innerRight.nodes := by
          rcases List.mem_pair.mp hc with rfl | rfl
          · exact .inl hv
          · exact .inr hv
        obtain ⟨u, hu, hv⟩ := ih hinner
        exact ⟨u, by simp [hu], hv⟩
    · exact ⟨right, by simp, hv⟩

/-- **Every node below is in a part of the outline**, unless it is a chain that is opened up, or in an
empty statement or the mark of an optional access. -/
theorem inr_mem_of_outline {c : Node} (h : Outline keep done scene t shape)
    (hleaf : kindOf t = .string → t.children = []) (hc : c ∈ t.children)
    (hchain : kindOf c ≠ .optionalChain) (hempty : kindOf c ≠ .emptyStatement)
    (hkept : kindOf v = .binaryExpression → done.of v.id ≠ []) (hv : v ∈ c.nodes) :
    ∃ u, .inr u ∈ shape ∧ v ∈ u.nodes := by
  cases h with
  | operation _ hchildren _ hshape =>
    rw [hchildren] at hc
    refine inr_mem_of_chained hshape hkept ?_
    rcases List.mem_pair.mp hc with rfl | rfl
    · exact .inl hv
    · exact .inr hv
  | string hkind =>
    rw [hleaf hkind] at hc
    cases hc
  | program | block =>
    exact ⟨c, by simp [inr_mem_partsOf, doing, hc, hempty], hv⟩
  | declaration | brackets =>
    exact ⟨c, by simp [listShape, inr_mem_separated, hc], hv⟩
  | jump | creation => exact ⟨c, by simp [inr_mem_partsOf, hc], hv⟩
  | function _ _ _ _ hperm =>
    have hmem := hperm.mem_iff.mp hc
    exact ⟨c, by simpa [functionShape, inr_mem_partsOf, inr_mem_word, or_assoc] using hmem, hv⟩
  | expression _ hchildren | declarator _ hchildren | before _ _ hchildren
  | parenthesized _ hchildren =>
    rw [hchildren, List.mem_singleton] at hc
    exact ⟨c, by simp [hc], hv⟩
  | update _ hchildren =>
    rw [hchildren, List.mem_singleton] at hc
    refine ⟨c, ?_, hv⟩
    split <;> simp [hc]
  | otherwise _ hchildren =>
    rw [hchildren, List.mem_singleton] at hc
    subst hc
    exact ⟨c, by simp [inr_mem_clauseShape hempty], hv⟩
  | assignment _ hchildren | arrow _ hchildren | access _ _ _ hchildren =>
    rw [hchildren] at hc
    rcases List.mem_pair.mp hc with rfl | rfl <;> exact ⟨c, by simp, hv⟩
  | branch _ hchildren | loop _ hchildren =>
    rw [hchildren] at hc
    rcases List.mem_pair.mp hc with rfl | rfl <;>
      exact ⟨c, by simp [inr_mem_clauseShape hempty], hv⟩
  | fork _ hchildren | ternary _ hchildren =>
    simp only [hchildren, List.mem_cons, List.not_mem_nil, or_false] at hc
    rcases hc with rfl | rfl | rfl <;>
      exact ⟨c, by simp [inr_mem_clauseShape hempty], hv⟩
  | optional _ _ _ hchildren hmark =>
    simp only [hchildren, List.mem_cons, List.not_mem_nil, or_false] at hc
    rcases hc with rfl | rfl | rfl
    · exact ⟨c, by simp, hv⟩
    · exact absurd hmark hchain
    · exact ⟨c, by simp, hv⟩

end Parts

/-! ## Templates with code -/

/-- The node applies a code tag to a template with this code. -/
structure HoldsCode (text : String) (t tag template : Node) (code : List Char) : Prop where
  kind : kindOf t = .callExpression
  parts : t.children = [tag, template]
  kindTag : kindOf tag = .identifier
  kindTemplate : kindOf template = .templateString
  isCode : ∃ s, sliceOrError text tag.start tag.stop = .ok s ∧ Embedded.isCodeTag s = true
  contents : ∃ raw, sliceOrError text template.start template.stop = .ok raw ∧
    code = Embedded.contents raw

/-- A tag with its code. -/
inductive Embeds (P : Node → Doc → Prop) (scene : Scene) (tag : Node) (code : List Char) :
    Doc → Prop
  | blank {d : Doc} : P tag d → Embeds P scene tag code (.concat [d, .text "``"])
  | code {d e : Doc} {group last : GroupId} : P tag d → Embedded.isPlain code = true →
      scene.embedded (String.ofList code) (Embedded.codeOptions scene.options) group =
        .ok (e, last) →
      Embeds P scene tag code (.concat [d, .text "`",
        .indent (.concat [Doc.hardline, e.stripTrailingHardline]), Doc.hardline, .text "`"])

theorem gives_codeDoc? (scene : Scene) (code : String) :
    Gives done (Embedded.codeDoc? scene code) fun answer => ∀ e ∈ answer, ∃ group last,
      scene.embedded code (Embedded.codeOptions scene.options) group = .ok (e, last) := by
  intro st answer st' hst hrun
  refine ⟨Embedded.quiet_codeDoc? scene code st answer st' hrun ▸ hst, fun e he => ?_⟩
  obtain ⟨st₁, st₂, hget, hrun⟩ := bind_eq_ok.mp hrun
  cases hget
  cases hdoc : scene.embedded code (Embedded.codeOptions scene.options) st.lastGroup with
  | ok r =>
    simp only [hdoc] at hrun
    cases hrun
    cases he
    exact ⟨_, _, hdoc⟩
  | error err =>
    cases err <;> simp only [hdoc] at hrun <;> cases hrun
    cases he

theorem gives_embedded {path : Tree.Path Info} (hnodes : nodesOf children = path.node.children)
    (h : ∀ c ∈ children, Delivers done P c) :
    Gives done (Embedded.print scene path children) fun answer => ∀ d ∈ answer,
      ∃ tag template code, HoldsCode scene.text path.node tag template code ∧
        Embeds P scene tag code d := by
  unfold Embedded.print
  cases htagged : Embedded.tagged? path.node children with
  | none => exact gives_pure (by simp)
  | some parts =>
    obtain ⟨tag, template⟩ := parts
    obtain ⟨hkind, hchildren, htag, htemplate⟩ := Embedded.of_tagged? htagged
    have hdelivers : Delivers done P tag := h tag (by simp [hchildren])
    refine (gives_source template.node).bind fun raw hraw => ?_
    refine (gives_source tag.node).bind fun s hs => ?_
    split
    · exact gives_pure (by simp)
    · rename_i hplain
      simp only [Bool.or_eq_true, Bool.not_eq_true', not_or, Bool.not_eq_false] at hplain
      have hcode : HoldsCode scene.text path.node tag.node template.node (Embedded.contents raw) :=
        ⟨hkind, by rw [← hnodes, hchildren]; rfl, htag, htemplate, ⟨s, hs, hplain.1⟩,
          ⟨raw, hraw, rfl⟩⟩
      split
      · refine hdelivers.bind fun d hd => gives_pure ?_
        simpa using ⟨_, _, _, hcode, .blank hd⟩
      · refine (gives_codeDoc? scene _).bind fun answer hanswer => ?_
        cases answer with
        | none => exact gives_pure (by simp)
        | some e =>
          obtain ⟨group, last, he⟩ := hanswer e rfl
          refine hdelivers.bind fun d hd => gives_pure ?_
          simpa using ⟨_, _, _, hcode, .code hd hplain.2 he⟩

/-! ## One node -/

/-- The three ways to print a node. -/
inductive Form (keep : Char → Bool) (Aside : Doc → Prop) (P : Node → Doc → Prop)
    (done : Comments) (scene : Scene) (t : Node) : Doc → Prop
  | copy {s : String} : sliceOrError scene.text t.start t.stop = .ok s →
      Form keep Aside P done scene t (.text s)
  | code {tag template : Node} {code : List Char} {d : Doc} : ignored done t = false →
      HoldsCode scene.text t tag template code → Embeds P scene tag code d →
      Form keep Aside P done scene t d
  | layout {d : Doc} : ignored done t = false → Outlined keep Aside P done scene t d →
      Form keep Aside P done scene t d

/-- A document, between cursors if its node is the one they are asked for. -/
def framed (scene : Scene) (t : Node) (d : Doc) : Doc :=
  if scene.cursorNode = some t.id then .concat [.cursor, d, .cursor] else d

/-- A document among the comments of a node, perhaps between cursors. -/
def Surrounds (done : Comments) (t : Node) (d d' : Doc) : Prop :=
  ∃ e, (e = d ∨ e = .concat [.cursor, d, .cursor]) ∧
    (d' = e ∨ done.of t.id ≠ [] ∧ ∃ before after, d' = .concat (before ++ e :: after))

/-- Without comments only cursors may stand around a document. -/
theorem Surrounds.of_bare {d d' : Doc} (h : Surrounds (Comments.ofList []) t d d') :
    d' = d ∨ d' = .concat [.cursor, d, .cursor] := by
  obtain ⟨e, he, rfl | ⟨hne, -⟩⟩ := h
  · exact he
  · exact absurd rfl hne

theorem gives_copy (scene : Scene) (t : Node) :
    Gives done (verbatim scene t) (Form keep Aside P done scene t) :=
  (gives_verbatim scene t).mono fun _ ⟨_, hs, hd⟩ => hd ▸ .copy hs

theorem form_print (hcounts : Counts keep Aside done scene) {path : Tree.Path Info}
    (hnodes : nodesOf children = path.node.children) (h : ∀ c ∈ children, Sown done P c)
    (hignored : ignored done path.node = false) :
    Gives done (print scene path children) (Form keep Aside P done scene path.node) := by
  rw [print]
  refine (reads_hasDanglingComments path.node).bind_gives ?_
  split
  · exact gives_copy scene path.node
  · exact (outlined_node hcounts hnodes h).bind_option
      (fun d hd => gives_pure (.layout hignored hd)) (gives_copy scene path.node)

theorem form_printNode (hcounts : Counts keep Aside done scene) {path : Tree.Path Info}
    (hnodes : nodesOf children = path.node.children) (h : ∀ c ∈ children, Sown done P c) :
    Gives done (printNode language scene path children)
      (Form keep Aside P done scene path.node) := by
  refine (reads_isIgnored path.node).bind_gives ?_
  split
  · exact gives_copy scene path.node
  · rename_i hignored
    have hignored : ignored done path.node = false := by simpa using hignored
    refine (gives_embedded hnodes fun c hc => (h c hc).delivers).bind_option ?_
      (form_print hcounts hnodes h hignored)
    rintro d ⟨tag, template, code, hcode, hd⟩
    exact gives_pure (.code hignored hcode hd)

/-- A node is printed between cursors if these are asked for, and then among its comments. -/
theorem gives_visit {path : Tree.Path Info} {Q : Doc → Prop}
    (h : Gives done (printNode language scene path children) Q) :
    Gives done (visit language scene path children) fun d' => ∃ d, Q d ∧
      (d' = framed scene path.node d ∨ done.of path.node.id ≠ [] ∧ ∃ before after,
        d' = .concat (before ++ framed scene path.node d :: after)) :=
  h.bind fun d hd => (gives_withComments language scene path.node _).mono fun _ hd' => ⟨d, hd, hd'⟩

theorem form_visit (hcounts : Counts keep Aside done scene) (path : Tree.Path Info)
    (hnodes : nodesOf children = path.node.children) (h : ∀ c ∈ children, Sown done P c) :
    Gives done (visit language scene path children) fun d' =>
      ∃ d, Form keep Aside P done scene path.node d ∧ Surrounds done path.node d d' := by
  refine (gives_visit (form_printNode hcounts hnodes h)).mono fun d' ⟨d, hd, hd'⟩ =>
    ⟨d, hd, _, ?_, hd'⟩
  unfold framed
  split
  · exact .inr rfl
  · exact .inl rfl

/-! ## Trees -/

/-- What each visit passes on holds at every node. -/
theorem sown_of_visit {root : Node} (hvisit : ∀ t ∈ root.nodes, ∀ ancestors,
      (∀ c ∈ below scene ancestors t, Sown done P c) →
      Gives done (visit language scene ⟨t, ancestors⟩ (below scene ancestors t)) (P t))
    (ht : t ∈ root.nodes) (ancestors : List Node) :
    Sown done P (Printable.ofTree language scene ancestors t) := by
  induction t using Tree.induction generalizing ancestors with
  | node t ih =>
    have hbelow : ∀ c ∈ below scene ancestors t, Sown done P c := by
      intro p hp
      obtain ⟨c, hc, rfl⟩ := mem_below.mp hp
      exact ih c hc (mem_nodes_trans (mem_nodes_of_mem_children hc (mem_nodes_self c)) ht) _
    refine .intro ?_ ?_ ?_
    · rw [Delivers, print_ofTree, node_ofTree]
      exact hvisit t ht ancestors hbelow
    · rw [children_ofTree, node_ofTree, map_node_below]
    · rw [children_ofTree]
      exact hbelow

/-- **What each way to print a node passes on holds at every node.** -/
theorem sown_of_form {root : Node} (hcounts : Counts keep Aside done scene)
    (hform : ∀ t ∈ root.nodes, ∀ d d', Form keep Aside P done scene t d →
      Surrounds done t d d' → P t d') (ht : t ∈ root.nodes) (ancestors : List Node) :
    Sown done P (Printable.ofTree language scene ancestors t) := by
  refine sown_of_visit (fun t ht ancestors hbelow => ?_) ht ancestors
  exact (form_visit hcounts ⟨t, ancestors⟩ (map_node_below scene ancestors t) hbelow).mono
    fun d' ⟨d, hd, hd'⟩ => hform t ht d d' hd hd'

/-- The same for the document of the whole tree, whose breaks are carried outward at the end. -/
theorem exists_document {root : Node} (hcounts : Counts keep Aside done scene)
    (hform : ∀ t ∈ root.nodes, ∀ d d', Form keep Aside P done scene t d →
      Surrounds done t d d' → P t d') {group : GroupId} {d : Doc} {st : WalkState}
    (hrun : printTree language scene root 0 ⟨done, group⟩ = .ok (d, st)) :
    ∃ e, d = e.propagateBreaks ∧ P root e := by
  have hdelivers := (sown_of_form hcounts hform (mem_nodes_self root) []).delivers
  rw [Delivers, node_ofTree] at hdelivers
  obtain ⟨e, st', he, hd⟩ := bind_eq_ok.mp hrun
  cases hd
  exact ⟨e, rfl, (hdelivers _ _ _ rfl he).2⟩

end CodeFormatter.JavaScript.Printer
