import CodeFormatter.JavaScript.Printer

/-!
# The layouts of a node

`Printer.node` chooses the layout of a node by its kind and by the number of its children. What it may
choose is listed by `NodeLayout`, one constructor for each layout. A fact about the layout of every node
is proved by cases on it: kinds that are laid out alike are one case, and no proof depends on the order
in which the kinds are asked for.

Calls, accesses and pairs differ in the words around the documents of their two children and in nothing
else, so that their layouts are one with a table of words (`pairWords`, `optionalWords`, `singleWords`).
-/

namespace CodeFormatter.JavaScript.Printer

/-! ## Words -/

/-- What stands before, between and behind the documents of two children. -/
def pairWords : List (Kind × List String × List String × List String) :=
  [(.callExpression, [], [], []), (.newExpression, ["new "], [], []),
    (.memberExpression, [], ["."], []), (.subscriptExpression, [], ["["], ["]"]),
    (.pair, [], [": "], [])]

/-- What stands between and behind the documents of two children with the mark of an optional access
between them. -/
def optionalWords : List (Kind × List String × List String) :=
  [(.callExpression, ["?."], []), (.memberExpression, ["?."], []),
    (.subscriptExpression, ["?.["], ["]"])]

/-- What stands before the document of a single child. -/
def singleWords : List (Kind × String) :=
  [(.newExpression, "new "), (.awaitExpression, "await "), (.spreadElement, "...")]

/-- The keywords of statements that leave a function or a loop. -/
def jumpWords : List (Kind × String) :=
  [(.returnStatement, "return"), (.throwStatement, "throw"), (.breakStatement, "break"),
    (.continueStatement, "continue")]

/-- Two documents and the words around them. -/
def amid (before between after : List String) (x y : Doc) : Doc :=
  .concat (before.map text ++ x :: (between.map text ++ y :: after.map text))

/-! ## Layouts -/

/-- The layouts of a node with these children. -/
inductive NodeLayout (scene : Scene) (path : Tree.Path Info) :
    List Child → Walk (Option Doc) → Prop
  /-- The node is copied. -/
  | copied {children : List Child} : NodeLayout scene path children (pure none)
  | program {children : List Child} : kindOf path.node = .program →
      NodeLayout scene path children (some <$> program scene path.node children)
  | block {children : List Child} : kindOf path.node = .statementBlock →
      NodeLayout scene path children (some <$> block scene path.node children)
  | expression {c : Child} : kindOf path.node = .expressionStatement →
      NodeLayout scene path [c] (some <$> expressionStatement scene c)
  | declaration {children : List Child} :
      kindOf path.node = .lexicalDeclaration ∨ kindOf path.node = .variableDeclaration →
      children ≠ [] → NodeLayout scene path children (some <$> declaration scene path.node children)
  | declarator {c : Child} : kindOf path.node = .variableDeclarator →
      NodeLayout scene path [c] (some <$> c.print)
  | assignment {target value : Child} {sign : String} :
      (kindOf path.node = .variableDeclarator ∨ kindOf path.node = .assignmentExpression) ∧ sign = "="
        ∨ kindOf path.node = .augmentedAssignmentExpression ∧
          path.node.info.operator.map (·.text) = some sign →
      NodeLayout scene path [target, value] (some <$> assignment target sign value)
  | branch {condition consequence : Child} : kindOf path.node = .ifStatement →
      NodeLayout scene path [condition, consequence]
        (some <$> ifStatement path.node condition consequence none)
  | fork {condition consequence alternative : Child} : kindOf path.node = .ifStatement →
      NodeLayout scene path [condition, consequence, alternative]
        (some <$> ifStatement path.node condition consequence (some alternative))
  | otherwise {body : Child} : kindOf path.node = .elseClause →
      NodeLayout scene path [body] (some <$> elseClause body)
  | loop {condition body : Child} : kindOf path.node = .whileStatement →
      NodeLayout scene path [condition, body] (some <$> whileStatement condition body)
  | jump {keyword : String} (argument : Option Child) : (kindOf path.node, keyword) ∈ jumpWords →
      NodeLayout scene path argument.toList (some <$> keywordStatement scene keyword argument)
  | function {children : List Child} {doc : Walk Doc} :
      kindOf path.node ∈ [Kind.functionDeclaration, .generatorFunctionDeclaration, .functionExpression,
        .generatorFunction] →
      function? path.node children = some doc → NodeLayout scene path children (some <$> doc)
  | arrow {parameters body : Child} : kindOf path.node = .arrowFunction →
      NodeLayout scene path [parameters, body] (some <$> arrow path.node parameters body)
  | parameters {children : List Child} : kindOf path.node = .formalParameters →
      NodeLayout scene path children (some <$> parameters scene path.node children)
  | arguments {children : List Child} : kindOf path.node = .arguments →
      NodeLayout scene path children (some <$> arguments scene path.node children)
  | object {children : List Child} : kindOf path.node = .object →
      NodeLayout scene path children (some <$> object scene path.node children)
  | array {children : List Child} : kindOf path.node = .array →
      NodeLayout scene path children (hasHoles scene path.node >>= fun holes =>
        if holes then pure none else some <$> array scene path.node children)
  | pair {c d : Child} (before between after : List String) :
      (kindOf path.node, before, between, after) ∈ pairWords →
      NodeLayout scene path [c, d]
        (c.print >>= fun x => d.print >>= fun y => pure (some (amid before between after x y)))
  | optional {c mark d : Child} (between after : List String) :
      (kindOf path.node, between, after) ∈ optionalWords → kind mark = .optionalChain →
      NodeLayout scene path [c, mark, d]
        (c.print >>= fun x => d.print >>= fun y => pure (some (amid [] between after x y)))
  | single {c : Child} {word : String} : (kindOf path.node, word) ∈ singleWords →
      NodeLayout scene path [c] (c.print >>= fun x => pure (some (.concat [text word, x])))
  | binary {left right : Child} {operator : OperatorToken} : kindOf path.node = .binaryExpression →
      path.node.info.operator = some operator →
      NodeLayout scene path [left, right] (some <$> binary path left operator.text right)
  | unary {c : Child} {operator : OperatorToken} : kindOf path.node = .unaryExpression →
      path.node.info.operator = some operator →
      NodeLayout scene path [c] (some <$> unary scene operator.text c)
  | update {c : Child} {operator : OperatorToken} : kindOf path.node = .updateExpression →
      path.node.info.operator = some operator →
      NodeLayout scene path [c] (some <$> update operator c)
  | ternary {condition consequence alternative : Child} : kindOf path.node = .ternaryExpression →
      NodeLayout scene path [condition, consequence, alternative]
        (some <$> ternary condition consequence alternative)
  | parenthesized {c : Child} : kindOf path.node = .parenthesizedExpression →
      NodeLayout scene path [c] (some <$> parenthesized c)
  | string {children : List Child} : kindOf path.node = .string →
      NodeLayout scene path children (some <$> string scene path.node)

/-- **A node has one of the layouts.** -/
theorem nodeLayout_node (scene : Scene) (path : Tree.Path Info) (children : List Child) :
    NodeLayout scene path children (node scene path children) := by
  unfold node
  dsimp only
  split
  · exact .program ‹_›
  · exact .block ‹_›
  · exact .expression ‹_›
  · split
    · exact .declaration (.inl ‹_›) (List.cons_ne_nil _ _)
    · exact .copied
  · split
    · exact .declaration (.inr ‹_›) (List.cons_ne_nil _ _)
    · exact .copied
  · exact .declarator ‹_›
  · exact .assignment (.inl ⟨.inl ‹_›, rfl⟩)
  · exact .branch ‹_›
  · exact .fork ‹_›
  · exact .otherwise ‹_›
  · exact .loop ‹_›
  iterate 4
    · exact .jump none (by simp [jumpWords, *])
    · exact .jump (some _) (by simp [jumpWords, *])
  iterate 4
    · split
      · exact .function (by simp [*]) ‹_›
      · exact .copied
  · exact .arrow ‹_›
  · exact .parameters ‹_›
  · exact .pair [] [] [] (by simp [pairWords, *])
  · split
    · exact .optional ["?."] [] (by simp [optionalWords, *]) ‹_›
    · exact .copied
  · exact .single (by simp [singleWords, *])
  · exact .pair ["new "] [] [] (by simp [pairWords, *])
  · exact .arguments ‹_›
  · exact .pair [] ["."] [] (by simp [pairWords, *])
  · split
    · exact .optional ["?."] [] (by simp [optionalWords, *]) ‹_›
    · exact .copied
  · exact .pair [] ["["] ["]"] (by simp [pairWords, *])
  · split
    · exact .optional ["?.["] ["]"] (by simp [optionalWords, *]) ‹_›
    · exact .copied
  · split
    · exact .binary ‹_› ‹_›
    · exact .copied
  · exact .assignment (.inl ⟨.inr ‹_›, rfl⟩)
  · split
    · exact .assignment (.inr ⟨‹_›, by simp [*]⟩)
    · exact .copied
  · split
    · exact .unary ‹_› ‹_›
    · exact .copied
  · split
    · exact .update ‹_› ‹_›
    · exact .copied
  · exact .single (by simp [singleWords, *])
  · exact .single (by simp [singleWords, *])
  · exact .ternary ‹_›
  · exact .parenthesized ‹_›
  · exact .object ‹_›
  · exact .pair [] [": "] [] (by simp [pairWords, *])
  · exact .array ‹_›
  · exact .string ‹_›
  · exact .copied

end CodeFormatter.JavaScript.Printer
