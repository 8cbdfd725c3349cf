import CodeFormatter.Proofs.ByteOrderMark
import CodeFormatter.Proofs.Walk.Coverage

/-!
# Programs of empty statements

Formatting is meant to keep the program: the formatted text has the same clean tree. Empty
statements are redundant and do not count in that tree, and printing leaves them out. But the label
of a program without children holds its source, and the label of one with children does not. A
program of empty statements loses all its children on the way, and so changes its label.

**Theorem (`debugCheck_of_emptyStatements`).** Whatever parser reads it, a text without comments that
holds nothing but empty statements is formatted to the empty text. If it holds any, the self-check
refuses it because the tree has changed.

The parser of the language gives such texts such trees (`onlyEmptyStatements_of_parse`).
-/

namespace CodeFormatter.JavaScript

open Pipeline

variable {p : TextParser} {text : String} {tree : Node} {options : Options}

/-- The tree of a program in which there is nothing but empty statements. What is outside of comments, tokens
and statements is blank. -/
structure OnlyEmptyStatements (text : String) (tree : Node) : Prop where
  info : tree.info = ⟨.program, [], none⟩
  statements : ∀ c ∈ tree.children, kindOf c = .emptyStatement
  span : (slice? text tree.start tree.stop).isSome
  blank : tree.children = [] → tree.start = tree.stop

/-! ## Parsed texts -/

/-- A parsed text is a program. It starts with the first of its parts, and ends with the text. -/
theorem exists_items_of_parse {parsed : Parsed Info} (h : parse text = .ok parsed) :
    ∃ items : List Cst, parsed.comments = Cst.commentsAll items ∧
      parsed.tree = ⟨0, (items.head?.map Cst.start).getD text.utf8ByteSize, text.utf8ByteSize,
        Cst.infoOf .program items, (Cst.lowerAll 1 items).1⟩ := by
  unfold parse at h
  split at h
  · rename_i hlowered
    obtain ⟨cst, hcst, hlowered⟩ := Option.bind_eq_some_iff.mp hlowered
    simp only [Cst.ofText?] at hcst
    split at hcst
    · rename_i items stop hitems
      split at hcst
      · cases hcst
        cases h
        cases hlowered
        exact ⟨items, rfl, rfl⟩
      · cases hcst
    · cases hcst
  · cases h

theorem operator?_eq_none_of_tokenTexts {items : List Cst} (h : Cst.tokenTexts items = []) :
    Cst.operator? items = none := by
  rw [Cst.tokenTexts, List.filterMap_eq_nil_iff] at h
  rw [Cst.operator?, List.findSome?_eq_none_iff]
  intro item hitem
  have hno := h item hitem
  cases item <;> simp_all

theorem info_of_parse (h : parse text = .ok ⟨tree, []⟩) (htokens : tree.info.tokens = []) :
    tree.info = ⟨.program, [], none⟩ := by
  obtain ⟨items, -, rfl⟩ := exists_items_of_parse h
  exact congr (congrArg (Info.mk .program) htokens) (operator?_eq_none_of_tokenTexts htokens)

/-- Every part is a node, a token or a comment. -/
theorem items_eq_nil {items : List Cst} (hnodes : (Cst.lowerAll 1 items).1 = [])
    (htokens : Cst.tokenTexts items = []) (hcomments : Cst.commentsAll items = []) : items = [] := by
  cases items with
  | nil => rfl
  | cons item rest =>
    cases item with
    | node => simp [Cst.lowerAll, Cst.lower] at hnodes
    | token => simp [Cst.tokenTexts] at htokens
    | comment => simp [Cst.commentsAll, Cst.comments] at hcomments

/-- A program of nothing is empty. -/
theorem start_eq_stop_of_parse (h : parse text = .ok ⟨tree, []⟩) (htokens : tree.info.tokens = [])
    (hchildren : tree.children = []) : tree.start = tree.stop := by
  obtain ⟨items, hcomments, rfl⟩ := exists_items_of_parse h
  rw [items_eq_nil hchildren htokens hcomments.symm]
  rfl

theorem onlyEmptyStatements_of_parse (h : parse text = .ok ⟨tree, []⟩) (htokens : tree.info.tokens = [])
    (hspan : (slice? text tree.start tree.stop).isSome)
    (hstatements : ∀ c ∈ tree.children, kindOf c = .emptyStatement) : OnlyEmptyStatements text tree :=
  ⟨info_of_parse h htokens, hstatements, hspan, start_eq_stop_of_parse h htokens⟩


/-! ## Printing -/

theorem meaningful_eq_nil (scene : Scene) (ancestors : List Node) {ts : List Node}
    (hempty : ∀ c ∈ ts, kindOf c = .emptyStatement) :
    Printer.meaningful (Printable.ofTrees language scene ancestors ts) = [] := by
  rw [Printer.meaningful, List.filter_eq_nil_iff, Walk.ofTrees_eq]
  intro p hp
  obtain ⟨c, hc, rfl⟩ := List.mem_map.mp hp
  simp [Printer.kind, Walk.node_ofTree, hempty c hc]

theorem node_of_program {path : Tree.Path Info} (h : kindOf path.node = .program) (scene : Scene)
    (children : List (Printable Info)) :
    Printer.node scene path children = some <$> Printer.program scene path.node children := by
  obtain ⟨⟨id, start, stop, ⟨kind, tokens, operator⟩, below⟩, ancestors⟩ := path
  cases h
  rfl

theorem embed_of_program {path : Tree.Path Info} (h : kindOf path.node = .program) (scene : Scene)
    (children : List (Printable Info)) : Embedded.print scene path children = pure none := by
  obtain ⟨⟨id, start, stop, ⟨kind, tokens, operator⟩, below⟩, ancestors⟩ := path
  cases h
  rfl

/-- A program of empty statements has the document of an empty text. -/
theorem printTree_of_emptyStatements {scene : Scene} (hcursor : scene.cursorNode = none)
    (hkind : kindOf tree = .program) (hempty : ∀ c ∈ tree.children, kindOf c = .emptyStatement)
    (g : GroupId) :
    (printTree language scene tree 0).run ⟨Comments.ofList [], g⟩ =
      .ok (.concat [], ⟨Comments.ofList [], g⟩) := by
  have hmeaningful := meaningful_eq_nil scene [tree] hempty
  have hprogram : Printer.program scene tree
      (Printable.ofTrees language scene [tree] tree.children) ⟨Comments.ofList [], g⟩ =
      .ok (.concat [], ⟨Comments.ofList [], g⟩) := by
    rw [Printer.program, Printer.statements, hmeaningful]
    rfl
  have hprint : Walk.printNode language scene ⟨tree, []⟩
      (Printable.ofTrees language scene [tree] tree.children) ⟨Comments.ofList [], g⟩ =
      .ok (.concat [], ⟨Comments.ofList [], g⟩) := by
    refine Walk.bind_eq_ok.mpr ⟨false, _, rfl, ?_⟩
    refine Walk.bind_eq_ok.mpr ⟨none, _, congrFun (embed_of_program hkind scene _) _, ?_⟩
    refine Walk.bind_eq_ok.mpr ⟨false, _, rfl, ?_⟩
    refine Walk.bind_eq_ok.mpr ⟨some (.concat []), _, ?_, rfl⟩
    show Printer.node scene ⟨tree, []⟩ _ _ = _
    rw [node_of_program hkind]
    show ((fun r => (some r.1, r.2)) <$> Printer.program scene tree _ _) = _
    rw [hprogram]
    rfl
  have hvisit : Walk.visit language scene ⟨tree, []⟩
      (Printable.ofTrees language scene [tree] tree.children) ⟨Comments.ofList [], g⟩ =
      .ok (.concat [], ⟨Comments.ofList [], g⟩) := by
    refine Walk.bind_eq_ok.mpr ⟨_, _, hprint, ?_⟩
    rw [hcursor]
    rfl
  rw [printTree, Walk.print_ofTree]
  exact Walk.bind_eq_ok.mpr ⟨_, _, hvisit, rfl⟩

/-! ## Formatting -/

/-- Options for a whole text in this language, as it stands. -/
structure WholeText (options : Options) : Prop where
  valid : options.validate = .ok ()
  language : IsJavaScript options
  rangeStart : options.rangeStart = 0
  rangeEnd : options.rangeEnd = none
  cursorOffset : options.cursorOffset = none
  requirePragma : options.requirePragma = false
  insertPragma : options.insertPragma = false

/-- Nothing but a mark is taken from the text. -/
theorem WholeText.unmark_eq (h : WholeText options) (text : String) :
    unmark (named options) text = ⟨startsWithMark text, named options, stripMark text⟩ := by
  obtain ⟨-, -, hstart, hend, hcursor, -, -⟩ := h
  unfold unmark stripMark
  split <;> simp_all [named]

/-- A program of empty statements is printed as nothing. -/
theorem WholeText.prints_of_emptyStatements (h : WholeText options)
    (hparse : p (stripMark text) = .ok ⟨tree, []⟩) (htree : OnlyEmptyStatements (stripMark text) tree) :
    Prints p (named options) text (restoreMark (startsWithMark text) "")
      ⟨startsWithMark text, named options, stripMark text⟩ ⟨tree, []⟩ (.concat [])
      ⟨Comments.ofList [], 0⟩ where
  wanted := by simp [skips, named, h.requirePragma]
  prepared := by
    have hinsert : (named options).insertPragma = false := h.insertPragma
    rw [prepare_of_no_pragma hinsert, h.unmark_eq]
  parses := hparse
  printed := by
    have htarget : cursorTarget (named options) tree = none := by
      rw [cursorTarget, named, h.cursorOffset, Option.bind_none]
    have hcursor : (sceneOf ((formatterOf p).embedding ((formatterOf p).nesting text))
        ⟨startsWithMark text, named options, stripMark text⟩ tree).cursorNode = none := by
      rw [sceneOf, htarget]
      rfl
    exact printTree_of_emptyStatements hcursor (congrArg Info.kind htree.info) htree.statements 0
  complete := rfl
  outcome := rfl

theorem WholeText.format_of_emptyStatements (h : WholeText options)
    (hparse : p (stripMark text) = .ok ⟨tree, []⟩) (htree : OnlyEmptyStatements (stripMark text) tree) :
    (formatterOf p).format text options = .ok (restoreMark (startsWithMark text) "") := by
  have hwhole : options.formatsWholeFile = true :=
    Options.formatsWholeFile_iff.mpr ⟨h.rangeStart, h.rangeEnd⟩
  exact (format_eq_ok_iff hwhole).mpr ⟨h.valid, h.language,
    .inr ⟨_, _, _, _, h.prints_of_emptyStatements hparse htree⟩⟩

/-! ## The self-check -/

theorem cleanAll_of_emptyStatements (text : String) {ts : List Node}
    (hempty : ∀ c ∈ ts, kindOf c = .emptyStatement) : Tree.cleanAll (parsing p) text ts = .ok [] := by
  induction ts with
  | nil => rfl
  | cons t rest ih =>
    have ht : (parsing p).isRedundant t = true := by
      simp [parsing, language, hempty t List.mem_cons_self]
    rw [Tree.cleanAll, ht, if_pos rfl, ih fun c hc => hempty c (List.mem_cons_of_mem t hc)]

theorem eq_empty_of_slice? {source : String} {i : Nat} (h : slice? text i i = some source) :
    source = "" := by
  rw [slice?] at h
  split at h
  · rw [← Option.some.inj h]
    simp [String.Pos.Raw.extract]
  · cases h

/-- The label of a program holds its source only if it has no children. -/
theorem describe_of_program (hinfo : tree.info = ⟨.program, [], none⟩) {source : String}
    (hsource : slice? text tree.start tree.stop = some source) :
    describe text tree =
      .ok (if tree.children.isEmpty then "program " ++ source else "program") := by
  have hkind : kindOf tree = .program := congrArg Info.kind hinfo
  cases hchildren : tree.children.isEmpty <;>
    simp only [describe, sliceOrError, hsource, hkind, hchildren, hinfo] <;> rfl

theorem cleanTree_of_emptyStatements (options : Options)
    (hparse : p (stripMark text) = .ok ⟨tree, []⟩) (htree : OnlyEmptyStatements (stripMark text) tree) :
    Pipeline.cleanTree (parsing p) options text =
      .ok (.node (if tree.children.isEmpty then "program " else "program") []) := by
  obtain ⟨source, hsource⟩ := Option.isSome_iff_exists.mp htree.span
  have hlabel : describe (stripMark text) tree =
      .ok (if tree.children.isEmpty then "program " else "program") := by
    rw [describe_of_program htree.info hsource]
    cases hchildren : tree.children with
    | cons => rfl
    | nil =>
      rw [htree.blank hchildren] at hsource
      rw [eq_empty_of_slice? hsource]
      rfl
  have hclean : tree.clean (parsing p) (stripMark text) =
      .ok (.node (if tree.children.isEmpty then "program " else "program") []) := by
    have hbelow := cleanAll_of_emptyStatements (p := p) (stripMark text) htree.statements
    obtain ⟨id, start, stop, info, children⟩ := tree
    have hlabel : (parsing p).describe (stripMark text) ⟨id, start, stop, info, children⟩ =
        .ok (if children.isEmpty then "program " else "program") := hlabel
    rw [Tree.clean, hlabel, hbelow]
    rfl
  show p (stripMark text) >>= (fun parsed => parsed.tree.clean (parsing p) (stripMark text)) = _
  rw [hparse]
  exact hclean

/-- **Programs of empty statements do not pass.** Nothing is left of them, and the tree of an empty
text has another label, unless the text was empty before. -/
theorem debugCheck_of_emptyStatements {empty : Node} (hoptions : WholeText options)
    (hparse : p (stripMark text) = .ok ⟨tree, []⟩) (htree : OnlyEmptyStatements (stripMark text) tree)
    (hnil : p "" = .ok ⟨empty, []⟩) (hempty : OnlyEmptyStatements "" empty) (hnone : empty.children = []) :
    (formatterOf p).format text options = .ok (restoreMark (startsWithMark text) "") ∧
      (formatterOf p).debugCheck text options =
        if tree.children.isEmpty then .ok (restoreMark (startsWithMark text) "")
        else .error (.treeChanged "program\n" "program \n") := by
  have hformat := hoptions.format_of_emptyStatements hparse htree
  have hmark : startsWithMark (restoreMark (startsWithMark text) "") = startsWithMark text := by
    cases startsWithMark text <;> decide
  have hstrip : stripMark (restoreMark (startsWithMark text) "") = "" := by
    cases startsWithMark text <;> decide
  have hagain : (formatterOf p).format (restoreMark (startsWithMark text) "") options =
      .ok (restoreMark (startsWithMark text) "") := by
    have h := hoptions.format_of_emptyStatements (hstrip.symm ▸ hnil) (hstrip.symm ▸ hempty)
    rwa [hmark] at h
  have hbefore := cleanTree_of_emptyStatements (named options) hparse htree
  have hafter : Pipeline.cleanTree (parsing p) (named options) (restoreMark (startsWithMark text) "") =
      .ok (.node "program " []) := by
    rw [cleanTree_of_emptyStatements _ (hstrip.symm ▸ hnil) (hstrip.symm ▸ hempty), hnone]
    rfl
  refine ⟨hformat, ?_⟩
  rw [formatterOf, Formatter.debugCheck_of_select hoptions.rangeStart hoptions.rangeEnd
    hoptions.cursorOffset (select_of_valid hoptions.valid hoptions.language), ← formatterOf, hformat]
  simp only [bind, Except.bind, hagain]
  simp only [Formatter.compareWith, Registered.ofLanguage, hbefore, hafter]
  have hother : (CleanTree.node "program" [] == CleanTree.node "program " []) = false := by decide +kernel
  have hrender : (CleanTree.node "program" []).render = "program\n" ∧
      (CleanTree.node "program " []).render = "program \n" := by decide +kernel
  cases tree.children.isEmpty <;>
    simp [bind, Except.bind, pure, Except.pure, bne, hother, hrender, throw, throwThe, MonadExceptOf.throw]

/-! ## A semicolon -/

theorem parse_nil : parse "" = .ok ⟨⟨0, 0, 0, ⟨.program, [], none⟩, []⟩, []⟩ := by
  with_unfolding_all rfl

theorem parse_semicolon : parse ";" =
    .ok ⟨⟨0, 0, 1, ⟨.program, [], none⟩, [⟨1, 0, 1, ⟨.emptyStatement, [";"], none⟩, []⟩]⟩, []⟩ := by
  with_unfolding_all rfl

theorem onlyEmptyStatements_nil : OnlyEmptyStatements "" ⟨0, 0, 0, ⟨.program, [], none⟩, []⟩ :=
  onlyEmptyStatements_of_parse parse_nil rfl (by decide) (by simp)

theorem onlyEmptyStatements_semicolon : OnlyEmptyStatements ";"
    ⟨0, 0, 1, ⟨.program, [], none⟩, [⟨1, 0, 1, ⟨.emptyStatement, [";"], none⟩, []⟩]⟩ :=
  onlyEmptyStatements_of_parse parse_semicolon rfl (by decide) (by simp [kindOf])

theorem wholeText_javascript : WholeText { parser := some "javascript" } :=
  ⟨rfl, rfl, rfl, rfl, rfl, rfl, rfl⟩

theorem debugCheck_semicolon :
    formatter.format ";" { parser := some "javascript" } = .ok "" ∧
      formatter.debugCheck ";" { parser := some "javascript" } =
        .error (.treeChanged "program\n" "program \n") := by
  have hstrip : stripMark ";" = ";" := by decide
  exact debugCheck_of_emptyStatements wholeText_javascript (hstrip.symm ▸ parse_semicolon)
    (hstrip.symm ▸ onlyEmptyStatements_semicolon) parse_nil onlyEmptyStatements_nil rfl

/-- Formatting does not always keep the tree. -/
theorem not_sameTree :
    ¬ ∀ (text formatted : String) (options : Options), options.validate = .ok () →
      options.parser = some "javascript" → options.rangeStart = 0 → options.rangeEnd = none →
      formatter.format text options = .ok formatted →
      formatter.SameTree options text formatted := by
  intro h
  have hstrip : stripMark ";" = ";" := by decide
  have hparse : parse (stripMark ";") = _ := hstrip.symm ▸ parse_semicolon
  have htree : OnlyEmptyStatements (stripMark ";") _ := hstrip.symm ▸ onlyEmptyStatements_semicolon
  have hformat : formatter.format ";" { parser := some "javascript" } = .ok "" :=
    wholeText_javascript.format_of_emptyStatements hparse htree
  have hselect : formatter.select { parser := some "javascript" } =
      .ok (named { parser := some "javascript" }, .ofLanguage language) := select_of_valid rfl rfl
  obtain ⟨tree, hbefore, hafter⟩ := (Formatter.sameTree_of_select hselect).mp
    (h _ _ _ rfl rfl rfl rfl hformat)
  have hsemicolon := cleanTree_of_emptyStatements (named { parser := some "javascript" }) hparse htree
  have hnil : Pipeline.cleanTree (parsing parse) (named { parser := some "javascript" }) "" = _ :=
    cleanTree_of_emptyStatements _ parse_nil onlyEmptyStatements_nil
  cases hbefore.symm.trans hsemicolon
  simpa using hafter.symm.trans hnil

end CodeFormatter.JavaScript
