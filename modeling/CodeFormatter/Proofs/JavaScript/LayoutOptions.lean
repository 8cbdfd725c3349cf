import CodeFormatter.Proofs.JavaScript.AnyParser
import CodeFormatter.Proofs.Layout.Conservation
import CodeFormatter.Proofs.Text.Slice

/-!
# Options of the layout

How wide lines are and how they are indented is for the layout to see to. No printer looks at these
options, so that the document of a text does not depend on them (`Alike.printTree`). Without comments
the document is coherent: for every choice in it, its sides have the same ink (`Fine`).

**Theorem (`ink_format_relaid`).** For a text without comments, and without commas at the ends of
lists, options of the layout change nothing but spaces, tabs and line breaks.
-/

namespace CodeFormatter.JavaScript

open Layout Pipeline Printer CodeFormatter.Tree Walk

/-! ## Scenes that look alike -/

/-- What the printers can see is the same in both scenes. -/
structure Alike (a b : Scene) : Prop where
  text : a.text = b.text
  bytes : a.bytes = b.bytes
  cursorNode : a.cursorNode = b.cursorNode
  semi : a.options.semi = b.options.semi
  singleQuote : a.options.singleQuote = b.options.singleQuote
  bracketSpacing : a.options.bracketSpacing = b.options.bracketSpacing
  trailingComma : a.options.trailingComma = b.options.trailingComma
  /-- Code is a part of the text, and smaller. -/
  embedded : ∀ code : String, code.utf8ByteSize < a.text.utf8ByteSize → ∀ group,
    a.embedded code (Embedded.codeOptions a.options) group =
      b.embedded code (Embedded.codeOptions b.options) group

/-- What comes after looking at the source of a node may depend on what is found there. -/
theorem bind_source_congr {β : Type} {scene : Scene} {t : Node} {f g : String → Walk β}
    (h : ∀ s, sliceOrError scene.text t.start t.stop = .ok s → f s = g s) :
    source scene t >>= f = source scene t >>= g := by
  rw [source]
  cases hs : sliceOrError scene.text t.start t.stop with
  | error e => rfl
  | ok s => exact h s hs

/-- The code in a template is smaller than the text around it. -/
theorem size_contents_lt {text raw : String} {start stop : Nat}
    (h : sliceOrError text start stop = .ok raw) (hne : Embedded.contents raw ≠ []) :
    (String.ofList (Embedded.contents raw)).utf8ByteSize < text.utf8ByteSize := by
  obtain ⟨before, after, htext, -, -⟩ := slice?_eq_some_iff.mp (sliceOrError_eq_ok_iff.mp h)
  rw [← byteLength_toList, ← byteLength_toList, String.toList_ofList, htext]
  rw [Embedded.contents] at hne ⊢
  cases hraw : raw.toList with
  | nil => simp [hraw] at hne
  | cons c rest =>
    obtain ⟨last, hrest⟩ := List.dropLast_prefix rest
    have hlength := congrArg byteLength hrest
    have hpos := c.utf8Size_pos
    simp only [byteLength_append, byteLength_cons, List.tail_cons] at hlength ⊢
    omega

namespace Alike

variable {a b : Scene} {t : Node} {children : List Child}

theorem source (h : Alike a b) : Walk.source a t = Walk.source b t := by
  simp only [Walk.source, h.text]

theorem verbatim (h : Alike a b) : Walk.verbatim a t = Walk.verbatim b t := by
  simp only [Walk.verbatim, h.source]

theorem blankLineAfter (h : Alike a b) :
    Printer.blankLineAfter a t = Printer.blankLineAfter b t := by
  simp only [Printer.blankLineAfter, h.bytes]

theorem startsWith (h : Alike a b) (chars : List Char) :
    Printer.startsWith a t chars = Printer.startsWith b t chars := by
  simp only [Printer.startsWith, h.source]

theorem terminator (h : Alike a b) : Printer.terminator a = Printer.terminator b := by
  simp only [Printer.terminator, h.semi]

theorem statementDocs (h : Alike a b) :
    Printer.statementDocs a children = Printer.statementDocs b children := by
  induction children using Printer.statementDocs.induct with
  | case1 => rfl
  | case2 => rfl
  | case3 c rest hrest ih =>
    rw [statementDocs.eq_3 _ _ _ hrest, statementDocs.eq_3 _ _ _ hrest, ih, h.blankLineAfter]

theorem statements (h : Alike a b) :
    Printer.statements a children = Printer.statements b children := by
  rw [Printer.statements, Printer.statements, h.statementDocs]

theorem propertyDocs (h : Alike a b) :
    Printer.propertyDocs a children = Printer.propertyDocs b children := by
  induction children using Printer.propertyDocs.induct with
  | case1 => rfl
  | case2 => rfl
  | case3 c rest hrest ih =>
    rw [propertyDocs.eq_3 _ _ _ hrest, propertyDocs.eq_3 _ _ _ hrest, ih, h.blankLineAfter]

theorem hasHoles (h : Alike a b) : Printer.hasHoles a = Printer.hasHoles b := by
  funext t
  have hgo : ∀ ts previous isFirst, Printer.hasHoles.go a t previous isFirst ts =
      Printer.hasHoles.go b t previous isFirst ts := by
    intro ts
    induction ts with
    | nil => simp only [hasHoles.go, commasBetween, h.text, implies_true]
    | cons u rest ih => simp only [hasHoles.go, commasBetween, h.text, ih, implies_true]
  exact hgo _ _ _

theorem program (h : Alike a b) : Printer.program a = Printer.program b := by
  funext t children
  simp only [Printer.program, h.statements]

theorem block (h : Alike a b) : Printer.block a = Printer.block b := by
  funext t children
  simp only [Printer.block, h.statements]

theorem expressionStatement (h : Alike a b) :
    Printer.expressionStatement a = Printer.expressionStatement b := by
  funext c
  simp only [Printer.expressionStatement, h.semi, h.startsWith]

theorem keywordStatement (h : Alike a b) :
    Printer.keywordStatement a = Printer.keywordStatement b := by
  funext keyword argument
  simp only [Printer.keywordStatement, h.terminator]

theorem declaration (h : Alike a b) : Printer.declaration a = Printer.declaration b := by
  funext t children
  simp only [Printer.declaration, h.terminator]

theorem unary (h : Alike a b) : Printer.unary a = Printer.unary b := by
  funext operator argument
  simp only [Printer.unary, h.startsWith]

theorem parameters (h : Alike a b) : Printer.parameters a = Printer.parameters b := by
  funext t children
  simp only [Printer.parameters, h.trailingComma]

theorem arguments (h : Alike a b) : Printer.arguments a = Printer.arguments b := by
  funext t children
  simp only [Printer.arguments, h.trailingComma]

theorem object (h : Alike a b) : Printer.object a = Printer.object b := by
  funext t children
  simp only [Printer.object, h.bytes, h.propertyDocs, h.bracketSpacing, h.trailingComma]

theorem array (h : Alike a b) : Printer.array a = Printer.array b := by
  funext t children
  simp only [Printer.array, h.trailingComma]

theorem string (h : Alike a b) : Printer.string a = Printer.string b := by
  funext t
  simp only [Printer.string, h.singleQuote, h.source]

/-- The layout of a node is the same in both. -/
theorem node (h : Alike a b) (path : Tree.Path Info) :
    Printer.node a path children = Printer.node b path children := by
  unfold Printer.node
  rw [h.program, h.block, h.expressionStatement, h.keywordStatement, h.declaration, h.unary,
    h.parameters, h.arguments, h.object, h.hasHoles, h.array, h.string]

theorem print (h : Alike a b) (path : Tree.Path Info) :
    Printer.print a path children = Printer.print b path children := by
  simp only [Printer.print, h.node, h.verbatim]

theorem embed (h : Alike a b) (path : Tree.Path Info) :
    Embedded.print a path children = Embedded.print b path children := by
  unfold Embedded.print
  split
  · rfl
  · rename_i tag template _
    rw [← h.source, ← h.source]
    refine bind_source_congr fun raw hraw => bind_congr fun name => ?_
    split
    · rfl
    · split
      · rfl
      · rename_i hblank
        have hne : Embedded.contents raw ≠ [] := fun hnil => hblank (by rw [hnil]; rfl)
        have hcode : Embedded.codeDoc? a (String.ofList (Embedded.contents raw)) =
            Embedded.codeDoc? b (String.ofList (Embedded.contents raw)) := by
          simp only [Embedded.codeDoc?, h.embedded _ (size_contents_lt hraw hne)]
        rw [hcode]

theorem printAround (h : Alike a b) (indices : List Nat) :
    Walk.printAround language a indices = Walk.printAround language b indices := by
  induction indices with
  | nil => rfl
  | cons index rest ih =>
    simp only [Walk.printAround, leadingComment, trailingComment, h.bytes, ih]

theorem visit (h : Alike a b) (path : Tree.Path Info) :
    Walk.visit language a path children = Walk.visit language b path children := by
  have hembed : language.embed a path children = language.embed b path children := h.embed path
  have hprint : language.print a path children = language.print b path children := h.print path
  simp only [Walk.visit, printNode, withComments, h.verbatim, hembed, hprint, h.cursorNode,
    h.printAround]

mutual

theorem ofTree (h : Alike a b) (ancestors : List Node) : ∀ t : Node,
    Printable.ofTree language a ancestors t = Printable.ofTree language b ancestors t
  | ⟨i, start, stop, info, children⟩ => by
    rw [Printable.ofTree, Printable.ofTree, h.ofTrees _ children, h.visit]

theorem ofTrees (h : Alike a b) (ancestors : List Node) : ∀ ts : List Node,
    Printable.ofTrees language a ancestors ts = Printable.ofTrees language b ancestors ts
  | [] => rfl
  | t :: rest => by
    rw [Printable.ofTrees, Printable.ofTrees, h.ofTree ancestors t, h.ofTrees ancestors rest]

end

/-- **A tree has the same document in both.** -/
theorem printTree (h : Alike a b) (tree : Node) :
    CodeFormatter.printTree language a tree 0 = CodeFormatter.printTree language b tree 0 := by
  simp only [CodeFormatter.printTree, h.ofTree, Nat.lt_irrefl, if_false]

end Alike

/-! ## Other options of the layout -/

/-- The same options with another layout. -/
def relaid (o : Options) (width tabWidth : Nat) (useTabs : Bool) : Options :=
  { o with printWidth := width, tabWidth := tabWidth, useTabs := useTabs }

section Options

variable {p : TextParser} {o n : Options} {width tabWidth : Nat} {useTabs : Bool} {text s : String}

/-- **When options are valid.** -/
theorem validate_eq_ok_iff : o.validate = .ok () ↔
    0 < o.printWidth ∧ 0 < o.tabWidth ∧ ∀ stop ∈ o.rangeEnd, o.rangeStart ≤ stop := by
  unfold Options.validate
  by_cases hwidth : o.printWidth = 0
  · simp [hwidth]
  by_cases htab : o.tabWidth = 0
  · simp [hwidth, htab]
  rw [if_neg hwidth, if_neg htab]
  have hpos : 0 < o.printWidth ∧ 0 < o.tabWidth :=
    ⟨Nat.pos_of_ne_zero hwidth, Nat.pos_of_ne_zero htab⟩
  cases o.rangeEnd with
  | none => simp [hpos]
  | some stop =>
    dsimp only
    split <;> simp [hpos] <;> omega

/-- Options for code are valid if those of the text around it are. -/
theorem validate_codeOptions (h : o.validate = .ok ()) :
    (Embedded.codeOptions o).validate = .ok () := by
  obtain ⟨hwidth, htab, -⟩ := validate_eq_ok_iff.mp h
  exact validate_eq_ok_iff.mpr ⟨hwidth, htab, nofun⟩

/-- **Embedded code has the same document** whatever the layout. -/
theorem embedding_relaid (hvalid : (Embedded.codeOptions o).validate = .ok ())
    (hvalid' : (Embedded.codeOptions (relaid o width tabWidth useTabs)).validate = .ok ())
    (depth : Nat) (code : String) (group : GroupId) :
    (formatterOf p).embedding depth code (Embedded.codeOptions o) group =
      (formatterOf p).embedding depth code
        (Embedded.codeOptions (relaid o width tabWidth useTabs)) group := by
  induction depth generalizing code group with
  | zero => rfl
  | succ depth ih =>
    rw [embedding_succ hvalid, embedding_succ hvalid']
    refine bind_congr fun parsed => ?_
    have halike : Alike (codeScene ((formatterOf p).embedding depth) (Embedded.codeOptions o) code)
        (codeScene ((formatterOf p).embedding depth)
          (Embedded.codeOptions (relaid o width tabWidth useTabs)) code) :=
      ⟨rfl, rfl, rfl, rfl, rfl, rfl, rfl, fun code _ => ih code⟩
    rw [halike.printTree]

theorem codeOptions_unmark (n : Options) (text : String) :
    Embedded.codeOptions (unmark n text).options = Embedded.codeOptions n := by
  rw [unmark]
  split <;> rfl

/-- Code does not depend on what is done to the options of the text before it is parsed. -/
theorem codeOptions_of_prepare {job : Job} (h : prepare language n text = .ok job) :
    Embedded.codeOptions job.options = Embedded.codeOptions n := by
  obtain ⟨marked, hmarked, h⟩ := bind_eq_ok_iff.mp h
  cases h
  have hunmark := codeOptions_unmark n text
  unfold addPragma at hmarked
  split at hmarked
  · obtain ⟨_, -, hmarked⟩ := bind_eq_ok_iff.mp hmarked
    cases hmarked
    exact hunmark
  · cases hmarked
    exact hunmark

theorem unmark_relaid (n : Options) (text : String) :
    unmark (relaid n width tabWidth useTabs) text =
      { unmark n text with options := relaid (unmark n text).options width tabWidth useTabs } := by
  unfold unmark
  split <;> rfl

theorem prepare_relaid :
    prepare language (relaid n width tabWidth useTabs) text =
      (fun job => { job with options := relaid job.options width tabWidth useTabs }) <$>
        prepare language n text := by
  unfold prepare
  rw [unmark_relaid]
  generalize unmark n text = job
  unfold addPragma
  split
  · rename_i hinsert
    have hinsert : (job.options.insertPragma && !language.hasPragma job.text &&
        job.options.formatsWholeFile) = true := hinsert
    rw [if_pos hinsert]
    cases language.insertPragma job.text <;> rfl
  · rename_i hinsert
    have hinsert : ¬ (job.options.insertPragma && !language.hasPragma job.text &&
        job.options.formatsWholeFile) = true := hinsert
    rw [if_neg hinsert]
    rfl

end Options

/-! ## Coherent documents -/

/-- The sides of each choice have the same ink, and nothing waits for the end of its line. -/
structure Fine (d : Doc) : Prop where
  coherent : d.coherent = true
  plain : d.isPlain = true

section Fine

variable {d e : Doc} {parts : List Doc}

theorem fine_concat : Fine (.concat parts) ↔ ∀ d ∈ parts, Fine d := by
  constructor
  · intro h d hd
    have hcoherent := h.coherent
    have hplain := h.plain
    rw [Doc.coherent, Doc.allCoherent_eq, List.all_eq_true] at hcoherent
    rw [Doc.isPlain, Doc.allPlain_eq, List.all_eq_true] at hplain
    exact ⟨hcoherent d hd, hplain d hd⟩
  · intro h
    refine ⟨?_, ?_⟩
    · rw [Doc.coherent, Doc.allCoherent_eq, List.all_eq_true]
      exact fun d hd => (h d hd).coherent
    · rw [Doc.isPlain, Doc.allPlain_eq, List.all_eq_true]
      exact fun d hd => (h d hd).plain

theorem fine_text (s : String) : Fine (.text s) := ⟨rfl, rfl⟩

theorem fine_hardline : Fine Doc.hardline := ⟨rfl, rfl⟩

theorem Fine.indent (h : Fine d) : Fine (.indent d) := ⟨h.coherent, h.plain⟩

theorem Fine.stripTrailingHardline (h : Fine d) : Fine d.stripTrailingHardline := by
  induction d using Doc.induction with
  | concat parts ih =>
    rw [Doc.stripTrailingHardline, fine_concat]
    intro e he
    rcases Doc.mem_stripLast he with he | ⟨d, hd, rfl⟩
    · exact fine_concat.mp h e he
    · exact ih d hd (fine_concat.mp h d hd)
  | _ => exact h

theorem Fine.propagateBreaks (h : Fine d) : Fine d.propagateBreaks :=
  ⟨(Doc.coherent_propagateBreaks d).trans h.coherent, (Doc.isPlain_propagateBreaks d).trans h.plain⟩

end Fine

/-! ## Trees without comments -/

section Trees

variable {scene : Scene} {t : Node}

/-- The document of the code in each template of the node is coherent. -/
def EmbedsFine (scene : Scene) (t : Node) : Prop :=
  ∀ tag template code, HoldsCode scene.text t tag template code → Embedded.isPlain code = true →
    ∀ group e last, scene.embedded (String.ofList code) (Embedded.codeOptions scene.options) group =
      .ok (e, last) → Fine e

theorem fine_of_form (hembedded : EmbedsFine scene t) {d d' : Doc}
    (hd : Form (!isGap ·) (· = Doc.nil) (fun _ => Fine) (Comments.ofList []) scene t d)
    (hd' : Surrounds (Comments.ofList []) t d d') : Fine d' := by
  have hfine : Fine d := by
    cases hd with
    | copy => exact fine_text _
    | code _ hcode hd =>
      cases hd with
      | blank hd =>
        refine fine_concat.mpr fun e he => ?_
        rcases List.mem_pair.mp he with rfl | rfl
        · exact hd
        · exact fine_text _
      | @code d e group last hd hplain he =>
        have he := hembedded _ _ _ hcode hplain _ _ _ he
        have hinner : Fine (.indent (.concat [Doc.hardline, e.stripTrailingHardline])) := by
          refine (fine_concat.mpr fun e' he' => ?_).indent
          rcases List.mem_pair.mp he' with rfl | rfl
          · exact fine_hardline
          · exact he.stripTrailingHardline
        refine fine_concat.mpr fun e' he' => ?_
        simp only [List.mem_cons, List.not_mem_nil, or_false] at he'
        rcases he' with rfl | rfl | rfl | rfl | rfl
        · exact hd
        · exact fine_text _
        · exact hinner
        · exact fine_hardline
        · exact fine_text _
    | layout _ houtlined =>
      obtain ⟨shape, -, hbuilds⟩ := houtlined
      refine ⟨hbuilds.coherent (fun _ _ h => h.coherent) ?_, hbuilds.isPlain (fun _ _ h => h.plain) ?_⟩
      · rintro e rfl
        exact ⟨rfl, rfl⟩
      · rintro e rfl
        rfl
  rcases hd'.of_bare with rfl | rfl
  · exact hfine
  · refine fine_concat.mpr fun e he => ?_
    simp only [List.mem_cons, List.not_mem_nil, or_false] at he
    rcases he with rfl | rfl | rfl
    · exact ⟨rfl, rfl⟩
    · exact hfine
    · exact ⟨rfl, rfl⟩

/-- **The document of a tree without comments is coherent**, if that of embedded code is. -/
theorem fine_printTree (tree : Node) (hcomma : scene.options.trailingComma = .none)
    (hembedded : ∀ t ∈ tree.nodes, EmbedsFine scene t) {group : GroupId} {d : Doc} {st : WalkState}
    (hrun : printTree language scene tree 0 ⟨Comments.ofList [], group⟩ = .ok (d, st)) : Fine d := by
  obtain ⟨e, rfl, he⟩ := exists_document (Counts.of_bare rfl fun _ => hcomma)
    (fun t ht _ _ => fine_of_form (hembedded t ht)) hrun
  exact he.propagateBreaks

end Trees

/-! ## Texts without comments -/

/-- A text, the code in its templates, the code in theirs, and so on. -/
inductive Reached (p : TextParser) (source : String) : String → Prop
  | self : Reached p source source
  | code {text : String} {parsed : Parsed Info} {t tag template : Node} {code : List Char} :
      Reached p source text → p text = .ok parsed → t ∈ parsed.tree.nodes →
      HoldsCode text t tag template code → Embedded.isPlain code = true →
      Reached p source (String.ofList code)

section Texts

variable {p : TextParser} {o : Options} {width tabWidth : Nat} {useTabs : Bool}
  {text source s : String}

theorem fine_embedding (hcomments : ∀ code parsed, Reached p source code →
      p code = .ok parsed → parsed.comments = [])
    (hvalid : (Embedded.codeOptions o).validate = .ok ()) (hcomma : o.trailingComma = .none)
    {depth : Nat} {code : String} (hcode : Reached p source code) {group last : GroupId} {d : Doc}
    (h : (formatterOf p).embedding depth code (Embedded.codeOptions o) group = .ok (d, last)) :
    Fine d := by
  induction depth generalizing code group last d with
  | zero => cases h
  | succ depth ih =>
    rw [embedding_succ hvalid] at h
    obtain ⟨⟨tree, comments⟩, hparse, h⟩ := bind_eq_ok_iff.mp h
    obtain ⟨⟨e, st⟩, hrun, h⟩ := bind_eq_ok_iff.mp h
    obtain ⟨_, -, h⟩ := bind_eq_ok_iff.mp h
    cases h
    cases hcomments code _ hcode hparse
    exact fine_printTree tree hcomma (fun t ht _ _ _ hcode' hplain _ _ _ he =>
      ih (.code hcode hparse ht hcode' hplain) he) hrun

theorem ink_restoreMark (marked : Bool) (out : String) :
    ink (restoreMark marked out).toList =
      ink ((if marked then [byteOrderMark] else []) ++ out.toList) := by
  rw [restoreMark]
  split
  · rw [String.toList_ofList]
    rfl
  · rfl

theorem ink_lineEnding (bytes : Bytes) : ink (Scan.lineEnding bytes).toList = [] := by
  have hgo : ∀ afterReturn, ink (Scan.lineEnding.go afterReturn bytes).toList = [] := by
    induction bytes with
    | nil => exact fun _ => by rw [Scan.lineEnding.go]; rfl
    | cons b rest ih =>
      intro afterReturn
      rw [Scan.lineEnding.go]
      split
      · split <;> rfl
      · exact ih _
  exact hgo false

theorem ink_page (o : Options) (text : String) : ink (o.page text).newline.toList = [] := by
  unfold Options.page
  dsimp only
  split
  · rfl
  · rfl
  · exact ink_lineEnding _

/-- The output has the ink of its document. -/
theorem Prints.ink_eq {job : Job} {parsed : Parsed Info} {d : Doc} {st : WalkState}
    (h : Prints p o text s job parsed d st) (hd : Fine d) :
    ink s.toList = ink (if job.marked then [byteOrderMark] else []) ++ d.ink := by
  have hformatted := (ink_formatted (job.options.page job.text) hd.coherent
    (ink_page job.options job.text)).1 (Doc.hasSuffix_of_isPlain hd.plain)
  rw [h.outcome, ink_restoreMark, ink_append, hformatted]

theorem Prints.fine {job : Job} {parsed : Parsed Info} {d : Doc} {st : WalkState}
    (hprints : Prints p o text s job parsed d st) (hvalid : o.validate = .ok ())
    (hcomma : o.trailingComma = .none)
    (hcomments : ∀ code parsed, Reached p job.text code → p code = .ok parsed →
      parsed.comments = []) : Fine d := by
  have hoptions := codeOptions_of_prepare hprints.prepared
  have hcomma' : job.options.trailingComma = .none :=
    (congrArg Options.trailingComma hoptions).trans hcomma
  obtain ⟨tree, comments⟩ := parsed
  cases hcomments job.text _ .self hprints.parses
  refine fine_printTree tree hcomma' (fun t ht _ _ _ hcode hplain _ _ _ he => ?_) hprints.printed
  exact fine_embedding hcomments (hoptions ▸ validate_codeOptions hvalid) hcomma'
    (.code .self hprints.parses ht hcode hplain) he

/-- With another layout the same document is printed. -/
theorem Prints.relaid {job : Job} {parsed : Parsed Info} {d : Doc} {st : WalkState}
    (hprints : Prints p o text s job parsed d st) (hvalid : o.validate = .ok ())
    (hvalid' : (relaid o width tabWidth useTabs).validate = .ok ()) :
    ∃ s' job', job'.marked = job.marked ∧
      Prints p (relaid o width tabWidth useTabs) text s' job' parsed d st := by
  have hoptions := codeOptions_of_prepare hprints.prepared
  have hoptions' : Embedded.codeOptions (JavaScript.relaid job.options width tabWidth useTabs) =
      Embedded.codeOptions (JavaScript.relaid o width tabWidth useTabs) :=
    congrArg (JavaScript.relaid · width tabWidth useTabs) hoptions
  have hembedding := fun code group =>
    embedding_relaid (p := p) (hoptions.symm ▸ validate_codeOptions hvalid)
      (hoptions'.symm ▸ validate_codeOptions hvalid') ((formatterOf p).nesting text) code group
  have halike : Alike
      (sceneOf ((formatterOf p).embedding ((formatterOf p).nesting text)) job parsed.tree)
      (sceneOf ((formatterOf p).embedding ((formatterOf p).nesting text))
        { job with options := JavaScript.relaid job.options width tabWidth useTabs } parsed.tree) :=
    ⟨rfl, rfl, rfl, rfl, rfl, rfl, rfl, fun code _ => hembedding code⟩
  refine ⟨_, { job with options := JavaScript.relaid job.options width tabWidth useTabs }, rfl,
    hprints.wanted, ?_, hprints.parses, halike.printTree _ ▸ hprints.printed, hprints.complete, rfl⟩
  rw [prepare_relaid, hprints.prepared]
  rfl

/-- **Options of the layout change nothing but blanks and line breaks** in a text without comments. -/
theorem ink_format_relaid (hwhole : o.formatsWholeFile = true) (hcomma : o.trailingComma = .none)
    (hvalid : (relaid o width tabWidth useTabs).validate = .ok ())
    (hsource : sourceOf o text = .ok source)
    (hcomments : ∀ code parsed, Reached p source code → p code = .ok parsed → parsed.comments = [])
    (hformat : (formatterOf p).format text o = .ok s) :
    (∃ s', (formatterOf p).format text (relaid o width tabWidth useTabs) = .ok s' ∧
      ink s'.toList = ink s.toList) ∧
    ∀ job parsed d st, Prints p (named o) text s job parsed d st → d.coherent = true := by
  obtain ⟨hvalid₁, hjs, hcase⟩ := (format_eq_ok_iff hwhole).mp hformat
  have hwhole' : (JavaScript.relaid o width tabWidth useTabs).formatsWholeFile = true := hwhole
  have hjs' : IsJavaScript (JavaScript.relaid o width tabWidth useTabs) := hjs
  have hfine : ∀ job parsed d st, Prints p (named o) text s job parsed d st → Fine d := by
    intro job parsed d st hprints
    have hwanted : skips o text = false := hprints.wanted
    rw [sourceOf, hwanted, if_neg Bool.false_ne_true, hprints.prepared] at hsource
    cases hsource
    exact hprints.fine hvalid₁ hcomma hcomments
  refine ⟨?_, fun job parsed d st hprints => (hfine job parsed d st hprints).coherent⟩
  rcases hcase with ⟨hskips, rfl⟩ | ⟨job, parsed, d, st, hprints⟩
  · exact ⟨s, (format_eq_ok_iff hwhole').mpr ⟨hvalid, hjs', .inl ⟨hskips, rfl⟩⟩, rfl⟩
  · have hd := hfine job parsed d st hprints
    obtain ⟨s', job', hmarked, hprints'⟩ := hprints.relaid hvalid₁ hvalid
    refine ⟨s', (format_eq_ok_iff hwhole').mpr
      ⟨hvalid, hjs', .inr ⟨job', parsed, d, st, hprints'⟩⟩, ?_⟩
    rw [hprints'.ink_eq hd, hprints.ink_eq hd, hmarked]

/-- A call with a list, which can stay on the line of the call. -/
def call : Node :=
  ⟨0, 0, 12, ⟨.program, [], none⟩, [⟨1, 0, 12, ⟨.expressionStatement, [], none⟩,
    [⟨2, 0, 12, ⟨.callExpression, [], none⟩, [⟨3, 0, 1, ⟨.identifier, [], none⟩, []⟩,
      ⟨4, 1, 12, ⟨.arguments, ["(", ",", ")"], none⟩, [⟨5, 2, 3, ⟨.identifier, [], none⟩, []⟩,
        ⟨6, 5, 11, ⟨.array, ["[", ",", "]"], none⟩, [⟨7, 6, 7, ⟨.identifier, [], none⟩, []⟩,
          ⟨8, 9, 10, ⟨.identifier, [], none⟩, []⟩]⟩]⟩]⟩]⟩]⟩

theorem ink_format_call :
    (formatterOf fun _ => .ok ⟨call, []⟩).format "f(a, [b, c])" { parser := some "javascript" } =
      .ok "f(a, [b, c]);\n" ∧
    (formatterOf fun _ => .ok ⟨call, []⟩).format "f(a, [b, c])"
      (relaid { parser := some "javascript" } 8 4 true) = .ok "f(a, [\n\tb,\n\tc\n]);\n" ∧
    ink "f(a, [\n\tb,\n\tc\n]);\n".toList = ink "f(a, [b, c]);\n".toList := by
  have hformat : (formatterOf fun _ => .ok ⟨call, []⟩).format "f(a, [b, c])"
      { parser := some "javascript" } = .ok "f(a, [b, c]);\n" := by
    decide +kernel
  have hformat' : (formatterOf fun _ => .ok ⟨call, []⟩).format "f(a, [b, c])"
      (relaid { parser := some "javascript" } 8 4 true) = .ok "f(a, [\n\tb,\n\tc\n]);\n" := by
    decide +kernel
  have hcomments : ∀ code parsed, Reached (fun _ => .ok ⟨call, []⟩) "f(a, [b, c])" code →
      (.ok ⟨call, []⟩ : Except Error (Parsed Info)) = .ok parsed → parsed.comments = [] := by
    rintro code parsed - ⟨⟩
    rfl
  have hvalid : (relaid { parser := some "javascript" } 8 4 true).validate = .ok () := rfl
  obtain ⟨⟨s', hs', hink⟩, -⟩ := ink_format_relaid rfl rfl hvalid rfl hcomments hformat
  rw [hformat', Except.ok.injEq] at hs'
  subst hs'
  exact ⟨hformat, hformat', hink⟩

end Texts

end CodeFormatter.JavaScript
