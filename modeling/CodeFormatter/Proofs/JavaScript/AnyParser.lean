import CodeFormatter.Proofs.JavaScript.Outlines

/-!
# Formatting with any parser

What the formatter does with a tree does not depend on where the tree comes from. Here the parser is
a parameter: `parsing p` is the language with `p` for a parser, and `formatterOf p` formats texts in
it. With the parser of the language this is the formatter itself (`formatterOf_parse`).

**Theorem (`format_eq_ok_iff`).** When the whole of a text is formatted, the outcome is the layout of
the document of its tree.
-/

namespace CodeFormatter.JavaScript

open Walk Pipeline

/-- A parser: it gives a text its tree and its comments. -/
abbrev TextParser := String → Except Error (Parsed Info)

/-- The language, read by this parser. -/
def parsing (p : TextParser) : Language Info := { language with parse := fun _ text => p text }

/-- The formatter for it. -/
def formatterOf (p : TextParser) : Formatter := Formatter.ofLanguages [.ofLanguage (parsing p)]

theorem formatterOf_parse : formatterOf parse = formatter := rfl

variable {p : TextParser}

/-! ## Printing does not ask for the parser -/

theorem printAround_parsing (scene : Scene) (indices : List Nat) :
    printAround (parsing p) scene indices = printAround language scene indices := by
  induction indices with
  | nil => rfl
  | cons index rest ih =>
    rw [printAround, printAround, ih]
    rfl

theorem visit_parsing (scene : Scene) (path : Tree.Path Info) (children : List (Printable Info)) :
    visit (parsing p) scene path children = visit language scene path children := by
  have hcomments : withComments (parsing p) scene path.node =
      withComments language scene path.node := by
    funext printed
    simp only [withComments, printAround_parsing]
  rw [visit, visit, hcomments]
  rfl

mutual

theorem ofTree_parsing (scene : Scene) (ancestors : List Node) : ∀ t : Node,
    Printable.ofTree (parsing p) scene ancestors t = Printable.ofTree language scene ancestors t
  | ⟨id, start, stop, info, children⟩ => by
    rw [Printable.ofTree, Printable.ofTree, ofTrees_parsing scene _ children,
      visit_parsing]

theorem ofTrees_parsing (scene : Scene) (ancestors : List Node) : ∀ ts : List Node,
    Printable.ofTrees (parsing p) scene ancestors ts =
      Printable.ofTrees language scene ancestors ts
  | [] => rfl
  | t :: rest => by
    rw [Printable.ofTrees, Printable.ofTrees, ofTree_parsing scene ancestors t,
      ofTrees_parsing scene ancestors rest]

end

theorem printTree_parsing (scene : Scene) (tree : Node) (alignment : Nat) :
    printTree (parsing p) scene tree alignment = printTree language scene tree alignment := by
  rw [printTree, ofTree_parsing, printTree]

/-! ## Nor does anything else -/

theorem hasPragma_parsing : (parsing p).hasPragma = language.hasPragma := by rw [parsing]

theorem insertPragma_parsing : (parsing p).insertPragma = language.insertPragma := by rw [parsing]

theorem preprocess_parsing : (parsing p).preprocess = language.preprocess := by rw [parsing]

theorem hasPragma_language : language.hasPragma = Pragma.isPresent := by rw [language]

theorem insertPragma_language : language.insertPragma = Pragma.insert := by rw [language]

theorem preprocess_language : language.preprocess = fun _ text => text := by rw [language]

theorem parse_language (o : Options) (text : String) : language.parse o text = parse text := by rw [language]

theorem canAttach_parsing : (parsing p).canAttach = language.canAttach := by rw [parsing]

theorem handleComment_parsing : (parsing p).handleComment = language.handleComment := by
  rw [parsing]

theorem isGapText_parsing : (parsing p).isGapText = language.isGapText := by rw [parsing]

theorem prepare_parsing (n : Options) (text : String) :
    prepare (parsing p) n text = prepare language n text := by
  simp only [prepare, addPragma, hasPragma_parsing, insertPragma_parsing, preprocess_parsing]

theorem attached_parsing (text : String) (parsed : Parsed Info) :
    attached (parsing p) text parsed = attached language text parsed := by
  have hstep : Attach.attachComment (parsing p) parsed.tree text (bytesOf text) =
      Attach.attachComment language parsed.tree text (bytesOf text) := by
    funext progress index
    simp only [Attach.attachComment, Attach.place, Attach.Progress.tie, Attach.Progress.settle,
      canAttach_parsing, handleComment_parsing, isGapText_parsing]
  simp only [attached, Attach.attach, Attach.Progress.settle, isGapText_parsing, hstep]

/-! ## Options -/

variable {options n : Options} {l : Registered} {text s : String}

/-- The options name the language, or the extension of the file does. -/
def IsJavaScript (options : Options) : Prop :=
  (options.parser.orElse fun _ => formatter.inferParser options) = some "javascript"

/-- The same options with the language named. -/
def named (options : Options) : Options := { options with parser := some "javascript" }

theorem inferParser_ofLanguage {l l' : Registered} (hname : l.name = l'.name)
    (hextensions : l.extensions = l'.extensions) (options : Options) :
    (Formatter.ofLanguages [l]).inferParser options =
      (Formatter.ofLanguages [l']).inferParser options := by
  simp only [Formatter.inferParser, Formatter.ofLanguages, List.find?_singleton, hextensions]
  cases options.fileExtension with
  | none => rfl
  | some extension =>
    simp only [Option.bind_eq_bind, Option.bind_some]
    split
    · simp [hname]
    · rfl

theorem inferParser_formatterOf (options : Options) :
    (formatterOf p).inferParser options = formatter.inferParser options := by
  have hname : (Registered.ofLanguage (parsing p)).name = (Registered.ofLanguage language).name :=
    rfl
  exact inferParser_ofLanguage hname rfl options

theorem resolve_formatterOf (hvalid : options.validate = .ok ()) :
    (formatterOf p).resolve options = .ok { options with
      parser := options.parser.orElse fun _ => formatter.inferParser options } := by
  rw [formatterOf, Formatter.resolve_ofLanguages, Formatter.computeNormalized, hvalid]
  dsimp only
  rw [← formatterOf, inferParser_formatterOf]

theorem select_of_valid (hvalid : options.validate = .ok ()) (hjs : IsJavaScript options) :
    (formatterOf p).select options = .ok (named options, .ofLanguage (parsing p)) := by
  have hresolve : (formatterOf p).resolve options = .ok (named options) := by
    rw [resolve_formatterOf hvalid, hjs, named]
  rw [Formatter.select, hresolve]
  rfl

theorem validate_of_resolve (h : (formatterOf p).resolve options = .ok n) :
    options.validate = .ok () := by
  rw [formatterOf, Formatter.resolve_ofLanguages, Formatter.computeNormalized] at h
  split at h
  · cases h
  · assumption

theorem of_select (h : (formatterOf p).select options = .ok (n, l)) :
    options.validate = .ok () ∧ IsJavaScript options := by
  obtain ⟨n', hresolve, h⟩ := Formatter.exists_of_bind_eq_ok h
  obtain ⟨l', hlanguage, -⟩ := Formatter.exists_of_bind_eq_ok h
  have hvalid : options.validate = .ok () := validate_of_resolve hresolve
  refine ⟨hvalid, ?_⟩
  rw [resolve_formatterOf hvalid, Except.ok.injEq] at hresolve
  subst hresolve
  rw [Formatter.languageFor] at hlanguage
  unfold IsJavaScript
  cases hname : options.parser.orElse fun _ => formatter.inferParser options with
  | none =>
    rw [hname] at hlanguage
    cases hlanguage
  | some name =>
    by_cases hjs : name = "javascript"
    · rw [hjs]
    · have hnone : (formatterOf p).languages.find? (fun l => l.name == name) = none := by
        refine List.find?_eq_none.mpr fun l hl => ?_
        rw [List.mem_singleton.mp hl]
        exact fun heq => hjs (beq_iff_eq.mp heq).symm
      rw [hname] at hlanguage
      dsimp only at hlanguage
      rw [hnone] at hlanguage
      cases hlanguage

/-! ## Embedded code -/

/-- What the printers can read of embedded code. -/
def codeScene (embedding : Embedding) (options : Options) (code : String) : Scene :=
  { language := language.name, text := code, bytes := bytesOf code, options, cursorNode := none
    embedded := embedding }

/-- The document of code is that of its tree. -/
theorem embedding_succ {depth : Nat} {code : String} {group : GroupId}
    (hvalid : (Embedded.codeOptions options).validate = .ok ()) :
    (formatterOf p).embedding (depth + 1) code (Embedded.codeOptions options) group =
      p code >>= fun parsed =>
        printTree language (codeScene ((formatterOf p).embedding depth)
            (Embedded.codeOptions options) code) parsed.tree 0
          ⟨attached language code parsed, group⟩ >>= fun r =>
        ensureAllPrinted r.2.comments >>= fun _ => pure (r.1, r.2.lastGroup) := by
  have hresolve : (formatterOf p).resolve (Embedded.codeOptions options) =
      .ok (Embedded.codeOptions options) := resolve_formatterOf hvalid
  have hdoc : (formatterOf p).embedding (depth + 1) code (Embedded.codeOptions options) group =
      docOfText (parsing p) ((formatterOf p).embedding depth) (Embedded.codeOptions options) code
        group := by
    rw [Formatter.embedding, hresolve]
    rfl
  rw [hdoc]
  simp only [← printTree_parsing (p := p)]
  rfl

theorem validate_of_embedding {depth : Nat} {code : String} {group : GroupId} {r : Doc × GroupId}
    (h : (formatterOf p).embedding (depth + 1) code options group = .ok r) :
    options.validate = .ok () := by
  rw [Formatter.embedding] at h
  obtain ⟨n, hresolve, -⟩ := Formatter.exists_of_bind_eq_ok h
  exact validate_of_resolve hresolve

/-! ## The whole of a text -/

theorem bind_eq_ok_iff {ε α β : Type} {x : Except ε α} {g : α → Except ε β} {b : β} :
    x >>= g = .ok b ↔ ∃ a, x = .ok a ∧ g a = .ok b := by
  refine ⟨Formatter.exists_of_bind_eq_ok, ?_⟩
  rintro ⟨a, rfl, h⟩
  exact h

theorem map_eq_ok_iff {ε α β : Type} {x : Except ε α} {g : α → β} {b : β} :
    g <$> x = .ok b ↔ ∃ a, x = .ok a ∧ g a = b := by
  cases x <;> simp [Functor.map, Except.map]

/-- Is the text left as it is, because it does not have the mark that the options require? -/
def skips (options : Options) (text : String) : Bool :=
  options.requirePragma && !Pragma.isPresent (stripMark text)

theorem skips_eq (options : Options) (text : String) :
    skips options text = (options.requirePragma && !(parsing p).hasPragma (stripMark text)) := by
  rw [hasPragma_parsing, hasPragma_language, skips]

/-- The text that is parsed: without its byte-order mark, and with a pragma if one is put in. -/
def sourceOf (options : Options) (text : String) : Except Error String :=
  if skips options text then .ok (stripMark text)
  else (·.text) <$> prepare language (named options) text

/-- Nothing but a mark is set aside. -/
theorem toList_stripMark_or (text : String) : (stripMark text).toList = text.toList ∨
    text.toList = byteOrderMark :: (stripMark text).toList := by
  rw [stripMark]
  split
  · rename_i hmark
    rw [startsWithMark, beq_iff_eq] at hmark
    obtain ⟨rest, htext⟩ := List.head?_eq_some_iff.mp hmark
    exact .inr (by rw [String.toList_ofList, htext, List.tail_cons])
  · exact .inl rfl

theorem unmark_text (n : Options) (text : String) : (unmark n text).text = stripMark text := by
  unfold unmark
  split
  · rfl
  · rename_i hmark
    rw [stripMark, if_neg hmark]

/-- Is a pragma put into the text? -/
def putsPragma (options : Options) (text : String) : Bool :=
  let job := unmark options text
  job.options.insertPragma && !Pragma.isPresent job.text && job.options.formatsWholeFile

theorem prepare_of_not_putsPragma (h : putsPragma n text = false) :
    prepare language n text = .ok (unmark n text) := by
  rw [putsPragma] at h
  rw [prepare, addPragma, hasPragma_language, h, preprocess_language]
  rfl

theorem prepare_of_no_pragma (h : n.insertPragma = false) :
    prepare language n text = .ok (unmark n text) := by
  have hjob : (unmark n text).options.insertPragma = false := by
    rw [unmark]
    split <;> exact h
  refine prepare_of_not_putsPragma ?_
  rw [putsPragma, hjob]
  rfl

/-- The text that is parsed has the pragma in it. -/
theorem exists_of_putsPragma {job : Job} (h : putsPragma n text = true)
    (hprepare : prepare language n text = .ok job) :
    ∃ cs, Pragma.insertChars? (stripMark text).toList = some cs ∧ job.text = String.ofList cs := by
  rw [putsPragma] at h
  rw [prepare, addPragma, hasPragma_language, if_pos h, insertPragma_language, preprocess_language,
    unmark_text, Pragma.insert] at hprepare
  cases hcs : Pragma.insertChars? (stripMark text).toList with
  | none =>
    rw [hcs] at hprepare
    cases hprepare
  | some cs =>
    rw [hcs] at hprepare
    cases hprepare
    exact ⟨cs, rfl, rfl⟩

/-- What the printers can read. -/
def sceneOf (embedding : Embedding) (job : Job) (tree : Node) : Scene :=
  { language := language.name, text := job.text, bytes := bytesOf job.text
    options := job.options, cursorNode := (cursorTarget job.options tree).map (·.1)
    embedded := embedding }

/-- The text is printed, and this is the outcome. -/
structure Prints (p : TextParser) (n : Options) (text s : String) (job : Job)
    (parsed : Parsed Info) (d : Doc) (st : WalkState) : Prop where
  wanted : skips n text = false
  prepared : prepare language n text = .ok job
  parses : p job.text = .ok parsed
  printed : printTree language
    (sceneOf ((formatterOf p).embedding ((formatterOf p).nesting text)) job parsed.tree)
    parsed.tree 0 ⟨attached language job.text parsed, 0⟩ = .ok (d, st)
  complete : ensureAllPrinted st.comments = .ok ()
  outcome : s = restoreMark job.marked (Layout.print (job.options.page job.text) d).formatted

theorem whole_of_prepare {job : Job} (hwhole : n.formatsWholeFile = true)
    (h : prepare language n text = .ok job) :
    job.options.rangeStart = 0 ∧ job.options.rangeEnd = none := by
  obtain ⟨marked, hmarked, h⟩ := Formatter.exists_of_bind_eq_ok h
  cases h
  rw [Options.formatsWholeFile_iff] at hwhole
  have hunmark : (unmark n text).options.rangeStart = 0 ∧
      (unmark n text).options.rangeEnd = none := by
    rw [unmark]
    split <;> simp [hwhole]
  unfold addPragma at hmarked
  split at hmarked
  · obtain ⟨_, -, hmarked⟩ := Formatter.exists_of_bind_eq_ok hmarked
    cases hmarked
    exact hunmark
  · cases hmarked
    exact hunmark

theorem formatRange_whole {embedding : Embedding} {job : Job} (tree : Node)
    (hstart : job.options.rangeStart = 0) (hend : job.options.rangeEnd = none) :
    formatRange (parsing p) embedding job tree = .ok none := by
  unfold formatRange
  simp only [hstart, hend, Option.getD_none, Nat.min_self, decide_true,
    Bool.and_self, if_true]
  rfl

theorem printParsed_eq_ok_iff {embedding : Embedding} {job : Job} {parsed : Parsed Info}
    {formatted : Formatted} : printParsed (parsing p) embedding job parsed 0 = .ok formatted ↔
      ∃ d st, printTree language (sceneOf embedding job parsed.tree) parsed.tree 0
          ⟨attached language job.text parsed, 0⟩ = .ok (d, st) ∧
        ensureAllPrinted st.comments = .ok () ∧
        formatted =
          let printed := Layout.print (job.options.page job.text) d
          { formatted := restoreMark job.marked printed.formatted
            cursorOffset := (mapCursor (cursorTarget job.options parsed.tree) printed).map
              fun c => if job.marked then c + 3 else c } := by
  have hrun : printParsed (parsing p) embedding job parsed 0 =
      printTree language (sceneOf embedding job parsed.tree) parsed.tree 0
        ⟨attached language job.text parsed, 0⟩ >>= fun r =>
          ensureAllPrinted r.2.comments >>= fun _ => pure
            (let printed := Layout.print (job.options.page job.text) r.1
            { formatted := restoreMark job.marked printed.formatted
              cursorOffset := (mapCursor (cursorTarget job.options parsed.tree) printed).map
                fun c => if job.marked then c + 3 else c }) := by
    rw [← printTree_parsing (p := p), ← attached_parsing (p := p)]
    rfl
  rw [hrun, bind_eq_ok_iff]
  constructor
  · rintro ⟨⟨d, st⟩, hd, h⟩
    obtain ⟨⟨⟩, hcomplete, h⟩ := bind_eq_ok_iff.mp h
    cases h
    exact ⟨d, st, hd, hcomplete, rfl⟩
  · rintro ⟨d, st, hd, hcomplete, rfl⟩
    exact ⟨(d, st), hd, bind_eq_ok_iff.mpr ⟨(), hcomplete, rfl⟩⟩

theorem formatText_eq_ok_iff {embedding : Embedding} {formatted : Formatted}
    (hwhole : n.formatsWholeFile = true) (hskips : skips n text = false) :
    formatText (parsing p) embedding n text = .ok formatted ↔
      ∃ job parsed, prepare language n text = .ok job ∧ p job.text = .ok parsed ∧
        printParsed (parsing p) embedding job parsed 0 = .ok formatted := by
  rw [skips_eq (p := p)] at hskips
  unfold formatText
  simp only [hskips, Bool.false_eq_true, if_false, prepare_parsing, bind_eq_ok_iff]
  refine exists_congr fun job => ?_
  constructor
  · rintro ⟨hjob, parsed, hparsed, answer, hrange, h⟩
    obtain ⟨hstart, hend⟩ := whole_of_prepare hwhole hjob
    rw [formatRange_whole parsed.tree hstart hend] at hrange
    cases hrange
    exact ⟨parsed, hjob, hparsed, h⟩
  · rintro ⟨parsed, hjob, hparsed, h⟩
    obtain ⟨hstart, hend⟩ := whole_of_prepare hwhole hjob
    exact ⟨hjob, parsed, hparsed, none, formatRange_whole parsed.tree hstart hend, h⟩

theorem format_of_valid (hvalid : options.validate = .ok ()) (hjs : IsJavaScript options) :
    (formatterOf p).format text options = (·.formatted) <$>
      formatText (parsing p) ((formatterOf p).embedding ((formatterOf p).nesting text))
        (named options) text := by
  rw [Formatter.format_of_select (select_of_valid hvalid hjs)]
  rfl

theorem valid_of_format (h : (formatterOf p).format text options = .ok s) :
    options.validate = .ok () ∧ IsJavaScript options := by
  cases hrun : (formatterOf p).select options with
  | error e =>
    rw [Formatter.format_of_select_error hrun] at h
    cases h
  | ok r => exact of_select hrun

/-- **Formatting the whole of a text.** It prints the tree of the text, unless the text lacks a mark
that is required. -/
theorem format_eq_ok_iff (hwhole : options.formatsWholeFile = true) :
    (formatterOf p).format text options = .ok s ↔
      options.validate = .ok () ∧ IsJavaScript options ∧
        (skips options text = true ∧ s = text ∨
          ∃ job parsed d st, Prints p (named options) text s job parsed d st) := by
  by_cases hselect : options.validate = .ok () ∧ IsJavaScript options
  · rw [format_of_valid hselect.1 hselect.2, map_eq_ok_iff]
    simp only [hselect, true_and]
    cases hskips : skips options text with
    | true =>
      have hskip : formatText (parsing p)
          ((formatterOf p).embedding ((formatterOf p).nesting text)) (named options) text =
            .ok ⟨text, none⟩ := by
        have hskips : skips (named options) text = true := hskips
        rw [skips_eq (p := p)] at hskips
        rw [formatText, if_pos hskips]
        rfl
      have hno : ¬ ∃ job parsed d st, Prints p (named options) text s job parsed d st :=
        fun ⟨_, _, _, _, hprints⟩ => Bool.noConfusion (hskips.symm.trans hprints.wanted)
      simp [hskip, hno, eq_comm]
    | false =>
      constructor
      · rintro ⟨formatted, hrun, rfl⟩
        obtain ⟨job, parsed, hjob, hparsed, hrun⟩ :=
          (formatText_eq_ok_iff (n := named options) hwhole hskips).mp hrun
        obtain ⟨d, st, hd, hcomplete, rfl⟩ := printParsed_eq_ok_iff.mp hrun
        exact .inr ⟨job, parsed, d, st, hskips, hjob, hparsed, hd, hcomplete, rfl⟩
      · rintro (⟨⟨⟩, -⟩ | ⟨job, parsed, d, st, hprints⟩)
        exact ⟨_, (formatText_eq_ok_iff (n := named options) hwhole hskips).mpr
          ⟨job, parsed, hprints.prepared, hprints.parses, printParsed_eq_ok_iff.mpr
            ⟨d, st, hprints.printed, hprints.complete, rfl⟩⟩, hprints.outcome.symm⟩
  · constructor
    · exact fun h => absurd (valid_of_format h) hselect
    · exact fun h => absurd ⟨h.1, h.2.1⟩ hselect

end CodeFormatter.JavaScript
