import CodeFormatter.Proofs.JavaScript.LayoutOptions
import CodeFormatter.Proofs.JavaScript.Ranges
import CodeFormatter.Proofs.Layout.Alignment
import CodeFormatter.Proofs.Range
import CodeFormatter.Proofs.Text.Blank

/-!
# Ranges of formatted texts

The slice of a range is laid out at its column. The page for it is narrower by this column, and what is
left of a line is counted from the column as well. So the column is taken away twice, and a statement that
fits on its line in the whole text may not fit in a range of it (`not_noop`).

**Theorem (`format_range_eq_self_iff`).** A range of a formatted text is left as it is if and only if its
slice is formatted, as a text of its own on a page that is narrower by twice the column, and with a margin
in front of its lines.
-/

namespace CodeFormatter.JavaScript

open Layout Pipeline Printer CodeFormatter.Tree Walk

variable {p : TextParser} {options n : Options} {text slice s : String} {column : Nat}

/-! ## Embedded code -/

/-- **Embedded code has the same document** however deep it may nest, if it is deep enough for its size. -/
theorem embedding_of_size_lt (hvalid : (Embedded.codeOptions options).validate = .ok ())
    {depth depth' : Nat} {code : String} (hdepth : code.utf8ByteSize < depth)
    (hdepth' : code.utf8ByteSize < depth') (group : GroupId) :
    (formatterOf p).embedding depth code (Embedded.codeOptions options) group =
      (formatterOf p).embedding depth' code (Embedded.codeOptions options) group := by
  induction depth generalizing depth' code group with
  | zero => omega
  | succ depth ih =>
    obtain ⟨depth', rfl⟩ : ∃ k, depth' = k + 1 := ⟨depth' - 1, by omega⟩
    rw [embedding_succ hvalid, embedding_succ hvalid]
    refine bind_congr fun parsed => ?_
    have halike : Alike (codeScene ((formatterOf p).embedding depth) (Embedded.codeOptions options) code)
        (codeScene ((formatterOf p).embedding depth') (Embedded.codeOptions options) code) :=
      ⟨rfl, rfl, rfl, rfl, rfl, rfl, rfl, fun inner hinner group =>
        ih (show inner.utf8ByteSize < depth from lt_of_lt_of_le hinner (Nat.le_of_lt_succ hdepth))
          (lt_of_lt_of_le hinner (Nat.le_of_lt_succ hdepth')) group⟩
    rw [halike.printTree]

/-! ## Documents at a column -/

/-- A document, moved to its column. -/
def movedTo (column tabWidth : Nat) (d : Doc) : Doc :=
  if 0 < column then Doc.alignTo (.concat [Doc.hardline, d]) column tabWidth else d

/-- The document of a tree at a column is its document, moved to the column. -/
theorem printTree_movedTo (scene : Scene) (tree : Node) (column : Nat) :
    printTree language scene tree column =
      movedTo column scene.options.tabWidth <$> printTree language scene tree 0 := by
  simp only [printTree, Nat.lt_irrefl, if_false, map_bind, map_pure]
  refine bind_congr fun d => ?_
  rw [movedTo]
  split
  · rename_i hcolumn
    rw [propagateBreaks_alignTo hcolumn]
  · rfl

/-- Is the text of the document on one line, if it is a text? -/
def isInlineText : Doc → Bool
  | .text s => isInline s
  | _ => true

theorem movable_of_printed {d : Doc} (hprinted : isPrinted d = true) (hinline : isInlineText d = true) :
    Movable d := by
  cases d with
  | text s =>
    intro c hc
    have h := List.all_eq_true.mp hinline c hc
    simp only [Bool.and_eq_true, bne_iff_ne] at h
    simp [isLineEnd, h.1, h.2]
  | line kind =>
    rintro rfl
    cases hprinted
  | align | trim => cases hprinted
  | _ => trivial

theorem isNewline_page (o : Options) (text : String) : IsNewline (o.page text).newline.toList := by
  have hgo : ∀ (bytes : Bytes) afterReturn, Scan.lineEnding.go afterReturn bytes = "\n" ∨
      Scan.lineEnding.go afterReturn bytes = "\r\n" := by
    intro bytes
    induction bytes with
    | nil => exact fun _ => .inl rfl
    | cons b rest ih =>
      intro afterReturn
      rw [Scan.lineEnding.go]
      split
      · cases afterReturn
        · exact .inl rfl
        · exact .inr rfl
      · exact ih _
  have hnewline : (o.page text).newline = "\n" ∨ (o.page text).newline = "\r\n" := by
    unfold Options.page
    dsimp only
    split
    · exact .inl rfl
    · exact .inr rfl
    · exact hgo _ _
  rcases hnewline with h | h <;> rw [h] <;> constructor <;> simp [isLineEnd]

/-! ## Slices -/

/-- What stands in the place of a slice when `s` is its form as a text of its own. At a column other than
zero the lines get a margin, and the blanks around them go. -/
def inPlace (page : Settings) (column : Nat) (s : String) : String :=
  if 0 < column then trim (indented (marginOf page column) s) else trimEnd s

theorem isBlank_of_isLineEnd {c : Char} (h : isLineEnd c = true) : isBlank c = true := by
  rw [isLineEnd, Bool.or_eq_true, beq_iff_eq, beq_iff_eq] at h
  rcases h with rfl | rfl <;> rfl

/-- What lets the slice of a range be formatted like a text of its own: the page has room, its tabs are
whole, and the texts in the document of the slice are on one line. -/
structure Relocates (p : TextParser) (options : Options) (slice : String) (column : Nat) : Prop where
  room : 2 * column < options.printWidth
  tabs : options.useTabs = false ∨ options.tabWidth ∣ column
  unmarked : startsWithMark slice = false
  inline : ∀ s job parsed d st,
    Prints p (named (sliceOptions options (2 * column))) slice s job parsed d st →
      d.all isInlineText = true

theorem validate_sliceOptions (hvalid : options.validate = .ok ()) (h : column < options.printWidth) :
    (sliceOptions options column).validate = .ok () := by
  obtain ⟨-, htab, -⟩ := validate_eq_ok_iff.mp hvalid
  exact validate_eq_ok_iff.mpr ⟨Nat.sub_pos_of_lt h, htab, nofun⟩

/-- A page that is narrower by twice the column is the page of the slice for a narrower text. -/
theorem plainJob_sliceOptions (options : Options) (slice : String) (column : Nat) :
    plainJob (sliceOptions options (2 * column)) slice =
      { plainJob (sliceOptions options column) slice with
        options := relaid (plainJob (sliceOptions options column) slice).options
          (options.printWidth - 2 * column) options.tabWidth options.useTabs } :=
  unmark_relaid (named (sliceOptions options column)) slice

theorem formatSlice_eq_ok_iff {embedding : Embedding} {formatted : Formatted} :
    formatSlice (parsing p) embedding (sliceOptions (named options) column) slice column =
        .ok formatted ↔
      ∃ parsed d st, p (stripMark slice) = .ok parsed ∧
        let job := plainJob (sliceOptions options column) slice
        printTree language (sceneOf embedding job parsed.tree) parsed.tree 0
            ⟨attached language job.text parsed, 0⟩ = .ok (d, st) ∧
          ensureAllPrinted st.comments = .ok () ∧
          formatted = laidOut job parsed.tree column (movedTo column job.options.tabWidth d) := by
  rw [formatSlice_parsing, bind_eq_ok_iff]
  refine exists_congr fun parsed => ?_
  rw [printParsed_parsing, printTree_movedTo]
  constructor
  · rintro ⟨hparse, h⟩
    obtain ⟨⟨e, st⟩, hrun, h⟩ := bind_eq_ok_iff.mp h
    obtain ⟨⟨⟩, hcomplete, h⟩ := bind_eq_ok_iff.mp h
    cases h
    obtain ⟨d, hd, rfl⟩ := Walk.map_eq_ok.mp hrun
    exact ⟨d, st, hparse, hd, hcomplete, rfl⟩
  · rintro ⟨d, st, hparse, hrun, hcomplete, rfl⟩
    exact ⟨hparse, bind_eq_ok_iff.mpr ⟨_, Walk.map_eq_ok.mpr ⟨d, hrun, rfl⟩,
      bind_eq_ok_iff.mpr ⟨(), hcomplete, rfl⟩⟩⟩

theorem plainJob_of_unmarked (h : startsWithMark text = false) (options : Options) :
    plainJob options text = ⟨false, named options, text⟩ := by
  rw [plainJob, unmark, if_neg (by simp [h])]

/-- The newline in front of the first line and the one at the end are blank. -/
theorem trimEnd_trim_append {newline : String} (h : IsNewline newline.toList) (s : String) :
    trimEnd (trim (newline ++ s) ++ newline) = trim s := by
  have hblank : ∀ c ∈ newline.toList, isBlank c = true := fun c hc =>
    isBlank_of_isLineEnd (h.ends c hc)
  have htwice : ∀ cs, trimRight (trimRight cs) = trimRight cs := fun cs =>
    List.rdropWhile_idempotent _ cs
  rw [trimEnd, trim, trim, String.toList_append, String.toList_append, String.toList_ofList,
    trimRight_append_of_blank hblank, trimBoth, trimLeft_append_of_blank hblank, htwice]
  rfl

/-- **A slice at its column** is laid out as a text of its own, on the narrower page, and put in place. -/
theorem trimEnd_laidOut (hvalid : options.validate = .ok ())
    (hcolumn : 0 < column → Relocates p options slice column) {d : Doc}
    (hd : 0 < column → d.Every Movable) (tree : Node) :
    let job := plainJob (sliceOptions options column) slice
    let own := plainJob (sliceOptions options (2 * column)) slice
    trimEnd (laidOut job tree column (movedTo column job.options.tabWidth d)).formatted =
      inPlace (options.page slice) column
        (restoreMark own.marked (Layout.print (own.options.page own.text) d).formatted) := by
  intro job own
  rcases Nat.eq_zero_or_pos column with rfl | hpos
  · rfl
  · obtain ⟨hroom, htabs, hmark, -⟩ := hcolumn hpos
    have hjob : job = ⟨false, named (sliceOptions options column), slice⟩ :=
      plainJob_of_unmarked hmark _
    have hown : own = ⟨false, named (sliceOptions options (2 * column)), slice⟩ :=
      plainJob_of_unmarked hmark _
    rw [hjob, hown]
    set page := (named (sliceOptions options (2 * column))).page slice with hpage
    have hwide : (named (sliceOptions options column)).page slice = page.widened column := by
      have hwidth : options.printWidth - column = options.printWidth - 2 * column + column := by omega
      simp only [hpage, Options.page, Settings.widened, sliceOptions, named, ← hwidth]
    have htabWidth : 0 < page.tabWidth := (validate_eq_ok_iff.mp hvalid).2.1
    have hformatted := formatted_alignTo (hd hpos) hpos htabWidth htabs (isNewline_page _ _)
    simp only [laidOut, inPlace, movedTo, if_pos hpos, hwide, restoreMark, Bool.false_eq_true, if_false]
    rw [show (named (sliceOptions options column)).tabWidth = page.tabWidth from rfl, hformatted]
    exact trimEnd_trim_append (isNewline_page _ _) _

theorem cursorTarget_sliceOptions (options : Options) (slice : String) (k : Nat) (tree : Node) :
    cursorTarget (plainJob (sliceOptions options k) slice).options tree = none := by
  rw [plainJob, unmark]
  split <;> rfl

/-- The document of a slice can be moved. -/
theorem Relocates.movable (h : Relocates p options slice column) {job : Job} {parsed : Parsed Info}
    {d : Doc} {st : WalkState}
    (hprints : Prints p (named (sliceOptions options (2 * column))) slice s job parsed d st) :
    d.Every Movable := by
  obtain rfl : job = plainJob (sliceOptions options (2 * column)) slice :=
    (Except.ok.inj ((prepare_of_no_pragma rfl).symm.trans hprints.prepared)).symm
  have hheritage : Heritage (attached language (plainJob (sliceOptions options (2 * column)) slice).text
      parsed) (fun _ => True) (fun _ => True) Printed (sceneOf ((formatterOf p).embedding
        ((formatterOf p).nesting slice)) (plainJob (sliceOptions options (2 * column)) slice)
        parsed.tree) parsed.tree := by
    refine heritage_of_closed closed_printed (fun code group => ?_) fun t _ hid => ?_
    · exact (printed_embedding _ code _ group).mono (fun _ => id) fun r hr =>
        hr.stripTrailingHardline fun _ => rfl
    · rw [sceneOf, cursorTarget_sliceOptions] at hid
      cases hid
  obtain ⟨-, e, he, rfl⟩ := (hheritage.printTree 0).gives _ _ _ rfl hprints.printed
  rw [if_neg (Nat.lt_irrefl 0)] at hprints ⊢
  have hinline := Doc.every_of_all (h.inline _ _ _ _ _ hprints)
  exact (he.propagateBreaks.and hinline).mono fun d hd => movable_of_printed hd.1 hd.2

theorem size_stripMark_le (text : String) : (stripMark text).utf8ByteSize ≤ text.utf8ByteSize := by
  rw [← byteLength_toList, ← byteLength_toList]
  rcases toList_stripMark_or text with h | h
  · rw [h]
  · rw [h]
    simp

theorem size_le_nesting (text : String) : (stripMark text).utf8ByteSize ≤ (formatterOf p).nesting text :=
  Nat.le_add_left _ _

/-- What the printers can read of a slice is the same at its column and as a text of its own. -/
theorem alike_slice (hvalid : options.validate = .ok ()) (hroom : 2 * column < options.printWidth)
    {depth : Nat} (hdepth : slice.utf8ByteSize ≤ depth) (tree : Node) :
    Alike (sceneOf ((formatterOf p).embedding depth) (plainJob (sliceOptions options column) slice) tree)
      (sceneOf ((formatterOf p).embedding ((formatterOf p).nesting slice))
        (plainJob (sliceOptions options (2 * column)) slice) tree) := by
  have hvalidCode : ∀ k < options.printWidth,
      (Embedded.codeOptions (plainJob (sliceOptions options k) slice).options).validate = .ok () := by
    intro k hk
    rw [codeOptions_unmark]
    exact validate_codeOptions (validate_sliceOptions hvalid hk)
  have hvalid₁ := hvalidCode column (by omega)
  have hvalid₂ := hvalidCode (2 * column) hroom
  have hsize : (plainJob (sliceOptions options column) slice).text.utf8ByteSize =
      (stripMark slice).utf8ByteSize := by
    rw [unmark_text]
  rw [plainJob_sliceOptions] at hvalid₂ ⊢
  refine ⟨rfl, rfl, rfl, rfl, rfl, rfl, rfl, fun code hlt group => ?_⟩
  refine (embedding_of_size_lt hvalid₁ ?_ ?_ group).trans (embedding_relaid hvalid₁ hvalid₂ _ code group)
  · exact lt_of_lt_of_le hlt (hsize.trans_le ((size_stripMark_le slice).trans hdepth))
  · exact lt_of_lt_of_le hlt (hsize.trans_le (size_le_nesting slice))

/-- **A slice is formatted** at its column if it is as a text of its own, on the narrower page. -/
theorem exists_formatSlice_iff (hvalid : options.validate = .ok ()) (hjs : IsJavaScript options)
    (hcolumn : 0 < column → Relocates p options slice column) {depth : Nat}
    (hdepth : slice.utf8ByteSize ≤ depth) {placed : String} :
    (∃ formatted, formatSlice (parsing p) ((formatterOf p).embedding depth)
        (sliceOptions (named options) column) slice column = .ok formatted ∧
          trimEnd formatted.formatted = placed) ↔
      ∃ s, (formatterOf p).format slice (sliceOptions options (2 * column)) = .ok s ∧
        inPlace (options.page slice) column s = placed := by
  have hroom : 2 * column < options.printWidth := by
    rcases Nat.eq_zero_or_pos column with rfl | hpos
    · exact (validate_eq_ok_iff.mp hvalid).1
    · exact (hcolumn hpos).room
  have halike := fun tree => (alike_slice (p := p) hvalid hroom hdepth tree).printTree tree
  have htext : (plainJob (sliceOptions options column) slice).text =
      (plainJob (sliceOptions options (2 * column)) slice).text := by
    rw [unmark_text, unmark_text]
  have hwhole : (sliceOptions options (2 * column)).formatsWholeFile = true := rfl
  constructor
  · rintro ⟨formatted, hslice, rfl⟩
    obtain ⟨parsed, d, st, hparse, hrun, hcomplete, rfl⟩ := formatSlice_eq_ok_iff.mp hslice
    rw [halike, htext] at hrun
    have hprints : Prints p (named (sliceOptions options (2 * column))) slice _
        (plainJob (sliceOptions options (2 * column)) slice) parsed d st :=
      ⟨rfl, prepare_of_no_pragma rfl, by rw [unmark_text]; exact hparse, hrun, hcomplete, rfl⟩
    refine ⟨_, (format_eq_ok_iff hwhole).mpr ⟨validate_sliceOptions hvalid hroom, hjs,
      .inr ⟨_, parsed, d, st, hprints⟩⟩, ?_⟩
    exact (trimEnd_laidOut hvalid hcolumn (fun hpos => (hcolumn hpos).movable hprints) _).symm
  · rintro ⟨s, hformat, rfl⟩
    obtain ⟨-, -, ⟨hskips, -⟩ | ⟨job, parsed, d, st, hprints⟩⟩ := (format_eq_ok_iff hwhole).mp hformat
    · cases hskips
    obtain rfl : job = plainJob (sliceOptions options (2 * column)) slice :=
      (Except.ok.inj ((prepare_of_no_pragma rfl).symm.trans hprints.prepared)).symm
    have hparse := hprints.parses
    rw [unmark_text] at hparse
    have hrun := hprints.printed
    rw [← halike, ← htext] at hrun
    refine ⟨_, formatSlice_eq_ok_iff.mpr ⟨parsed, d, st, hparse, hrun, hprints.complete, rfl⟩, ?_⟩
    rw [hprints.outcome]
    exact trimEnd_laidOut hvalid hcolumn (fun hpos => (hcolumn hpos).movable hprints) _

/-! ## Ranges -/

/-- The same options, for the whole of a text. -/
def wholeOf (options : Options) : Options := { options with rangeStart := 0, rangeEnd := none }

/-- The range of the options is widened to whole nodes, from `start` to `stop`. -/
structure Resolves (p : TextParser) (options : Options) (text : String) (start stop : Nat) : Prop where
  part : asksForAll (plainJob options text) = false
  widens : ∃ parsed, p (stripMark text) = .ok parsed ∧
    widened parsed.tree (plainJob options text) = some (start, stop)

theorem Resolves.widened_eq {start stop : Nat} {parsed : Parsed Info}
    (h : Resolves p options text start stop) (hparse : p (stripMark text) = .ok parsed) :
    widened parsed.tree (plainJob options text) = some (start, stop) := by
  obtain ⟨parsed', hparse', hwidened⟩ := h.widens
  rw [hparse] at hparse'
  cases hparse'
  exact hwidened

/-- A slice of a text, and what stands around it. -/
structure Parts (text : String) (start stop : Nat) (before slice after : String) : Prop where
  before : slice? text 0 start = some before
  slice : slice? text start stop = some slice
  after : slice? text stop text.utf8ByteSize = some after

theorem Parts.eq_append {start stop : Nat} {before after : String}
    (h : Parts text start stop before slice after) : text = before ++ slice ++ after := by
  have hlies := ((slice?_eq_some_iff.mp h.before).append (slice?_eq_some_iff.mp h.slice)).append
    (slice?_eq_some_iff.mp h.after)
  rw [← byteLength_toList] at hlies
  refine String.toList_inj.mp ?_
  rw [(Lies.whole text.toList).eq hlies, String.toList_append, String.toList_append]

theorem Parts.size_le {start stop : Nat} {before after : String}
    (h : Parts text start stop before slice after) : slice.utf8ByteSize ≤ text.utf8ByteSize := by
  rw [h.eq_append, String.utf8ByteSize_append, String.utf8ByteSize_append]
  omega

/-- A slice that is put back into the text makes the same text if it is the same. -/
theorem spliced_eq_iff {before after formatted : String} :
    spliced before formatted after = before ++ slice ++ after ↔ trimEnd formatted = slice := by
  rw [spliced, ← String.toList_inj, ← String.toList_inj]
  simp only [String.toList_append, List.append_cancel_right_eq, List.append_cancel_left_eq]

theorem restoreMark_unmark (n : Options) (text : String) :
    restoreMark (unmark n text).marked (stripMark text) = text := by
  unfold unmark restoreMark
  split
  · rename_i hmark
    rw [if_pos rfl, stripMark, if_pos hmark, String.toList_ofList]
    rw [startsWithMark, beq_iff_eq] at hmark
    refine String.toList_inj.mp ?_
    rw [String.toList_ofList, List.cons_head?_tail (by rw [hmark]; rfl)]
  · rename_i hmark
    rw [if_neg Bool.false_ne_true, stripMark, if_neg hmark]

theorem restoreMark_inj {marked : Bool} {s s' : String} (h : restoreMark marked s = restoreMark marked s') :
    s = s' := by
  cases marked with
  | false => exact h
  | true =>
    have hchars := congrArg String.toList h
    simp only [restoreMark, if_true, String.toList_ofList, List.cons.injEq, true_and] at hchars
    exact String.toList_inj.mp hchars

/-- The range of the options does not matter when all of the text is printed. -/
theorem printParsed_wholeOf (embedding : Embedding) (job : Job) (parsed : Parsed Info) :
    printParsed (parsing p) embedding { job with options := wholeOf job.options } parsed 0 =
      printParsed (parsing p) embedding job parsed 0 := by
  have halike : Alike (sceneOf embedding { job with options := wholeOf job.options } parsed.tree)
      (sceneOf embedding job parsed.tree) := ⟨rfl, rfl, rfl, rfl, rfl, rfl, rfl, fun _ _ _ => rfl⟩
  rw [printParsed_parsing, printParsed_parsing, halike.printTree]
  rfl

theorem plainJob_wholeOf (options : Options) (text : String) :
    plainJob (wholeOf options) text =
      { plainJob options text with options := wholeOf (plainJob options text).options } := by
  unfold plainJob unmark
  split <;> rfl

theorem validate_wholeOf (hvalid : options.validate = .ok ()) :
    (wholeOf options).validate = .ok () := by
  obtain ⟨hwidth, htab, -⟩ := validate_eq_ok_iff.mp hvalid
  exact validate_eq_ok_iff.mpr ⟨hwidth, htab, nofun⟩

section Ranges

variable (hvalid : options.validate = .ok ()) (hjs : IsJavaScript options)
  (hrequire : options.requirePragma = false) (hinsert : options.insertPragma = false)

include hvalid hjs hrequire hinsert

/-- A text is parsed, and a range of it is formatted, or the whole of it. -/
theorem format_of_no_pragma :
    let embedding := (formatterOf p).embedding ((formatterOf p).nesting text)
    let job := plainJob options text
    (formatterOf p).format text options =
      p (stripMark text) >>= fun parsed =>
      formatRange (parsing p) embedding job parsed.tree >>= fun answer =>
        match answer with
        | some s => .ok (restoreMark job.marked s)
        | none => (·.formatted) <$> printParsed (parsing p) embedding job parsed 0 := by
  intro embedding job
  have hprepare : prepare (parsing p) (named options) text = .ok job := by
    rw [prepare_parsing]
    exact prepare_of_no_pragma hinsert
  have hwanted : ((named options).requirePragma && !(parsing p).hasPragma (stripMark text)) = false :=
    Bool.and_eq_false_iff.mpr (.inl hrequire)
  have hjob : formatText (parsing p) embedding (named options) text =
      p job.text >>= fun parsed =>
      formatRange (parsing p) embedding job parsed.tree >>= fun answer =>
        match answer with
        | some s => .ok ⟨restoreMark job.marked s, none⟩
        | none => printParsed (parsing p) embedding job parsed 0 := by
    rw [formatText, hprepare, hwanted, if_neg Bool.false_ne_true]
    rfl
  rw [format_of_valid hvalid hjs, hjob, ← unmark_text (named options), map_bind]
  refine bind_congr fun parsed => ?_
  rw [map_bind]
  refine bind_congr fun answer => ?_
  cases answer <;> rfl

/-- A range that is the whole text. -/
theorem format_of_asksForAll (hall : asksForAll (plainJob options text) = true) :
    (formatterOf p).format text options = (formatterOf p).format text (wholeOf options) := by
  have hall' : asksForAll (plainJob (wholeOf options) text) = true := by
    rw [plainJob_wholeOf]
    simp [asksForAll, rangeEnd, wholeOf]
  rw [format_of_no_pragma hvalid hjs hrequire hinsert,
    format_of_no_pragma (validate_wholeOf hvalid) hjs hrequire hinsert]
  refine bind_congr fun parsed => ?_
  rw [formatRange_of_all hall, formatRange_of_all hall', plainJob_wholeOf]
  exact congrArg (Formatted.formatted <$> ·) (printParsed_wholeOf _ _ _).symm

/-- A text stays as it is where nothing is to be formatted. -/
theorem format_of_widened_none {parsed : Parsed Info} (hparse : p (stripMark text) = .ok parsed)
    (hall : asksForAll (plainJob options text) = false)
    (hwidened : widened parsed.tree (plainJob options text) = none) :
    (formatterOf p).format text options = .ok text := by
  rw [format_of_no_pragma hvalid hjs hrequire hinsert, hparse]
  change (formatRange _ _ _ parsed.tree >>= _) = _
  rw [formatRange_of_none hall hwidened]
  change Except.ok (restoreMark _ _) = _
  rw [unmark_text, restoreMark_unmark]

/-- A text stays as it is if its slice does. -/
theorem format_eq_self_iff_of_widened {parsed : Parsed Info} {start stop : Nat}
    (hparse : p (stripMark text) = .ok parsed)
    (hall : asksForAll (plainJob options text) = false)
    (hwidened : widened parsed.tree (plainJob options text) = some (start, stop)) :
    (formatterOf p).format text options = .ok text ↔
      ∃ before slice after, Parts (stripMark text) start stop before slice after ∧
        ∃ formatted, formatSlice (parsing p) ((formatterOf p).embedding ((formatterOf p).nesting text))
            (sliceOptions (named options) (columnAfter options.tabWidth before)) slice
            (columnAfter options.tabWidth before) = .ok formatted ∧
          trimEnd formatted.formatted = slice := by
  have hoptions := sliceOptions_unmark (named options) text
  have htab : (plainJob options text).options.tabWidth = options.tabWidth :=
    (congrArg Options.tabWidth (hoptions 0) :)
  rw [format_of_no_pragma hvalid hjs hrequire hinsert, hparse]
  change (formatRange _ _ _ parsed.tree >>= _) = _ ↔ _
  rw [formatRange_of_some hall hwidened, htab, unmark_text]
  constructor
  · intro h
    obtain ⟨answer, hrange, h⟩ := bind_eq_ok_iff.mp h
    obtain ⟨before, hbefore, hrange⟩ := bind_eq_ok_iff.mp hrange
    obtain ⟨slice, hslice, hrange⟩ := bind_eq_ok_iff.mp hrange
    obtain ⟨formatted, hformatted, hrange⟩ := bind_eq_ok_iff.mp hrange
    obtain ⟨after, hafter, hrange⟩ := bind_eq_ok_iff.mp hrange
    cases hrange
    have hparts : Parts (stripMark text) start stop before slice after :=
      ⟨sliceOrError_eq_ok_iff.mp hbefore, sliceOrError_eq_ok_iff.mp hslice,
        sliceOrError_eq_ok_iff.mp hafter⟩
    refine ⟨before, slice, after, hparts, formatted, hoptions _ ▸ hformatted, ?_⟩
    have hsame : spliced before formatted.formatted after = stripMark text :=
      restoreMark_inj ((Except.ok.inj h).trans (restoreMark_unmark (named options) text).symm)
    rw [hparts.eq_append] at hsame
    exact spliced_eq_iff.mp hsame
  · rintro ⟨before, slice, after, hparts, formatted, hformatted, hplaced⟩
    have hsame : spliced before formatted.formatted after = stripMark text := by
      rw [spliced_eq_iff.mpr hplaced, ← hparts.eq_append]
    refine bind_eq_ok_iff.mpr ⟨some (stripMark text), ?_, congrArg Except.ok (restoreMark_unmark _ _)⟩
    refine bind_eq_ok_iff.mpr ⟨before, sliceOrError_eq_ok_iff.mpr hparts.before, ?_⟩
    refine bind_eq_ok_iff.mpr ⟨slice, sliceOrError_eq_ok_iff.mpr hparts.slice, ?_⟩
    refine bind_eq_ok_iff.mpr ⟨formatted, (hoptions _).symm ▸ hformatted, ?_⟩
    refine bind_eq_ok_iff.mpr ⟨after, sliceOrError_eq_ok_iff.mpr hparts.after, ?_⟩
    rw [hsame]
    rfl

end Ranges

/-- **A range of a formatted text stays as it is if and only if its slice does.** The slice is formatted as
a text of its own, on a page that is narrower by *twice* the column where it starts, and put in place. -/
theorem format_range_eq_self_iff (hvalid : options.validate = .ok ()) (hjs : IsJavaScript options)
    (hrequire : options.requirePragma = false) (hinsert : options.insertPragma = false)
    (hformatted : (formatterOf p).format text (wholeOf options) = .ok text)
    (hslices : ∀ start stop before slice after, Resolves p options text start stop →
      Parts (stripMark text) start stop before slice after →
      0 < columnAfter options.tabWidth before →
        Relocates p options slice (columnAfter options.tabWidth before)) :
    (formatterOf p).format text options = .ok text ↔
      ∀ start stop, Resolves p options text start stop →
        ∃ before slice after, Parts (stripMark text) start stop before slice after ∧
          let column := columnAfter options.tabWidth before
          ∃ s, (formatterOf p).format slice (sliceOptions options (2 * column)) = .ok s ∧
            inPlace (options.page slice) column s = slice := by
  have hwhole := hformatted
  rw [format_of_no_pragma (validate_wholeOf hvalid) hjs hrequire hinsert] at hwhole
  obtain ⟨parsed, hparse, -⟩ := bind_eq_ok_iff.mp hwhole
  cases hall : asksForAll (plainJob options text) with
  | true =>
    rw [format_of_asksForAll hvalid hjs hrequire hinsert hall]
    refine iff_of_true hformatted fun start stop hresolves => ?_
    exact absurd (hall.symm.trans hresolves.part) Bool.noConfusion
  | false =>
    cases hwidened : widened parsed.tree (plainJob options text) with
    | none =>
      refine iff_of_true (format_of_widened_none hvalid hjs hrequire hinsert hparse hall hwidened) ?_
      intro start stop hresolves
      exact absurd (hwidened.symm.trans (hresolves.widened_eq hparse)) nofun
    | some range =>
      obtain ⟨start, stop⟩ := range
      have hresolves : Resolves p options text start stop := ⟨hall, parsed, hparse, hwidened⟩
      have hsize : ∀ {before slice after}, Parts (stripMark text) start stop before slice after →
          slice.utf8ByteSize ≤ (formatterOf p).nesting text := fun hparts =>
        hparts.size_le.trans (size_le_nesting text)
      rw [format_eq_self_iff_of_widened hvalid hjs hrequire hinsert hparse hall hwidened]
      constructor
      · rintro ⟨before, slice, after, hparts, h⟩ a b hab
        cases hwidened.symm.trans (hab.widened_eq hparse)
        exact ⟨before, slice, after, hparts, (exists_formatSlice_iff hvalid hjs
          (hslices start stop before slice after hresolves hparts) (hsize hparts)).mp h⟩
      · intro h
        obtain ⟨before, slice, after, hparts, h⟩ := h start stop hresolves
        exact ⟨before, slice, after, hparts, (exists_formatSlice_iff hvalid hjs
          (hslices start stop before slice after hresolves hparts) (hsize hparts)).mpr h⟩

/-! ## A statement in a block -/

/-- The options for a range that starts in the first statement of a block. -/
def inBlock : Options := { parser := some "javascript", rangeStart := 4, rangeEnd := some 5 }

theorem relocates_statement : Relocates parse inBlock "a;" 2 := by
  refine ⟨by decide, .inl rfl, by decide, fun s job parsed d st h => ?_⟩
  obtain rfl : job = plainJob (sliceOptions inBlock 4) "a;" :=
    (Except.ok.inj ((prepare_of_no_pragma rfl).symm.trans h.prepared)).symm
  have hall : (do
      let parsed ← parse "a;"
      let r ← printTree language
        (sceneOf ((formatterOf parse).embedding ((formatterOf parse).nesting "a;"))
          (plainJob (sliceOptions inBlock 4) "a;") parsed.tree) parsed.tree 0
        ⟨attached language "a;" parsed, 0⟩
      return r.1.all isInlineText) = .ok true := by
    decide +kernel
  have hparse : parse "a;" = .ok parsed := h.parses
  have hrun := h.printed
  obtain ⟨parsed', hparse', hall⟩ := bind_eq_ok_iff.mp hall
  cases hparse.symm.trans hparse'
  obtain ⟨r, hrun', hall⟩ := bind_eq_ok_iff.mp hall
  cases hrun.symm.trans hrun'
  exact Except.ok.inj hall

theorem format_range_block :
    (formatterOf parse).format "\x7b\n  a;\n\x7d\n" (wholeOf inBlock) =
        .ok "\x7b\n  a;\n\x7d\n" ∧
      (formatterOf parse).format "\x7b\n  a;\n\x7d\n" inBlock = .ok "\x7b\n  a;\n\x7d\n" := by
  have hformatted : (formatterOf parse).format "\x7b\n  a;\n\x7d\n" (wholeOf inBlock) =
      .ok "\x7b\n  a;\n\x7d\n" := by
    decide +kernel
  have hwidened : (parse (stripMark "\x7b\n  a;\n\x7d\n")).toOption.bind (fun parsed =>
      widened parsed.tree (plainJob inBlock "\x7b\n  a;\n\x7d\n")) = some (4, 6) := by
    decide +kernel
  have hresolves : ∀ start stop, Resolves parse inBlock "\x7b\n  a;\n\x7d\n" start stop →
      (start, stop) = (4, 6) := by
    rintro start stop ⟨-, parsed, hparse, h⟩
    rw [hparse] at hwidened
    exact Option.some.inj (h.symm.trans hwidened)
  have hparts : Parts (stripMark "\x7b\n  a;\n\x7d\n") 4 6 "\x7b\n  " "a;" "\n\x7d\n" :=
    ⟨by decide +kernel, by decide +kernel, by decide +kernel⟩
  have hjs : IsJavaScript inBlock := rfl
  refine ⟨hformatted, (format_range_eq_self_iff rfl hjs rfl rfl hformatted ?_).mpr ?_⟩
  · intro start stop before slice after h hparts' _
    cases hresolves start stop h
    cases hparts.before.symm.trans hparts'.before
    cases hparts.slice.symm.trans hparts'.slice
    exact relocates_statement
  · intro start stop h
    cases hresolves start stop h
    exact ⟨_, _, _, hparts, "a;\n", by decide +kernel, by decide +kernel⟩

/-- A statement that fits on its line is broken when the range is in it. -/
theorem not_noop :
    ¬ ∀ (text : String) (options : Options), options.validate = .ok () → IsJavaScript options →
      options.requirePragma = false → options.insertPragma = false →
      formatter.format text (wholeOf options) = .ok text → formatter.format text options = .ok text := by
  intro h
  have hrange : formatter.format "\x7b\n  a + b;\n\x7d\n" { inBlock with printWidth := 8 } =
      .ok "\x7b\n  a +\n    b;\n\x7d\n" := by
    decide +kernel
  have hsame := h "\x7b\n  a + b;\n\x7d\n" { inBlock with printWidth := 8 } rfl rfl rfl rfl
    (by decide +kernel)
  exact absurd (hrange.symm.trans hsame) (by decide)

end CodeFormatter.JavaScript
