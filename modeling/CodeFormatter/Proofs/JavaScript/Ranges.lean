import CodeFormatter.Proofs.JavaScript.AnyParser
import CodeFormatter.Proofs.JavaScript.Inherited
import CodeFormatter.Proofs.Text.Slice

/-!
# Formatting a range

What happens to a range of a text, step by step and for any parser. The range is widened to whole nodes
(`widened`), and the text of these nodes, the *slice*, is formatted on its own. It is printed as if it
stood at the column where it starts, and goes back to its place without the blanks at its end.

**Theorem (`yields_format`).** What comes out is the text as it is, the text with the slice in its new
form, or the whole text in its new form.
-/

namespace CodeFormatter.JavaScript

open Pipeline Walk

variable {p : TextParser} {embedding : Embedding} {job : Job} {parsed : Parsed Info} {tree : Node}
  {options n : Options} {text : String}

/-! ## Embedded code -/

/-- What the document of a tree inherits, the document of code does, however deep code nests in it. -/
theorem yields_embedding (Own Good : String → Prop) {Q : Doc → Prop}
    (hmarked : ∀ d, Q d → Q d.propagateBreaks)
    (hheritage : ∀ (embedding : Embedding) (o : Options) (code : String) (parsed : Parsed Info),
      Good code → p code = .ok parsed →
      (∀ code, Good code → ∀ o group, Yields (fun _ => True) (fun r => Q r.1)
        (embedding code (Embedded.codeOptions o) group)) →
      Printer.Heritage (attached language code parsed) (fun _ => True) Own Q
        (codeScene embedding o code) parsed.tree)
    (depth : Nat) {code : String} (hcode : Good code) (o : Options) (group : GroupId) :
    Yields (fun _ => True) (fun r => Q r.1)
      ((formatterOf p).embedding depth code (Embedded.codeOptions o) group) := by
  induction depth generalizing code o group with
  | zero => exact trivial
  | succ depth ih =>
    cases hrun : (formatterOf p).embedding (depth + 1) code (Embedded.codeOptions o) group with
    | error e => exact trivial
    | ok r =>
      rw [embedding_succ (validate_of_embedding hrun)] at hrun
      obtain ⟨parsed, hparse, hrun⟩ := bind_eq_ok_iff.mp hrun
      obtain ⟨⟨d, st⟩, hprint, hrun⟩ := bind_eq_ok_iff.mp hrun
      obtain ⟨_, -, hrun⟩ := bind_eq_ok_iff.mp hrun
      cases hrun
      have h := hheritage ((formatterOf p).embedding depth) (Embedded.codeOptions o) code parsed hcode
        hparse fun code hcode o group => ih hcode o group
      obtain ⟨-, e, he, rfl⟩ := (h.printTree 0).gives _ _ _ rfl hprint
      exact hmarked e he

/-- The document of code is of the kinds that printers make. -/
theorem printed_embedding (depth : Nat) (code : String) (o : Options) (group : GroupId) :
    Yields (fun _ => True) (fun r => Printer.Printed r.1)
      ((formatterOf p).embedding depth code (Embedded.codeOptions o) group) := by
  refine yields_embedding (fun _ => True) (fun _ => True)
    (fun _ hd => hd.propagateBreaks) ?_ depth trivial o group
  intro embedding o code parsed _ _ hembedded
  refine Printer.heritage_of_closed Printer.closed_printed (fun code group => ?_) nofun
  exact (hembedded code trivial o group).mono (fun _ => id) fun r hr =>
    hr.stripTrailingHardline fun _ => rfl

/-! ## The parts of a text -/

/-- The job of a text that no pragma is put into. -/
abbrev plainJob (options : Options) (text : String) : Job := unmark (named options) text

/-- Where the range ends that is asked for: in the text. -/
def rangeEnd (job : Job) : Nat := min (job.options.rangeEnd.getD job.text.utf8ByteSize)
  job.text.utf8ByteSize

/-- Is the whole text asked for? -/
def asksForAll (job : Job) : Bool :=
  job.options.rangeStart = 0 && rangeEnd job = job.text.utf8ByteSize

/-- The range of whole nodes that is formatted; nothing when an end lies outside of all statements. -/
def widened (tree : Node) (job : Job) : Option (Nat × Nat) :=
  Range.widen? isSourceElement tree job.text job.options.rangeStart (rangeEnd job)

/-- The column after a text. -/
def columnAfter (tabWidth : Nat) (before : String) : Nat :=
  Scan.columnAfter tabWidth (before.toList.reverse.takeWhile (· != '\n')).reverse

/-- A text with a slice that has been formatted. -/
def spliced (before formatted after : String) : String := before ++ trimEnd formatted ++ after

theorem isSourceElement_parsing : (parsing p).isSourceElement = isSourceElement := by
  rw [parsing]
  rfl

/-- A byte-order mark that is set aside does not matter for a slice. -/
theorem sliceOptions_unmark (n : Options) (text : String) (column : Nat) :
    sliceOptions (unmark n text).options column = sliceOptions n column := by
  rw [unmark]
  split <;> rfl

theorem formatRange_of_all (h : asksForAll job = true) :
    formatRange (parsing p) embedding job tree = .ok none := by
  rw [asksForAll, rangeEnd] at h
  unfold formatRange
  rw [if_pos h]
  rfl

theorem formatRange_of_none (hall : asksForAll job = false) (h : widened tree job = none) :
    formatRange (parsing p) embedding job tree = .ok (some job.text) := by
  rw [asksForAll, rangeEnd] at hall
  rw [widened, rangeEnd] at h
  unfold formatRange
  rw [if_neg (Bool.eq_false_iff.mp hall)]
  simp only [isSourceElement_parsing, h]
  rfl

theorem formatRange_of_some {start stop : Nat} (hall : asksForAll job = false)
    (h : widened tree job = some (start, stop)) :
    formatRange (parsing p) embedding job tree = do
      let before ← sliceOrError job.text 0 start
      let column := columnAfter job.options.tabWidth before
      let slice ← sliceOrError job.text start stop
      let formatted ← formatSlice (parsing p) embedding (sliceOptions job.options column) slice column
      let after ← sliceOrError job.text stop job.text.utf8ByteSize
      return some (spliced before formatted.formatted after) := by
  rw [asksForAll, rangeEnd] at hall
  rw [widened, rangeEnd] at h
  unfold formatRange
  rw [if_neg (Bool.eq_false_iff.mp hall)]
  simp only [isSourceElement_parsing, h]
  rfl

/-! ## Printing -/

/-- What is made of the document of a parsed text. At a column other than zero the outcome has no
blanks around it, but a newline at its end. -/
def laidOut (job : Job) (tree : Node) (alignment : Nat) (d : Doc) : Formatted :=
  let page := job.options.page job.text
  let printed := Layout.print page d
  if 0 < alignment then
    { formatted := trim printed.formatted ++ page.newline, cursorOffset := none }
  else
    { formatted := restoreMark job.marked printed.formatted
      cursorOffset := (mapCursor (cursorTarget job.options tree) printed).map fun c =>
        if job.marked then c + 3 else c }

theorem printParsed_parsing (alignment : Nat) :
    printParsed (parsing p) embedding job parsed alignment = do
      let (d, st) ← printTree language (sceneOf embedding job parsed.tree) parsed.tree alignment
        ⟨attached language job.text parsed, 0⟩
      ensureAllPrinted st.comments
      return laidOut job parsed.tree alignment d := by
  rw [← printTree_parsing (p := p), ← attached_parsing (p := p)]
  unfold printParsed laidOut
  dsimp only
  split <;> rfl

/-- The document of a tree as it is laid out: at column `alignment`. -/
def atColumn (alignment tabWidth : Nat) (e : Doc) : Doc :=
  (if 0 < alignment then Doc.alignTo (.concat [Doc.hardline, e]) alignment tabWidth
    else e).propagateBreaks

section Results

variable {E : Error → Prop} {Own : String → Prop} {Q : Doc → Prop} {R : String → Prop}

/-- A parsed text is printed, as the document of its tree, or an error comes up. -/
theorem yields_printParsed (hcomment : ∀ s, E (.commentNotPrinted s))
    (h : Printer.Heritage (attached language job.text parsed) E Own Q
      (sceneOf embedding job parsed.tree) parsed.tree) (alignment : Nat) :
    Yields E (fun formatted => ∃ e, Q e ∧ formatted =
        laidOut job parsed.tree alignment (atColumn alignment job.options.tabWidth e))
      (printParsed (parsing p) embedding job parsed alignment) := by
  rw [printParsed_parsing]
  have hprint := h.printTree alignment ⟨attached language job.text parsed, 0⟩ rfl
  refine hprint.bind fun r hr => ?_
  obtain ⟨d, st⟩ := r
  obtain ⟨-, e, he, rfl⟩ := hr
  refine Yields.bind (Q := fun _ => True) ?_ fun _ _ => ⟨e, he, rfl⟩
  unfold ensureAllPrinted
  split
  · exact hcomment _
  · trivial

theorem formatSlice_parsing (options : Options) (column alignment : Nat) (slice : String) :
    formatSlice (parsing p) embedding (sliceOptions options column) slice alignment =
      p (stripMark slice) >>= fun parsed => printParsed (parsing p) embedding
        (unmark (sliceOptions options column) slice) parsed alignment := by
  have hprepare : prepare (parsing p) (sliceOptions options column) slice =
      .ok (unmark (sliceOptions options column) slice) := by
    rw [prepare_parsing]
    exact prepare_of_no_pragma rfl
  rw [formatSlice, hprepare, ← unmark_text (sliceOptions options column) slice]
  rfl

theorem yields_formatRange (hspan : E .invalidSpan)
    (hnone : asksForAll job = false → widened tree job = none → R job.text)
    (hsome : ∀ start stop, asksForAll job = false → widened tree job = some (start, stop) →
      ∀ before, sliceOrError job.text 0 start = .ok before →
      ∀ slice, sliceOrError job.text start stop = .ok slice →
      let column := columnAfter job.options.tabWidth before
      Yields E
        (fun formatted => ∀ after, sliceOrError job.text stop job.text.utf8ByteSize = .ok after →
          R (spliced before formatted.formatted after))
        (formatSlice (parsing p) embedding (sliceOptions job.options column) slice column)) :
    Yields E (fun answer => ∀ s ∈ answer, R s) (formatRange (parsing p) embedding job tree) := by
  cases hall : asksForAll job with
  | true =>
    rw [formatRange_of_all hall]
    exact fun s hs => nomatch hs
  | false =>
    cases hwidened : widened tree job with
    | none =>
      rw [formatRange_of_none hall hwidened]
      rintro s ⟨⟩
      exact hnone hall hwidened
    | some range =>
      obtain ⟨start, stop⟩ := range
      rw [formatRange_of_some hall hwidened]
      refine (yields_sliceOrError hspan _ _ _).bind fun before hbefore => ?_
      refine (yields_sliceOrError hspan _ _ _).bind fun slice hslice => ?_
      refine (hsome start stop hall hwidened before hbefore slice hslice).bind fun formatted hR => ?_
      refine (yields_sliceOrError hspan _ _ _).bind fun after hafter => ?_
      rintro s ⟨⟩
      exact hR after hafter

/-- **Formatting a text.** It is left as it is if it lacks a mark that is required. Otherwise a range of
it is put into a new form, or the whole of it. -/
theorem yields_format (hvalid : options.validate = .ok ()) (hjs : IsJavaScript options)
    (hskip : skips options text = true → R text)
    (hformat : skips options text = false →
      let embedding := (formatterOf p).embedding ((formatterOf p).nesting text)
      Yields E (fun job => Yields E (fun parsed =>
        Yields E (fun answer => ∀ s ∈ answer, R (restoreMark job.marked s))
          (formatRange (parsing p) embedding job parsed.tree) ∧
        (formatRange (parsing p) embedding job parsed.tree = .ok none →
          Yields E (fun formatted => R formatted.formatted)
            (printParsed (parsing p) embedding job parsed 0))) (p job.text))
        (prepare language (named options) text)) :
    Yields E R ((formatterOf p).format text options) := by
  rw [format_of_valid hvalid hjs]
  refine Yields.map (Q := fun formatted => R formatted.formatted) ?_ fun _ h => h
  unfold formatText
  rw [← skips_eq, prepare_parsing]
  change Yields E _ (if skips options text = true then _ else _)
  cases hskips : skips options text with
  | true =>
    rw [if_pos rfl]
    exact hskip hskips
  | false =>
    rw [if_neg Bool.false_ne_true]
    refine (hformat hskips).bind fun job hjob => hjob.bind fun parsed hparsed => ?_
    obtain ⟨hrange, hwhole⟩ := hparsed
    generalize formatRange (parsing p) _ job parsed.tree = range at hrange hwhole ⊢
    match range with
    | .error e => exact hrange
    | .ok none => exact hwhole rfl
    | .ok (some s) => exact hrange s rfl

end Results

end CodeFormatter.JavaScript
