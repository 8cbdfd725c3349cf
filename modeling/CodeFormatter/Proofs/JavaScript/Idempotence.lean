import CodeFormatter.Proofs.JavaScript.FormattedRanges
import CodeFormatter.Proofs.JavaScript.Rereading
import CodeFormatter.Proofs.Layout.EmptyTexts
import CodeFormatter.Proofs.SelfCheck

/-!
# When formatting is idempotent

Formatting prints the tree of a text. Of the text itself only the newline that is guessed from it and a
byte-order mark get into the layout. So the outcome is a fixed point if it has a document with the same
layout in its turn (`Settled`). This is so if the parser finds the same program in it (`ReadsBack`): the
same nodes and words, the same comments at the same nodes, and the same blank lines.

**Theorem (`debugCheck_fixed`).** The self-check accepts the texts whose outcome is a fixed point with
the same tree, and formatting them again and again gives that outcome every time. An outcome is a fixed
point if its document is that of the text, up to an exchange of empty texts and empty sequences, or if
the same program is found in it.
-/

namespace CodeFormatter.JavaScript

open Pipeline Walk

variable {p : TextParser} {options n : Options} {text s s' : String} {job job' : Job}
  {parsed parsed' : Parsed Info} {d d' : Doc} {st st' : WalkState}

/-! ## Pages -/

/-- Getting ready does not touch the options of the page. -/
theorem page_of_prepare (h : prepare language n text = .ok job) (other : String) :
    job.options.page other = n.page other := by
  obtain ⟨marked, hmarked, h⟩ := Formatter.exists_of_bind_eq_ok h
  cases h
  have hunmark : (unmark n text).options.page other = n.page other := by
    unfold unmark
    split <;> rfl
  unfold addPragma at hmarked
  split at hmarked
  · obtain ⟨_, -, hmarked⟩ := Formatter.exists_of_bind_eq_ok hmarked
    cases hmarked
    exact hunmark
  · cases hmarked
    exact hunmark

/-- Two texts from which the same newline is guessed have the same page. -/
theorem page_congr {text text' : String}
    (h : n.endOfLine = .auto → Scan.lineEnding (bytesOf text) = Scan.lineEnding (bytesOf text')) :
    n.page text = n.page text' := by
  unfold Options.page
  cases hauto : n.endOfLine with
  | auto => rw [h hauto]
  | _ => rfl

/-! ## Fixed points -/

/-- The outcome is printed as the text is: its document is the same up to an exchange of empty texts
and empty sequences, and it goes on a page with the same newline, behind a mark if the text did. -/
structure Settled (p : TextParser) (n : Options) (s : String) (job : Job) (d : Doc)
    (s' : String) (job' : Job) (parsed' : Parsed Info) (d' : Doc) (st' : WalkState) : Prop where
  prints : Prints p n s s' job' parsed' d' st'
  unified : d'.unified = d.unified
  newline : n.endOfLine = .auto →
    Scan.lineEnding (bytesOf job'.text) = Scan.lineEnding (bytesOf job.text)
  marked : job'.marked = job.marked

/-- It is a fixed point. -/
theorem Settled.eq (h : Settled p n s job d s' job' parsed' d' st')
    (hprints : Prints p n text s job parsed d st) : s' = s := by
  have hpage : job'.options.page job'.text = job.options.page job.text := by
    rw [page_of_prepare h.prints.prepared, page_of_prepare hprints.prepared, page_congr h.newline]
  rw [h.prints.outcome, hprints.outcome, h.marked, hpage, ← Layout.print_unified _ d', h.unified,
    Layout.print_unified]

theorem format_of_settled (hwhole : options.formatsWholeFile = true)
    (hformat : (formatterOf p).format text options = .ok s)
    (hprints : Prints p (named options) text s job parsed d st)
    (h : Settled p (named options) s job d s' job' parsed' d' st') :
    (formatterOf p).format s options = .ok s := by
  obtain ⟨hvalid, hjs⟩ := valid_of_format hformat
  obtain rfl := h.eq hprints
  exact (format_eq_ok_iff hwhole).mpr ⟨hvalid, hjs, .inr ⟨job', parsed', d', st', h.prints⟩⟩

/-! ## Reading the outcome -/

/-- Formatting the outcome finds the same program in it: the same nodes with the same words and the
same comments, and no pragma is put into either text. -/
structure ReadsBack (p : TextParser) (options : Options) (text s : String)
    (parsed parsed' : Parsed Info) : Prop where
  wanted : skips options s = false
  pragma : ∀ x ∈ [text, s], putsPragma (named options) x = false
  parses : p (stripMark s) = .ok parsed'
  marked : startsWithMark s = startsWithMark text
  newline : options.endOfLine = .auto →
    Scan.lineEnding (bytesOf (stripMark s)) = Scan.lineEnding (bytesOf (stripMark text))
  comments : SameComments (plainScene p options text parsed.tree)
    (plainScene p options s parsed'.tree) (attached language (stripMark text) parsed)
    (attached language (stripMark s) parsed')
  tree : Rereads (plainScene p options text parsed.tree) (plainScene p options s parsed'.tree)
    (attached language (stripMark text) parsed) (attached language (stripMark s) parsed')
    parsed.tree parsed'.tree

/-- A mark moves nothing if no position is given. -/
theorem options_unmark (hr : n.rangeStart = 0) (he : n.rangeEnd = none)
    (hc : n.cursorOffset = none) (text : String) : (unmark n text).options = n := by
  unfold unmark
  split
  · obtain ⟨⟩ := n
    simp_all
  · rfl

theorem marked_unmark (n : Options) (text : String) :
    (unmark n text).marked = startsWithMark text := by
  unfold unmark
  split <;> simp [*]

/-- Texts without a cursor are printed under the same settings. -/
theorem sameSettings_plainScene (hvalid : options.validate = .ok ()) (hr : options.rangeStart = 0)
    (he : options.rangeEnd = none) (hc : options.cursorOffset = none) (text s : String)
    (t u : Tree Info) : SameSettings (plainScene p options text t) (plainScene p options s u) := by
  have hoptions : ∀ text, (plainJob options text).options = named options :=
    options_unmark (n := named options) hr he hc
  have hcursor : ∀ text (t : Tree Info), (plainScene p options text t).cursorNode = none :=
    fun text t => by
      simp only [sceneOf, hoptions, cursorTarget, named, hc, Option.bind_none, Option.map_none]
  have hsize : ∀ text (t : Tree Info), (plainScene p options text t).text.utf8ByteSize ≤
      (formatterOf p).nesting text := fun text t => by
    rw [plainScene, sceneOf, unmark_text]
    exact size_le_nesting text
  refine ⟨(hoptions text).trans (hoptions s).symm, hcursor text t, hcursor s u,
    fun code ha hb group => ?_⟩
  simp only [plainScene, sceneOf, hoptions]
  exact embedding_of_size_lt (validate_codeOptions hvalid) (ha.trans_le (hsize text t))
    (hb.trans_le (hsize s u)) group

theorem ensureAllPrinted_eq_ok_iff {cs : Comments} :
    ensureAllPrinted cs = .ok () ↔ cs.firstUnprinted? = none := by
  unfold ensureAllPrinted
  split
  · simp [*]
  · simp [*]

/-- **The same program has the same document.** -/
theorem ReadsBack.settled (h : ReadsBack p options text s parsed parsed')
    (hvalid : options.validate = .ok ()) (hr : options.rangeStart = 0)
    (he : options.rangeEnd = none) (hc : options.cursorOffset = none)
    (hprints : Prints p (named options) text s job parsed d st) :
    ∃ s' job' st', Settled p (named options) s job d s' job' parsed' d st' := by
  obtain rfl : job = plainJob options text := (Except.ok.inj
    ((prepare_of_not_putsPragma (h.pragma text (by simp))).symm.trans hprints.prepared)).symm
  have hsettings := sameSettings_plainScene (p := p) hvalid hr he hc text s parsed.tree parsed'.tree
  have hprinted := hprints.printed
  rw [unmark_text] at hprinted
  obtain ⟨st', hprinted', hstep⟩ := h.tree.follows_printTree hsettings h.comments 0 _ _
    (h.comments.inStep 0) d st hprinted
  refine ⟨_, plainJob options s, st', ⟨h.wanted,
    prepare_of_not_putsPragma (h.pragma s (by simp)), ?_, ?_, ?_, rfl⟩, rfl, ?_, ?_⟩
  · rw [unmark_text]
    exact h.parses
  · rw [unmark_text]
    exact hprinted'
  · exact ensureAllPrinted_eq_ok_iff.mpr
      (hstep.firstUnprinted?_eq_none (ensureAllPrinted_eq_ok_iff.mp hprints.complete))
  · intro hauto
    rw [unmark_text, unmark_text]
    exact h.newline hauto
  · rw [marked_unmark, marked_unmark, h.marked]

/-- **An outcome with the same program is a fixed point.** -/
theorem ReadsBack.format_eq (h : ReadsBack p options text s parsed parsed')
    (hparse : p (stripMark text) = .ok parsed) (hr : options.rangeStart = 0)
    (he : options.rangeEnd = none) (hc : options.cursorOffset = none)
    (hformat : (formatterOf p).format text options = .ok s) :
    (formatterOf p).format s options = .ok s := by
  have hwhole : options.formatsWholeFile = true := Options.formatsWholeFile_iff.mpr ⟨hr, he⟩
  obtain ⟨hvalid, -, ⟨hskips, rfl⟩ | ⟨job, parsed₁, d, st, hprints⟩⟩ :=
    (format_eq_ok_iff hwhole).mp hformat
  · exact absurd (hskips.symm.trans h.wanted) Bool.noConfusion
  · have hjob : prepare language (named options) text = .ok (plainJob options text) :=
      prepare_of_not_putsPragma (h.pragma text (by simp))
    obtain rfl : job = plainJob options text :=
      (Except.ok.inj (hjob.symm.trans hprints.prepared)).symm
    obtain rfl : parsed₁ = parsed := by
      have hparses := hprints.parses
      rw [unmark_text, hparse] at hparses
      exact (Except.ok.inj hparses).symm
    obtain ⟨s', job', st', hsettled⟩ := h.settled hvalid hr he hc hprints
    exact format_of_settled hwhole hformat hprints hsettled

/-- **What the self-check accepts.** It accepts exactly the texts on which formatting is idempotent and
keeps the tree, and it reports every outcome of formatting that is not a fixed point. What is printed
as the text was is a fixed point, and so is an outcome in which the parser finds the same program.
Formatting goes no further from there. -/
theorem debugCheck_fixed (hr : options.rangeStart = 0) (he : options.rangeEnd = none)
    (hc : options.cursorOffset = none) (text : String) :
    (∀ s, (formatterOf p).debugCheck text options = .ok s ↔
      (formatterOf p).format text options = .ok s ∧ (formatterOf p).format s options = .ok s ∧
        (formatterOf p).SameTree options text s) ∧
    (∀ first second, (formatterOf p).format text options = .ok first →
      (formatterOf p).format first options = .ok second → second ≠ first →
      (formatterOf p).debugCheck text options = .error (.notIdempotent first second)) ∧
    (∀ first e, (formatterOf p).format text options = .ok first →
      (formatterOf p).format first options = .error e →
      (formatterOf p).debugCheck text options = .error e) ∧
    ∀ s, (formatterOf p).format text options = .ok s →
      ((∃ job parsed d st, Prints p (named options) text s job parsed d st ∧
        ∃ s' job' parsed' d' st', Settled p (named options) s job d s' job' parsed' d' st') →
        (formatterOf p).format s options = .ok s) ∧
      (∀ parsed parsed', p (stripMark text) = .ok parsed →
        ReadsBack p options text s parsed parsed' →
        (formatterOf p).format s options = .ok s) ∧
      ((formatterOf p).format s options = .ok s → ∀ limit,
        ∀ answer ∈ (formatterOf p).iterate options limit text, answer = .ok s) := by
  obtain ⟨haccepts, hreports, hfails⟩ := Formatter.debugCheck_eq_ok_iff rfl hr he hc text
  refine ⟨haccepts, hreports, hfails, fun s hformat => ⟨?_,
    fun parsed parsed' hparse h => h.format_eq hparse hr he hc hformat,
    fun hfixed => Formatter.iterate_of_fixed hformat hfixed⟩⟩
  rintro ⟨job, parsed, d, st, hprints, s', job', parsed', d', st', h⟩
  exact format_of_settled (Options.formatsWholeFile_iff.mpr ⟨hr, he⟩) hformat hprints h

/-! ## A name, and a comment on a line of its own -/

/-- A program that is a name. Its statement may have a semicolon, and a line end behind it. -/
def nameProgram (stop size : Nat) : Node :=
  ⟨0, 0, size, ⟨.program, [], none⟩, [⟨1, 0, stop, ⟨.expressionStatement, [], none⟩,
    [⟨2, 0, 1, ⟨.identifier, [], none⟩, []⟩]⟩]⟩

def parseName : TextParser := fun text =>
  .ok ⟨if text = "a" then nameProgram 1 1 else nameProgram 2 3, []⟩

theorem readsBack_name : ReadsBack parseName { parser := some "javascript" } "a" "a;\n"
    ⟨nameProgram 1 1, []⟩ ⟨nameProgram 2 3, []⟩ where
  wanted := rfl
  pragma x hx := by
    rcases List.mem_pair.mp hx with rfl | rfl
    · decide +kernel
    · decide +kernel
  parses := rfl
  marked := by decide +kernel
  newline _ := by decide +kernel
  comments := ⟨fun _ => .none, fun _ => rfl⟩
  tree := by
    have hslice : sliceOrError (stripMark "a") 0 1 = sliceOrError (stripMark "a;\n") 0 1 := by
      decide +kernel
    have hstart : ∀ chars, Printer.startsWith (plainScene parseName { parser := some "javascript" }
          "a" (nameProgram 1 1)) ⟨2, 0, 1, ⟨.identifier, [], none⟩, []⟩ chars =
        Printer.startsWith (plainScene parseName { parser := some "javascript" } "a;\n"
          (nameProgram 2 3)) ⟨2, 0, 1, ⟨.identifier, [], none⟩, []⟩ chars := fun chars =>
      congrArg (fun x : Except Error String => (liftM x : Walk String) >>= fun s =>
        pure (s.toList.head?.any chars.contains)) hslice
    -- Most questions are about other kinds of nodes.
    refine .intro ?_ (.cons (.intro ?_ (.cons (.intro ?_ .nil) .nil)) .nil)
    · refine ⟨rfl, rfl, rfl, ?_, ?_, by decide, ?_, fun _ => .nil, ?_, ?_, ?_, ?_, fun hcopied => ?_⟩
      iterate 7 simp [kindOf, nameProgram]
      exact absurd (hasLayout_of_some (by decide +kernel) (by decide +kernel)
        fun _ _ _ => ⟨_, rfl⟩) hcopied
    · refine ⟨rfl, rfl, rfl, ?_, ?_, by decide, fun _ => .cons (fun chars _ => hstart chars) .nil,
        ?_, ?_, ?_, ?_, ?_, fun hcopied => ?_⟩
      iterate 7 simp [kindOf]
      refine absurd (hasLayout_of_some (by decide +kernel) (by decide +kernel)
        fun _ children hnodes => ?_) hcopied
      obtain ⟨c, rfl, -⟩ := List.map_eq_singleton_iff.mp hnodes
      exact ⟨_, rfl⟩
    · refine ⟨rfl, rfl, rfl, ?_, ?_, by decide, ?_, ?_, ?_, ?_, ?_, ?_,
        fun _ => ⟨hslice, fun _ _ _ hc => by cases hc⟩⟩
      iterate 8 simp [kindOf]

/-- The name stays as it is, but the comment moves on. -/
theorem debugCheck_comment_on_own_line :
    (formatterOf parseName).format "a;\n" { parser := some "javascript" } = .ok "a;\n" ∧
      formatter.debugCheck "x = \n/* c */\n1" { parser := some "javascript" } =
        .error (.notIdempotent "x = /* c */\n1;\n" "x /* c */ = 1;\n") := by
  have hname : (formatterOf parseName).format "a" { parser := some "javascript" } = .ok "a;\n" := by
    decide +kernel
  refine ⟨((debugCheck_fixed rfl rfl rfl "a").2.2.2 "a;\n" hname).2.1 _ _ rfl readsBack_name, ?_⟩
  rw [← formatterOf_parse]
  exact (debugCheck_fixed rfl rfl rfl _).2.1 _ _ Formatter.format_comment_on_own_line
    Formatter.format_comment_at_end_of_line (by decide)

end CodeFormatter.JavaScript
