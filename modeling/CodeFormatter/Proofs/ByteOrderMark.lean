import CodeFormatter.Proofs.Formatter
import CodeFormatter.Proofs.JavaScript.LayoutOptions

/-!
# Texts behind a byte-order mark

A mark in front of a text takes three bytes. It is set aside before anything looks at the text, and with
it three bytes of every position in the options: what is left is the job of the text without a mark, but for
the note that there was one (`unmark_behindMark`). The note is read where a text is given back, and only
there.

**Theorem (`format_behindMark`).** A text behind a mark is formatted like the text itself, with positions
that are moved on by three bytes: the outcome is behind a mark, its cursor is three bytes further on, and
errors are the same.
-/

namespace CodeFormatter

open Pipeline

/-- Options for a text behind a mark. A range from the start of the text may start in front of the mark or
behind it, so the start of the range is a choice. -/
def Options.behindMark (o : Options) (start : Nat) : Options :=
  { o with
    rangeStart := start
    rangeEnd := o.rangeEnd.map (· + 3)
    cursorOffset := o.cursorOffset.map (· + 3) }

/-- An outcome with a mark in front. -/
def Formatted.behindMark (f : Formatted) : Formatted :=
  { formatted := restoreMark true f.formatted, cursorOffset := f.cursorOffset.map (· + 3) }

/-- The range that starts at `start` behind a mark. -/
def IsBehindMark (rangeStart start : Nat) : Prop :=
  start = rangeStart + 3 ∨ start = 0 ∧ rangeStart = 0

section

variable {α : Type} {language : Language α} {embedding : Embedding} {o : Options} {start : Nat}
  {text : String}

/-! ## Setting the mark aside -/

theorem startsWithMark_restoreMark (text : String) : startsWithMark (restoreMark true text) = true := by
  simp [startsWithMark, restoreMark]

theorem stripMark_restoreMark (text : String) : stripMark (restoreMark true text) = text := by
  rw [stripMark, if_pos (startsWithMark_restoreMark text)]
  simp [restoreMark]

theorem size_restoreMark (text : String) : (restoreMark true text).utf8ByteSize = text.utf8ByteSize + 3 := by
  have hmark : restoreMark true text = String.singleton byteOrderMark ++ text := by
    rw [← String.toList_inj]
    simp [restoreMark]
  rw [hmark, String.utf8ByteSize_append, Nat.add_comm]
  rfl

theorem validate_behindMark (hvalid : o.validate = .ok ()) (hstart : IsBehindMark o.rangeStart start) :
    (o.behindMark start).validate = .ok () := by
  obtain ⟨hwidth, htab, hrange⟩ := JavaScript.validate_eq_ok_iff.mp hvalid
  refine JavaScript.validate_eq_ok_iff.mpr ⟨hwidth, htab, fun stop hstop => ?_⟩
  obtain ⟨e, he, rfl⟩ := Option.map_eq_some_iff.mp hstop
  have hle : o.rangeStart ≤ e := hrange e he
  show start ≤ e + 3
  unfold IsBehindMark at hstart
  omega

/-- The job of the text, with the note that there was a mark. -/
def Pipeline.Job.behindMark (job : Job) : Job := { job with marked := true }

/-- **What is left** when the mark is set aside. -/
theorem unmark_behindMark (hmark : startsWithMark text = false) (hstart : IsBehindMark o.rangeStart start) :
    unmark (o.behindMark start) (restoreMark true text) = (unmark o text).behindMark := by
  have hback : ∀ offset : Option Nat, (offset.map (· + 3)).map (· - 3) = offset := fun offset => by
    cases offset <;> simp
  have hrange : start - 3 = o.rangeStart := by
    unfold IsBehindMark at hstart
    omega
  have hmarked : startsWithMark (restoreMark true text) = true := startsWithMark_restoreMark text
  rw [unmark, if_pos hmarked, unmark, if_neg (by simp [hmark])]
  simp only [Options.behindMark, hback, hrange, stripMark_restoreMark, Job.behindMark]

/-! ## The note is not read on the way -/

theorem addPragma_behindMark (job : Job) :
    addPragma language job.behindMark = Job.behindMark <$> addPragma language job := by
  unfold addPragma
  change (if (job.options.insertPragma && !language.hasPragma job.text &&
    job.options.formatsWholeFile) = true then _ else _) = _
  split
  · dsimp only [Job.behindMark]
    cases language.insertPragma job.text <;> rfl
  · rfl

theorem prepare_behindMark (hmark : startsWithMark text = false)
    (hstart : IsBehindMark o.rangeStart start) :
    prepare language (o.behindMark start) (restoreMark true text) =
      Job.behindMark <$> prepare language o text := by
  rw [prepare, unmark_behindMark hmark hstart, addPragma_behindMark, prepare]
  cases addPragma language (unmark o text) <;> rfl

theorem formatRange_behindMark (job : Job) (tree : Tree α) :
    formatRange language embedding job.behindMark tree = formatRange language embedding job tree := rfl

/-! ## The mark comes back -/

/-- Nothing is noted about a text without a mark. -/
theorem marked_of_prepare {job : Job} (hmark : startsWithMark text = false)
    (h : prepare language o text = .ok job) : job.marked = false := by
  have hunmark : (unmark o text).marked = false := by
    rw [unmark, if_neg (by simp [hmark])]
  obtain ⟨ready, hready, h⟩ := Formatter.exists_of_bind_eq_ok h
  cases h
  unfold addPragma at hready
  split at hready
  · obtain ⟨_, -, hready⟩ := Formatter.exists_of_bind_eq_ok hready
    cases hready
    exact hunmark
  · cases hready
    exact hunmark

theorem printParsed_behindMark {job : Job} (hjob : job.marked = false) (parsed : Parsed α) :
    printParsed language embedding job.behindMark parsed 0 =
      Formatted.behindMark <$> printParsed language embedding job parsed 0 := by
  have houtcome : ∀ d, outcomeOf job.behindMark parsed.tree d =
      (outcomeOf job parsed.tree d).behindMark := fun d => by
    simp [outcomeOf, Job.behindMark, Formatted.behindMark, hjob, restoreMark]
  simp only [printParsed_zero, houtcome, map_bind, map_pure]
  rfl

/-- **A text behind a mark** in any language. -/
theorem formatText_behindMark (hmark : startsWithMark text = false)
    (hstart : IsBehindMark o.rangeStart start) :
    formatText language embedding (o.behindMark start) (restoreMark true text) =
      Formatted.behindMark <$> formatText language embedding o text := by
  have hstrip : stripMark text = text := by rw [stripMark, if_neg (by simp [hmark])]
  rw [formatText, formatText, stripMark_restoreMark, hstrip, prepare_behindMark hmark hstart]
  change (if (o.requirePragma && !language.hasPragma text) = true then _ else _) = _
  split
  · rfl
  · cases hjob : prepare language o text with
    | error e => rfl
    | ok job =>
      have hunmarked : job.marked = false := marked_of_prepare hmark hjob
      change (language.parse job.options job.text >>= _) =
        Formatted.behindMark <$> (language.parse job.options job.text >>= _)
      rw [map_bind]
      refine bind_congr fun parsed => ?_
      rw [formatRange_behindMark, map_bind]
      refine bind_congr fun answer => ?_
      cases answer with
      | some s => simp [Job.behindMark, hunmarked, Formatted.behindMark, restoreMark]
      | none => exact printParsed_behindMark hunmarked parsed

/-! ## The formatter -/

/-- The mark does not count for how deep texts can nest. -/
theorem nesting_restoreMark (f : Formatter) (hmark : startsWithMark text = false) :
    f.nesting (restoreMark true text) = f.nesting text := by
  have hstrip : stripMark text = text := by rw [stripMark, if_neg (by simp [hmark])]
  rw [Formatter.nesting, Formatter.nesting, stripMark_restoreMark, hstrip]

/-- **A text behind a mark** is formatted like the text itself, in any language and with any options. -/
theorem format_behindMark {languages : List Registered} (hlanguages : ∀ l ∈ languages, l.IsLanguage)
    (hvalid : o.validate = .ok ()) (hmark : startsWithMark text = false)
    (hstart : IsBehindMark o.rangeStart start) :
    let f := Formatter.ofLanguages languages
    (o.behindMark start).validate = .ok () ∧
      f.formatWithCursor (restoreMark true text) (o.behindMark start) =
        Formatted.behindMark <$> f.formatWithCursor text o := by
  intro f
  have hvalid' : (o.behindMark start).validate = .ok () := validate_behindMark hvalid hstart
  refine ⟨hvalid', ?_⟩
  rw [Formatter.formatWithCursor_eq, Formatter.formatWithCursor_eq, nesting_restoreMark f hmark]
  refine Formatter.formatNested_congr hvalid hvalid' rfl rfl fun l hl => ?_
  obtain ⟨β, language, rfl⟩ := hlanguages l (Formatter.mem_of_languageFor hl)
  exact formatText_behindMark (o := f.named o) hmark hstart

/-- A name behind a mark, with a cursor at its end. -/
theorem format_behindMark_name :
    JavaScript.formatter.formatWithCursor (restoreMark true "a")
        (Options.behindMark { parser := some "javascript", cursorOffset := some 1 } 0) =
      .ok ⟨restoreMark true "a;\n", some 4⟩ := by
  have hname : JavaScript.formatter.formatWithCursor "a"
      { parser := some "javascript", cursorOffset := some 1 } = .ok ⟨"a;\n", some 1⟩ := by
    decide +kernel
  have hlanguages : ∀ l ∈ [Registered.ofLanguage JavaScript.language], l.IsLanguage := by
    intro l hl
    exact ⟨_, _, List.mem_singleton.mp hl⟩
  have hmark : startsWithMark "a" = false := by decide
  have hstart : IsBehindMark 0 0 := .inr ⟨rfl, rfl⟩
  obtain ⟨-, hmarked⟩ := format_behindMark hlanguages
    (o := { parser := some "javascript", cursorOffset := some 1 }) rfl hmark hstart
  exact hmarked.trans (congrArg (Formatted.behindMark <$> ·) hname)

end

end CodeFormatter
