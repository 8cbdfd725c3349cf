import CodeFormatter.Proofs.Normalization
import CodeFormatter.Proofs.WholeRange

/-!
# Looking at documents

The document of a text can be asked for, to look at it or to print it later. Formatting goes through the same
stages on its own account, and does more: it sets a byte-order mark aside and puts it back, sees to pragmas, ranges
and the cursor, and guesses how lines end. When none of these is asked for, a text is formatted by printing its
document (`formatText_eq_docOfText`).

**Theorem (`format_eq_ok_iff_docOf`).** Then a text is formatted if, and only if, it has a document, and the outcome
is the printed document, behind the mark of the text if there is one. If one of the two fails, the other fails with
the same error.
-/

namespace CodeFormatter

open Pipeline

/-- Options that ask for the whole text, without a pragma and with no cursor, and say how lines end. -/
structure Options.IsPlain (o : Options) : Prop where
  requirePragma : o.requirePragma = false
  insertPragma : o.insertPragma = false
  formatsWholeFile : o.formatsWholeFile = true
  cursorOffset : o.cursorOffset = none
  endOfLine : o.endOfLine = .lf ∨ o.endOfLine = .crlf

section

variable {α : Type} {language : Language α} {embedding : Embedding} {o : Options} {text : String}

theorem Options.IsPlain.covers (h : o.IsPlain) (text : String) : Covers o text := by
  obtain ⟨hstart, hend⟩ := Options.formatsWholeFile_iff.mp h.formatsWholeFile
  exact ⟨hstart, fun stop hstop => by simp [hend] at hstop⟩

/-- The page does not depend on the text. -/
theorem Options.IsPlain.page_eq (h : o.IsPlain) (text : String) : o.page text = o.page "" := by
  rcases h.endOfLine with hline | hline <;> simp [Options.page, hline]

/-! ## One text -/

/-- The text without its mark, as it is parsed. -/
theorem keptJob_of_isPlain (h : o.IsPlain) (text : String) :
    keptJob language o text = ⟨startsWithMark text, o, language.preprocess o (stripMark text)⟩ := by
  obtain ⟨hstart, hend⟩ := Options.formatsWholeFile_iff.mp h.formatsWholeFile
  have hunmark : unmark o text = ⟨startsWithMark text, o, stripMark text⟩ := by
    have hcursor := h.cursorOffset
    cases o
    unfold unmark stripMark
    split <;> simp_all
  rw [keptJob, hunmark]

/-- **The document of a text**, stage by stage. -/
theorem docOfText_eq (lastGroup : GroupId) :
    docOfText language embedding o text lastGroup =
      language.parse o (language.preprocess o text) >>= fun parsed =>
        let job : Job := ⟨false, o, language.preprocess o text⟩
        printTree language { sceneFor language embedding job parsed.tree with cursorNode := none } parsed.tree 0
            ⟨attached language job.text parsed, lastGroup⟩ >>= fun r =>
          ensureAllPrinted r.2.comments >>= fun _ => pure (r.1, r.2.lastGroup) := rfl

/-- The text of a printed document, behind a mark if the source has one. -/
def printed (o : Options) (source : String) (d : Doc) : String :=
  restoreMark (startsWithMark source) (Layout.print (o.page "") d).formatted

/-- **A text is formatted by printing its document.** -/
theorem formatText_eq_docOfText (h : o.IsPlain) (text : String) :
    formatText language embedding o text =
      (fun r => ⟨printed o text r.1, none⟩) <$> docOfText language embedding o (stripMark text) 0 := by
  have hkeeps : KeepsText language o text := by simp [KeepsText, h.insertPragma]
  have hkept : Covers (keptJob language o text).options (keptJob language o text).text := by
    rw [keptJob_of_isPlain h]
    exact h.covers _
  rw [formatText_of_covers (h.covers text) hkeeps hkept, h.requirePragma, keptJob_of_isPlain h, docOfText_eq]
  change (language.parse o (language.preprocess o (stripMark text)) >>= _) = _
  rw [map_bind]
  refine bind_congr fun parsed => ?_
  have htarget : cursorTarget o parsed.tree = none := by
    rw [cursorTarget, h.cursorOffset]
    rfl
  have houtcome : ∀ d, outcomeOf ⟨startsWithMark text, o, language.preprocess o (stripMark text)⟩
      parsed.tree d = ⟨printed o text d, none⟩ := by
    intro d
    simp only [outcomeOf, htarget, h.page_eq (language.preprocess o (stripMark text)), printed]
    rfl
  rw [printParsed_zero, map_bind]
  simp only [sceneFor, htarget, Option.map_none]
  refine bind_congr fun r => ?_
  rw [map_bind, houtcome]
  rfl

end

/-! ## The formatter -/

namespace Formatter

variable {f : Formatter} {requests : List Request} {o n : Options} {l : Registered} {text : String}

theorem docOf_of_select (h : f.select o = .ok (n, l)) (text : String) :
    f.docOf text o = (·.1) <$> l.docOf (f.embedding (f.nesting text)) n (stripMark text) 0 := by
  rw [docOf, h]
  rfl

theorem docOf_of_select_error {e : Error} (h : f.select o = .error e) (text : String) :
    f.docOf text o = .error e := by
  rw [docOf, h]
  rfl

/-- Normalizing does not change what is plain. -/
theorem isPlain_of_select (h : o.IsPlain) (hselect : (after requests).select o = .ok (n, l)) : n.IsPlain := by
  obtain ⟨hn, -⟩ := resolve_of_select hselect
  rw [(Journal.describes_of requests).eq_of_resolve hn]
  exact ⟨h.requirePragma, h.insertPragma, h.formatsWholeFile, h.cursorOffset, h.endOfLine⟩

/-- **A text is formatted by printing its document**, also by a formatter, in the language of the text. -/
theorem format_eq_docOf (h : o.IsPlain) (hlanguages : ∀ l ∈ (after requests).languages, l.IsLanguage)
    (hselect : (after requests).select o = .ok (n, l)) (text : String) :
    (after requests).format text o = printed n text <$> (after requests).docOf text o := by
  obtain ⟨-, hl⟩ := resolve_of_select hselect
  obtain ⟨α, language, rfl⟩ := hlanguages l (mem_of_languageFor hl)
  rw [format_of_select hselect, docOf_of_select hselect]
  change (·.formatted) <$> formatText language _ n text = _ <$> _ <$> docOfText language _ n (stripMark text) 0
  rw [formatText_eq_docOfText (isPlain_of_select h hselect), Functor.map_map, Functor.map_map]

/-- **Looking at a document** and printing it is formatting. -/
theorem format_eq_ok_iff_docOf (h : o.IsPlain)
    (hlanguages : ∀ l ∈ (after requests).languages, l.IsLanguage) (text : String) :
    let f := after requests
    (∀ s, f.format text o = .ok s ↔ ∃ d p, f.docOf text o = .ok d ∧ f.printDoc d o = .ok p ∧
      s = restoreMark (startsWithMark text) p.formatted) ∧
    ∀ e, f.format text o = .error e ↔ f.docOf text o = .error e := by
  intro f
  cases hselect : f.select o with
  | error e =>
    rw [format_of_select_error hselect, docOf_of_select_error hselect]
    exact ⟨by simp, by simp⟩
  | ok selected =>
    obtain ⟨n, l⟩ := selected
    obtain ⟨hn, -⟩ := resolve_of_select hselect
    have hprint : ∀ d, f.printDoc d o = .ok (Layout.print (n.page "") d) := fun d => by
      rw [printDoc, hn]
      rfl
    have hformat : f.format text o = printed n text <$> f.docOf text o :=
      format_eq_docOf h hlanguages hselect text
    rw [hformat]
    cases f.docOf text o with
    | error e => simp [Functor.map, Except.map]
    | ok d => simp [Functor.map, Except.map, hprint, printed, eq_comm]

/-- A name behind a mark, on a page whose lines end in two characters. -/
theorem format_eq_ok_iff_docOf_name :
    let f := after [.register (.ofLanguage JavaScript.language)]
    let o : Options := { filepath := some "a.js", endOfLine := .crlf }
    f.format (restoreMark true "a") o = .ok (restoreMark true "a;\r\n") ∧
      ∃ d p, f.docOf (restoreMark true "a") o = .ok d ∧ f.printDoc d o = .ok p ∧
        restoreMark true "a;\r\n" = restoreMark true p.formatted := by
  intro f o
  have hplain : o.IsPlain := ⟨rfl, rfl, rfl, rfl, .inr rfl⟩
  have hlanguages : ∀ l ∈ f.languages, l.IsLanguage :=
    fun l hl => ⟨_, JavaScript.language, List.mem_singleton.mp hl⟩
  have hformat : f.format (restoreMark true "a") o = .ok (restoreMark true "a;\r\n") :=
    eq_ok_of_toOption (by decide +kernel)
  have hdoc := ((format_eq_ok_iff_docOf hplain hlanguages (restoreMark true "a")).1 _).mp hformat
  rw [startsWithMark_restoreMark] at hdoc
  exact ⟨hformat, hdoc⟩

end Formatter

end CodeFormatter
