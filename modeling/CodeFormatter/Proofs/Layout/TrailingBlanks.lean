import CodeFormatter.Proofs.Layout.Alignment
import CodeFormatter.Proofs.Layout.Characters
import CodeFormatter.Proofs.Layout.Loop
import Mathlib.Data.List.Chain

/-!
# No blanks at the ends of lines

Blanks come from the texts, from lines that stay flat and from the indentations of empty lines. They go
again where a line ends: a newline removes the blanks before it, and so does the end of the document.

**Theorem (`endsBlank_print`).** In the layout of a document with texts of one line and without literal
lines, no newline stands behind a blank, and the last character is none.

What a step keeps is `LinesTrimmed`: no character that ends a line has a blank in front of it. The last
line may end in blanks at any time, and whatever is written next is either more of that line, or a
newline, which removes them. A literal line does not, and so it is excluded.
-/

namespace CodeFormatter

open Layout (isLineEnd)

def Doc.isLiteral : Doc → Bool
  | .line .literal => true
  | _ => false

/-- The document has text of one line only, and it is no literal line. -/
def Doc.keepsTrimmed (d : Doc) : Bool := d.spelledIn (!isLineEnd ·) && !d.isLiteral

theorem Doc.keepsTrimmed_propagateBreaks (d : Doc) : d.propagateBreaks.keepsTrimmed = d.keepsTrimmed := by
  have hliteral : d.propagateBreaks.isLiteral = d.isLiteral := by cases d <;> simp [isLiteral]
  rw [keepsTrimmed, spelledIn_propagateBreaks, hliteral, keepsTrimmed]

namespace Layout

variable {settings : Settings} {cs ds : List Char}

/-! ## Trimmed lines -/

/-- The text ends in a space or a tab. -/
def endsBlank (cs : List Char) : Bool := cs.getLast?.any isPadding

theorem endsBlank_trimEnd (cs : List Char) : endsBlank (trimEnd cs) = false := by
  rw [endsBlank, Option.any_eq_false]
  intro c hc
  obtain ⟨hne, rfl⟩ := List.mem_getLast?_eq_getLast hc
  exact Bool.eq_false_iff.mpr (List.rdropWhile_last_not _ _ hne)

theorem isPadding_of_isLineEnd {c : Char} (h : isLineEnd c = true) : isPadding c = false :=
  Bool.eq_false_iff.mpr fun hc => by simp [isLineEnd_of_isPadding hc] at h

/-- No character that ends a line stands behind a blank. -/
def LinesTrimmed (cs : List Char) : Prop := cs.IsChain fun a b => isLineEnd b = true → isPadding a = false

namespace LinesTrimmed

theorem trimEnd (h : LinesTrimmed cs) : LinesTrimmed (trimEnd cs) :=
  List.IsChain.prefix h (isPrefix_trimEnd cs)

/-- More of the last line. -/
theorem append_line (h : LinesTrimmed cs) (hds : ∀ c ∈ ds, isLineEnd c = false) :
    LinesTrimmed (cs ++ ds) := by
  have hline : ∀ a, ∀ b ∈ ds, isLineEnd b = true → isPadding a = false := fun a b hb hend => by
    simp [hds b hb] at hend
  exact List.isChain_append.mpr ⟨h, (List.pairwise_of_forall_mem_list fun a _ => hline a).isChain,
    fun a _ b hb => hline a b (List.mem_of_mem_head? hb)⟩

/-- The end of a line that has no blank at its end. -/
theorem append_newline (h : LinesTrimmed cs) (hcs : endsBlank cs = false)
    (hds : ∀ c ∈ ds, isLineEnd c = true) : LinesTrimmed (cs ++ ds) := by
  have hnewline : ∀ a ∈ ds, ∀ b ∈ ds, isLineEnd b = true → isPadding a = false :=
    fun a ha _ _ _ => isPadding_of_isLineEnd (hds a ha)
  exact List.isChain_append.mpr ⟨h, (List.pairwise_of_forall_mem_list hnewline).isChain,
    fun a ha _ _ _ => by simpa using (Option.any_eq_false _ _).mp hcs a ha⟩

/-- What stands before a newline does not end in a blank. -/
theorem endsBlank_eq_false {newline after : List Char} (h : LinesTrimmed (cs ++ newline ++ after))
    (hnewline : IsNewline newline) : endsBlank cs = false := by
  obtain ⟨c, front, rfl⟩ := List.exists_cons_of_ne_nil hnewline.ne_nil
  have hend : isLineEnd c = true := hnewline.ends c List.mem_cons_self
  rw [List.append_assoc] at h
  rw [endsBlank, Option.any_eq_false]
  exact fun a ha => by simpa using (List.isChain_append.mp h).2.2 a ha c rfl hend

end LinesTrimmed

/-! ## Steps -/

namespace State

variable {st : State}

/-- **A step leaves the lines trimmed.** -/
theorem linesTrimmed_step (h : LinesTrimmed st.out.text) (hnewline : IsNewline settings.newline.toList)
    (hspelled : st.Holds (Command.Spelled settings (!isLineEnd ·) Doc.keepsTrimmed)) (fuel : Nat) :
    LinesTrimmed (st.step settings fuel).out.text := by
  cases hc : st.commands with
  | nil => rwa [State.step, hc]
  | cons c rest =>
    have hmade := hspelled.commands c (hc ▸ List.mem_cons_self)
    obtain ⟨i, m, item⟩ := c
    cases moves_step settings fuel hc with
    | stay hout | cursor _ hout => rwa [hout]
    | text s hitem hout =>
      cases hitem
      have htrimmed := (hmade.docs _ (List.mem_singleton_self _)).self
      rw [hout, Output.text_append]
      exact h.append_line (by simpa [Doc.keepsTrimmed, Doc.spelledIn, Doc.isLiteral] using htrimmed)
    | space hout =>
      rw [hout, Output.text_append]
      exact h.append_line (List.forall_mem_singleton.mpr rfl)
    | newline hout =>
      -- The blanks before the newline go, and those after it start the next line.
      have hvalue : ∀ c ∈ i.value, isLineEnd c = false :=
        hmade.indentation.forall_mem_value (P := (isLineEnd · = false)) rfl (fun _ => rfl)
          fun s hs c hc => by simpa using hs c hc
      rw [hout, Output.text_append, text_trim, ← List.append_assoc]
      exact (h.trimEnd.append_newline (endsBlank_trimEnd _) hnewline.ends).append_line hvalue
    | literal hitem =>
      cases hitem
      have htrimmed := (hmade.docs _ (List.mem_singleton_self _)).self
      cases htrimmed
    | trim _ hout =>
      rw [hout, text_trim]
      exact h.trimEnd

theorem linesTrimmed_after {d : Doc} (hnewline : IsNewline settings.newline.toList)
    (hd : d.all Doc.keepsTrimmed = true) (turns : Nat) : LinesTrimmed (after settings d turns).out.text := by
  have hspelled : ∀ turns,
      (after settings d turns).Holds (Command.Spelled settings (!isLineEnd ·) Doc.keepsTrimmed) :=
    holds_after (passes_spelled (by decide) fun e he => ((Bool.and_eq_true ..).mp he).1)
      (holds_spelled_start hd Doc.keepsTrimmed_propagateBreaks)
  induction turns with
  | zero => exact List.isChain_nil
  | succ turns ih => exact after_succ settings d turns ▸ linesTrimmed_step ih hnewline (hspelled turns) _

end State

/-- **No trailing blanks.** -/
theorem endsBlank_print {d : Doc} (hnewline : IsNewline settings.newline.toList)
    (hd : d.all Doc.keepsTrimmed = true) :
    let text := (print settings d).formatted.toList
    (∀ before after, text = before ++ settings.newline.toList ++ after → endsBlank before = false) ∧
      endsBlank text = false := by
  intro text
  obtain ⟨turns, htext⟩ : ∃ turns, text = trimEnd (State.after settings d turns).out.text := by
    refine ⟨(State.start d.propagateBreaks).work, ?_⟩
    rw [← String.toList_ofList (l := trimEnd _), ← State.formatted_finish,
      ← State.print_eq_finish_after]
  refine ⟨fun before after hsplit => ?_, htext ▸ endsBlank_trimEnd _⟩
  have htrimmed := (State.linesTrimmed_after hnewline hd turns).trimEnd
  rw [← htext, hsplit] at htrimmed
  exact htrimmed.endsBlank_eq_false hnewline

/-- Blanks of a text, of a line that stays flat, of empty lines and of an alignment, in front of newlines
and of a suffix. -/
theorem endsBlank_print_mixed :
    let settings : Settings := { width := 80, tabWidth := 4, useTabs := true, newline := "\r\n" }
    let d : Doc := .indent (.concat [.text "a \t", Doc.hardline, Doc.hardline,
      Doc.groupOf (.concat [.text "b", Doc.space]), .lineSuffix (.text "// c "), Doc.hardline,
      .align (.text "> ") (.concat [Doc.hardline, .text "d "])])
    (print settings d).formatted = "a\r\n\r\n\tb // c\r\n\r\n\t> d" ∧
      let text := (print settings d).formatted.toList
      (∀ before after, text = before ++ settings.newline.toList ++ after →
        endsBlank before = false) ∧ endsBlank text = false := by
  intro settings d
  exact ⟨by decide +kernel, endsBlank_print ⟨by decide, by simp [isLineEnd, settings]⟩ (by decide)⟩

end Layout

end CodeFormatter
