import CodeFormatter.Proofs.Layout.Characters
import CodeFormatter.Proofs.Layout.Loop
import CodeFormatter.Proofs.Layout.Overflow

/-!
# The column and the line on the screen

The machine keeps a column beside its output. `Settings.columnsOf` counts what a text takes on the
screen: a tab as many columns as a tab is wide, and every other character one.

**Theorem (`exact_after`).** The column is that of the last line, and what the tests are given is what
that line leaves of the page, unless a tab has been removed from the line.

**Where tabs go.** Blanks that are removed count one column each, also tabs. So the column is ahead by
what each removed tab took beyond that, until a newline sets it anew (`LineMoves.ahead`). It takes
tabs for the indentation and a trim in the document to get there.

**Machine words.** The column is counted in a word, and columns that are taken back from a count that has run
over are not the ones that were added. So the lines up to the one in question must be narrower than that, which
only tabs can keep them from: without them, a line is as wide as it has characters.
-/

namespace CodeFormatter

/-- A character that takes one column on the line. -/
def takesOneColumn (c : Char) : Bool := c != '\n' && c != '\t'

theorem newline_notMem_of_oneColumn {cs : List Char} (h : ∀ c ∈ cs, takesOneColumn c = true) :
    '\n' ∉ cs := fun hmem => by simpa [takesOneColumn] using h _ hmem

theorem tab_notMem_of_oneColumn {cs : List Char} (h : ∀ c ∈ cs, takesOneColumn c = true) :
    '\t' ∉ cs := fun hmem => by simpa [takesOneColumn] using h _ hmem

/-- The document removes the blanks before it. -/
def Doc.isTrim : Doc → Bool
  | .trim => true
  | _ => false

@[simp] theorem Doc.isTrim_propagateBreaks (d : Doc) : d.propagateBreaks.isTrim = d.isTrim := by
  cases d <;> simp [isTrim]

namespace Layout

variable {settings : Settings} {cs ds : List Char}

/-! ## Columns -/

/-- The columns that a text takes on the screen. -/
def Settings.columnsOf (settings : Settings) : List Char → Nat
  | [] => 0
  | c :: cs => (if c = '\t' then settings.tabWidth else 1) + settings.columnsOf cs

namespace Settings

@[simp] theorem columnsOf_nil (settings : Settings) : settings.columnsOf [] = 0 := rfl

@[simp] theorem columnsOf_append (settings : Settings) (cs ds : List Char) :
    settings.columnsOf (cs ++ ds) = settings.columnsOf cs + settings.columnsOf ds := by
  induction cs with
  | nil => simp
  | cons c cs ih => rw [List.cons_append, columnsOf, columnsOf, ih, Nat.add_assoc]

/-- Each tab takes the width of a tab instead of one column. -/
theorem columnsOf_add_count (settings : Settings) (cs : List Char) :
    settings.columnsOf cs + cs.count '\t' = cs.length + cs.count '\t' * settings.tabWidth := by
  induction cs with
  | nil => simp
  | cons c cs ih =>
    rw [columnsOf, List.length_cons, List.count_cons]
    by_cases hc : c = '\t'
    · simp only [hc, beq_self_eq_true, if_true, Nat.add_mul]
      omega
    · simp only [hc, beq_iff_eq, if_false, Nat.add_zero]
      omega

theorem columnsOf_of_notMem (settings : Settings) (h : '\t' ∉ cs) :
    settings.columnsOf cs = cs.length := by
  simpa [List.count_eq_zero.mpr h] using settings.columnsOf_add_count cs

theorem columnsOf_spaces (settings : Settings) (n : Nat) :
    settings.columnsOf (List.replicate n ' ') = n := by
  rw [settings.columnsOf_of_notMem (by simp), List.length_replicate]

theorem columnsOf_tabs (settings : Settings) (n : Nat) :
    settings.columnsOf (List.replicate n '\t') = n * settings.tabWidth := by
  have hcount := settings.columnsOf_add_count (List.replicate n '\t')
  rw [List.count_replicate_self, List.length_replicate] at hcount
  omega

/-- Columns are a measure of texts. -/
theorem measure_columnsOf (settings : Settings) : Indentation.Measure settings settings.columnsOf :=
  ⟨settings.columnsOf_append, settings.columnsOf_spaces, fun _ => by simpa using settings.columnsOf_tabs 1⟩

end Settings

/-- The text of an indentation takes as many columns as it is wide, if the texts in it have no tabs. -/
theorem Indentation.Built.columnsOf_value {i : Indentation}
    (h : i.Built settings (IndentPart.SpelledIn takesOneColumn)) :
    .ofNat (settings.columnsOf i.value) = i.width :=
  h.measure_value settings.measure_columnsOf fun _ hs =>
    (settings.columnsOf_of_notMem (tab_notMem_of_oneColumn hs)).trans String.length_toList

/-! ## The last line -/

/-- What stands after the last newline. -/
def lastLine (cs : List Char) : List Char := cs.rtakeWhile (· != '\n')

theorem lastLine_append (cs : List Char) (h : '\n' ∉ ds) : lastLine (cs ++ ds) = lastLine cs ++ ds := by
  have hpos : ∀ c ∈ ds.reverse, (c != '\n') = true := fun c hc => by
    simpa using fun heq : c = '\n' => h (heq ▸ List.mem_reverse.mp hc)
  rw [lastLine, lastLine, List.rtakeWhile, List.reverse_append, List.takeWhile_append_of_pos hpos,
    List.reverse_append, List.reverse_reverse, List.rtakeWhile]

/-- After a newline, the last line is what was written since. -/
theorem lastLine_newline {newline : List Char} (cs : List Char) (hnewline : newline.getLast? = some '\n')
    (h : '\n' ∉ ds) : lastLine (cs ++ (newline ++ ds)) = ds := by
  obtain ⟨front, rfl⟩ := List.getLast?_eq_some_iff.mp hnewline
  have hempty : lastLine (cs ++ (front ++ ['\n'])) = [] := by
    rw [← List.append_assoc]
    exact List.rtakeWhile_concat_neg _ _ _ (by simp)
  rw [← List.append_assoc, lastLine_append _ h, hempty, List.nil_append]

/-- The blanks at the end stand on the last line. -/
theorem lastLine_eq_trimEnd (cs : List Char) :
    lastLine cs = lastLine (trimEnd cs) ++ cs.rtakeWhile isPadding := by
  have hnot : '\n' ∉ cs.rtakeWhile isPadding := fun h => by
    simpa [isPadding] using List.mem_rtakeWhile_imp h
  rw [← lastLine_append _ hnot, trimEnd, List.rdropWhile_append_rtakeWhile]

theorem count_newline_trimEnd (cs : List Char) : (trimEnd cs).count '\n' = cs.count '\n' := by
  have hnone : (cs.rtakeWhile isPadding).count '\n' = 0 := List.count_eq_zero.mpr fun h => by
    simpa [isPadding] using List.mem_rtakeWhile_imp h
  have hsplit : trimEnd cs ++ cs.rtakeWhile isPadding = cs := List.rdropWhile_append_rtakeWhile
  rw [← congrArg (List.count '\n') hsplit, List.count_append, hnone, Nat.add_zero]

/-! ## Exact columns -/

namespace State

variable {st st' : State} {c : Command} {fuel lost : Nat}

/-- The column is that of the last line on the screen. -/
def Exact (settings : Settings) (st : State) : Prop :=
  st.column.toNat = settings.columnsOf (lastLine st.out.text)

instance (settings : Settings) (st : State) : Decidable (st.Exact settings) :=
  inferInstanceAs (Decidable (st.column.toNat = settings.columnsOf (lastLine st.out.text)))

/-- The columns of the last line, and those of `lost` tabs that are gone from it, less the one column each that
has been given back. -/
def columnsWith (settings : Settings) (lost : Nat) (st : State) : Nat :=
  settings.columnsOf (lastLine st.out.text) + lost * (settings.tabWidth - 1)

/-- The column counts `lost` tabs that are gone. -/
def AheadBy (settings : Settings) (lost : Nat) (st : State) : Prop :=
  st.column.toNat = st.columnsWith settings lost

theorem AheadBy.exact (h : st.AheadBy settings lost) (hlost : lost = 0 ∨ settings.tabWidth = 1) :
    st.Exact settings := by
  rcases hlost with hlost | hlost <;> simpa [AheadBy, columnsWith, Exact, hlost] using h

/-- The tabs at the end of the output. -/
def tabsAtEnd (st : State) : Nat := (st.out.text.rtakeWhile isPadding).count '\t'

/-- The tabs that the next command removes without starting a line. -/
def tabsTrimmed (st : State) : Nat :=
  match st.commands with
  | ⟨_, _, .doc .trim⟩ :: _ => st.tabsAtEnd
  | _ => 0

/-- After a trim, the column is off by what the tabs took beyond one column each. -/
theorem AheadBy.trim (h : st.AheadBy settings lost)
    (hwidth : 0 < settings.tabWidth ∨ lost + st.tabsAtEnd = 0) :
    st.trim.AheadBy settings (lost + st.tabsAtEnd) := by
  have hcount := settings.columnsOf_add_count (st.out.text.rtakeWhile isPadding)
  have hcolumn : st.trim.column.toNat =
      st.column.toNat - (st.out.text.rtakeWhile isPadding).length := by
    show (UInt64.ofNat (st.column.toNat - st.out.padding)).toNat = _
    rw [UInt64.toNat_ofNat_of_lt' ((Nat.sub_le ..).trans_lt st.column.toNat_lt_size), st.out.padding_eq]
  rw [AheadBy, columnsWith, lastLine_eq_trimEnd, settings.columnsOf_append] at h
  rw [AheadBy, columnsWith, text_trim, hcolumn, Nat.add_mul]
  rw [tabsAtEnd] at hwidth ⊢
  rcases hwidth with hwidth | hnone
  · obtain ⟨k, hk⟩ := Nat.exists_eq_add_one_of_ne_zero hwidth.ne'
    rw [hk, Nat.add_sub_cancel] at h ⊢
    rw [hk, Nat.mul_succ] at hcount
    omega
  · obtain ⟨hlost, hend⟩ := Nat.add_eq_zero_iff.mp hnone
    rw [hlost] at h
    rw [hend] at hcount
    rw [hlost, hend]
    omega

/-! ## Steps -/

/-- What a step can do to the last line and to the column. -/
inductive LineMoves (settings : Settings) (st st' : State) : Prop
  /-- It writes text on the line, or nothing. -/
  | grows (cs : List Char) : (∀ c ∈ cs, takesOneColumn c = true) → st.tabsTrimmed = 0 →
      st'.out.text = st.out.text ++ cs → st'.column = st.column + .ofNat cs.length →
      LineMoves settings st st'
  /-- It starts a line with an indentation. -/
  | starts (i : Indentation) : i.Built settings (IndentPart.SpelledIn takesOneColumn) →
      st.out.text.count '\n' < st'.out.text.count '\n' → lastLine st'.out.text = i.value →
      st'.column = i.width → LineMoves settings st st'
  | trims : st.tabsTrimmed = st.tabsAtEnd → st'.out = st.trim.out → st'.column = st.trim.column →
      LineMoves settings st st'

/-- The commands that a document with such characters only leads to. -/
abbrev Spelled (settings : Settings) (st : State) : Prop :=
  st.Holds (Command.Spelled settings takesOneColumn (Doc.spelledIn takesOneColumn))

/-- The line that a newline starts is the indentation after it. -/
theorem lineMoves_of_newline {i : Indentation} {out : Output}
    (hnewline : settings.newline.toList.getLast? = some '\n')
    (hi : i.Built settings (IndentPart.SpelledIn takesOneColumn))
    (hcount : out.text.count '\n' = st.out.text.count '\n')
    (hout : st'.out = out.append (settings.newline.toList ++ i.value)) (hcolumn : st'.column = i.width) :
    LineMoves settings st st' := by
  have hvalue : '\n' ∉ i.value := fun hmem =>
    hi.forall_mem_value (P := (· ≠ '\n')) (by decide) (fun _ => by decide)
      (fun s hs c hc heq => by simpa [takesOneColumn, heq] using hs c hc) _ hmem rfl
  have hpos : 0 < settings.newline.toList.count '\n' :=
    List.count_pos_iff.mpr (List.mem_of_getLast? hnewline)
  refine .starts i hi ?_ ?_ hcolumn
  · rw [hout, Output.text_append, List.count_append, List.count_append, hcount]
    omega
  · rw [hout, Output.text_append, lastLine_newline _ hnewline hvalue]

/-- **What a step does to the last line.** -/
theorem lineMoves_step (hnewline : settings.newline.toList.getLast? = some '\n')
    (hspelled : st.Spelled settings) (fuel : Nat) : LineMoves settings st (st.step settings fuel) := by
  cases hc : st.commands with
  | nil =>
    have hsame : st.step settings fuel = st := by simp [State.step, hc]
    rw [hsame]
    exact .grows [] (by simp) (by rw [tabsTrimmed, hc]) (by simp) (UInt64.add_zero _).symm
  | cons c rest =>
    have hmade := hspelled.commands c (hc ▸ List.mem_cons_self)
    obtain ⟨i, m, item⟩ := c
    by_cases htrim : item = .doc .trim
    · subst htrim
      rw [step_eq hc]
      exact .trims (by rw [tabsTrimmed, hc]) (by rw [out_settle]; rfl) (by rw [column_settle]; rfl)
    have hnone : st.tabsTrimmed = 0 := by
      rw [tabsTrimmed, hc]
      split
      · rename_i heq
        cases heq
        exact absurd rfl htrim
      · rfl
    cases moves_step settings fuel hc with
    | stay hout hcolumn | cursor _ hout hcolumn =>
      exact .grows [] (by simp) hnone (by simp [hout]) (hcolumn.trans (UInt64.add_zero _).symm)
    | text s hitem hout hcolumn =>
      cases hitem
      have hs := List.all_eq_true.mp (hmade.docs _ (List.mem_singleton_self _)).self
      have hline := newline_notMem_of_oneColumn hs
      exact .grows s.toList hs hnone (by rw [hout, Output.text_append])
        (hcolumn.trans (columnAfterText_of_notMem _ hline))
    | space hout hcolumn =>
      exact .grows [' '] (List.forall_mem_singleton.mpr rfl) hnone (by rw [hout, Output.text_append]) hcolumn
    | newline hout hcolumn =>
      exact lineMoves_of_newline hnewline hmade.indentation
        (by rw [text_trim, count_newline_trimEnd]) hout hcolumn
    | literal _ hout hcolumn =>
      exact lineMoves_of_newline hnewline hmade.indentation.getD_root rfl hout hcolumn
    | trim hitem => exact absurd hitem htrim

/-- The tabs that are gone from the last line after a step, when `lost` were before it. -/
def lostAfter (st st' : State) (lost : Nat) : Nat :=
  if st'.out.text.count '\n' = st.out.text.count '\n' then lost + st.tabsTrimmed else 0

/-- **A step keeps track of the tabs that are gone**, as long as a word counts that far. -/
theorem LineMoves.ahead (hmoves : LineMoves settings st st')
    (hword : st'.columnsWith settings (lostAfter st st' lost) < UInt64.size)
    (hwidth : 0 < settings.tabWidth ∨ lostAfter st st' lost = 0)
    (h : 0 < settings.tabWidth ∨ lost = 0 → st.AheadBy settings lost) :
    st'.AheadBy settings (lostAfter st st' lost) := by
  cases hmoves with
  | grows cs hcs hnone hout hcolumn =>
    have htab := tab_notMem_of_oneColumn hcs
    have hline := newline_notMem_of_oneColumn hcs
    have hsame : lostAfter st st' lost = lost := by
      rw [lostAfter, hout, List.count_append, List.count_eq_zero.mpr hline, Nat.add_zero, if_pos rfl,
        hnone, Nat.add_zero]
    have hbefore := h (hsame ▸ hwidth)
    have hafter : st'.columnsWith settings lost = st.columnsWith settings lost + cs.length := by
      rw [columnsWith, columnsWith, hout, lastLine_append _ hline, settings.columnsOf_append,
        settings.columnsOf_of_notMem htab]
      omega
    rw [hsame] at hword ⊢
    have hnat : st'.column = .ofNat (st'.columnsWith settings lost) := by
      rw [hcolumn, hafter, UInt64.ofNat_add, ← hbefore, UInt64.ofNat_toNat]
    rw [AheadBy, hnat, UInt64.toNat_ofNat_of_lt' hword]
  | starts i hi hcount hline hcolumn =>
    have hnone : lostAfter st st' lost = 0 := if_neg hcount.ne'
    have hafter : st'.columnsWith settings 0 = settings.columnsOf i.value := by
      rw [columnsWith, hline, Nat.zero_mul, Nat.add_zero]
    rw [hnone, hafter] at hword
    rw [hnone, AheadBy, hafter, hcolumn, ← hi.columnsOf_value, UInt64.toNat_ofNat_of_lt' hword]
  | trims hnext hout hcolumn =>
    have htext : st'.out.text = trimEnd st.out.text := hout ▸ st.text_trim
    have hmore : lostAfter st st' lost = lost + st.tabsAtEnd := by
      rw [lostAfter, htext, count_newline_trimEnd, if_pos rfl, hnext]
    rw [hmore] at hwidth ⊢
    have htrim := (h (hwidth.imp_right fun hnone => by omega)).trim hwidth
    rwa [AheadBy, columnsWith, hout, hcolumn]

/-! ## Where no tab is trimmed -/

theorem tabsTrimmed_of_holds {I : Indentation → Prop}
    (h : st.Holds (Command.Made I (Doc.Every fun e => (!e.isTrim) = true))) : st.tabsTrimmed = 0 := by
  unfold tabsTrimmed
  split
  · rename_i hc
    have hnot := (h.commands _ (hc ▸ List.mem_cons_self)).docs _ (List.mem_singleton_self _)
    cases hnot.self
  · rfl

theorem tabsTrimmed_of_notMem (h : '\t' ∉ lastLine st.out.text) : st.tabsTrimmed = 0 := by
  have hend : st.tabsAtEnd = 0 := List.count_eq_zero.mpr fun hmem =>
    h (lastLine_eq_trimEnd st.out.text ▸ List.mem_append_right _ hmem)
  unfold tabsTrimmed
  split
  · exact hend
  · rfl

/-- Where lines are not indented with tabs, no step writes one. -/
theorem LineMoves.tab_notMem (hmoves : LineMoves settings st st') (ht : settings.useTabs = false)
    (h : '\t' ∉ lastLine st.out.text) : '\t' ∉ lastLine st'.out.text := by
  cases hmoves with
  | grows cs hcs _ hout _ =>
    have htab := tab_notMem_of_oneColumn hcs
    have hline := newline_notMem_of_oneColumn hcs
    rw [hout, lastLine_append _ hline]
    exact List.not_mem_append h htab
  | starts i hi _ hline _ =>
    rw [hline]
    exact fun hmem => hi.forall_mem_value (P := (· ≠ '\t')) (by decide) (fun htabs => by simp [ht] at htabs)
      (fun s hs c hc heq => by simpa [takesOneColumn, heq] using hs c hc) _ hmem rfl
  | trims _ hout _ =>
    have htext : st'.out.text = trimEnd st.out.text := hout ▸ st.text_trim
    rw [htext]
    exact fun hmem => h (lastLine_eq_trimEnd st.out.text ▸ List.mem_append_left _ hmem)

/-! ## Tests -/

/-- What the tests of the next turn are given is what the line on the screen leaves of the page, as long
as that is a number of 63 bits with a sign. -/
def TestsExactly (settings : Settings) (st : State) : Prop :=
  let columns := settings.columnsOf (lastLine st.out.text)
  let room : Int := settings.width - columns
  settings.width < columns + columnLimit → columns ≤ settings.width + columnLimit →
    ∀ (commands : List Command) (remeasure : Bool) (fuel : Nat), let st' := { st with commands, remeasure }
      (∀ d, st'.fitsFlat settings fuel d =
        fits st.modes false fuel room 0 [(.flat, .doc d)] commands) ∧
      ∀ docs, st'.fitsAlone settings fuel docs =
        fits st.modes true fuel room 0 (docs.map (.flat, .doc ·)) []

theorem Exact.testsExactly (h : st.Exact settings) : st.TestsExactly settings := by
  unfold TestsExactly
  intro columns room hwide hlong commands remeasure fuel st'
  have hcolumn : st'.column.toNat = columns := h
  have hroom : st'.remaining settings = room := by
    rw [← hcolumn] at hwide hlong
    exact (remaining_eq hwide hlong).trans (by rw [hcolumn])
  exact ⟨fun d => by rw [fitsFlat, hroom], fun docs => by rw [fitsAlone, hroom]⟩

end State

/-! ## The whole run -/

/-- The tabs that have been removed from the last line, after so many turns. -/
def tabsLost (settings : Settings) (d : Doc) : Nat → Nat
  | 0 => 0
  | turns + 1 =>
    (State.after settings d turns).lostAfter (State.after settings d (turns + 1)) (tabsLost settings d turns)

section Run

variable {d : Doc} (hnewline : settings.newline.toList.getLast? = some '\n')
  (hd : d.all (Doc.spelledIn takesOneColumn) = true)

include hnewline hd

theorem lineMoves_after (turns : Nat) :
    State.LineMoves settings (State.after settings d turns) (State.after settings d (turns + 1)) := by
  have hspelled : (State.after settings d turns).Spelled settings :=
    State.holds_after (passes_spelled rfl fun _ h => h)
      (State.holds_spelled_start hd (Doc.spelledIn_propagateBreaks _)) turns
  exact State.after_succ settings d turns ▸ State.lineMoves_step hnewline hspelled _

theorem ahead_after (turns : Nat)
    (hword : ∀ k ≤ turns,
      (State.after settings d k).columnsWith settings (tabsLost settings d k) < UInt64.size)
    (hwidth : 0 < settings.tabWidth ∨ tabsLost settings d turns = 0) :
    (State.after settings d turns).AheadBy settings (tabsLost settings d turns) := by
  induction turns with
  | zero => simp [State.AheadBy, State.columnsWith, tabsLost, State.after_zero, State.start, lastLine]
  | succ turns ih =>
    exact (lineMoves_after hnewline hd turns).ahead (hword _ le_rfl) hwidth
      (ih fun k hk => hword k (hk.trans turns.le_succ))

/-- Without tabs in the indentation, or without a trim in the document, no tab is removed. -/
theorem tabsTrimmed_after
    (h : settings.useTabs = false ∨ d.all (fun e => !e.isTrim) = true) (turns : Nat) :
    (State.after settings d turns).tabsTrimmed = 0 := by
  rcases h with ht | htrim
  · refine State.tabsTrimmed_of_notMem ?_
    induction turns with
    | zero => exact List.not_mem_nil
    | succ turns ih => exact (lineMoves_after hnewline hd turns).tab_notMem ht ih
  · refine State.tabsTrimmed_of_holds (I := fun _ => True) (State.holds_after ?_ ?_ turns)
    · exact passes_made (.intro rfl (by simp [Doc.children])) (·.of_mem_children) fun _ => trivial
    · exact State.holds_start trivial <| (Doc.every_of_all htrim).propagateBreaks fun e he =>
        (congrArg (!·) e.isTrim_propagateBreaks).trans he

end Run

theorem tabsLost_of_tabsTrimmed {d : Doc}
    (h : ∀ turns, (State.after settings d turns).tabsTrimmed = 0) (turns : Nat) :
    tabsLost settings d turns = 0 := by
  induction turns with
  | zero => rfl
  | succ turns ih => rw [tabsLost, State.lostAfter, ih, h turns, ite_self]

/-- **The column is exact, up to the tabs that were removed from the line**, as long as no line so far has been
wider than a word counts. -/
theorem exact_after {d : Doc} (hnewline : settings.newline.toList.getLast? = some '\n')
    (hd : d.all (Doc.spelledIn takesOneColumn) = true) (turns : Nat) :
    let st := State.after settings d turns
    let lost := tabsLost settings d turns
    ((∀ k ≤ turns,
        (State.after settings d k).columnsWith settings (tabsLost settings d k) < UInt64.size) →
      (lost = 0 ∨ settings.tabWidth = 1 → st.Exact settings ∧ st.TestsExactly settings) ∧
      (0 < settings.tabWidth → st.column.toNat =
        settings.columnsOf (lastLine st.out.text) + lost * (settings.tabWidth - 1))) ∧
    (settings.useTabs = false ∨ d.all (fun e => !e.isTrim) = true → lost = 0) := by
  refine ⟨fun hword => ⟨fun hlost => ?_, fun hwidth => ahead_after hnewline hd turns hword (.inl hwidth)⟩,
    fun hnone => tabsLost_of_tabsTrimmed (tabsTrimmed_after hnewline hd hnone) turns⟩
  have hwidth : 0 < settings.tabWidth ∨ tabsLost settings d turns = 0 :=
    hlost.symm.imp_left fun hone => by omega
  have hexact := (ahead_after hnewline hd turns hword hwidth).exact hlost
  exact ⟨hexact, hexact.testsExactly⟩

/-- The trim takes a space behind the tab. -/
theorem exact_after_space :
    let settings : Settings := { width := 3, tabWidth := 4, useTabs := true, newline := "\n" }
    let d : Doc := .indent (.concat [Doc.hardline, .text "a ", .trim, .text "b"])
    let st := State.after settings d 7
    (∀ k ≤ 7, (State.after settings d k).columnsWith settings (tabsLost settings d k) < UInt64.size) ∧
      st.out.text = ['\n', '\t', 'a'] ∧ st.Exact settings ∧ st.TestsExactly settings := by
  intro settings d st
  have hword : ∀ k ≤ 7,
      (State.after settings d k).columnsWith settings (tabsLost settings d k) < UInt64.size := by
    decide +kernel
  exact ⟨hword, by decide +kernel,
    ((exact_after (by decide) (by decide) 7).1 hword).1 (by decide +kernel)⟩

/-- The trim takes the tab of the indentation. Three columns are left that nothing stands in, so that a
group breaks which fits the page. -/
theorem not_exact_after_tab :
    let settings : Settings := { width := 3, tabWidth := 4, useTabs := true, newline := "\n" }
    let d : Doc := .indent (.concat [Doc.hardline, .trim,
      Doc.groupOf (.concat [.text "a", Doc.space, .text "b"])])
    let st := State.after settings d 6
    d.all (Doc.spelledIn takesOneColumn) = true ∧ ¬ st.Exact settings ∧ st.column = 3 ∧
      settings.columnsOf (lastLine st.out.text) = 0 ∧ st.remaining settings = 0 ∧
      (print settings d).formatted = "\na\n\tb" := by
  decide +kernel

end Layout

end CodeFormatter
