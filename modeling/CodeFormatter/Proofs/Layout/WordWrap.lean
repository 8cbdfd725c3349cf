import CodeFormatter.Proofs.Layout.Alignment
import CodeFormatter.Proofs.Layout.Columns
import CodeFormatter.Proofs.Layout.FlatGroups

/-!
# Fills wrap words

A fill of words with lines between them is the wrapping of a paragraph. `wrapLines` says what greedy
wrapping is, on the lines themselves: the next word goes on the line, behind what separates it, if the
line is no wider than the page then, and otherwise on a line of its own behind the margin.

**Theorem (`formatted_fill`).** A fill in any number of levels is printed as these lines, and none is
wider than the page unless a word behind the margin is.

The machine decides before a word, by a test of the word, the separator and the word after it. The
invariant of `text_run_fill` therefore stands between a separator and a word: the column is that of
the line so far, and either the line fits or nothing stands on it but the margin.

**Margins beyond the limit.** The columns that are left are a signed number, so that the margin may be
`columnLimit` columns wider than the page, but no more. Behind a wider one words fit that do not
(`not_wrapped`).
-/

namespace CodeFormatter

/-- The words, with the separators between them. -/
def Doc.wordParts (first : String) (rest : List (LineKind × String)) : List Doc :=
  .text first :: rest.flatMap fun p => [.line p.1, .text p.2]

namespace Layout

/-- Something stands in the word, but no blank and no newline. -/
structure IsWord (s : String) : Prop where
  ne_nil : s.toList ≠ []
  solid : ∀ c ∈ s.toList, isPadding c = false
  inline : '\n' ∉ s.toList

instance (s : String) : Decidable (IsWord s) :=
  decidable_of_iff (s.toList ≠ [] ∧ s.toList.all (!isPadding ·) = true ∧ '\n' ∉ s.toList)
    ⟨fun h => ⟨h.1, by simpa using h.2.1, h.2.2⟩, fun h => ⟨h.1, by simpa using h.2, h.3⟩⟩

variable {settings : Settings} {margin line : List Char} {kind : LineKind} {word next : String}
  {rest : List (LineKind × String)}

namespace IsWord

theorem columnsOf (h : IsWord word) (settings : Settings) :
    settings.columnsOf word.toList = word.toList.length :=
  settings.columnsOf_of_notMem fun htab => by simpa [isPadding] using h.solid _ htab

/-- A word at the end of a text is not trimmed. -/
theorem trimEnd_append (h : IsWord word) (cs : List Char) :
    trimEnd (cs ++ word.toList) = cs ++ word.toList := by
  have hword : trimEnd word.toList = word.toList := List.rdropWhile_eq_self_iff.mpr fun hne => by
    simp [h.solid _ (List.getLast_mem hne)]
  rw [Layout.trimEnd_append, hword, if_neg h.ne_nil]

theorem oneLine (h : IsWord word) : (Doc.text word).OneLine :=
  .intro ⟨rfl, by simpa [Doc.staysOnLine] using h.inline⟩ nofun

end IsWord

theorem oneLine_separator (h : kind.isHard = false) : (Doc.line kind).OneLine :=
  .intro ⟨h, rfl⟩ nofun

theorem columnsOf_flatText (settings : Settings) (kind : LineKind) :
    settings.columnsOf kind.flatText = kind.flatText.length :=
  settings.columnsOf_of_notMem (by cases kind <;> decide)

/-! ## Greedy wrapping -/

/-- The lines of the text that starts with `line`. -/
def wrapLines (settings : Settings) (margin line : List Char) :
    List (LineKind × String) → List (List Char)
  | [] => [line]
  | (separator, word) :: rest =>
    let longer := line ++ separator.flatText ++ word.toList
    if settings.columnsOf longer ≤ settings.width then wrapLines settings margin longer rest
    else line :: wrapLines settings margin (margin ++ word.toList) rest

theorem wrapLines_ne_nil : wrapLines settings margin line rest ≠ [] := by
  fun_induction wrapLines settings margin line rest with
  | case1 => simp
  | case2 _ _ _ _ _ _ ih => exact ih
  | case3 => simp

/-- **No line is wider than the page**, or than a word behind the margin. -/
theorem columnsOf_le_of_mem_wrapLines {longest : Nat}
    (hwords : ∀ p ∈ rest, IsWord p.2 ∧ p.2.length ≤ longest)
    (hline : settings.columnsOf line ≤ max settings.width (settings.columnsOf margin + longest)) :
    ∀ l ∈ wrapLines settings margin line rest,
      settings.columnsOf l ≤ max settings.width (settings.columnsOf margin + longest) := by
  fun_induction wrapLines settings margin line rest with
  | case1 line => simpa using hline
  | case2 line separator word rest longer hfits ih =>
    exact ih (fun p hp => hwords p (List.mem_cons_of_mem _ hp)) (hfits.trans (le_max_left ..))
  | case3 line separator word rest longer hfits ih =>
    obtain ⟨hword, hlength⟩ := hwords _ List.mem_cons_self
    have hnext : settings.columnsOf (margin ++ word.toList) ≤ settings.columnsOf margin + longest := by
      rw [settings.columnsOf_append, hword.columnsOf, String.length_toList]
      exact Nat.add_le_add_left hlength _
    exact List.forall_mem_cons.mpr ⟨hline,
      ih (fun p hp => hwords p (List.mem_cons_of_mem _ hp)) (hnext.trans (le_max_right ..))⟩

/-! ## The machine -/

namespace State

variable {fuel : Nat} {i : Indentation} {out : Output} {column : UInt64}

/-- In the middle of a fill. -/
def filling (out : Output) (column : UInt64) (commands : List Command) : State :=
  { out, column, commands, suffixes := [], modes := [], remeasure := false, cursors := [] }

/-- The last word. -/
theorem run_lastWord (settings : Settings) (fuel : Nat) (i : Indentation) (out : Output) (column : UInt64)
    (word : String) :
    ((filling out column [⟨i, .broken, .fillRest [.text word]⟩]).run settings (fuel + 2)).out =
      out.append word.toList := by
  have hrun : (filling out column [⟨i, .broken, .fillRest [.text word]⟩]).run settings (fuel + 2) =
      (filling (out.append word.toList) (columnAfterText column word.toList) []).run settings fuel :=
    (run_succ rfl rfl rfl).trans (run_succ rfl rfl rfl)
  rw [hrun, run_of_commands_nil rfl]
  rfl

/-- A word is printed, and then the separator. -/
theorem run_word (settings : Settings) (fuel : Nat) (i : Indentation) (out : Output) (column : UInt64)
    (mode mode' : Mode) (commands : List Command) :
    (filling out column
        (⟨i, mode', .doc (.text word)⟩ :: ⟨i, mode, .doc (.line kind)⟩ :: commands)).run settings
          (fuel + 2) =
      ((filling (out.append word.toList) (columnAfterText column word.toList) commands).printLine
        settings i mode kind).run settings fuel := by
  have hquiet : ∀ out column,
      ((filling out column commands).printLine settings i mode kind).suffixes = [] := by
    intro out column
    cases mode <;> cases kind <;> rfl
  exact (run_succ rfl rfl rfl).trans (run_succ rfl rfl (hquiet _ _))

/-- A word and the separator after it, when the next word fits behind them. -/
theorem exists_run_of_fits (i : Indentation) (rest : List (LineKind × String)) (hkind : kind.isHard = false)
    (hfits : (filling out column []).fitsAlone settings (fuel + 4)
      [.text word, .line kind, .text next] = true) :
    ∃ out', out'.text = out.text ++ word.toList ++ kind.flatText ∧
      (filling out column [⟨i, .broken, .fillRest (Doc.wordParts word ((kind, next) :: rest))⟩]).run
          settings (fuel + 3) =
        (filling out' (columnAfterText column word.toList + .ofNat kind.flatText.length)
          [⟨i, .broken, .fillRest (Doc.wordParts next rest)⟩]).run settings fuel := by
  have hopen : (filling out column []).perform settings (fuel + 4)
      ⟨i, .broken, .fillRest (Doc.wordParts word ((kind, next) :: rest))⟩ =
        filling out column [⟨i, .flat, .doc (.text word)⟩, ⟨i, .flat, .doc (.line kind)⟩,
          ⟨i, .broken, .fillRest (Doc.wordParts next rest)⟩] := by
    simp only [perform, Doc.wordParts, List.flatMap_cons, List.cons_append, List.nil_append, printFill,
      hfits, if_true]
    rfl
  rw [run_succ rfl hopen rfl, run_word settings fuel i out column .flat .flat]
  cases kind with
  | soft =>
    refine ⟨out.append word.toList, by simp [LineKind.flatText], ?_⟩
    rw [show UInt64.ofNat LineKind.soft.flatText.length = 0 from rfl, UInt64.add_zero]
    rfl
  | normal => exact ⟨(out.append word.toList).append [' '], by simp [LineKind.flatText], rfl⟩
  | hard | literal => cases hkind

/-- A word and a newline after it, when the next word does not fit behind them. -/
theorem exists_run_of_not_fits (i : Indentation) (rest : List (LineKind × String))
    (hkind : kind.isHard = false) (hword : IsWord word)
    (hfits : (filling out column []).fitsAlone settings (fuel + 4)
      [.text word, .line kind, .text next] = false) :
    ∃ out', out'.text = out.text ++ word.toList ++ settings.newline.toList ++ i.value ∧
      (filling out column [⟨i, .broken, .fillRest (Doc.wordParts word ((kind, next) :: rest))⟩]).run
          settings (fuel + 3) =
        (filling out' i.width [⟨i, .broken, .fillRest (Doc.wordParts next rest)⟩]).run settings fuel := by
  obtain ⟨mode, hopen⟩ : ∃ mode, (filling out column []).perform settings (fuel + 4)
      ⟨i, .broken, .fillRest (Doc.wordParts word ((kind, next) :: rest))⟩ =
        filling out column [⟨i, mode, .doc (.text word)⟩, ⟨i, .broken, .doc (.line kind)⟩,
          ⟨i, .broken, .fillRest (Doc.wordParts next rest)⟩] := by
    refine ⟨if (filling out column []).fitsAlone settings (fuel + 4) [.text word] then .flat
      else .broken, ?_⟩
    simp only [perform, Doc.wordParts, List.flatMap_cons, List.cons_append, List.nil_append, printFill,
      hfits, Bool.false_eq_true, if_false]
    rfl
  rw [run_succ rfl hopen rfl, run_word settings fuel i out column .broken mode]
  refine ⟨(out.append word.toList).trim.append (settings.newline.toList ++ i.value), ?_, ?_⟩
  · rw [Output.text_append, Output.text_trim, Output.text_append, hword.trimEnd_append,
      List.append_assoc _ settings.newline.toList]
  · cases kind with
    | soft | normal => rfl
    | hard | literal => cases hkind

/-- The test before a word measures what the line would be with the next word on it. -/
theorem fitsAlone_eq_columnsOf (fuel : Nat) (out : Output) (hlimit : settings.width < columnLimit)
    (hcolumn : settings.columnsOf line ≤ settings.width + columnLimit) (hword : IsWord word)
    (hkind : kind.isHard = false) (hnext : IsWord next) :
    (filling out (.ofNat (settings.columnsOf line)) []).fitsAlone settings (fuel + 4)
        [.text word, .line kind, .text next] =
      decide (settings.columnsOf (line ++ word.toList ++ kind.flatText ++ next.toList) ≤
        settings.width) := by
  have hparts : ∀ d ∈ [Doc.text word, .line kind, .text next], d.OneLine := by
    simp [hword.oneLine, oneLine_separator hkind, hnext.oneLine]
  have hwork : Doc.workAll [.text word, .line kind, .text next] < fuel + 4 := by
    simp only [Doc.workAll, Doc.work]
    omega
  have hword' : settings.columnsOf line < UInt64.size := by
    unfold columnLimit at hlimit hcolumn
    unfold UInt64.size
    omega
  have hnat : (filling out (.ofNat (settings.columnsOf line)) []).column.toNat = settings.columnsOf line :=
    UInt64.toNat_ofNat_of_lt' hword'
  rw [fitsAlone_eq_of_flat (List.forall_mem_nil _) hparts (hlimit.trans_le (Nat.le_add_left ..))
    (hnat.trans_le hcolumn) hwork, hnat]
  simp only [Settings.columnsOf_append, hword.columnsOf, columnsOf_flatText, hnext.columnsOf,
    List.flatMap_cons, List.flatMap_nil, Doc.flatText, List.length_append, List.length_nil, Nat.add_zero,
    Nat.add_assoc]

/-- **The machine wraps words.** Behind a separator, or at the start of a line, it prints what is left of
a fill as greedy wrapping does. -/
theorem text_run_fill {done : List Char} (hmargin : i.width = .ofNat (settings.columnsOf i.value))
    (hlimit : settings.width < columnLimit)
    (hwide : settings.columnsOf i.value ≤ settings.width + columnLimit)
    (hword : IsWord word) (hrest : ∀ p ∈ rest, p.1.isHard = false ∧ IsWord p.2)
    (hout : out.text = done ++ line)
    (hline : settings.columnsOf line ≤ settings.width ∨
      settings.columnsOf line = settings.columnsOf i.value)
    (hfuel : 3 * rest.length + 2 ≤ fuel) :
    ((filling out (.ofNat (settings.columnsOf line))
        [⟨i, .broken, .fillRest (Doc.wordParts word rest)⟩]).run settings fuel).out.text =
      done ++ settings.newline.toList.intercalate
        (wrapLines settings i.value (line ++ word.toList) rest) := by
  induction rest generalizing word out done line fuel with
  | nil =>
    obtain ⟨fuel, rfl⟩ := Nat.exists_eq_add_of_le' hfuel
    rw [Doc.wordParts, List.flatMap_nil, List.length_nil, Nat.mul_zero, Nat.zero_add, run_lastWord,
      Output.text_append, hout]
    simp [wrapLines]
  | cons p rest ih =>
    obtain ⟨kind, next⟩ := p
    obtain ⟨hfirst, hrest⟩ := List.forall_mem_cons.mp hrest
    obtain ⟨hkind, hnext⟩ : kind.isHard = false ∧ IsWord next := hfirst
    rw [List.length_cons] at hfuel
    obtain ⟨fuel, rfl⟩ := Nat.exists_eq_add_of_le' (show 3 ≤ fuel by omega)
    have htest := fitsAlone_eq_columnsOf fuel out hlimit
      (show settings.columnsOf line ≤ settings.width + columnLimit by omega) hword hkind hnext
    rw [wrapLines]
    split
    · rename_i hfits
      obtain ⟨out', hout', hrun⟩ := exists_run_of_fits i rest hkind (htest.trans (decide_eq_true hfits))
      have hcolumn : columnAfterText (.ofNat (settings.columnsOf line)) word.toList +
          .ofNat kind.flatText.length =
            .ofNat (settings.columnsOf (line ++ word.toList ++ kind.flatText)) := by
        rw [columnAfterText_of_notMem _ hword.inline, settings.columnsOf_append,
          settings.columnsOf_append, hword.columnsOf, columnsOf_flatText, UInt64.ofNat_add,
          UInt64.ofNat_add]
      rw [settings.columnsOf_append] at hfits
      rw [hrun, hcolumn]
      exact ih hnext hrest (by simp [hout', hout]) (.inl (by omega)) (by omega)
    · rename_i hfits
      obtain ⟨out', hout', hrun⟩ :=
        exists_run_of_not_fits i rest hkind hword (htest.trans (decide_eq_false hfits))
      have hstart : out'.text = done ++ line ++ word.toList ++ settings.newline.toList ++ i.value := by
        rw [hout', hout]
      rw [hrun, hmargin, ih hnext hrest hstart (.inr rfl) (by omega),
        List.intercalate_cons_of_ne_nil wrapLines_ne_nil]
      simp only [List.append_assoc]

end State

/-! ## The whole layout -/

/-- The last line ends in a word. -/
theorem exists_intercalate_wrapLines (settings : Settings) (newline margin line : List Char)
    (hword : IsWord word) (hrest : ∀ p ∈ rest, IsWord p.2) :
    ∃ front last, IsWord last ∧
      newline.intercalate (wrapLines settings margin (line ++ word.toList) rest) = front ++ last.toList := by
  induction rest generalizing line word with
  | nil => exact ⟨line, word, hword, by simp [wrapLines]⟩
  | cons p rest ih =>
    obtain ⟨hnext, hrest⟩ := List.forall_mem_cons.mp hrest
    rw [wrapLines]
    split
    · exact ih _ hnext hrest
    · obtain ⟨front, last, hlast, heq⟩ := ih margin hnext hrest
      refine ⟨line ++ word.toList ++ newline ++ front, last, hlast, ?_⟩
      rw [List.intercalate_cons_of_ne_nil wrapLines_ne_nil, heq, List.append_assoc _ front]

theorem work_fill (first : String) (rest : List (LineKind × String)) :
    (Doc.fill (Doc.wordParts first rest)).work = 4 * rest.length + 3 := by
  induction rest with
  | nil => rfl
  | cons p rest ih =>
    simp only [Doc.wordParts, List.flatMap_cons, List.cons_append, List.nil_append, Doc.work, Doc.workAll,
      List.length_cons] at ih ⊢
    omega

theorem oneLine_fill (hword : IsWord word) (hrest : ∀ p ∈ rest, p.1.isHard = false ∧ IsWord p.2) :
    (Doc.fill (Doc.wordParts word rest)).OneLine := by
  have hparts : ∀ d ∈ Doc.wordParts word rest, d.OneLine := by
    refine List.forall_mem_cons.mpr ⟨hword.oneLine, fun d hd => ?_⟩
    obtain ⟨p, hp, hd⟩ := List.mem_flatMap.mp hd
    rcases List.mem_pair.mp hd with rfl | rfl
    · exact oneLine_separator (hrest p hp).1
    · exact (hrest p hp).2.oneLine
  refine .intro ⟨?_, rfl⟩ hparts
  rw [Doc.willBreak, Doc.anyWillBreak_eq, List.any_eq_false]
  exact fun d hd => by simp [(hparts d hd).willBreak]

/-- The margin of `k` levels is `k` tabs wide. -/
theorem columnsOf_levels (settings : Settings) (k : Nat) :
    settings.columnsOf (Indentation.levels settings k) = k * settings.tabWidth := by
  unfold Indentation.levels
  split
  · exact settings.columnsOf_tabs k
  · exact settings.columnsOf_spaces _

theorem ofQueue_levels (settings : Settings) (k : Nat) :
    Indentation.ofQueue settings (List.replicate k .level) none =
      ⟨Indentation.levels settings k, .ofNat (k * settings.tabWidth), List.replicate k .level, none⟩ := by
  simp [Indentation.ofQueue, Indentation.foldl_add_levels]

/-- A fill is printed at the indentation of its levels. -/
theorem run_fill (settings : Settings) (k fuel : Nat) (parts : List Doc) :
    (State.start (Nat.repeat Doc.indent k (.fill parts))).run settings (fuel + 1 + k) =
      (State.filling .empty 0 [⟨⟨Indentation.levels settings k, .ofNat (k * settings.tabWidth),
        List.replicate k .level, none⟩, .broken, .fillRest parts⟩]).run settings (fuel + 1) := by
  rw [← ofQueue_levels]
  exact State.run_levels settings k (.fill parts) [] (fuel + 1)

/-- **A fill is greedy word wrap.** -/
theorem formatted_fill (settings : Settings) (k : Nat) (first : String)
    (rest : List (LineKind × String)) (hlimit : settings.width < columnLimit)
    (hmargin : k * settings.tabWidth ≤ settings.width + columnLimit) (hfirst : IsWord first)
    (hrest : ∀ p ∈ rest, p.1.isHard = false ∧ IsWord p.2) :
    let lines := wrapLines settings (Indentation.levels settings k) first.toList rest
    (print settings (Nat.repeat Doc.indent k (.fill (Doc.wordParts first rest)))).formatted =
        String.ofList (settings.newline.toList.intercalate lines) ∧
      ∀ longest, (∀ w ∈ first :: rest.map (·.2), w.length ≤ longest) →
        ∀ l ∈ lines, settings.columnsOf l ≤ max settings.width (k * settings.tabWidth + longest) := by
  refine ⟨?_, fun longest hlongest => ?_⟩
  · obtain ⟨front, last, hlast, hend⟩ := exists_intercalate_wrapLines settings settings.newline.toList
      (Indentation.levels settings k) [] hfirst fun p hp => (hrest p hp).2
    have htext : ((State.filling .empty (.ofNat (settings.columnsOf [])) [⟨⟨Indentation.levels settings k,
        .ofNat (k * settings.tabWidth), List.replicate k .level, none⟩, .broken,
        .fillRest (Doc.wordParts first rest)⟩]).run settings (4 * rest.length + 2 + 1)).out.text =
          [] ++ settings.newline.toList.intercalate
            (wrapLines settings (Indentation.levels settings k) ([] ++ first.toList) rest) :=
      State.text_run_fill (congrArg UInt64.ofNat (columnsOf_levels settings k).symm) hlimit
        ((columnsOf_levels settings k).trans_le hmargin) hfirst hrest rfl
        (.inl (Nat.zero_le _)) (by omega)
    rw [settings.columnsOf_nil, show UInt64.ofNat 0 = 0 from rfl, hend] at htext
    rw [print, propagateBreaks_levels, (oneLine_fill hfirst hrest).propagateBreaks_eq.1, work_levels,
      work_fill, run_fill, State.formatted_finish, htext, List.nil_append, hlast.trimEnd_append, ← hend,
      List.nil_append]
  · obtain ⟨hlength, hlengths⟩ := List.forall_mem_cons.mp hlongest
    rw [← columnsOf_levels]
    refine columnsOf_le_of_mem_wrapLines (fun p hp => ⟨(hrest p hp).2, ?_⟩) ?_
    · exact hlengths _ (List.mem_map_of_mem hp)
    · rw [hfirst.columnsOf, String.length_toList]
      omega

/-- A word that is too wide for its line, after separators of both kinds. -/
theorem formatted_fill_tabs :
    let settings : Settings := { width := 7, tabWidth := 4, useTabs := true, newline := "\n" }
    let rest : List (LineKind × String) :=
      [(.normal, "bb"), (.soft, "cc"), (.normal, "dddddd"), (.normal, "e")]
    let lines := wrapLines settings (Indentation.levels settings 1) ['a', 'a'] rest
    (print settings (Nat.repeat Doc.indent 1 (.fill (Doc.wordParts "aa" rest)))).formatted =
        "aa bbcc\n\tdddddd\n\te" ∧
      ∀ l ∈ lines, settings.columnsOf l ≤ max 7 (1 * 4 + 6) := by
  intro settings rest lines
  obtain ⟨hformatted, hlines⟩ := formatted_fill settings 1 "aa" rest
    (by decide) (by decide) (by decide) (by decide)
  exact ⟨hformatted.trans (by decide +kernel), hlines 6 (by decide)⟩

/-- Behind a tab that is as wide as a number can be, words are put on a line that is full. -/
theorem not_wrapped :
    let settings : Settings :=
      { width := 1, tabWidth := 18446744073709551600, useTabs := true, newline := "\n" }
    let rest : List (LineKind × String) := [(.normal, "b"), (.normal, "c")]
    let lines := wrapLines settings (Indentation.levels settings 1) ['a'] rest
    IsWord "a" ∧ (∀ p ∈ rest, p.1.isHard = false ∧ IsWord p.2) ∧ settings.width < columnLimit ∧
      String.ofList (settings.newline.toList.intercalate lines) = "a\n\tb\n\tc" ∧
      (print settings (Nat.repeat Doc.indent 1 (.fill (Doc.wordParts "a" rest)))).formatted =
        "a\n\tb c" := by
  decide +kernel

end Layout

end CodeFormatter
