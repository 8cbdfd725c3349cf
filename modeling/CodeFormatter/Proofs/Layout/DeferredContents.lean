import CodeFormatter.Proofs.Layout.Deferral
import CodeFormatter.Proofs.Layout.Selection

/-!
# Deferred text is written

A line suffix is put in the queue, comes back when its line is about to end, and is then printed like any
other text. This module proves that nothing of it gets lost on the way.

**Invariant (`Tracker.Complete`).** What has been written of a queued suffix, and any selection of what is
left of it on the stack and in the queue, is together a selection of its contents. The suffix is queued with
all its contents left (`Moves.complete`), and at the end of a run nothing is left.

**Theorem (`deferred_ends_line`).** Text of a suffix ends its line, the suffixes are written in the order in
which they were queued, and all of their contents is.
-/

namespace CodeFormatter.Layout

/-! ## What comes from one origin -/

/-- The pieces of origin `o`. -/
def piecesFrom (o : Origin) (stamps : List (Origin × Piece)) : List Piece :=
  (stamps.filter (·.1 = o)).map (·.2)

/-- The documents that commands of origin `o` have to print. -/
def docsFrom (o : Origin) (xs : List (Origin × Command)) : List Doc :=
  (xs.filter (·.1 = o)).flatMap (·.2.item.docs)

@[simp] theorem piecesFrom_append (o : Origin) (ss ss' : List (Origin × Piece)) :
    piecesFrom o (ss ++ ss') = piecesFrom o ss ++ piecesFrom o ss' := by
  simp [piecesFrom]

theorem piecesFrom_map (o o' : Origin) (pieces : List Piece) :
    piecesFrom o (pieces.map (o', ·)) = if o' = o then pieces else [] := by
  by_cases h : o' = o <;> simp [piecesFrom, List.filter_map, Function.comp_def, h]

@[simp] theorem docsFrom_nil (o : Origin) : docsFrom o [] = [] := rfl

@[simp] theorem docsFrom_append (o : Origin) (xs ys : List (Origin × Command)) :
    docsFrom o (xs ++ ys) = docsFrom o xs ++ docsFrom o ys := by
  simp [docsFrom]

theorem docsFrom_cons (o o' : Origin) (c : Command) (xs : List (Origin × Command)) :
    docsFrom o ((o', c) :: xs) = (if o' = o then c.item.docs else []) ++ docsFrom o xs := by
  by_cases h : o' = o <;> simp [docsFrom, h]

theorem docsFrom_map (o o' : Origin) (new : List Command) :
    docsFrom o (new.map (o', ·)) = if o' = o then new.flatMap (·.item.docs) else [] := by
  by_cases h : o' = o <;>
    simp [docsFrom, List.filter_map, Function.comp_def, List.flatMap_map, h]

theorem docsFrom_eq_nil {o : Origin} {xs : List (Origin × Command)} (h : ∀ x ∈ xs, x.1 ≠ o) :
    docsFrom o xs = [] := by
  rw [docsFrom, List.filter_eq_nil_iff.mpr fun x hx => by simpa using h x hx, List.flatMap_nil]

namespace Tracker

variable {settings : Settings} {n : Nat} {st : State} {t : Tracker} {o : Origin}
  {c : Command} {tracked : List (Origin × Command)}

/-- What is left to print of origin `o`. -/
def left (t : Tracker) (o : Origin) : List Doc := docsFrom o t.commands ++ docsFrom o t.suffixes

/-- Nothing of a queued suffix is lost: what has been written of it and what is left make up its
contents. -/
structure Complete (t : Tracker) : Prop where
  selects : ∀ n d, t.queued[n]? = some d → ∀ ts, Selects (t.left (.suffix n)) ts →
    Selects [d] (textsOf (piecesFrom (.suffix n) t.written) ++ ts)
  unused : ∀ n, t.queued.length ≤ n → piecesFrom (.suffix n) t.written = []

/-! ## One step -/

/-- Numbers are given to suffixes that have been queued. -/
theorem Orderly.left_eq_nil (h : t.Orderly st) (hn : t.queued.length ≤ n) : t.left (.suffix n) = [] := by
  have hnone : ∀ x ∈ t.commands ++ t.suffixes, x.1 ≠ .suffix n := by
    intro x hx heq
    refine absurd (h.counted.lt n ?_) (Nat.not_lt.mpr hn)
    rw [numbers, List.append_assoc, ← numbersOf_append, ← List.map_append]
    refine List.mem_append_right _ (List.mem_filterMap.mpr ⟨x.1, List.mem_map_of_mem hx, ?_⟩)
    rw [heq]
    rfl
  rw [left, ← docsFrom_append]
  exact docsFrom_eq_nil hnone

/-- The waiting suffixes may come first: what is on the stack is not of their numbers. -/
theorem Orderly.left_comm (h : t.Orderly st) (n : Nat) :
    docsFrom (.suffix n) t.suffixes ++ docsFrom (.suffix n) t.commands = t.left (.suffix n) := by
  obtain ⟨above, below, hstack, _⟩ := h.stacked
  rw [left]
  by_cases habove : above = []
  · have hcode : docsFrom (.suffix n) t.commands = [] := by
      refine docsFrom_eq_nil fun x hx => ?_
      rw [hstack.split, habove, List.nil_append] at hx
      simp [hstack.below_eq x hx]
    rw [hcode, List.append_nil, List.nil_append]
  · have hnested : docsFrom (.suffix n) t.suffixes = [] :=
      docsFrom_eq_nil fun x hx => by simp [hstack.nested habove x hx]
    rw [hnested, List.append_nil, List.nil_append]

theorem left_of_commands (ht : t.commands = (o, c) :: tracked) (o' : Origin) :
    t.left o' = (if o = o' then c.item.docs else []) ++
      (docsFrom o' tracked ++ docsFrom o' t.suffixes) := by
  rw [left, ht, docsFrom_cons, List.append_assoc]

/-- Others take the place of a command, and its own texts are written. -/
theorem Complete.opened (h : t.Complete) (ho : t.Orderly st) (ht : t.commands = (o, c) :: tracked)
    {new : List Command} (hopen : new.flatMap (·.item.docs) ∈ c.item.openings) {pieces : List Piece}
    (hpieces : textsOf pieces = c.item.ownTexts) (newline : List Char) :
    { t.write newline o pieces with commands := new.map (o, ·) ++ tracked }.Complete := by
  have hleft : ∀ o', docsFrom o' (new.map (o, ·) ++ tracked) ++ docsFrom o' t.suffixes =
      (if o = o' then new.flatMap (·.item.docs) else []) ++
        (docsFrom o' tracked ++ docsFrom o' t.suffixes) := by
    intro o'
    rw [docsFrom_append, docsFrom_map, List.append_assoc]
  refine ⟨fun n d hd ts hts => ?_, fun n hn => ?_⟩
  · have hts : Selects (docsFrom (.suffix n) (new.map (o, ·) ++ tracked) ++
        docsFrom (.suffix n) t.suffixes) ts := hts
    have hselects := h.selects n d hd
    rw [left_of_commands ht] at hselects
    rw [hleft] at hts
    show Selects [d] (textsOf (piecesFrom _ (t.written ++ pieces.map (o, ·))) ++ ts)
    rw [piecesFrom_append, piecesFrom_map, textsOf_append]
    by_cases heq : o = .suffix n
    · rw [if_pos heq] at hts hselects ⊢
      rw [hpieces, List.append_assoc]
      exact hselects _ (State.selects_of_mem_openings hopen hts)
    · rw [if_neg heq] at hts hselects ⊢
      have hnone : textsOf [] = [] := rfl
      rw [hnone, List.append_nil]
      exact hselects ts hts
  · have hne : o ≠ .suffix n := by
      rintro rfl
      have hmem : n ∈ t.numbers := by
        rw [numbers_eq ht]
        simp [numbersOf, Origin.number?]
      exact absurd (ho.counted.lt n hmem) (Nat.not_lt.mpr hn)
    show piecesFrom _ (t.written ++ pieces.map (o, ·)) = []
    rw [piecesFrom_append, piecesFrom_map, if_neg hne, h.unused n hn, List.append_nil]

/-- A suffix is queued with all of its contents left. -/
theorem Complete.deferred (h : t.Complete) (ho : t.Orderly st) (ht : t.commands = (o, c) :: tracked)
    {d : Doc} (hitem : c.item = .doc (.lineSuffix d)) :
    { t with
      commands := tracked
      suffixes := t.suffixes ++ [(o.inside t.queued.length, ⟨c.indentation, c.mode, .doc d⟩)]
      queued := o.queue t.queued d : Tracker }.Complete := by
  have hleft : ∀ o', docsFrom o' tracked ++
      docsFrom o' (t.suffixes ++ [(o.inside t.queued.length, ⟨c.indentation, c.mode, .doc d⟩)]) =
        docsFrom o' tracked ++ docsFrom o' t.suffixes ++
          if o.inside t.queued.length = o' then [d] else [] := by
    intro o'
    rw [docsFrom_append, docsFrom_cons, docsFrom_nil, List.append_nil, List.append_assoc]
    rfl
  have hbefore := left_of_commands ht
  by_cases hcode : o = .code
  · subst hcode
    refine ⟨fun n e he ts hts => ?_, fun n hn => h.unused n ?_⟩
    · have hts : Selects (docsFrom (.suffix n) tracked ++ docsFrom (.suffix n) _) ts := hts
      have he : (t.queued ++ [d])[n]? = some e := he
      rw [hleft] at hts
      have hrest := hbefore (.suffix n)
      rw [if_neg (by rintro ⟨⟩), List.nil_append] at hrest
      rw [← hrest] at hts
      rcases lt_or_ge n t.queued.length with hlt | hge
      · rw [List.getElem?_append_left hlt] at he
        have hother : Origin.inside t.queued.length .code ≠ .suffix n := fun heq =>
          hlt.ne' (Origin.suffix.inj heq)
        rw [if_neg hother, List.append_nil] at hts
        exact h.selects n e he ts hts
      · obtain ⟨rfl, rfl⟩ : n = t.queued.length ∧ d = e := by
          rw [List.getElem?_append_right hge, List.getElem?_singleton] at he
          split at he
          · exact ⟨by omega, Option.some.inj he⟩
          · cases he
        rw [ho.left_eq_nil le_rfl, List.nil_append, Origin.inside, if_pos rfl] at hts
        show Selects [d] (textsOf (piecesFrom _ t.written) ++ ts)
        rw [h.unused _ le_rfl]
        exact hts
    · have hn : (t.queued ++ [d]).length ≤ n := hn
      rw [List.length_append] at hn
      exact (Nat.le_add_right _ 1).trans hn
  · rw [Origin.queue_of_ne_code _ _ hcode]
    refine ⟨fun n e he ts hts => h.selects n e he ts ?_, h.unused⟩
    have hts : Selects (docsFrom (.suffix n) tracked ++ docsFrom (.suffix n) _) ts := hts
    rw [hleft, Origin.inside_of_ne_code _ hcode, if_neg (by rintro ⟨⟩), List.append_nil] at hts
    rw [hbefore]
    split
    · rw [hitem]
      exact .held hts
    · exact hts

/-- The waiting suffixes follow. -/
theorem Complete.settle (h : t.Complete) : t.settle.Complete := by
  unfold Tracker.settle
  split
  · rename_i hempty
    refine ⟨fun n d hd ts hts => h.selects n d hd ts ?_, h.unused⟩
    rw [left, List.isEmpty_iff.mp hempty, docsFrom_nil, List.nil_append]
    simpa [left] using hts
  · exact h

/-- **A step loses nothing.** -/
theorem Complete.step (settings : Settings) (fuel : Nat) (h : t.Complete) (ho : t.Orderly st)
    (hne : st.commands ≠ []) : (t.step settings fuel st).Complete := by
  obtain ⟨_, _, hstack, _⟩ := ho.stacked
  obtain ⟨o, c, tracked, st', t', ht, hmoves, -, hstep⟩ :=
    exists_moves settings fuel hstack.commands hne
  have hst : st.commands = c :: tracked.map (·.2) := by rw [hstack.commands, ht, List.map_cons]
  rw [hstep]
  refine Complete.settle ?_
  cases hmoves with
  | opened new _ _ _ hopen => exact h.opened ho ht hopen (State.textsOf_writes settings fuel hst) _
  | deferred d hitem _ _ => exact h.deferred ho ht hitem
  | released _ _ _ =>
    refine ⟨fun n d hd ts hts => h.selects n d hd ts ?_, h.unused⟩
    rw [← ho.left_comm, ht]
    simpa [left] using hts

/-! ## Whole runs -/

theorem Complete.run (settings : Settings) (fuel : Nat) (h : t.Complete) (ho : t.Orderly st) :
    (t.run settings fuel st).Complete := by
  induction fuel generalizing st t with
  | zero => exact h
  | succ fuel ih =>
    rw [Tracker.run]
    split
    · exact h
    · rename_i hempty
      have hne : st.commands ≠ [] := by simpa using hempty
      exact ih (h.step settings (fuel + 2) ho hne) (ho.step settings (fuel + 2) hne)

theorem complete_start (d : Doc) : (start d).Complete := ⟨nofun, fun _ _ => rfl⟩

/-- When nothing is left, all of a suffix has been written. -/
theorem Complete.selects_of_finished (h : t.Complete) (ho : t.Orderly st) (hc : st.commands = [])
    (hs : st.suffixes = []) {d : Doc} (hd : t.queued[n]? = some d) :
    Selects [d] (textsOf (piecesFrom (.suffix n) t.written)) := by
  obtain ⟨_, _, hstack, _⟩ := ho.stacked
  have hcommands : t.commands = [] := List.map_eq_nil_iff.mp (hstack.commands.symm.trans hc)
  have hsuffixes : t.suffixes = [] := List.map_eq_nil_iff.mp (hstack.suffixes.symm.trans hs)
  have hnothing : t.left (.suffix n) = [] := by rw [left, hcommands, hsuffixes]; rfl
  have hselects := h.selects n d hd [] (hnothing ▸ .nil)
  rwa [List.append_nil] at hselects

end Tracker

/-! ## The layout -/

section Layout

variable (settings : Settings) (d : Doc)

/-- The tracker at the end of the layout. -/
def trackerOf : Tracker :=
  let d := d.propagateBreaks
  (Tracker.start d).run settings d.work (State.start d)

/-- What the layout of a document writes, piece by piece, with the origin of each piece. -/
def stampsOf : List (Origin × Piece) := (trackerOf settings d).written

/-- The contents of the line suffixes outside of others, in the order in which they were queued. -/
def queuedOf : List Doc := (trackerOf settings d).queued

/-- The layout of a document, with the origin and the line of each character. -/
def glyphsOf : List Glyph := (Page.ofStamps settings.newline.toList (stampsOf settings d)).trim.glyphs

/-- The pieces are those of the trace, and the page is made of them. -/
theorem orderly_trackerOf :
    ∃ st : State, (trackerOf settings d).Orderly st ∧ (trackerOf settings d).Complete ∧
      st.commands = [] ∧ st.suffixes = [] ∧
      (stampsOf settings d).map (·.2) = traceOf settings d ∧
      (trackerOf settings d).page = .ofStamps settings.newline.toList (stampsOf settings d) := by
  have hstart := Tracker.orderly_start d.propagateBreaks
  have hwork : (State.start d.propagateBreaks).work ≤ d.propagateBreaks.work := by
    simp [State.work, State.start, Item.work]
  obtain ⟨hc, hs⟩ := State.run_finishes settings hwork fun _ => rfl
  exact ⟨_, hstart.run settings _, (Tracker.complete_start _).run settings _ hstart, hc, hs,
    hstart.written_run settings _, Tracker.page_run settings _ _ rfl⟩

/-- **Deferred text ends its line, and is written.** The glyphs of a document spell its layout. A glyph of a
line suffix and a later one that comes from no suffix are on different lines. The numbers of the suffixes,
which count them as they are queued, do not go down. The glyphs are made of the pieces that the layout
writes; the texts among those of a queued suffix are the texts of its contents, in order, when all choices
have been made, and there are no others with a number. -/
theorem deferred_ends_line :
    String.ofList ((glyphsOf settings d).map (·.char)) = (print settings d).formatted ∧
      (glyphsOf settings d).Pairwise
        (fun x y => x.origin ≠ .code → y.origin = .code → x.line < y.line) ∧
      (numbersOf ((glyphsOf settings d).map (·.origin))).Pairwise (· ≤ ·) ∧
      (stampsOf settings d).map (·.2) = traceOf settings d ∧
      (∀ n contents, (queuedOf settings d)[n]? = some contents →
        Selects [contents] (textsOf (piecesFrom (.suffix n) (stampsOf settings d)))) ∧
      ∀ n, (queuedOf settings d).length ≤ n → piecesFrom (.suffix n) (stampsOf settings d) = [] := by
  obtain ⟨st, h, hcomplete, hc, hs, htrace, hpage⟩ := orderly_trackerOf settings d
  have hkept : (glyphsOf settings d).Sublist (trackerOf settings d).page.glyphs := by
    rw [hpage]
    exact (List.rdropWhile_prefix (fun x : Glyph => isPadding x.char) _).sublist
  refine ⟨?_, h.page.before.sublist hkept, h.sorted_page.sublist ((hkept.map _).filterMap _), htrace,
    fun n contents hn => hcomplete.selects_of_finished h hc hs hn, hcomplete.unused⟩
  rw [formatted_eq_assemble, ← htrace, assemble]
  refine congrArg String.ofList ((Page.text_trim _).trans ?_)
  rw [Page.ofStamps, Page.text_stampAll]
  rfl

end Layout

example :
    (glyphsOf (.ofWidth 80) (.concat [.lineSuffix (.text "#"), .text "a", .line .hard])).map
        (fun x => (x.char, x.origin, x.line)) =
      [('a', .code, 0), ('#', .suffix 0, 0), ('\n', .code, 1)] := by
  decide +kernel

end CodeFormatter.Layout
