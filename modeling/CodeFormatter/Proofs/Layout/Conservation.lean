import CodeFormatter.Proofs.Doc.Ink
import CodeFormatter.Proofs.Layout.Indentation
import CodeFormatter.Proofs.Layout.Invariants

/-!
# No text is lost

**Theorem (`ink_formatted`).** The layout of a coherent document has the ink of the document: in the
same order if there are no line suffixes, and in some order in any case.

Ink is on its way from the commands to the output. `State.ink` is all of it: what has been written,
then what is left to print, then what waits in the queue. Each of the three things that a step can do
keeps it. A command that opens into others is coherent, so its choices do not differ, and what it
writes itself comes before what it leaves. A suffix that is queued, and a line that comes back after
the suffixes, move ink from one place to another; that is where the order may change. At the end of
the run all of it is in the output, because the run finishes.
-/

namespace CodeFormatter.Layout

variable {settings : Settings}

/-! ## Ink of pieces -/

theorem ink_trimEnd (cs : List Char) : ink (trimEnd cs) = ink cs := by
  have hsplit : trimEnd cs ++ cs.rtakeWhile isPadding = cs := List.rdropWhile_append_rtakeWhile
  have hblank : ink (cs.rtakeWhile isPadding) = [] :=
    ink_eq_nil fun c hc => List.mem_rtakeWhile_imp hc
  calc ink (trimEnd cs) = ink (trimEnd cs ++ cs.rtakeWhile isPadding) := by simp [hblank]
    _ = ink cs := by rw [hsplit]

/-- A newline writes no ink. -/
theorem ink_write_newline {newline out indentation : List Char} {trims : Bool}
    (hn : ink newline = []) (hi : ink indentation = []) :
    ink ((Piece.newline trims indentation).write newline out) = ink out := by
  cases trims <;> simp [Piece.write, hn, hi, ink_trimEnd]

/-! ## Coherent commands -/

namespace Item

/-- The ink of an item. -/
def ink (item : Item) : List Char := item.docs.flatMap Doc.ink

/-- The ink that an item writes itself. -/
def ownInk : Item → List Char
  | .doc (.text s) => CodeFormatter.ink s.toList
  | _ => []

/-- A coherent item writes and opens into its ink. -/
theorem ink_of_mem_openings {item : Item} {docs : List Doc}
    (hc : ∀ d ∈ item.docs, d.coherent = true) (h : docs ∈ item.openings) :
    item.ownInk ++ docs.flatMap Doc.ink = item.ink := by
  cases item with
  | fillRest parts =>
    rw [List.mem_singleton.mp h]
    rfl
  | doc e =>
    have he : e.coherent = true := hc e (List.mem_singleton.mpr rfl)
    cases e with
    | conditionalGroup contents states _ _ =>
      simp only [Doc.coherent, Bool.and_eq_true, List.all_eq_true, beq_iff_eq] at he
      obtain ⟨state, hstate, rfl⟩ := List.mem_map.mp h
      rcases List.mem_cons.mp hstate with rfl | hstate
      · simp [ownInk, ink, Item.docs, Doc.ink]
      · simp [ownInk, ink, Item.docs, Doc.ink, he.2 state hstate]
    | ifBreak broken flat _ =>
      simp only [Doc.coherent, Bool.and_eq_true, beq_iff_eq] at he
      rcases List.mem_pair.mp h with rfl | rfl
      · simp [ownInk, ink, Item.docs, Doc.ink, he.2]
      · simp [ownInk, ink, Item.docs, Doc.ink]
    | lineSuffixBoundary =>
      rcases List.mem_pair.mp h with rfl | rfl <;> simp [ownInk, ink, Item.docs, Doc.ink]
    | lineSuffix => cases h
    | text | line | breakParent | trim | cursor =>
      rw [List.mem_singleton.mp h]
      simp [ownInk, ink, Item.docs, Doc.ink]
    | concat | fill =>
      rw [List.mem_singleton.mp h]
      simp [ownInk, ink, Item.docs, Doc.ink, Doc.inkAll_eq]
    | group | indent | align =>
      rw [List.mem_singleton.mp h]
      simp [ownInk, ink, Item.docs, Doc.ink]

end Item

/-- A text in an indentation is blank. -/
def IndentPart.Blank : IndentPart → Prop
  | .text s => ∀ c ∈ s.toList, isPadding c
  | _ => True

structure Command.Coherent (settings : Settings) (c : Command) : Prop where
  indentation : c.indentation.Built settings IndentPart.Blank
  docs : ∀ d ∈ c.item.docs, d.coherent = true

namespace Command

variable {c : Command}

theorem ink_value {i : Indentation} (h : i.Built settings IndentPart.Blank) : ink i.value = [] :=
  ink_eq_nil (h.isPadding_of_mem fun _ hs => hs)

/-- A line writes no ink, flat or broken. -/
theorem ink_write_linePiece {newline out : List Char} {i : Indentation} (hn : ink newline = [])
    (hi : i.Built settings IndentPart.Blank) (m : Mode) (kind : LineKind) :
    ink ((linePiece i m kind).write newline out) = ink out := by
  have hbreak : ink ((breakPiece i kind).write newline out) = ink out := by
    cases kind with
    | literal => exact ink_write_newline hn (ink_value hi.getD_root)
    | soft | normal | hard => exact ink_write_newline hn (ink_value hi)
  cases m with
  | broken => exact hbreak
  | flat =>
    cases kind with
    | soft => simp [linePiece, Piece.write, LineKind.flatText]
    | normal =>
      have hspace : ink [' '] = [] := by decide
      simp [linePiece, Piece.write, LineKind.flatText, hspace]
    | hard | literal => exact hbreak

/-- Inside a coherent command lines start with a blank. -/
theorem Coherent.scope (h : c.Coherent settings) :
    (c.scope settings).Built settings IndentPart.Blank := by
  obtain ⟨hi, hdocs⟩ := h
  refine built_scope hi trivial (fun _ => trivial) fun s contents hitem => ?_
  have hcoherent := hdocs (.align (.text s) contents) (by simp [hitem, Item.docs])
  rw [Doc.coherent, Bool.and_eq_true] at hcoherent
  exact List.all_eq_true.mp hcoherent.1

/-- What a coherent command opens into is coherent. -/
theorem Coherent.of_opened {c' : Command} {docs : List Doc} (h : c.Coherent settings)
    (hopen : docs ∈ c.item.openings) (hdocs : ∀ d ∈ c'.item.docs, d ∈ docs)
    (hi : c'.indentation = c.scope settings) : c'.Coherent settings := by
  refine ⟨hi ▸ h.scope, fun d hd => ?_⟩
  rcases Item.mem_of_mem_openings hopen (hdocs d hd) with rfl | hd | ⟨e, he, hd⟩
  · rfl
  · exact h.docs d hd
  · exact Doc.coherent_of_mem_children (h.docs e he) hd

theorem passes_coherent : Passes settings (Coherent settings) where
  opened hc hopen hdocs hi := hc.of_opened hopen hdocs hi
  deferred hc := by
    refine ⟨hc.indentation, fun e he => ?_⟩
    rw [List.mem_singleton.mp he]
    exact hc.docs (.lineSuffix _) (List.mem_singleton_self _)

end Command

namespace State

variable {fuel : Nat} {st st' : State} {c : Command} {rest : List Command}

/-- All commands are coherent, also those that wait. -/
structure Coherent (settings : Settings) (st : State) : Prop where
  commands : ∀ c ∈ st.commands, c.Coherent settings
  suffixes : ∀ c ∈ st.suffixes, c.Coherent settings

/-- What has been written, what is left to print and what waits. -/
def ink (st : State) : List Char :=
  CodeFormatter.ink st.out.text ++ st.commands.flatMap (·.item.ink) ++
    st.suffixes.flatMap (·.item.ink)

/-- A step writes the ink of its command. -/
theorem ink_text_step (fuel : Nat) (hn : CodeFormatter.ink settings.newline.toList = [])
    (hc : st.commands = c :: rest) (h : c.Coherent settings) :
    CodeFormatter.ink (st.step settings fuel).out.text =
      CodeFormatter.ink st.out.text ++ c.item.ownInk := by
  obtain ⟨i, m, item⟩ := c
  obtain ⟨hi, -⟩ := h
  dsimp only at hi
  rw [text_step, writes, hc]
  cases item with
  | fillRest parts => simp [Item.ownInk]
  | doc d =>
    cases d with
    | text s => simp [Item.ownInk, Piece.write]
    | line kind =>
      dsimp only
      split <;> simp [Item.ownInk, Command.ink_write_linePiece hn hi]
    | group contents shouldBreak id =>
      cases m with
      | flat => simp [Item.ownInk]
      | broken =>
        dsimp only
        split <;> simp [Item.ownInk, Piece.write]
    | trim => simp [Item.ownInk, Piece.write, ink_trimEnd]
    | concat | conditionalGroup | indent | align | fill | ifBreak | lineSuffix | lineSuffixBoundary
    | breakParent | cursor => simp [Item.ownInk]

theorem ink_settle (st : State) : st.settle.ink = st.ink := by
  unfold settle
  split
  · rename_i hc
    have hc : st.commands = [] := by simpa using hc
    simp [ink, release, hc]
  · rfl

/-- No line suffix waits, and there is none in what is left to print. -/
structure SuffixFree (st : State) : Prop where
  commands : ∀ c ∈ st.commands, ∀ d ∈ c.item.docs, d.hasSuffix = false
  suffixes : st.suffixes = []

namespace Performs

/-- When others take the place of a command, its ink stays where it is. -/
theorem ink_opened {new : List Command} (hc : c.Coherent settings)
    (hopen : new.flatMap (·.item.docs) ∈ c.item.openings)
    (htext : CodeFormatter.ink st'.out.text = CodeFormatter.ink st.out.text ++ c.item.ownInk)
    (hc' : st'.commands = new ++ st.commands) (hs' : st'.suffixes = st.suffixes) :
    st'.ink = State.ink { st with commands := c :: st.commands } := by
  have hnew : new.flatMap (·.item.ink) = (new.flatMap (·.item.docs)).flatMap Doc.ink :=
    List.flatMap_assoc.symm
  have hink : c.item.ownInk ++ new.flatMap (·.item.ink) = c.item.ink := by
    rw [hnew]
    exact Item.ink_of_mem_openings hc.docs hopen
  simp only [State.ink, htext, hc', hs', List.flatMap_append, List.flatMap_cons, ← hink,
    List.append_assoc]

/-- The ink of a command is written, is left, or waits. -/
theorem ink_perm (hp : Performs settings st c st') (hc : c.Coherent settings)
    (htext : CodeFormatter.ink st'.out.text = CodeFormatter.ink st.out.text ++ c.item.ownInk) :
    st'.ink.Perm (State.ink { st with commands := c :: st.commands }) := by
  cases hp with
  | opened new hc' hs' hopen _ _ => rw [ink_opened hc hopen htext hc' hs']
  | deferred d hitem hc' hs' =>
    have hink : c.item.ink = (Item.doc d).ink := by simp [hitem, Item.ink, Item.docs, Doc.ink]
    have hown : c.item.ownInk = [] := by simp [hitem, Item.ownInk]
    simp only [State.ink, htext, hc', hs', hink, hown, List.flatMap_append, List.flatMap_cons,
      List.flatMap_nil, List.append_nil, List.append_assoc]
    rw [← List.append_assoc (st.commands.flatMap _)]
    exact List.perm_append_comm.append_left _
  | released kind hitem _ hc' hs' =>
    have hink : c.item.ink = [] := by simp [hitem, Item.ink, Item.docs, Doc.ink]
    have hown : c.item.ownInk = [] := by simp [hitem, Item.ownInk]
    simp only [State.ink, htext, hc', hs', hink, hown, List.flatMap_append, List.flatMap_cons,
      List.flatMap_nil, List.nil_append, List.append_nil, List.append_assoc]
    exact List.perm_append_comm.append_left _

/-- Without line suffixes, the ink of a command is written or is left. -/
theorem suffixFree (hp : Performs settings st c st') (hc : c.Coherent settings)
    (htext : CodeFormatter.ink st'.out.text = CodeFormatter.ink st.out.text ++ c.item.ownInk)
    (h : State.SuffixFree { st with commands := c :: st.commands }) :
    st'.SuffixFree ∧ st'.ink = State.ink { st with commands := c :: st.commands } := by
  have hdocs : ∀ d ∈ c.item.docs, d.hasSuffix = false := h.commands c List.mem_cons_self
  cases hp with
  | opened new hc' hs' hopen _ _ =>
    refine ⟨⟨fun c' hmem d hd => ?_, hs'.trans h.suffixes⟩, ink_opened hc hopen htext hc' hs'⟩
    rw [hc'] at hmem
    rcases List.mem_append.mp hmem with hmem | hmem
    · have hd : d ∈ new.flatMap (·.item.docs) := List.mem_flatMap.mpr ⟨c', hmem, hd⟩
      rcases Item.mem_of_mem_openings hopen hd with rfl | hd | ⟨e, he, hd⟩
      · rfl
      · exact hdocs d hd
      · exact Doc.hasSuffix_of_mem_children (hdocs e he) hd
    · exact h.commands c' (List.mem_cons_of_mem _ hmem) d hd
  | deferred d hitem _ _ =>
    have := hdocs (.lineSuffix d) (by simp [hitem, Item.docs])
    cases this
  | released _ _ hne _ _ => exact absurd h.suffixes hne

end Performs

/-- **A step keeps the ink.** -/
theorem Coherent.step (hn : CodeFormatter.ink settings.newline.toList = [])
    (h : st.Coherent settings) (hne : st.commands ≠ []) (fuel : Nat) :
    (st.step settings fuel).Coherent settings ∧ (st.step settings fuel).ink.Perm st.ink ∧
      (st.SuffixFree →
        (st.step settings fuel).SuffixFree ∧ (st.step settings fuel).ink = st.ink) := by
  have hholds := Holds.step ⟨h.commands, h.suffixes⟩ Command.passes_coherent fuel
  refine ⟨⟨hholds.commands, hholds.suffixes⟩, ?_⟩
  obtain ⟨c, rest, hc⟩ := List.exists_cons_of_ne_nil hne
  have hcoh : c.Coherent settings := h.commands c (by simp [hc])
  have hp := performs_perform settings fuel { st with commands := rest } c
  have htext := ink_text_step fuel hn hc hcoh
  rw [step_eq hc] at htext ⊢
  rw [out_settle] at htext
  rw [ink_settle]
  have hst : { st with commands := c :: rest } = st := by rw [← hc]
  refine ⟨?_, fun hfree => ?_⟩
  · have hperm := hp.ink_perm hcoh htext
    dsimp only at hperm
    rwa [hst] at hperm
  · have hkept := hp.suffixFree hcoh htext
    dsimp only at hkept
    rw [hst] at hkept
    refine ⟨?_, (hkept hfree).2⟩
    rw [settle_of_suffixes_nil (hkept hfree).1.suffixes]
    exact (hkept hfree).1

/-- A run keeps the ink. -/
theorem Coherent.run (hn : CodeFormatter.ink settings.newline.toList = [])
    (h : st.Coherent settings) (fuel : Nat) :
    (st.run settings fuel).ink.Perm st.ink ∧
      (st.SuffixFree → (st.run settings fuel).ink = st.ink) := by
  induction fuel generalizing st with
  | zero => exact ⟨.refl _, fun _ => rfl⟩
  | succ fuel ih =>
    rw [State.run]
    split
    · exact ⟨.refl _, fun _ => rfl⟩
    · rename_i hc
      obtain ⟨hnext, hperm, hfree⟩ := h.step hn (by simpa using hc) (fuel + 2)
      obtain ⟨hperm', hfree'⟩ := ih hnext
      refine ⟨hperm'.trans hperm, fun hst => ?_⟩
      rw [hfree' (hfree hst).1, (hfree hst).2]

/-! ## The whole layout -/

variable {d : Doc}

theorem coherent_start (hd : d.coherent = true) : (start d.propagateBreaks).Coherent settings := by
  refine ⟨fun c hc => ?_, by simp [start]⟩
  rw [List.mem_singleton.mp hc]
  refine ⟨Indentation.built_none, fun e he => ?_⟩
  rw [List.mem_singleton.mp he, Doc.coherent_propagateBreaks, hd]

theorem suffixFree_start (hd : d.hasSuffix = false) : (start d.propagateBreaks).SuffixFree := by
  refine ⟨fun c hc e he => ?_, rfl⟩
  rw [List.mem_singleton.mp hc] at he
  rw [List.mem_singleton.mp he, Doc.hasSuffix_propagateBreaks, hd]

theorem ink_start (d : Doc) : (start d.propagateBreaks).ink = d.ink := by
  simp [ink, start, Item.ink, Item.docs, Doc.ink_propagateBreaks]

/-- The run finishes, so in the end all ink is in the output. -/
theorem ink_formatted_eq (settings : Settings) (d : Doc) :
    CodeFormatter.ink (print settings d).formatted.toList =
      ((start d.propagateBreaks).run settings d.propagateBreaks.work).ink := by
  have hwork : (start d.propagateBreaks).work ≤ d.propagateBreaks.work := by
    simp [work, start, Item.work]
  obtain ⟨hc, hs⟩ := run_finishes settings hwork (by simp [start])
  rw [print, formatted_finish, String.toList_ofList, ink_trimEnd, ink, hc, hs]
  simp

end State

/-- **No text is lost, duplicated or reordered.** Without line suffixes, the layout of a coherent
document has the ink of the document. With line suffixes its ink is a permutation of that: nothing
that was queued is dropped or printed twice. -/
theorem ink_formatted (settings : Settings) {d : Doc} (hd : d.coherent = true)
    (hn : ink settings.newline.toList = []) :
    (d.hasSuffix = false → ink (print settings d).formatted.toList = d.ink) ∧
      (ink (print settings d).formatted.toList).Perm d.ink := by
  obtain ⟨hperm, heq⟩ := (State.coherent_start hd).run hn d.propagateBreaks.work
  rw [State.ink_formatted_eq, ← State.ink_start d]
  exact ⟨fun hfree => heq (State.suffixFree_start hfree), hperm⟩

/-- A comment that waits for the end of its line is printed once, after what follows it there. -/
theorem ink_formatted_suffix :
    (ink (print { Settings.ofWidth 6 with newline := "\r\n" }
      (.concat [.text "f(", .lineSuffix (.text " // x"),
        Doc.groupOf (.concat [.text "a,", Doc.space, .text "b"]), .text ");",
        Doc.hardline])).formatted.toList).Perm "f(//xa,b);".toList :=
  (ink_formatted _ (by decide) (by decide)).2

end CodeFormatter.Layout
