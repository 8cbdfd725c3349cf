import CodeFormatter.Proofs.Layout.Pieces

/-!
# Cursors never change the layout

Two machines print documents with the same pieces (`Doc.pieces`). One of them may be ahead of the other by
commands that melt. What is left to print, as pieces, is the same on both sides at all times, and with it every
choice of the layout (`Agrees`). Line suffixes come back when nothing is left to print; a machine with nothing
but cursors on its stack is about to reach that point, and counts as being there (`flushed`).

**Theorem (`formatted_eq_of_pieces_eq`).** Documents with the same pieces have the same layout on every page.

**Theorem (`formatted_withCursors`).** Cursors around documents in a document never change its layout.
-/

namespace CodeFormatter.Layout

/-! ## Commands -/

/-- The pieces of a command, after the same indentation and in the same mode. -/
def Command.pieces (c : Command) : List Command := c.item.pieces.map (⟨c.indentation, c.mode, ·⟩)

/-- The pieces of what is left to print. -/
def commandPieces (commands : List Command) : List Command := commands.flatMap Command.pieces

section Commands

variable {c c' : Command} {rest rest' : List Command} {items : List (Mode × Item)} {parts parts' : List Doc}

@[simp] theorem commandPieces_nil : commandPieces [] = [] := rfl

@[simp] theorem commandPieces_cons : commandPieces (c :: rest) = c.pieces ++ commandPieces rest := rfl

@[simp] theorem commandPieces_append :
    commandPieces (rest ++ rest') = commandPieces rest ++ commandPieces rest' := List.flatMap_append

theorem commandPieces_eq_flatten : commandPieces rest = (rest.map Command.pieces).flatten := by
  rw [commandPieces, List.flatMap]

theorem Command.pieces_of_melts (h : c.item.melts = some parts) :
    c.pieces = commandPieces (parts.map (⟨c.indentation, c.mode, .doc ·⟩)) := by
  rw [pieces, Item.pieces_of_melts h, commandPieces, List.flatMap_map, List.map_flatMap]
  rfl

theorem Command.exists_piece (h : c.item.melts = none) :
    ∃ x, c.item.pieces = [x] ∧ c.pieces = [⟨c.indentation, c.mode, x⟩] := by
  obtain ⟨x, hx⟩ := Item.exists_piece h
  exact ⟨x, hx, by rw [pieces, hx, List.map_singleton]⟩

/-- The first commands match, and the others have the same pieces. -/
theorem matched_of_commandPieces_eq (h : commandPieces (c :: rest) = commandPieces (c' :: rest'))
    (hc : c.item.melts = none) (hc' : c'.item.melts = none) :
    c.indentation = c'.indentation ∧ c.mode = c'.mode ∧ Item.Matched c.item c'.item ∧
      commandPieces rest = commandPieces rest' := by
  obtain ⟨x, hx, hpieces⟩ := Command.exists_piece hc
  obtain ⟨x', hx', hpieces'⟩ := Command.exists_piece hc'
  rw [commandPieces_cons, commandPieces_cons, hpieces, hpieces'] at h
  obtain ⟨hhead, hrest⟩ := List.cons.inj h
  obtain ⟨hi, hm, rfl⟩ := Command.mk.inj hhead
  exact ⟨hi, hm, Item.matched_of_pieces_eq (hx.trans hx'.symm) hc hc', hrest⟩

/-- A search among documents with the same pieces, by a test that looks at nothing else. -/
theorem find?_pieces {p p' : Doc → Bool} (h : parts.map Doc.pieces = parts'.map Doc.pieces)
    (hp : ∀ d ∈ parts, ∀ d' ∈ parts', d.pieces = d'.pieces → p d = p' d') :
    (parts.find? p).map Doc.pieces = (parts'.find? p').map Doc.pieces := by
  induction parts generalizing parts' with
  | nil =>
    cases parts' with
    | nil => rfl
    | cons => cases h
  | cons d rest ih =>
    cases parts' with
    | nil => cases h
    | cons d' rest' =>
      obtain ⟨hd, hrest⟩ := List.cons.inj h
      rw [List.find?_cons, List.find?_cons, hp d List.mem_cons_self d' List.mem_cons_self hd]
      split
      · simp [hd]
      · exact ih hrest fun e he e' he' => hp e (List.mem_cons_of_mem d he) e' (List.mem_cons_of_mem d' he')

theorem itemPieces_itemsOf : itemPieces (itemsOf items rest) =
    itemPieces items ++ (commandPieces rest).map fun c => (c.mode, c.item) := by
  rw [itemsOf, itemPieces_append]
  congr 1
  induction rest with
  | nil => rfl
  | cons c rest ih =>
    rw [List.map_cons, itemPieces_cons, ih, commandPieces_cons, List.map_append, Command.pieces,
      List.map_map]
    rfl

theorem itemsWork_itemsOf : itemsWork (itemsOf items rest) = itemsWork items + workOf rest := by
  rw [itemsOf, itemsWork_append]
  congr 1
  induction rest with
  | nil => rfl
  | cons c rest ih => rw [List.map_cons, itemsWork_cons, ih, workOf_cons]

end Commands

namespace State

variable {settings : Settings} {st st' : State} {i : Indentation} {m : Mode} {d d' : Doc}
  {parts parts' : List Doc} {fuel fuel' : Nat}

/-! ## States -/

/-- The same is written and known, and what is left to print has the same pieces. -/
structure Agrees (st st' : State) : Prop where
  out : st.out = st'.out
  column : st.column = st'.column
  commands : commandPieces st.commands = commandPieces st'.commands
  /-- Each waiting suffix has the same pieces; it may have none. -/
  suffixes : st.suffixes.map Command.pieces = st'.suffixes.map Command.pieces
  modes : st.modes = st'.modes
  remeasure : st.remeasure = st'.remeasure

namespace Agrees

theorem symm (h : Agrees st st') : Agrees st' st :=
  ⟨h.out.symm, h.column.symm, h.commands.symm, h.suffixes.symm, h.modes.symm, h.remeasure.symm⟩

theorem trans {st'' : State} (h : Agrees st st') (h' : Agrees st' st'') : Agrees st st'' :=
  ⟨h.out.trans h'.out, h.column.trans h'.column, h.commands.trans h'.commands,
    h.suffixes.trans h'.suffixes, h.modes.trans h'.modes, h.remeasure.trans h'.remeasure⟩

theorem suffixes_isEmpty (h : Agrees st st') : st.suffixes.isEmpty = st'.suffixes.isEmpty := by
  have hsuffixes := congrArg List.isEmpty h.suffixes
  rwa [List.isEmpty_map, List.isEmpty_map] at hsuffixes

theorem remaining (h : Agrees st st') : st.remaining settings = st'.remaining settings := by
  rw [State.remaining, State.remaining, h.column]

theorem push (h : Agrees st st') (hd : d.pieces = d'.pieces) (i : Indentation) (m : Mode) :
    Agrees (st.push i m d) (st'.push i m d') := by
  refine { h with commands := ?_ }
  simp only [State.push, commandPieces_cons, Command.pieces, Item.pieces, hd, h.commands]

theorem write (h : Agrees st st') (cs : List Char) : Agrees (st.write cs) (st'.write cs) :=
  { h with
    out := by simp only [State.write, h.out]
    column := by simp only [State.write, h.column] }

theorem trim (h : Agrees st st') : Agrees st.trim st'.trim :=
  { h with
    out := by simp only [State.trim, h.out]
    column := by simp only [State.trim, h.out, h.column] }

theorem release (h : Agrees st st') : Agrees st.release st'.release :=
  { h with
    commands := by
      simp only [State.release, commandPieces_append, h.commands]
      rw [commandPieces_eq_flatten, h.suffixes, ← commandPieces_eq_flatten]
    suffixes := rfl }

/-! ### Lines -/

theorem newline (h : Agrees st st') (i : Indentation) (kind : LineKind) :
    Agrees (st.newline settings i kind) (st'.newline settings i kind) := by
  cases kind with
  | literal => exact { h with out := by simp only [State.newline, h.out], column := rfl }
  | soft | normal | hard =>
    exact { h.trim with out := by simp only [State.newline, h.trim.out], column := rfl }

theorem breakLine (h : Agrees st st') (i : Indentation) (m : Mode) (kind : LineKind) :
    Agrees (st.breakLine settings i m kind) (st'.breakLine settings i m kind) := by
  rw [State.breakLine, State.breakLine, h.suffixes_isEmpty]
  split
  · exact h.newline i kind
  · exact (h.push rfl i m).release

theorem printLine (h : Agrees st st') (i : Indentation) (m : Mode) (kind : LineKind) :
    Agrees (st.printLine settings i m kind) (st'.printLine settings i m kind) := by
  cases m with
  | broken => exact h.breakLine i .broken kind
  | flat =>
    cases kind with
    | soft => exact h
    | normal =>
      exact { h with
        out := by simp only [State.printLine, h.out]
        column := by simp only [State.printLine, h.column] }
    | hard | literal =>
      have hremeasure : Agrees { st with remeasure := true } { st' with remeasure := true } :=
        { h with remeasure := rfl }
      exact hremeasure.breakLine i .flat _

/-! ### Groups -/

/-- A document that fits for the one fits for the other. -/
theorem fitsFlat (h : Agrees st st') (hd : d.pieces = d'.pieces) (hf : d.work + workOf st.commands < fuel)
    (hf' : d'.work + workOf st'.commands < fuel') :
    st.fitsFlat settings fuel d = st'.fitsFlat settings fuel' d' := by
  rw [State.fitsFlat, State.fitsFlat, h.modes, h.remaining, fits_itemsOf,
    fits_itemsOf fuel' _ _ _ st'.commands]
  refine fits_congr ?_ ?_ ?_
  · rw [itemPieces_itemsOf, itemPieces_itemsOf, itemPieces_cons, itemPieces_cons, Item.pieces, Item.pieces,
      hd, h.commands]
  · rw [itemsWork_itemsOf, itemsWork_cons, Item.work]
    exact hf
  · rw [itemsWork_itemsOf, itemsWork_cons, Item.work]
    exact hf'

/-- Documents that fit by themselves for the one do so for the other. -/
theorem fitsAlone {docs docs' : List Doc} (h : Agrees st st')
    (hdocs : docs.map Doc.pieces = docs'.map Doc.pieces) (hf : Doc.workAll docs < fuel)
    (hf' : Doc.workAll docs' < fuel') :
    st.fitsAlone settings fuel docs = st'.fitsAlone settings fuel' docs' := by
  rw [State.fitsAlone, State.fitsAlone, h.modes, h.remaining]
  refine fits_congr (itemPieces_doc_congr hdocs) ?_ ?_
  · rwa [itemsWork_map_doc]
  · rwa [itemsWork_map_doc]

/-- Both choose the same mode, and as pieces the same state of the group. -/
theorem chooseState {c c' : Doc} {states states' : List Doc} (h : Agrees st st') (hc : c.pieces = c'.pieces)
    (hstates : states.map Doc.pieces = states'.map Doc.pieces)
    (hf : Doc.workAll states + workOf st.commands < fuel)
    (hf' : Doc.workAll states' + workOf st'.commands < fuel') (b : Bool) :
    let layout := st.chooseState settings fuel c states b
    let layout' := st'.chooseState settings fuel' c' states' b
    layout.1 = layout'.1 ∧ layout.2.pieces = layout'.2.pieces := by
  have hlast : (states.getLast?.getD c).pieces = (states'.getLast?.getD c').pieces := by
    rw [← Option.getD_map Doc.pieces, ← Option.getD_map Doc.pieces, ← List.getLast?_map,
      ← List.getLast?_map, hstates, hc]
  have htail : states.tail.map Doc.pieces = states'.tail.map Doc.pieces := by
    rw [List.map_tail, List.map_tail, hstates]
  have hfind : (states.tail.find? (st.fitsFlat settings fuel)).map Doc.pieces =
      (states'.tail.find? (st'.fitsFlat settings fuel')).map Doc.pieces := by
    refine find?_pieces htail fun d hd d' hd' hpieces => h.fitsFlat hpieces ?_ ?_
    · have hle := Doc.work_le_workAll (List.mem_of_mem_tail hd)
      omega
    · have hle := Doc.work_le_workAll (List.mem_of_mem_tail hd')
      omega
  unfold State.chooseState
  cases b with
  | true => exact ⟨rfl, hlast⟩
  | false =>
    cases hfound : states.tail.find? (st.fitsFlat settings fuel) with
    | none =>
      rw [hfound, eq_comm, Option.map_none, Option.map_eq_none_iff] at hfind
      simp [hfind, hlast]
    | some state =>
      rw [hfound, eq_comm, Option.map_some, Option.map_eq_some_iff] at hfind
      obtain ⟨state', hfound', hpieces⟩ := hfind
      simp [hfound', hpieces]

variable (settings) in
theorem chooseLayout {c c' : Doc} {states states' : Option (List Doc)} (h : Agrees st st')
    (hc : c.pieces = c'.pieces)
    (hstates : states.map (List.map Doc.pieces) = states'.map (List.map Doc.pieces))
    (hf : c.work + Doc.workAll (states.getD []) + workOf st.commands < fuel)
    (hf' : c'.work + Doc.workAll (states'.getD []) + workOf st'.commands < fuel') (b : Bool) :
    let layout := st.chooseLayout settings fuel c states b
    let layout' := st'.chooseLayout settings fuel' c' states' b
    layout.1 = layout'.1 ∧ layout.2.pieces = layout'.2.pieces := by
  have hflat : st.fitsFlat settings fuel c = st'.fitsFlat settings fuel' c' :=
    h.fitsFlat hc (by omega) (by omega)
  unfold State.chooseLayout
  rw [hflat]
  split
  · exact ⟨rfl, hc⟩
  · cases states with
    | none =>
      cases states' with
      | none => exact ⟨rfl, hc⟩
      | some => cases hstates
    | some states =>
      cases states' with
      | none => cases hstates
      | some states' =>
        rw [Option.getD_some] at hf hf'
        exact h.chooseState hc (Option.some.inj hstates) (by omega) (by omega) b

/-- **A group is laid out alike.** -/
theorem printGroup {c c' : Doc} {states states' : Option (List Doc)} (h : Agrees st st')
    (hc : c.pieces = c'.pieces)
    (hstates : states.map (List.map Doc.pieces) = states'.map (List.map Doc.pieces))
    (hf : c.work + Doc.workAll (states.getD []) + workOf st.commands < fuel)
    (hf' : c'.work + Doc.workAll (states'.getD []) + workOf st'.commands < fuel')
    (i : Indentation) (m : Mode) (b : Bool) (id : Option GroupId) :
    Agrees (st.printGroup settings fuel i m c states b id)
      (st'.printGroup settings fuel' i m c' states' b id) := by
  have hrecord : ∀ {r r' : Bool} (mode : Mode) {d d' : Doc}, r = r' → d.pieces = d'.pieces →
      Agrees ({ st with modes := st.modes.record id mode, remeasure := r }.push i mode d)
        ({ st' with modes := st'.modes.record id mode, remeasure := r' }.push i mode d') := by
    intro r r' mode d d' hr hd
    have hknown : Agrees { st with modes := st.modes.record id mode, remeasure := r }
        { st' with modes := st'.modes.record id mode, remeasure := r' } :=
      { h with modes := by simp only [h.modes], remeasure := hr }
    exact hknown.push hd i mode
  cases hm : decide (m = .broken) || st.remeasure with
  | false =>
    have hm' : (decide (m = .broken) || st'.remeasure) = false := h.remeasure ▸ hm
    rw [printGroup_of_not_measured settings fuel hm, printGroup_of_not_measured settings fuel' hm']
    exact hrecord _ h.remeasure hc
  | true =>
    have hm' : (decide (m = .broken) || st'.remeasure) = true := h.remeasure ▸ hm
    have hmeasured : Agrees { st with remeasure := false } { st' with remeasure := false } :=
      { h with remeasure := rfl }
    obtain ⟨hmode, hchosen⟩ := hmeasured.chooseLayout settings hc hstates hf hf' b
    rw [printGroup_of_measured settings fuel hm i c states b id rfl,
      printGroup_of_measured settings fuel' hm' i c' states' b id rfl, hmode]
    exact hrecord _ rfl hchosen

/-! ### Fills -/

/-- **A fill is laid out alike.** -/
theorem printFill (h : Agrees st st') (hparts : parts.map Doc.pieces = parts'.map Doc.pieces)
    (hf : Doc.workAll parts < fuel) (hf' : Doc.workAll parts' < fuel') (i : Indentation) (m : Mode) :
    Agrees (st.printFill settings fuel i m parts) (st'.printFill settings fuel' i m parts') := by
  have hfits : ∀ {content content' : Doc}, content.pieces = content'.pieces → content.work < fuel →
      content'.work < fuel' →
      st.fitsAlone settings fuel [content] = st'.fitsAlone settings fuel' [content'] :=
    fun hd hw hw' => h.fitsAlone (by simp [hd]) hw hw'
  rcases parts with _ | ⟨content, _ | ⟨separator, _ | ⟨second, others⟩⟩⟩
  -- No contents.
  · obtain rfl := List.map_eq_nil_iff.mp hparts.symm
    exact h
  -- One content.
  · obtain ⟨content', rest', rfl, hcontent, hrest⟩ := List.map_eq_cons_iff.mp hparts.symm
    obtain rfl := List.map_eq_nil_iff.mp hrest
    rw [Doc.workAll] at hf hf'
    simp only [State.printFill, hfits hcontent.symm (by omega) (by omega)]
    exact h.push hcontent.symm i _
  -- A content and the separator behind it.
  · obtain ⟨content', rest', rfl, hcontent, hrest⟩ := List.map_eq_cons_iff.mp hparts.symm
    obtain ⟨separator', rest', rfl, hseparator, hrest⟩ := List.map_eq_cons_iff.mp hrest
    obtain rfl := List.map_eq_nil_iff.mp hrest
    rw [Doc.workAll] at hf hf'
    simp only [State.printFill, hfits hcontent.symm (by omega) (by omega)]
    exact (h.push hseparator.symm i _).push hcontent.symm i _
  -- A content, the separator behind it, and contents that stay for later.
  · obtain ⟨content', rest', rfl, hcontent, hrest⟩ := List.map_eq_cons_iff.mp hparts.symm
    obtain ⟨separator', rest', rfl, hseparator, hrest⟩ := List.map_eq_cons_iff.mp hrest
    obtain ⟨second', others', rfl, hsecond, -⟩ := List.map_eq_cons_iff.mp hrest
    simp only [Doc.workAll] at hf hf'
    have hpair : st.fitsAlone settings fuel [content, separator, second] =
        st'.fitsAlone settings fuel' [content', separator', second'] :=
      h.fitsAlone (by simp [hcontent, hseparator, hsecond]) (by simp only [Doc.workAll]; omega)
        (by simp only [Doc.workAll]; omega)
    have hlater : Agrees { st with commands := ⟨i, m, .fillRest (second :: others)⟩ :: st.commands }
        { st' with commands := ⟨i, m, .fillRest (second' :: others')⟩ :: st'.commands } := by
      refine { h with commands := ?_ }
      simp only [commandPieces_cons, Command.pieces, Item.pieces, h.commands,
        Doc.map_condensed_inj.mpr hrest.symm]
    simp only [State.printFill, hfits hcontent.symm (by omega) (by omega), hpair]
    exact (hlater.push hseparator.symm i _).push hcontent.symm i _

/-! ### Commands -/

variable (settings) in
/-- **A command is printed alike.** -/
theorem perform {c c' : Command} (h : Agrees st st') (hi : c.indentation = c'.indentation)
    (hm : c.mode = c'.mode) (hmatched : Item.Matched c.item c'.item)
    (hf : c.item.work + workOf st.commands < fuel) (hf' : c'.item.work + workOf st'.commands < fuel') :
    Agrees (st.perform settings fuel c) (st'.perform settings fuel' c') := by
  obtain ⟨i, m, item⟩ := c
  obtain ⟨i', m', item'⟩ := c'
  obtain rfl : i = i' := hi
  obtain rfl : m = m' := hm
  cases hmatched with
  | fillRest hparts =>
    rw [Item.work] at hf hf'
    exact h.printFill hparts (by omega) (by omega) i m
  | doc hd =>
    rw [Item.work] at hf hf'
    cases hd with
    | text s => exact h.write s.toList
    | line kind => exact h.printLine i m kind
    | indent hc | align _ hc => exact h.push hc _ m
    | trim => exact h.trim
    | breakParent => exact h
    | group b id hc =>
      rw [Doc.work] at hf hf'
      exact h.printGroup hc rfl (by simp only [Option.getD_none, Doc.workAll]; omega)
        (by simp only [Option.getD_none, Doc.workAll]; omega) i m b id
    | @conditionalGroup contents contents' states states' b id hc hstates =>
      rw [Doc.work] at hf hf'
      have hstates : (some states).map (List.map Doc.pieces) = (some states').map (List.map Doc.pieces) :=
        congrArg some hstates
      exact h.printGroup hc hstates (by rw [Option.getD_some]; omega) (by rw [Option.getD_some]; omega) i m b id
    | fill hparts =>
      rw [Doc.work] at hf hf'
      exact h.printFill hparts (by omega) (by omega) i m
    | ifBreak id hbroken hflat =>
      simp only [State.perform, printDoc, h.modes]
      split
      · exact h.push hbroken i m
      · exact h.push hflat i m
    | lineSuffix hc =>
      refine { h with suffixes := ?_ }
      simp only [State.perform, printDoc, List.map_append, List.map_singleton, h.suffixes, Command.pieces,
        Item.pieces, hc]
    | lineSuffixBoundary =>
      simp only [State.perform, printDoc, h.suffixes_isEmpty]
      split
      · exact h
      · exact h.push rfl i m

end Agrees

/-! ## Steps -/

theorem Agrees.refl (st : State) : Agrees st st := ⟨rfl, rfl, rfl, rfl, rfl, rfl⟩

/-- The state with its suffixes released, if there is nothing left to print but cursors. -/
def flushed (st : State) : State := if commandPieces st.commands = [] then st.release else st

theorem Agrees.flushed (h : Agrees st st') : Agrees st.flushed st'.flushed := by
  unfold State.flushed
  rw [h.commands]
  split
  · exact h.release
  · exact h

/-- To release the suffixes at the end comes to the same, now or later. -/
theorem agrees_flushed_settle (st : State) : Agrees st.settle.flushed st.flushed := by
  unfold settle
  split
  · rename_i hnil
    have hnil : commandPieces st.commands = [] := by
      rw [List.isEmpty_iff.mp hnil, commandPieces_nil]
    have hst : st.flushed = st.release := by rw [flushed, if_pos hnil]
    have hagain : Agrees st.release.release st.release := .refl _
    rw [hst, flushed]
    split
    · exact hagain
    · exact .refl _
  · exact .refl _

variable {c c' : Command} {rest rest' : List Command}

/-- A command that melts leaves the pieces as they are. -/
theorem agrees_step_of_melts (hst : st.commands = c :: rest) (hc : c.item.melts = some parts) :
    Agrees (st.step settings fuel).flushed st.flushed := by
  have hpieces : commandPieces st.commands =
      commandPieces (parts.map (⟨c.indentation, c.mode, .doc ·⟩) ++ rest) := by
    rw [hst, commandPieces_cons, commandPieces_append, Command.pieces_of_melts hc]
  have hperform : Agrees ({ st with commands := rest }.perform settings fuel c) st := by
    obtain ⟨i, m, item⟩ := c
    cases item with
    | fillRest => cases hc
    | doc d =>
      cases d with
      | concat | cursor =>
        cases hc
        exact ⟨rfl, rfl, hpieces.symm, rfl, rfl, rfl⟩
      | _ => cases hc
  rw [step_eq hst]
  exact (agrees_flushed_settle _).trans hperform.flushed

theorem flushed_of_not_melts (hst : st.commands = c :: rest) (hc : c.item.melts = none) :
    st.flushed = st := by
  obtain ⟨x, -, hx⟩ := Command.exists_piece hc
  rw [flushed, if_neg]
  rw [hst, commandPieces_cons, hx]
  exact List.cons_ne_nil _ _

/-- **Two commands that do not melt** are printed alike. -/
theorem Agrees.step (h : Agrees st.flushed st'.flushed) (hst : st.commands = c :: rest)
    (hst' : st'.commands = c' :: rest') (hc : c.item.melts = none) (hc' : c'.item.melts = none)
    (hf : st.work < fuel) (hf' : st'.work < fuel') :
    Agrees (st.step settings fuel).flushed (st'.step settings fuel').flushed := by
  rw [flushed_of_not_melts hst hc, flushed_of_not_melts hst' hc'] at h
  have hcommands := h.commands
  rw [hst, hst'] at hcommands
  obtain ⟨hi, hm, hmatched, hrest⟩ := matched_of_commandPieces_eq hcommands hc hc'
  have hleft : Agrees { st with commands := rest } { st' with commands := rest' } :=
    { h with commands := hrest }
  rw [work, hst, workOf_cons] at hf
  rw [work, hst', workOf_cons] at hf'
  rw [step_eq hst, step_eq hst']
  have hperform := hleft.perform settings hi hm hmatched
    (show c.item.work + workOf rest < fuel by omega) (show c'.item.work + workOf rest' < fuel' by omega)
  exact (agrees_flushed_settle _).trans (hperform.flushed.trans (agrees_flushed_settle _).symm)

/-! ## Runs -/

/-- The release of the suffixes is not overdue. -/
def Settled (st : State) : Prop := st.commands = [] → st.suffixes = []

variable (settings) in
/-- A run that has something left to print takes a step, and then has enough fuel for what is left. -/
theorem exists_run_eq {n : Nat} (hst : st.commands = c :: rest) (hn : st.work ≤ n) :
    ∃ k, n = k + 1 ∧ st.run settings n = (st.step settings (k + 2)).run settings k ∧
      (st.step settings (k + 2)).work ≤ k ∧ (st.step settings (k + 2)).Settled := by
  have hne : st.commands ≠ [] := by simp [hst]
  have hpos := c.item.one_le_work
  have hwork : st.work = c.item.work + workOf rest + workOf st.suffixes + st.suffixes.length := by
    rw [work, hst, workOf_cons]
  obtain ⟨k, rfl⟩ := Nat.exists_eq_add_one_of_ne_zero (show n ≠ 0 by omega)
  have hlt := work_step_lt settings (k + 2) hne
  refine ⟨k, rfl, ?_, by omega, suffixes_step settings (k + 2) hne⟩
  rw [run, if_neg (by simp [hst])]

@[simp] theorem out_flushed (st : State) : st.flushed.out = st.out := by
  unfold flushed
  split <;> rfl

/-- The one cannot be done when the other is not about to be. -/
theorem not_agrees_of_commands_nil (hst : st.commands = []) (hs : st.Settled) (hst' : st'.commands = c :: rest)
    (hc : c.item.melts = none) : ¬ Agrees st.flushed st'.flushed := by
  intro h
  have hcommands := h.commands
  obtain ⟨x, -, hx⟩ := Command.exists_piece hc
  have hnil : commandPieces st.flushed.commands = [] := by
    rw [flushed, if_pos (by rw [hst, commandPieces_nil])]
    simp [State.release, hst, hs hst]
  rw [flushed_of_not_melts hst' hc, hnil, hst', commandPieces_cons, hx] at hcommands
  cases hcommands

variable (settings) in
/-- **Two runs write the same**, as long as what is left to print has the same pieces. -/
theorem out_run_congr {n n' : Nat} (h : Agrees st.flushed st'.flushed) (hn : st.work ≤ n)
    (hn' : st'.work ≤ n') (hs : st.Settled) (hs' : st'.Settled) :
    (st.run settings n).out = (st'.run settings n').out := by
  induction hsum : n + n' using Nat.strong_induction_on generalizing n n' st st' with
  | _ sum ih =>
    -- A side whose next command melts takes a step by itself.
    have hleft : ∀ {c rest parts}, st.commands = c :: rest → c.item.melts = some parts →
        (st.run settings n).out = (st'.run settings n').out := by
      intro c rest parts hst hc
      obtain ⟨k, rfl, hrun, hk, hsettled⟩ := exists_run_eq settings hst hn
      rw [hrun]
      exact ih _ (by omega) ((agrees_step_of_melts hst hc).trans h) hk hn' hsettled hs' rfl
    have hright : ∀ {c rest parts}, st'.commands = c :: rest → c.item.melts = some parts →
        (st.run settings n).out = (st'.run settings n').out := by
      intro c rest parts hst' hc
      obtain ⟨k, rfl, hrun, hk, hsettled⟩ := exists_run_eq settings hst' hn'
      rw [hrun]
      exact ih _ (by omega) (h.trans (agrees_step_of_melts hst' hc).symm) hn hk hs hsettled rfl
    cases hst : st.commands with
    | nil =>
      cases hst' : st'.commands with
      | nil =>
        rw [run_of_commands_nil hst, run_of_commands_nil hst', ← out_flushed st, h.out, out_flushed]
      | cons c' rest' =>
        cases hc' : c'.item.melts with
        | some => exact hright hst' hc'
        | none => exact absurd h (not_agrees_of_commands_nil hst hs hst' hc')
    | cons c rest =>
      cases hc : c.item.melts with
      | some => exact hleft hst hc
      | none =>
        cases hst' : st'.commands with
        | nil => exact absurd h.symm (not_agrees_of_commands_nil hst' hs' hst hc)
        | cons c' rest' =>
          cases hc' : c'.item.melts with
          | some => exact hright hst' hc'
          | none =>
            obtain ⟨k, rfl, hrun, hk, hsettled⟩ := exists_run_eq settings hst hn
            obtain ⟨k', rfl, hrun', hk', hsettled'⟩ := exists_run_eq settings hst' hn'
            rw [hrun, hrun']
            exact ih _ (by omega) (h.step hst hst' hc hc' (by omega) (by omega)) hk hk' hsettled hsettled' rfl

/-- The start has nothing to release. -/
theorem settled_start (d : Doc) : (start d).Settled := nofun

end State

/-! ## Documents -/

variable {d d' : Doc}

/-- **Documents with the same pieces** have the same layout. -/
theorem formatted_eq_of_pieces_eq (h : d.pieces = d'.pieces) (settings : Settings) :
    (print settings d).formatted = (print settings d').formatted := by
  have hmarked : d.propagateBreaks.pieces = d'.propagateBreaks.pieces := by
    rw [Doc.pieces_propagateBreaks, Doc.pieces_propagateBreaks, h]
  have hstart : (State.start d.propagateBreaks).Agrees (State.start d'.propagateBreaks) :=
    ⟨rfl, rfl, by simp [State.start, Command.pieces, Item.pieces, hmarked], rfl, rfl, rfl⟩
  have hwork : ∀ e : Doc, (State.start e).work ≤ e.work := fun e => by
    simp [State.work, State.start, Item.work]
  have hout := State.out_run_congr settings hstart.flushed (hwork _) (hwork _)
    (State.settled_start _) (State.settled_start _)
  simp only [print, State.finish, State.trim, hout]

/-- **Cursors never change the layout**, however many there are and wherever they stand. -/
theorem formatted_withCursors (h : Doc.WithCursors d d') (settings : Settings) :
    (print settings d').formatted = (print settings d).formatted :=
  (formatted_eq_of_pieces_eq h.pieces_eq settings).symm

end CodeFormatter.Layout
