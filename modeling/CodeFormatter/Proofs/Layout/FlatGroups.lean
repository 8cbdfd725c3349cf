import CodeFormatter.Options
import CodeFormatter.Proofs.Layout.Overflow
import CodeFormatter.Proofs.Layout.Pieces
import CodeFormatter.Proofs.Layout.Progress

/-!
# Groups that fit

A document in which nothing has to break has a text on one line, its *flat text*. A group around it is laid out
flat if that text fits on the page, and broken otherwise.

**Theorem (`formatted_groupOf`).** On a page of less than `columnLimit` columns the group is flat if and only if
its flat text is no wider than the page, and then the flat text is the layout.

The fitting test reads flat items as their flat text (`fits_eq_of_flat`). The machine prints them as such: what has
been written, followed by the flat text of what is left, is the same line after each step (`Straight.step`). A fill
measures its parts by itself, whatever the mode around it is. They fit where the whole line does.

**Theorem (`modeOfGroup_of_le`).** A wider page keeps a group flat and its layout as it is, as long as the page has
less than `columnLimit` columns. The width of the page is read as a signed number, and on a page beyond that limit
no group is flat (`not_monotone`).
-/

namespace CodeFormatter

namespace Doc

/-! ## Documents on one line -/

mutual

/-- The text of a document on one line: a line is what it writes when it stays flat, and a choice is its flat
branch. -/
def flatText : Doc → List Char
  | .text s => s.toList
  | .line kind => kind.flatText
  | .concat parts | .fill parts => flatTextAll parts
  | .group contents _ _ | .conditionalGroup contents _ _ _ | .indent contents | .align _ contents =>
    flatText contents
  | .ifBreak _ flat _ => flatText flat
  | .lineSuffix _ | .lineSuffixBoundary | .breakParent | .trim | .cursor => []

def flatTextAll : List Doc → List Char
  | [] => []
  | d :: rest => flatText d ++ flatTextAll rest

end

theorem flatTextAll_eq (parts : List Doc) : flatTextAll parts = parts.flatMap flatText := by
  induction parts with
  | nil => rfl
  | cons d rest ih => rw [flatTextAll, ih, List.flatMap_cons]

/-- The document itself puts nothing at the end of the line, takes nothing from it, and ends it with no text. -/
def staysOnLine : Doc → Bool
  | .text s => !s.toList.contains '\n'
  | .lineSuffix _ | .trim => false
  | _ => true

/-- The document may be printed on one line. -/
def OneLine (d : Doc) : Prop := d.Every fun e => e.willBreak = false ∧ e.staysOnLine = true

theorem willBreak_of_mem_children {d e : Doc} (hd : d.willBreak = false) (he : e ∈ d.children) :
    e.willBreak = false := by
  cases d with
  | concat parts | fill parts =>
    rw [willBreak, anyWillBreak_eq, List.any_eq_false] at hd
    simpa using hd e he
  | group contents _ _ =>
    rw [willBreak, Bool.or_eq_false_iff] at hd
    rw [List.mem_singleton.mp he]
    exact hd.2
  | indent contents | align _ contents | lineSuffix contents => rwa [List.mem_singleton.mp he]
  | conditionalGroup contents states _ _ =>
    simp only [willBreak, anyWillBreak_eq, Bool.or_eq_false_iff, List.any_eq_false] at hd
    rcases List.mem_cons.mp he with rfl | he
    · exact hd.1.2
    · simpa using hd.2 e he
  | ifBreak broken flat _ =>
    rw [willBreak, Bool.or_eq_false_iff] at hd
    rcases List.mem_pair.mp he with rfl | rfl
    · exact hd.1
    · exact hd.2
  | text | line | lineSuffixBoundary | breakParent | trim | cursor => cases he

theorem oneLine_of_all {d : Doc} (hbreak : d.willBreak = false) (hline : d.all staysOnLine = true) :
    d.OneLine := by
  have hbreaks : d.Every (·.willBreak = false) := by
    clear hline
    induction d using Doc.childrenInduction with
    | node d ih => exact .intro hbreak fun e he => ih e he (willBreak_of_mem_children hbreak he)
  exact hbreaks.and (every_of_all hline)

namespace OneLine

variable {d e : Doc}

theorem of_mem_children (h : d.OneLine) (he : e ∈ d.children) : e.OneLine := Every.of_mem_children h he

theorem willBreak (h : d.OneLine) : d.willBreak = false := h.self.1

/-- Its groups are not marked. -/
theorem shouldBreak_eq_false {contents : Doc} {shouldBreak : Bool} {id : Option GroupId}
    (h : (Doc.group contents shouldBreak id).OneLine) : shouldBreak = false :=
  (Bool.or_eq_false_iff.mp h.willBreak).1

theorem shouldBreak_eq_false_of_states {contents : Doc} {states : List Doc} {shouldBreak : Bool}
    {id : Option GroupId} (h : (Doc.conditionalGroup contents states shouldBreak id).OneLine) :
    shouldBreak = false :=
  (Bool.or_eq_false_iff.mp (Bool.or_eq_false_iff.mp h.willBreak).1).1

/-- No group gets a mark where no break is. -/
theorem propagateBreaks_eq (h : d.OneLine) : d.propagateBreaks = d ∧ d.exposesBreak = false := by
  have hparts : ∀ {parts : List Doc}, (∀ e ∈ parts, e.propagateBreaks = e ∧ e.exposesBreak = false) →
      parts.map propagateBreaks = parts ∧ parts.any exposesBreak = false := by
    intro parts ih
    refine ⟨(List.map_congr_left fun e he => (ih e he).1).trans (List.map_id parts), ?_⟩
    simpa using fun e he => (ih e he).2
  induction d using Doc.induction with
  | concat parts ih | fill parts ih =>
    obtain ⟨hmap, hany⟩ := hparts fun e he => ih e he (h.of_mem_children he)
    simp [hmap, hany]
  | group contents shouldBreak id ih =>
    obtain ⟨hcontents, hexposes⟩ := ih (h.of_mem_children (List.mem_singleton_self _))
    simp [hcontents, hexposes, h.shouldBreak_eq_false]
  | conditionalGroup contents states shouldBreak id ih ihs =>
    obtain ⟨hcontents, -⟩ := ih (h.of_mem_children List.mem_cons_self)
    obtain ⟨hstates, -⟩ := hparts fun e he => ihs e he (h.of_mem_children (List.mem_cons_of_mem _ he))
    simp [hcontents, hstates, h.shouldBreak_eq_false_of_states]
  | indent contents ih | align alignment contents ih =>
    obtain ⟨hcontents, hexposes⟩ := ih (h.of_mem_children (List.mem_singleton_self _))
    simp [hcontents, hexposes]
  | ifBreak broken flat id ih ih' =>
    obtain ⟨hbroken, hexposes⟩ := ih (h.of_mem_children List.mem_cons_self)
    obtain ⟨hflat, hexposes'⟩ := ih' (h.of_mem_children (List.mem_cons_of_mem _ List.mem_cons_self))
    simp [hbroken, hflat, hexposes, hexposes']
  | lineSuffix => cases h.self.2
  | breakParent => cases h.willBreak
  | text | line | lineSuffixBoundary | trim | cursor => exact ⟨rfl, rfl⟩

theorem newline_not_mem_flatText (h : d.OneLine) : '\n' ∉ d.flatText := by
  induction d using Doc.induction with
  | text s => simpa [staysOnLine, flatText] using h.self.2
  | concat parts ih | fill parts ih =>
    rw [flatText, flatTextAll_eq, List.mem_flatMap]
    rintro ⟨e, he, hmem⟩
    exact ih e he (h.of_mem_children he) hmem
  | line kind => cases kind <;> simp [flatText, LineKind.flatText]
  | group _ _ _ ih | indent _ ih | align _ _ ih =>
    exact ih (h.of_mem_children (List.mem_singleton_self _))
  | conditionalGroup _ _ _ _ ih => exact ih (h.of_mem_children List.mem_cons_self)
  | ifBreak _ _ _ _ ih => exact ih (h.of_mem_children (List.mem_cons_of_mem _ List.mem_cons_self))
  | lineSuffix | lineSuffixBoundary | breakParent | trim | cursor => simp [flatText]

end OneLine

end Doc

namespace Layout

/-! ## What the fitting test reads -/

/-- The text of an item on one line. -/
def Item.flatText (item : Item) : List Char := item.docs.flatMap Doc.flatText

@[simp] theorem Item.flatText_doc (d : Doc) : (Item.doc d).flatText = d.flatText := by
  simp [Item.flatText, Item.docs]

/-- The text of items on one line. -/
def flatTextOf (items : List (Mode × Item)) : List Char := items.flatMap (·.2.flatText)

/-- A flat item with documents that may be printed on one line. -/
structure FlatItem (x : Mode × Item) : Prop where
  mode : x.1 = .flat
  docs : ∀ d ∈ x.2.docs, d.OneLine

section FittingTest

variable {modes : GroupModes} {mustBeFlat : Bool} {width : Int} {padding fuel : Nat} {mode : Mode}
  {item : Item} {items items' inner : List (Mode × Item)} {parts : List Doc} {d : Doc}

@[simp] theorem flatTextOf_nil : flatTextOf [] = [] := rfl

@[simp] theorem flatTextOf_cons :
    flatTextOf ((mode, item) :: items) = item.flatText ++ flatTextOf items := rfl

@[simp] theorem flatTextOf_append :
    flatTextOf (items ++ items') = flatTextOf items ++ flatTextOf items' := List.flatMap_append

@[simp] theorem flatTextOf_map_doc :
    flatTextOf (parts.map (mode, .doc ·)) = parts.flatMap Doc.flatText := by
  simp [flatTextOf, List.flatMap_map]

theorem flatItem_doc (hd : d.OneLine) : FlatItem (.flat, .doc d) :=
  ⟨rfl, fun e he => by rwa [List.mem_singleton.mp he]⟩

theorem flatItem_map_doc (h : ∀ d ∈ parts, d.OneLine) :
    ∀ x ∈ parts.map ((.flat, .doc ·) : Doc → Mode × Item), FlatItem x := by
  intro x hx
  obtain ⟨d, hd, rfl⟩ := List.mem_map.mp hx
  exact flatItem_doc (h d hd)

/-- Where all groups are flat, all choices are. -/
theorem choiceMode_flat (h : ∀ x ∈ modes, x.2 = .flat) (id : Option GroupId) :
    choiceMode modes .flat id = .flat := by
  cases id with
  | none => rfl
  | some id =>
    rw [choiceMode]
    cases hlookup : modes.lookup id with
    | none => rfl
    | some mode =>
      obtain ⟨before, after, rfl, -⟩ := List.lookup_eq_some_iff.mp hlookup
      exact h (id, mode) (by simp)

/-- A flat item is a text, a space, or it holds flat items with the same text. -/
theorem opened_of_flat (hmodes : ∀ x ∈ modes, x.2 = .flat) (mustBeFlat : Bool)
    (h : ∀ d ∈ item.docs, d.OneLine) :
    (∃ s, item = .doc (.text s)) ∨ item = .doc (.line .normal) ∨
      ∃ inner, opened modes mustBeFlat .flat item = some inner ∧ (∀ x ∈ inner, FlatItem x) ∧
        flatTextOf inner = item.flatText ∧ itemsWork inner < item.work := by
  cases item with
  | fillRest parts =>
    refine .inr (.inr ⟨_, rfl, flatItem_map_doc h, flatTextOf_map_doc, ?_⟩)
    rw [itemsWork_map_doc, Item.work]
    omega
  | doc d =>
    have hd : d.OneLine := h d (List.mem_singleton_self d)
    -- A document that one of its parts takes the place of.
    have hone : ∀ e ∈ d.children, e.flatText = d.flatText →
        opened modes mustBeFlat .flat (.doc d) = some [(.flat, .doc e)] →
        ∃ inner, opened modes mustBeFlat .flat (.doc d) = some inner ∧ (∀ x ∈ inner, FlatItem x) ∧
          flatTextOf inner = (Item.doc d).flatText ∧ itemsWork inner < (Item.doc d).work := by
      intro e he htext hopen
      refine ⟨_, hopen, List.forall_mem_singleton.mpr (flatItem_doc (hd.of_mem_children he)), ?_, ?_⟩
      · simp [htext]
      · simpa [Item.work, itemsWork] using Doc.work_lt_of_mem_children he
    cases d with
    | text s => exact .inl ⟨s, rfl⟩
    | concat parts | fill parts =>
      refine .inr (.inr ⟨_, rfl, flatItem_map_doc fun e he => hd.of_mem_children he, ?_, ?_⟩)
      · rw [flatTextOf_map_doc, Item.flatText_doc, Doc.flatText, Doc.flatTextAll_eq]
      · rw [itemsWork_map_doc, Item.work, Doc.work]
        omega
    | line kind =>
      cases kind with
      | normal => exact .inr (.inl rfl)
      | soft => exact .inr (.inr ⟨[], rfl, by simp, rfl, Nat.one_pos⟩)
      | hard | literal => cases hd.willBreak
    | group contents shouldBreak id =>
      obtain rfl := hd.shouldBreak_eq_false
      exact .inr (.inr (hone contents (List.mem_singleton_self _) rfl (by simp [opened])))
    | conditionalGroup contents states shouldBreak id =>
      obtain rfl := hd.shouldBreak_eq_false_of_states
      exact .inr (.inr (hone contents List.mem_cons_self rfl (by simp [opened])))
    | indent contents | align alignment contents =>
      exact .inr (.inr (hone contents (List.mem_singleton_self _) rfl rfl))
    | ifBreak broken flat id =>
      refine .inr (.inr (hone flat (List.mem_cons_of_mem _ List.mem_cons_self) rfl ?_))
      rw [opened, choiceMode_flat hmodes]
    | lineSuffix | trim => cases hd.self.2
    | breakParent => cases hd.willBreak
    | lineSuffixBoundary | cursor =>
      exact .inr (.inr ⟨[], rfl, by simp, rfl, Item.one_le_work _⟩)

theorem fits_of_opened (hw : ¬ width < 0) (h : opened modes mustBeFlat mode item = some inner) :
    fits modes mustBeFlat (fuel + 1) width padding ((mode, item) :: items) [] =
      fits modes mustBeFlat fuel width padding (inner ++ items) [] := by
  rw [fits, if_neg hw]
  cases item with
  | fillRest parts =>
    cases h
    rfl
  | doc d =>
    cases d with
    | group contents shouldBreak id | conditionalGroup contents states shouldBreak id =>
      rw [opened] at h
      split at h
      · cases h
      · rename_i hflat
        cases h
        exact if_neg hflat
    | line kind =>
      cases kind with
      | soft =>
        rw [opened] at h
        split at h
        · rename_i hmode
          cases h
          rw [hmode]
          rfl
        · cases h
      | normal | hard | literal => cases h
    | text | trim => cases h
    | concat | fill | indent | align | ifBreak | lineSuffix | lineSuffixBoundary | breakParent | cursor =>
      cases h
      rfl

/-- **Flat items fit if their text does.** -/
theorem fits_eq_of_flat (hmodes : ∀ x ∈ modes, x.2 = .flat) (h : ∀ x ∈ items, FlatItem x)
    (hf : itemsWork items < fuel) : fits modes mustBeFlat fuel width padding items [] =
      decide (((flatTextOf items).length : Int) ≤ width) := by
  induction fuel generalizing items width padding with
  | zero => cases hf
  | succ fuel ih =>
    by_cases hw : width < 0
    · rw [fits_of_neg hw]
      exact (decide_eq_false (by omega)).symm
    cases items with
    | nil => simp [fits, nextItem, hw, Int.not_lt.mp hw]
    | cons x rest =>
      obtain ⟨mode, item⟩ := x
      obtain rfl : mode = .flat := (h _ List.mem_cons_self).mode
      have hdocs : ∀ d ∈ item.docs, d.OneLine := (h _ List.mem_cons_self).docs
      have hrest : ∀ x ∈ rest, FlatItem x := fun x hx => h x (List.mem_cons_of_mem _ hx)
      have hpos := item.one_le_work
      rw [itemsWork_cons] at hf
      rcases opened_of_flat hmodes mustBeFlat hdocs with
        ⟨s, rfl⟩ | rfl | ⟨inner, hopen, hinner, htext, hlt⟩
      · have hstep : fits modes mustBeFlat (fuel + 1) width padding ((.flat, .doc (.text s)) :: rest) [] =
            fits modes mustBeFlat fuel (width - s.toList.length) (paddingAfter padding s.toList) rest [] := by
          rw [fits, if_neg hw]
          rfl
        rw [hstep, ih hrest (by omega), decide_eq_decide, flatTextOf_cons, List.length_append,
          Item.flatText_doc, Doc.flatText]
        omega
      · have hstep : fits modes mustBeFlat (fuel + 1) width padding ((.flat, .doc (.line .normal)) :: rest) [] =
            fits modes mustBeFlat fuel (width - 1) (padding + 1) rest [] := by
          rw [fits, if_neg hw]
          rfl
        rw [hstep, ih hrest (by omega), decide_eq_decide, flatTextOf_cons, List.length_append,
          Item.flatText_doc, Doc.flatText, LineKind.flatText, List.length_singleton]
        omega
      · have hall : ∀ x ∈ inner ++ rest, FlatItem x := fun x hx =>
          (List.mem_append.mp hx).elim (hinner x) (hrest x)
        rw [fits_of_opened hw hopen, ih hall (by rw [itemsWork_append]; omega), flatTextOf_append, htext,
          flatTextOf_cons]

end FittingTest

/-! ## What the machine prints -/

namespace State

variable {settings : Settings} {fuel : Nat} {line written : List Char} {st st' : State} {c : Command}
  {rest new : List Command}

/-- Documents on one line fit by themselves if their text fits on the rest of the line. -/
theorem fitsAlone_eq_of_flat {docs : List Doc} (hmodes : ∀ x ∈ st.modes, x.2 = .flat)
    (hdocs : ∀ d ∈ docs, d.OneLine) (hwide : settings.width < st.column.toNat + columnLimit)
    (hlong : st.column.toNat ≤ settings.width + columnLimit) (hf : Doc.workAll docs < fuel) :
    st.fitsAlone settings fuel docs =
      decide (st.column.toNat + (docs.flatMap Doc.flatText).length ≤ settings.width) := by
  have hwork : itemsWork (docs.map (Mode.flat, .doc ·)) < fuel := by rwa [itemsWork_map_doc]
  rw [fitsAlone, remaining_eq hwide hlong, fits_eq_of_flat hmodes (flatItem_map_doc hdocs) hwork,
    flatTextOf_map_doc, decide_eq_decide]
  omega

/-- Everything that is left to print stays on the line. When it has been printed, the line will be `line`. -/
structure Straight (line : List Char) (st : State) : Prop where
  quiet : st.Quiet
  modes : ∀ x ∈ st.modes, x.2 = .flat
  flat : ∀ x ∈ st.items, FlatItem x
  column : st.column = .ofNat st.out.text.length
  text : st.out.text ++ flatTextOf st.items = line

theorem flatTextOf_items_of_docs (new : List Command) :
    flatTextOf (new.map fun c => (c.mode, c.item)) =
      (new.flatMap (·.item.docs)).flatMap Doc.flatText := by
  rw [flatTextOf, List.flatMap_map, List.flatMap_assoc]
  rfl

/-- A command has been printed: some text is written, and flat commands have taken its place. -/
theorem Straight.of_printed (h : st.Straight line) (hc : st.commands = c :: rest) (new : List Command)
    (written : List Char) (hcommands : st'.commands = new ++ rest) (hmode : ∀ c' ∈ new, c'.mode = .flat)
    (hdocs : ∀ d ∈ new.flatMap (·.item.docs), d.OneLine)
    (htext : written ++ (new.flatMap (·.item.docs)).flatMap Doc.flatText = c.item.flatText)
    (hout : st'.out.text = st.out.text ++ written) (hcolumn : st'.column = st.column + .ofNat written.length)
    (hq : st'.Quiet) (hmodes : ∀ x ∈ st'.modes, x.2 = .flat) : st'.Straight line := by
  have hitems : st'.items = (new.map fun c => (c.mode, c.item)) ++ rest.map fun c => (c.mode, c.item) := by
    rw [items, hcommands, List.map_append]
  have hbefore : st.items = (c.mode, c.item) :: rest.map fun c => (c.mode, c.item) := by
    rw [items, hc, List.map_cons]
  refine ⟨hq, hmodes, fun x hx => ?_, ?_, ?_⟩
  · rw [hitems] at hx
    rcases List.mem_append.mp hx with hx | hx
    · obtain ⟨c', hc', rfl⟩ := List.mem_map.mp hx
      exact ⟨hmode c' hc', fun d hd => hdocs d (List.mem_flatMap.mpr ⟨c', hc', hd⟩)⟩
    · exact h.flat x (hbefore ▸ List.mem_cons_of_mem _ hx)
  · rw [hcolumn, hout, List.length_append, h.column, UInt64.ofNat_add]
  · have hjoined : c.item.flatText ++ flatTextOf (rest.map fun c => (c.mode, c.item)) =
        flatTextOf st.items := by rw [hbefore, flatTextOf_cons]
    rw [hitems, hout, flatTextOf_append, flatTextOf_items_of_docs, List.append_assoc,
      ← List.append_assoc written, htext, hjoined, h.text]

/-- A fill of which everything fits is printed flat. -/
theorem exists_printFill_of_fits (i : Indentation) (parts : List Doc)
    (h : ∀ n, st.fitsAlone settings fuel (parts.take n) = true) :
    ∃ new, st.printFill settings fuel i .flat parts = { st with commands := new ++ st.commands } ∧
      (∀ c ∈ new, c.mode = .flat) ∧ new.flatMap (·.item.docs) = parts := by
  match parts, h with
  | [], _ => exact ⟨[], rfl, by simp, rfl⟩
  | [content], h =>
    have hcontent : st.fitsAlone settings fuel [content] = true := h 1
    refine ⟨[⟨i, .flat, .doc content⟩], ?_, by simp, rfl⟩
    simp [printFill, hcontent, push]
  | [content, separator], h =>
    have hcontent : st.fitsAlone settings fuel [content] = true := h 1
    refine ⟨[⟨i, .flat, .doc content⟩, ⟨i, .flat, .doc separator⟩], ?_, by simp, rfl⟩
    simp [printFill, hcontent, push]
  | content :: separator :: second :: others, h =>
    have hpair : st.fitsAlone settings fuel [content, separator, second] = true := h 3
    refine ⟨[⟨i, .flat, .doc content⟩, ⟨i, .flat, .doc separator⟩,
      ⟨i, .flat, .fillRest (second :: others)⟩], ?_, by simp, by simp [Item.docs]⟩
    simp [printFill, hpair, push]

theorem Straight.length_add_le (h : st.Straight line) (hc : st.commands = c :: rest) :
    st.out.text.length + c.item.flatText.length ≤ line.length := by
  have htext := congrArg List.length h.text
  rw [State.items, hc, List.map_cons, flatTextOf_cons, List.length_append, List.length_append] at htext
  omega

/-- A command that a part of its document takes the place of. -/
theorem Straight.push (h : st.Straight line) (hc : st.commands = c :: rest) {d : Doc} (hd : d.OneLine)
    (htext : d.flatText = c.item.flatText) {modes : GroupModes} (hmodes : ∀ x ∈ modes, x.2 = .flat)
    (i : Indentation) : (State.push { st with commands := rest, modes } i .flat d).Straight line := by
  refine h.of_printed hc [⟨i, .flat, .doc d⟩] [] rfl (by simp) ?_ ?_ (List.append_nil _).symm
    (UInt64.add_zero _).symm ⟨h.quiet.suffixes, h.quiet.remeasure⟩ hmodes
  · simpa [Item.docs] using hd
  · simpa [Item.docs] using htext

/-- A command that nothing takes the place of. -/
theorem Straight.done (h : st.Straight line) (hc : st.commands = c :: rest) {st' : State}
    (hcommands : st'.commands = rest) (hout : st'.out.text = st.out.text ++ c.item.flatText)
    (hcolumn : st'.column = st.column + .ofNat c.item.flatText.length) (hq : st'.Quiet)
    (hmodes : st'.modes = st.modes) : st'.Straight line :=
  h.of_printed hc [] c.item.flatText hcommands (by simp) (by simp) (List.append_nil _) hout hcolumn hq
    (hmodes ▸ h.modes)

section Run

variable (hwidth : line.length ≤ settings.width) (hlimit : settings.width < columnLimit)

include hwidth hlimit

/-- The parts of a fill fit where the line does. -/
theorem Straight.fitsAlone_take (h : st.Straight line) (hc : st.commands = c :: rest)
    {parts : List Doc} (hparts : ∀ d ∈ parts, d.OneLine)
    (htext : parts.flatMap Doc.flatText = c.item.flatText) (hwork : Doc.workAll parts < fuel) (n : Nat) :
    State.fitsAlone settings fuel { st with commands := rest } (parts.take n) = true := by
  have hline := h.length_add_le hc
  have hsize : columnLimit < UInt64.size := by decide
  have hcolumn : st.column.toNat = st.out.text.length := by
    rw [h.column, UInt64.toNat_ofNat_of_lt' (by omega)]
  have hlength : ((parts.take n).flatMap Doc.flatText).length ≤ c.item.flatText.length := by
    rw [← htext, ← List.take_append_drop n parts, List.flatMap_append, List.length_append,
      List.take_append_drop]
    exact Nat.le_add_right ..
  refine (fitsAlone_eq_of_flat h.modes (fun d hd => hparts d (List.mem_of_mem_take hd)) ?_ ?_
    ((Doc.workAll_take_le n parts).trans_lt hwork)).trans (decide_eq_true ?_)
  all_goals omega

theorem Straight.printFill (h : st.Straight line) (hc : st.commands = c :: rest) (hmode : c.mode = .flat)
    {parts : List Doc} (hparts : ∀ d ∈ parts, d.OneLine)
    (htext : parts.flatMap Doc.flatText = c.item.flatText) (hwork : Doc.workAll parts < fuel) :
    (State.printFill settings fuel { st with commands := rest } c.indentation c.mode parts).Straight line := by
  obtain ⟨new, heq, hnew, hdocs⟩ := exists_printFill_of_fits c.indentation parts
    (h.fitsAlone_take hwidth hlimit hc hparts htext hwork)
  rw [hmode, heq]
  refine h.of_printed hc new [] rfl hnew (hdocs ▸ hparts) ?_ (List.append_nil _).symm
    (UInt64.add_zero _).symm ⟨h.quiet.suffixes, h.quiet.remeasure⟩ h.modes
  rw [hdocs, List.nil_append, htext]

/-- **A command of the line** writes what it has to, and others make up the rest. -/
theorem Straight.perform (h : st.Straight line) (hc : st.commands = c :: rest) (hf : c.item.work ≤ fuel) :
    ({ st with commands := rest }.perform settings fuel c).Straight line := by
  have hq : State.Quiet { st with commands := rest } := ⟨h.quiet.suffixes, h.quiet.remeasure⟩
  have hflat : FlatItem (c.mode, c.item) := h.flat _ (by simp [State.items, hc])
  obtain ⟨i, m, item⟩ := c
  obtain rfl : m = .flat := hflat.mode
  have hdocs : ∀ d ∈ item.docs, d.OneLine := hflat.docs
  cases item with
  | fillRest parts =>
    exact h.printFill hwidth hlimit hc rfl hdocs rfl (by dsimp only [Item.work] at hf; omega)
  | doc d =>
    have hd : d.OneLine := hdocs d (List.mem_singleton_self d)
    -- A group in a flat scope is not measured.
    have hgroup : ∀ contents states id, contents ∈ d.children → contents.flatText = d.flatText →
        (State.printGroup settings fuel { st with commands := rest } i .flat contents states false
          id).Straight line := by
      intro contents states id hmem htext
      have hrecord : ∀ x ∈ st.modes.record id .flat, x.2 = .flat := by
        cases id with
        | none => exact h.modes
        | some id => exact List.forall_mem_cons.mpr ⟨rfl, h.modes⟩
      have hmeasured :
          (decide (Mode.flat = .broken) || State.remeasure { st with commands := rest }) = false := by
        rw [hq.remeasure]
        rfl
      rw [printGroup_of_not_measured settings fuel hmeasured]
      exact h.push hc (hd.of_mem_children hmem) (by simpa using htext) hrecord i
    cases d with
    | text s =>
      have hs : '\n' ∉ s.toList := by simpa [Doc.staysOnLine] using hd.self.2
      have hcolumn := columnAfterText_of_notMem st.column hs
      refine h.done hc rfl ?_ ?_ ⟨hq.suffixes, hq.remeasure⟩ rfl
      · simp [State.perform, printDoc, write, Doc.flatText]
      · simpa [State.perform, printDoc, write, Doc.flatText] using hcolumn
    | line kind =>
      cases kind with
      | normal | soft =>
        refine h.done hc rfl ?_ ?_ ⟨hq.suffixes, hq.remeasure⟩ rfl <;>
          simp [State.perform, printDoc, printLine, Doc.flatText, LineKind.flatText]
      | hard | literal => cases hd.willBreak
    | concat parts =>
      have hparts : ∀ e ∈ parts, e.OneLine := fun e he => hd.of_mem_children he
      refine h.of_printed hc (parts.map (⟨i, .flat, .doc ·⟩)) [] rfl (by simp) ?_ ?_
        (List.append_nil _).symm (UInt64.add_zero _).symm ⟨hq.suffixes, hq.remeasure⟩ h.modes
      · simpa [List.flatMap_map, Item.docs] using hparts
      · simp [List.flatMap_map, Item.docs, Doc.flatText, Doc.flatTextAll_eq]
    | fill parts =>
      refine h.printFill hwidth hlimit hc rfl (fun e he => hd.of_mem_children he) ?_ ?_
      · rw [Item.flatText_doc, Doc.flatText, Doc.flatTextAll_eq]
      · dsimp only [Item.work, Doc.work] at hf
        omega
    | group contents shouldBreak id =>
      obtain rfl := hd.shouldBreak_eq_false
      exact hgroup contents none id (List.mem_singleton_self _) rfl
    | conditionalGroup contents states shouldBreak id =>
      obtain rfl := hd.shouldBreak_eq_false_of_states
      exact hgroup contents (some states) id List.mem_cons_self rfl
    | indent contents | align alignment contents =>
      exact h.push hc (hd.of_mem_children (List.mem_singleton_self _)) (Item.flatText_doc _).symm h.modes _
    | ifBreak broken flat id =>
      have hflat : flat ∈ (Doc.ifBreak broken flat id).children :=
        List.mem_cons_of_mem _ List.mem_cons_self
      have hchoice := choiceMode_flat h.modes id
      simp only [State.perform, printDoc, hchoice]
      exact h.push hc (hd.of_mem_children hflat) (Item.flatText_doc _).symm h.modes i
    | lineSuffix | trim => cases hd.self.2
    | breakParent => cases hd.willBreak
    | lineSuffixBoundary =>
      have hnone : st.suffixes.isEmpty = true := by rw [h.quiet.suffixes]; rfl
      simp only [State.perform, printDoc, hnone, if_true]
      exact h.done hc rfl (by simp [Doc.flatText]) (by simp [Doc.flatText]) hq rfl
    | cursor =>
      refine h.done hc rfl ?_ ?_ ⟨hq.suffixes, hq.remeasure⟩ rfl <;>
        simp [State.perform, printDoc, Doc.flatText]

theorem Straight.step (h : st.Straight line) (hf : st.work ≤ fuel) :
    (st.step settings fuel).Straight line := by
  cases hc : st.commands with
  | nil => simpa [State.step, hc] using h
  | cons c rest =>
    have hwork : c.item.work ≤ fuel := by
      rw [work, hc, workOf_cons] at hf
      omega
    have hnext := h.perform hwidth hlimit hc hwork
    rwa [step_eq hc, settle_of_suffixes_nil hnext.quiet.suffixes]

/-- **The line stays the same along a run.** -/
theorem Straight.run (h : st.Straight line) (hf : st.work ≤ fuel) :
    (st.run settings fuel).Straight line := by
  induction fuel generalizing st with
  | zero => exact h
  | succ fuel ih =>
    rw [State.run]
    split
    · exact h
    · rename_i hne
      have hlt := work_step_lt settings (fuel + 2) (by simpa using hne)
      exact ih (h.step hwidth hlimit (by omega)) (by omega)

theorem Straight.formatted_run (h : st.Straight line) (hf : st.work ≤ fuel) :
    (st.run settings fuel).finish.formatted = String.ofList (trimEnd line) := by
  have hend := h.run hwidth hlimit hf
  have hnothing := (run_finishes settings hf fun _ => h.quiet.suffixes).1
  have htext := hend.text
  rw [items, hnothing, List.map_nil, flatTextOf_nil, List.append_nil] at htext
  rw [formatted_finish, htext]

end Run

/-- The state in which the contents of a group are printed first of all. -/
def inside (mode : Mode) (d : Doc) : State := { start d with commands := [⟨.none, mode, .doc d⟩] }

end State

/-! ## Groups -/

/-- The mode in which the layout of a group prints the contents of the group: that of the command which has taken
the place of the group when the group has been printed. -/
def modeOfGroup (settings : Settings) (d : Doc) : Option Mode :=
  let group := (Doc.groupOf d).propagateBreaks
  ((State.start group).step settings (group.work + 1)).commands.head?.map (·.mode)

section Groups

variable {settings : Settings} {d : Doc}

theorem start_inside (h : d.OneLine) : (State.inside .flat d).Straight d.flatText := by
  refine ⟨⟨rfl, rfl⟩, by simp [State.inside, State.start], fun x hx => ?_, rfl, ?_⟩
  · rw [List.mem_singleton.mp hx]
    exact flatItem_doc h
  · simp [State.inside, State.start, State.items]

/-- The columns of a page are counted by a signed number. From `columnLimit` on it is negative, and not even
nothing fits. -/
theorem le_remaining_iff {st : State} (hsize : settings.width < UInt64.size) (hst : st.column = 0) (n : Nat) :
    (n : Int) ≤ st.remaining settings ↔ n ≤ settings.width ∧ settings.width < columnLimit := by
  unfold State.remaining columnLimit
  unfold UInt64.size at hsize ⊢
  rw [hst, UInt64.toNat_zero, Int.bmod_def]
  split <;> omega

/-- The group is measured at the start of the line, and its contents are printed in the mode it gets. -/
theorem step_groupOf (hsize : settings.width < UInt64.size) (h : d.OneLine) {fuel : Nat}
    (hf : d.work < fuel) : (State.start (Doc.groupOf d)).step settings fuel =
      State.inside (if d.flatText.length ≤ settings.width ∧ settings.width < columnLimit then .flat
        else .broken) d := by
  let st : State := { State.start (Doc.groupOf d) with commands := [] }
  have hfits : st.fitsFlat settings fuel d = decide (d.flatText.length ≤ settings.width ∧
      settings.width < columnLimit) := by
    have hread : fits st.modes false fuel (st.remaining settings) 0 [(.flat, .doc d)] st.commands = _ :=
      fits_eq_of_flat (fun _ hx => by cases hx) (List.forall_mem_singleton.mpr (flatItem_doc h))
        (by simpa [itemsWork, Item.work] using hf)
    have hcolumn : st.column = 0 := rfl
    rw [State.fitsFlat, hread, decide_eq_decide, ← le_remaining_iff hsize hcolumn]
    simp [flatTextOf]
  have hmode : st.groupMode settings fuel .broken d false =
      if d.flatText.length ≤ settings.width ∧ settings.width < columnLimit then .flat else .broken := by
    simp only [State.groupMode, hfits, Bool.not_false, Bool.true_and, decide_eq_true_eq]
  have hquiet : st.Quiet := ⟨rfl, rfl⟩
  have hprint := hquiet.printGroup_eq settings fuel .none .broken d false none
  rw [hmode] at hprint
  rw [State.step_eq rfl]
  exact congrArg State.settle hprint

theorem propagateBreaks_groupOf (h : d.OneLine) : (Doc.groupOf d).propagateBreaks = Doc.groupOf d := by
  obtain ⟨hcontents, hexposes⟩ := h.propagateBreaks_eq
  rw [Doc.groupOf, Doc.propagateBreaks_group, hcontents, hexposes, Bool.or_self]

theorem modeOfGroup_eq (hsize : settings.width < UInt64.size) (h : d.OneLine) :
    modeOfGroup settings d = some (if d.flatText.length ≤ settings.width ∧ settings.width < columnLimit
      then .flat else .broken) := by
  have hwork : d.work < (Doc.groupOf d).work + 1 := by
    rw [Doc.groupOf, Doc.work]
    omega
  rw [modeOfGroup, propagateBreaks_groupOf h, step_groupOf hsize h hwork]
  rfl

theorem modeOfGroup_eq_flat_iff (hsize : settings.width < UInt64.size) (h : d.OneLine) :
    modeOfGroup settings d = some .flat ↔
      d.flatText.length ≤ settings.width ∧ settings.width < columnLimit := by
  rw [modeOfGroup_eq hsize h]
  split <;> simp_all

/-- A group that fits is laid out as its text on one line. -/
theorem formatted_of_fits (hwidth : d.flatText.length ≤ settings.width)
    (hlimit : settings.width < columnLimit) (h : d.OneLine) :
    (print settings (Doc.groupOf d)).formatted = String.ofList (trimEnd d.flatText) := by
  have hsize : settings.width < UInt64.size := hlimit.trans (by decide)
  have hrun : (State.start (Doc.groupOf d)).run settings (Doc.groupOf d).work =
      (State.inside .flat d).run settings d.work := by
    rw [Doc.groupOf, Doc.work, Nat.add_comm, State.run, if_neg (by simp [State.start]), ← Doc.groupOf,
      step_groupOf hsize h (by omega), if_pos ⟨hwidth, hlimit⟩]
  rw [print, propagateBreaks_groupOf h, hrun]
  exact (start_inside h).formatted_run hwidth hlimit (by simp [State.work, State.inside, State.start, Item.work])

/-- **A group is flat if and only if it fits.** -/
theorem formatted_groupOf (settings : Settings) {d : Doc} (hlimit : settings.width < columnLimit)
    (hbreak : d.willBreak = false) (hline : d.all Doc.staysOnLine = true) :
    (d.flatText.length ≤ settings.width → modeOfGroup settings d = some .flat ∧
        (print settings (Doc.groupOf d)).formatted = String.ofList (trimEnd d.flatText) ∧
        '\n' ∉ (print settings (Doc.groupOf d)).formatted.toList) ∧
      (settings.width < d.flatText.length → modeOfGroup settings d = some .broken) := by
  have h := Doc.oneLine_of_all hbreak hline
  have hsize : settings.width < UInt64.size := hlimit.trans (by decide)
  refine ⟨fun hwidth => ?_, fun hwide => ?_⟩
  · have hformatted := formatted_of_fits hwidth hlimit h
    refine ⟨(modeOfGroup_eq_flat_iff hsize h).mpr ⟨hwidth, hlimit⟩, hformatted, ?_⟩
    rw [hformatted, String.toList_ofList]
    exact fun hmem => h.newline_not_mem_flatText ((List.rdropWhile_prefix _ _).mem hmem)
  · rw [modeOfGroup_eq hsize h, if_neg (by omega)]

/-- A fill, a group with states and choices, on two pages. The second one is a column too narrow. -/
theorem formatted_groupOf_fill :
    let d : Doc := .concat [.group (.text "a") false (some 1),
      .fill [.text "b", Doc.space, Doc.conditional [.text "c", .text "cc"], Doc.softline, .text "d"],
      .indent (.ifBreak (.text "!") (.text ";") (some 1)), Doc.choose (.text ",") Doc.space]
    (print (Settings.ofWidth 7) (Doc.groupOf d)).formatted = "ab cd;" ∧
      modeOfGroup (Settings.ofWidth 6) d = some .broken := by
  intro d
  have hbreak : d.willBreak = false := by decide
  have hline : d.all Doc.staysOnLine = true := by decide
  refine ⟨?_, (formatted_groupOf (Settings.ofWidth 6) (by decide) hbreak hline).2 (by decide)⟩
  rw [((formatted_groupOf (Settings.ofWidth 7) (by decide) hbreak hline).1 (by decide)).2.1]
  decide

/-- **A wider page keeps a group flat**, as long as its columns can be counted. -/
theorem modeOfGroup_of_le (settings : Settings) {w w' : Nat} {d : Doc} (hle : w ≤ w')
    (hsize : w' < UInt64.size) (hbreak : d.willBreak = false) (hline : d.all Doc.staysOnLine = true)
    (hflat : modeOfGroup { settings with width := w } d = some .flat) :
    (w' < columnLimit → modeOfGroup { settings with width := w' } d = some .flat ∧
        (print { settings with width := w' } (Doc.groupOf d)).formatted =
          (print { settings with width := w } (Doc.groupOf d)).formatted) ∧
      (columnLimit ≤ w' → modeOfGroup { settings with width := w' } d = some .broken) := by
  have h := Doc.oneLine_of_all hbreak hline
  obtain ⟨hwidth, hlimit⟩ := (modeOfGroup_eq_flat_iff (hle.trans_lt hsize) h).mp hflat
  dsimp only at hwidth hlimit
  refine ⟨fun hlimit' => ⟨?_, ?_⟩, fun hwide => ?_⟩
  · exact (modeOfGroup_eq_flat_iff hsize h).mpr ⟨hwidth.trans hle, hlimit'⟩
  · rw [formatted_of_fits (hwidth.trans hle) hlimit' h, formatted_of_fits hwidth hlimit h]
  · rw [modeOfGroup_eq hsize h, if_neg fun hfits => absurd hfits.2 (Nat.not_lt.mpr hwide)]

/-- From 3 columns, just enough, to 80. -/
theorem modeOfGroup_of_le_words :
    let d : Doc := .concat [.text "a", Doc.space, .text "b"]
    modeOfGroup { Settings.ofWidth 3 with width := 80 } d = some .flat ∧
      (print { Settings.ofWidth 3 with width := 80 } (Doc.groupOf d)).formatted =
        (print { Settings.ofWidth 3 with width := 3 } (Doc.groupOf d)).formatted :=
  (modeOfGroup_of_le (Settings.ofWidth 3) (by decide) (by decide) (by decide) (by decide)
    (by decide)).1 (by decide)

/-- On the widest page that options allow, two words no longer fit. -/
theorem not_monotone :
    let d : Doc := .concat [.text "a", Doc.space, .text "b"]
    let narrow : Options := {}
    let wide : Options := { printWidth := 18446744073709551615 }
    narrow.validate = .ok () ∧ wide.validate = .ok () ∧ narrow.printWidth ≤ wide.printWidth ∧
      d.willBreak = false ∧ d.all Doc.staysOnLine = true ∧
      modeOfGroup (narrow.page "") d = some .flat ∧ modeOfGroup (wide.page "") d = some .broken ∧
      (print (narrow.page "") (Doc.groupOf d)).formatted = "a b" ∧
      (print (wide.page "") (Doc.groupOf d)).formatted = "a\nb" := by
  decide +kernel

end Groups

end Layout

end CodeFormatter
