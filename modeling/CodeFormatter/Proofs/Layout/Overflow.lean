import CodeFormatter.Proofs.Layout.Fits
import CodeFormatter.Proofs.Layout.Indentation
import CodeFormatter.Proofs.Layout.Reference

/-!
# Lines that are too wide

A line may become wider than the page, but only when nothing is left to break: no line on it stayed
flat, and no group on it was found to fit.

**Theorem (`length_le_width_of_flat`).** In the layout of a plain document in which no choice names a
group, every line on which something was laid out flat is at most as wide as the page.

The fitting test looks beyond the group it is asked about: it reads on through the commands after the
group, each in its own mode, up to the first line that may break. The groups on that way are measured
again when the machine gets there, so the test does not foresee the layout of the line. The proof
follows the machine instead, with the invariant `Room`: what is left to print, each item in its mode,
fits on the rest of the line.

* A group that is found to fit gives room, by soundness of the test.
* Every step that stays on the line keeps room. The only step that does not do just what the test did
  is a group in a broken scope that is measured again; it is either opened as in the test or found to
  fit, and then it gives room itself.
* A flat line is printed only while something flat is on the stack, and then there is room. When a
  newline is written nothing flat is left on the stack: in a stack everything flat is above
  everything broken, and nothing flat breaks.

Columns are compared as signed 64-bit numbers, so the statement is about lines of less than
`columnLimit` characters. No text in memory has a longer one. The invariant itself is about the number of
characters on the line, which the machine counts in a word.
-/

namespace CodeFormatter.Layout

/-! ## The lines of a trace -/

/-- A line of the output before the spaces and tabs at its end are removed: what it starts with, and
the pieces after that. -/
structure OutputLine where
  indentation : List Char
  pieces : List Piece

/-- The characters that a piece adds to its line. -/
def Piece.chars : Piece → List Char
  | .text cs => cs
  | .flatLine kind => kind.flatText
  | _ => []

namespace OutputLine

def text (line : OutputLine) : List Char := line.indentation ++ line.pieces.flatMap Piece.chars

/-- The line with one piece more. -/
def add (line : OutputLine) (p : Piece) : OutputLine := ⟨line.indentation, line.pieces ++ [p]⟩

/-- Something on the line was laid out flat: a line of the document, or a group that was measured. -/
def HasFlat (line : OutputLine) : Prop :=
  (∃ kind, .flatLine kind ∈ line.pieces) ∨ .fitted ∈ line.pieces

theorem length_text_add (line : OutputLine) (p : Piece) :
    (line.add p).text.length = line.text.length + p.chars.length := by
  simp [text, add, Nat.add_assoc]

theorem not_hasFlat_nil (indentation : List Char) : ¬ HasFlat ⟨indentation, []⟩ := by
  simp [HasFlat]

/-- A text adds nothing flat. -/
theorem HasFlat.of_add_text {line : OutputLine} {cs : List Char} (h : (line.add (.text cs)).HasFlat) :
    line.HasFlat := by
  simpa [HasFlat, add] using h

end OutputLine

/-- The lines that the pieces make up, `line` being the first of them so far. -/
def linesFrom (line : OutputLine) : List Piece → List OutputLine
  | [] => [line]
  | .newline _ indentation :: pieces => line :: linesFrom ⟨indentation, []⟩ pieces
  | p :: pieces => linesFrom (line.add p) pieces

/-- The lines that the pieces make up. -/
def linesOf (pieces : List Piece) : List OutputLine := linesFrom ⟨[], []⟩ pieces

/-! ## Steps, as the fitting test sees them -/

variable {settings : Settings}

/-- The columns that a signed 64-bit number can count. -/
def columnLimit : Nat := 9223372036854775808

/-- Of what is left to print, as much as stands on the current line fits on it. -/
def Room (settings : Settings) (column : Nat) (items : List (Mode × Item)) : Prop :=
  (∃ modes padding, Fits modes false ((settings.width : Int) - column) padding items) ∨
    columnLimit ≤ column

/-- One step of the machine on a plain document, by the column and the items before it, what it
writes, and the column and the items after it. -/
inductive Advance (settings : Settings) :
    Nat → List (Mode × Item) → List Piece → Nat → List (Mode × Item) → Prop
  | text {column : Nat} {mode : Mode} {s : String} {items : List (Mode × Item)} :
      Advance settings column ((mode, .doc (.text s)) :: items) [.text s.toList]
        (column + s.toList.length) items
  | flatLine {column : Nat} {kind : LineKind} {items : List (Mode × Item)} :
      kind.isHard = false →
      Advance settings column ((.flat, .doc (.line kind)) :: items) [.flatLine kind]
        (column + kind.flatText.length) items
  | newline {column : Nat} {item : Item} {trims : Bool} {indentation : List Char}
      {items : List (Mode × Item)} :
      Advance settings column ((.broken, item) :: items) [.newline trims indentation]
        indentation.length items
  | opened {column : Nat} {mode : Mode} {item : Item} {inner items : List (Mode × Item)} :
      (∀ modes, opened modes false mode item = some inner) → (∀ x ∈ inner, x.1 = mode) →
      Advance settings column ((mode, item) :: items) [] column (inner ++ items)
  | fitted {column : Nat} {item inner : Item} {items : List (Mode × Item)} :
      Room settings column ((.flat, inner) :: items) →
      Advance settings column ((.broken, item) :: items) [.fitted] column ((.flat, inner) :: items)

/-- Everything flat is above everything broken. -/
def FlatFirst (items : List (Mode × Item)) : Prop :=
  items.Pairwise fun x y => x.1 = .broken → y.1 = .broken

namespace Advance

variable {column column' : Nat} {items items' : List (Mode × Item)} {pieces : List Piece}

theorem flatFirst (h : Advance settings column items pieces column' items')
    (hf : FlatFirst items) : FlatFirst items' := by
  cases h with
  | text => exact hf.of_cons
  | flatLine => exact hf.of_cons
  | newline => exact hf.of_cons
  | @opened mode item inner items _ hmode =>
    have htail : ∀ y ∈ items, mode = .broken → y.1 = .broken :=
      fun y hy => List.rel_of_pairwise_cons hf hy
    refine List.pairwise_append.mpr ⟨?_, hf.of_cons, fun x hx y hy hb => ?_⟩
    · exact List.pairwise_of_forall_mem_list fun x hx y hy hb => by
        rw [hmode y hy, ← hmode x hx, hb]
    · exact htail y hy ((hmode x hx).symm.trans hb)
  | fitted => exact List.pairwise_cons.mpr ⟨fun _ _ h => (by cases h), hf.of_cons⟩

/-- A step that writes no newline keeps room: it does what the fitting test did. -/
theorem room (h : Advance settings column items pieces column' items')
    (hline : ∀ trims indentation, .newline trims indentation ∉ pieces)
    (hr : Room settings column items) : Room settings column' items' := by
  cases h with
  | @text mode s items =>
    rcases hr with ⟨modes, padding, hfits⟩ | hlong
    · cases hfits with
      | text _ hrest =>
        refine .inl ⟨modes, paddingAfter padding s.toList, ?_⟩
        rw [Int.natCast_add, ← Int.sub_sub]
        exact hrest
      | opened _ hopen => cases hopen
    · exact .inr (by omega)
  | @flatLine kind items hkind =>
    rcases hr with ⟨modes, padding, hfits⟩ | hlong
    · cases hfits with
      | space _ hrest =>
        refine .inl ⟨modes, padding + 1, ?_⟩
        rw [Int.natCast_add, ← Int.sub_sub]
        exact hrest
      | newline _ hhard => simp [hkind] at hhard
      | opened _ hopen hrest =>
        -- A soft line holds nothing.
        cases kind with
        | soft =>
          cases hopen
          exact .inl ⟨modes, _, hrest⟩
        | normal | hard | literal => cases hopen
    · exact .inr (by omega)
  | newline => exact absurd (List.mem_singleton.mpr rfl) (hline _ _)
  | @opened mode item inner items hopen _ =>
    rcases hr with ⟨modes, padding, hfits⟩ | hlong
    · have hinner := hopen modes
      cases hfits with
      | opened _ hopen' hrest =>
        rw [hinner] at hopen'
        cases hopen'
        exact .inl ⟨modes, _, hrest⟩
      | text | space | trim => cases hinner
      | @newline _ _ _ kind _ _ hhard =>
        -- Only a soft line in a flat scope is opened, and that one does not break.
        cases kind with
        | soft =>
          rw [Layout.opened] at hinner
          split at hinner
          · simp_all [LineKind.isHard]
          · cases hinner
        | normal | hard | literal => cases hinner
    · exact .inr hlong
  | fitted hroom => exact hroom

end Advance

/-- If something on the line, or something that is left to print, is flat, then there is room. -/
def Watched (settings : Settings) (column : Nat) (items : List (Mode × Item)) (line : OutputLine) :
    Prop :=
  (line.HasFlat ∨ ∃ x ∈ items, x.1 = .flat) → Room settings column items

/-- A line that ends in a watched state is not too wide. -/
theorem Watched.length_le {column : Nat} {items : List (Mode × Item)} {line : OutputLine}
    (h : Watched settings column items line) (hlen : line.text.length = column)
    (hflat : line.HasFlat) (hshort : line.text.length < columnLimit) :
    line.text.length ≤ settings.width := by
  rcases h (.inl hflat) with ⟨_, _, hfits⟩ | hlong
  · have := hfits.width_nonneg
    omega
  · omega

/-- What a step adds to a line. A newline ends the line, and the next one is watched because nothing
flat is left; otherwise the line is longer and still watched. -/
theorem Advance.exists_line {column column' : Nat} {items items' : List (Mode × Item)}
    {pieces : List Piece} (h : Advance settings column items pieces column' items')
    (hf : FlatFirst items) {line : OutputLine} (hlen : line.text.length = column)
    (hw : Watched settings column items line) :
    ∃ line' : OutputLine, line'.text.length = column' ∧ Watched settings column' items' line' ∧
      ∀ more, ∀ l ∈ linesFrom line (pieces ++ more), l = line ∨ l ∈ linesFrom line' more := by
  have hroom := h.room
  cases h with
  | @text mode s items =>
    refine ⟨line.add (.text s.toList), ?_, fun hflat => ?_, fun _ l hl => .inr hl⟩
    · rw [OutputLine.length_text_add, hlen]; rfl
    · refine hroom (by simp) (hw (hflat.imp OutputLine.HasFlat.of_add_text ?_))
      rintro ⟨x, hx, hxf⟩
      exact ⟨x, List.mem_cons_of_mem _ hx, hxf⟩
  | @flatLine kind items _ =>
    refine ⟨line.add (.flatLine kind), ?_, fun _ => ?_, fun _ l hl => .inr hl⟩
    · rw [OutputLine.length_text_add, hlen]; rfl
    · exact hroom (by simp) (hw (.inr ⟨_, List.mem_cons_self, rfl⟩))
  | @newline item trims indentation items =>
    refine ⟨⟨indentation, []⟩, by simp [OutputLine.text], fun hflat => ?_, fun _ l hl => ?_⟩
    · rcases hflat with hflat | ⟨x, hx, hxf⟩
      · exact absurd hflat (OutputLine.not_hasFlat_nil indentation)
      · rw [List.rel_of_pairwise_cons hf hx rfl] at hxf
        cases hxf
    · exact List.mem_cons.mp hl
  | @opened mode item inner items _ hmode =>
    refine ⟨line, hlen, fun hflat => ?_, fun _ l hl => .inr hl⟩
    refine hroom (by simp) (hw (hflat.imp_right ?_))
    rintro ⟨x, hx, hxf⟩
    rcases List.mem_append.mp hx with hx | hx
    · exact ⟨_, List.mem_cons_self, (hmode x hx).symm.trans hxf⟩
    · exact ⟨x, List.mem_cons_of_mem _ hx, hxf⟩
  | @fitted item inner items hfits =>
    refine ⟨line.add .fitted, ?_, fun _ => hfits, fun _ l hl => .inr hl⟩
    rw [OutputLine.length_text_add, hlen]; rfl

/-! ## The invariant of the machine -/

/-- A command that printing a plain document can lead to. The lines of `hardline` and `literalline`
stand alone once those are opened. -/
structure Command.Orderly (settings : Settings) (c : Command) : Prop where
  indentation : c.indentation.Built settings fun _ => True
  item : (∃ d : Doc, d.Plain (· = none) ∧ c.item = .doc d.propagateBreaks ∧
      (c.mode = .flat → d.exposesBreak = false)) ∨
    (c.mode = .broken ∧ ∃ kind, c.item = .doc (.line kind))

namespace State

/-- What is left to print, without indentation. -/
def items (st : State) : List (Mode × Item) := st.commands.map fun c => (c.mode, c.item)

/-- There are `column` characters on the line. -/
structure Orderly (settings : Settings) (column : Nat) (st : State) : Prop where
  quiet : st.Quiet
  commands : ∀ c ∈ st.commands, c.Orderly settings
  column : st.column = .ofNat column

variable {fuel column column' : Nat} {st : State} {c : Command} {rest : List Command}

/-- A state in which `new` has taken the place of the first command. -/
theorem Orderly.of_commands {st' : State} {new : List Command} (h : st.Orderly settings column)
    (hc : st.commands = c :: rest) (hq : st'.Quiet) (hc' : st'.commands = new ++ rest)
    (hcol : st'.column = .ofNat column') (hnew : ∀ c ∈ new, c.Orderly settings) :
    st'.Orderly settings column' := by
  refine ⟨hq, fun c' hmem => ?_, hcol⟩
  rw [hc'] at hmem
  rcases List.mem_append.mp hmem with hmem | hmem
  · exact hnew c' hmem
  · exact h.commands c' (by rw [hc]; exact List.mem_cons_of_mem _ hmem)

/-- A newline puts the machine into the column after the indentation that it writes. -/
theorem column_newline {i : Indentation} (hi : i.Built settings fun _ => True)
    (ht : settings.useTabs = false) (st : State) (kind : LineKind) :
    ∃ trims indentation, breakPiece i kind = .newline trims indentation ∧
      (st.newline settings i kind).column = .ofNat indentation.length := by
  cases kind with
  | literal => exact ⟨false, _, rfl, (hi.getD_root.length_value ht).symm⟩
  | soft | normal | hard => exact ⟨true, _, rfl, (hi.length_value ht).symm⟩

/-- The columns that are left, as long as they are a number of 63 bits with a sign. -/
theorem remaining_eq (hw : settings.width < st.column.toNat + columnLimit)
    (hcol : st.column.toNat ≤ settings.width + columnLimit) :
    st.remaining settings = (settings.width : Int) - st.column.toNat := by
  unfold columnLimit at hw hcol
  unfold remaining UInt64.size
  exact Int.bmod_eq_of_le (by omega) (by omega)

/-- A group that is found to fit gives room. -/
theorem room_of_fitsFlat {d : Doc} (hw : settings.width < columnLimit)
    (h : st.fitsFlat settings fuel d = true) (hcolumn : st.column = .ofNat column) :
    Room settings column ((.flat, .doc d) :: st.items) := by
  by_cases hcol : column < columnLimit
  · have hfits := fits_sound h
    have hnat : st.column.toNat = column := by
      rw [hcolumn, UInt64.toNat_ofNat_of_lt' (hcol.trans (by decide))]
    rw [remaining_eq (by omega) (by omega), hnat] at hfits
    exact .inl ⟨_, _, hfits⟩
  · exact .inr (by omega)

theorem Quiet.newline (h : st.Quiet) (i : Indentation) (kind : LineKind) :
    (st.newline settings i kind).Quiet := by
  cases kind <;> exact ⟨h.suffixes, h.remeasure⟩

theorem commands_newline (st : State) (i : Indentation) (kind : LineKind) :
    (st.newline settings i kind).commands = st.commands := by
  cases kind <;> rfl

/-- From an orderly state, a step leads to an orderly state, and it is one that `Advance` lists. -/
def StepsOrderly (settings : Settings) (fuel column : Nat) (st : State) : Prop :=
  ∃ column', (st.step settings fuel).Orderly settings column' ∧
    Advance settings column st.items (st.writes settings fuel) column' (st.step settings fuel).items

theorem stepsOrderly_of_perform {st' : State} (new : List Command)
    (h : st.Orderly settings column) (hc : st.commands = c :: rest)
    (hstep : { st with commands := rest }.perform settings fuel c = st') (hq : st'.Quiet)
    (hc' : st'.commands = new ++ rest) (hcol : st'.column = .ofNat column')
    (hnew : ∀ c' ∈ new, c'.Orderly settings)
    (hadv : Advance settings column ((c.mode, c.item) :: rest.map fun c => (c.mode, c.item))
      (st.writes settings fuel) column' st'.items) : st.StepsOrderly settings fuel column := by
  have heq : st.step settings fuel = st' := by
    rw [step_eq hc, hstep, settle_of_suffixes_nil hq.suffixes]
  unfold StepsOrderly
  rw [heq, items, hc]
  exact ⟨column', h.of_commands hc hq hc' hcol hnew, hadv⟩

/-- A command that others take the place of, in the same mode. -/
theorem stepsOrderly_of_opened {st' : State} (new : List Command)
    (h : st.Orderly settings column) (hc : st.commands = c :: rest)
    (hstep : { st with commands := rest }.perform settings fuel c = st') (hq : st'.Quiet)
    (hc' : st'.commands = new ++ rest) (hcol : st'.column = st.column)
    (hnew : ∀ c' ∈ new, c'.Orderly settings) (hmode : ∀ c' ∈ new, c'.mode = c.mode)
    (hopen : ∀ modes, opened modes false c.mode c.item =
      some (new.map fun c => (c.mode, c.item)))
    (hwrites : st.writes settings fuel = []) : st.StepsOrderly settings fuel column := by
  refine stepsOrderly_of_perform new h hc hstep hq hc' (hcol.trans h.column) hnew ?_
  rw [hwrites, items, hc', List.map_append]
  refine .opened hopen fun x hx => ?_
  obtain ⟨c', hmem, rfl⟩ := List.mem_map.mp hx
  exact hmode c' hmem

/-- A command that a part of its document takes the place of. -/
theorem stepsOrderly_of_push {i i' : Indentation} {m : Mode} {d d' : Doc} {modes : GroupModes}
    (h : st.Orderly settings column) (hc : st.commands = ⟨i, m, .doc d⟩ :: rest)
    (hstep : { st with commands := rest }.printDoc settings fuel i m d =
      { st with commands := rest, modes }.push i' m d'.propagateBreaks)
    (hi : i'.Built settings fun _ => True) (hd : d'.Plain (· = none))
    (hm : m = .flat → d'.exposesBreak = false)
    (hopen : ∀ modes, opened modes false m (.doc d) = some [(m, .doc d'.propagateBreaks)])
    (hwrites : st.writes settings fuel = []) : st.StepsOrderly settings fuel column := by
  refine stepsOrderly_of_opened [⟨i', m, .doc d'.propagateBreaks⟩] h hc hstep
    ⟨h.quiet.suffixes, h.quiet.remeasure⟩ rfl rfl (fun c' hc' => ?_) (by simp) hopen hwrites
  rw [List.mem_singleton.mp hc']
  exact ⟨hi, .inl ⟨d', hd, rfl, hm⟩⟩

/-- A group in a broken scope that is found to fit. -/
theorem stepsOrderly_of_fitted {i : Indentation} {d : Doc} {b : Bool} {id : Option GroupId}
    (h : st.Orderly settings column)
    (hc : st.commands = ⟨i, .broken, .doc (.group d.propagateBreaks b id)⟩ :: rest)
    (hi : i.Built settings fun _ => True) (hd : d.Plain (· = none))
    (hflat : b = false → d.exposesBreak = false) (hw : settings.width < columnLimit)
    (hfits : (!b && { st with commands := rest }.fitsFlat settings fuel d.propagateBreaks) = true) :
    st.StepsOrderly settings fuel column := by
  have hq : State.Quiet { st with commands := rest } := ⟨h.quiet.suffixes, h.quiet.remeasure⟩
  have hmode : { st with commands := rest }.groupMode settings fuel .broken d.propagateBreaks b =
      .flat := by
    simp only [groupMode, hfits, if_true]
  have hstep := hq.printGroup_eq settings fuel i .broken d.propagateBreaks b id
  rw [hmode] at hstep
  have hwrites : st.writes settings fuel = [.fitted] := by
    simp only [writes, hc]
    exact if_pos hfits
  obtain ⟨hb, hfits⟩ := (Bool.and_eq_true _ _).mp hfits
  refine stepsOrderly_of_perform [⟨i, .flat, .doc d.propagateBreaks⟩] h hc hstep
    ⟨hq.suffixes, hq.remeasure⟩ rfl h.column (fun c' hc' => ?_) ?_
  · rw [List.mem_singleton.mp hc']
    exact ⟨hi, .inl ⟨d, hd, rfl, fun _ => hflat (by simpa using hb)⟩⟩
  · rw [hwrites]
    exact .fitted (room_of_fitsFlat hw hfits h.column)

/-- A group. Inside a flat group it has the mode of the group around it; otherwise it is measured. -/
theorem stepsOrderly_of_group {i : Indentation} {m : Mode} {d : Doc} {b : Bool}
    {id : Option GroupId} (h : st.Orderly settings column)
    (hc : st.commands = ⟨i, m, .doc (.group d.propagateBreaks b id)⟩ :: rest)
    (hi : i.Built settings fun _ => True) (hd : d.Plain (· = none))
    (hflat : b = false → d.exposesBreak = false) (hm : m = .flat → b = false)
    (hw : settings.width < columnLimit) : st.StepsOrderly settings fuel column := by
  have hq : State.Quiet { st with commands := rest } := ⟨h.quiet.suffixes, h.quiet.remeasure⟩
  have hstep := hq.printGroup_eq settings fuel i m d.propagateBreaks b id
  cases m with
  | flat =>
    have hb : b = false := hm rfl
    subst hb
    exact stepsOrderly_of_push h hc hstep hi hd (fun _ => hflat rfl) (fun _ => rfl)
      (by simp only [writes, hc])
  | broken =>
    by_cases hfits :
        (!b && { st with commands := rest }.fitsFlat settings fuel d.propagateBreaks) = true
    · exact stepsOrderly_of_fitted h hc hi hd hflat hw hfits
    · have hmode : { st with commands := rest }.groupMode settings fuel .broken
          d.propagateBreaks b = .broken := by
        rw [groupMode, if_neg hfits]
      rw [hmode] at hstep
      refine stepsOrderly_of_push h hc hstep hi hd (fun hflat => by cases hflat) (fun _ => ?_) ?_
      · cases b <;> rfl
      · simp only [writes, hc]
        exact if_neg hfits

/-- A line in a broken scope. -/
theorem stepsOrderly_of_newline {i : Indentation} {kind : LineKind}
    (h : st.Orderly settings column) (hc : st.commands = ⟨i, .broken, .doc (.line kind)⟩ :: rest)
    (ht : settings.useTabs = false) : st.StepsOrderly settings fuel column := by
  have hq : State.Quiet { st with commands := rest } := ⟨h.quiet.suffixes, h.quiet.remeasure⟩
  have hi := (h.commands ⟨i, .broken, .doc (.line kind)⟩ (by simp [hc])).indentation
  obtain ⟨trims, indentation, hpiece, hcol⟩ := column_newline hi ht { st with commands := rest } kind
  have hwrites : st.writes settings fuel = [.newline trims indentation] := by
    simp only [writes, hc, h.quiet.suffixes, List.isEmpty_nil, Bool.true_or, if_true]
    cases kind <;> exact congrArg (fun p => [p]) hpiece
  have hcommands : ({ st with commands := rest }.newline settings i kind).commands = rest :=
    commands_newline { st with commands := rest } i kind
  refine stepsOrderly_of_perform [] h hc (hq.printLine_broken i kind) (hq.newline i kind)
    hcommands hcol (by simp) ?_
  rw [hwrites, items, hcommands]
  exact .newline

/-- A soft or a normal line. -/
theorem stepsOrderly_of_line {i : Indentation} {m : Mode} {kind : LineKind}
    (hk : kind.isHard = false) (h : st.Orderly settings column)
    (hc : st.commands = ⟨i, m, .doc (.line kind)⟩ :: rest) (ht : settings.useTabs = false) :
    st.StepsOrderly settings fuel column := by
  cases m with
  | broken => exact stepsOrderly_of_newline h hc ht
  | flat =>
    have hq := h.quiet
    have hwrites : st.writes settings fuel = [.flatLine kind] := by
      cases kind <;> simp_all [writes, linePiece, LineKind.isHard]
    have hcolumn : ({ st with commands := rest }.printLine settings i .flat kind).column =
        .ofNat (column + kind.flatText.length) := by
      cases kind with
      | soft => exact h.column
      | normal => exact (congrArg (· + 1) h.column).trans (UInt64.ofNat_add ..).symm
      | hard | literal => cases hk
    refine stepsOrderly_of_perform [] h hc rfl ?_ ?_ hcolumn (by simp) ?_
    · cases kind <;> first | exact ⟨hq.suffixes, hq.remeasure⟩ | cases hk
    · cases kind <;> first | rfl | cases hk
    · rw [hwrites]
      cases kind <;> first | exact .flatLine rfl | cases hk

/-- **Every step of an orderly state is one that `Advance` lists.** -/
theorem Orderly.stepsOrderly (h : st.Orderly settings column) (hne : st.commands ≠ [])
    (hw : settings.width < columnLimit) (ht : settings.useTabs = false) (fuel : Nat) :
    st.StepsOrderly settings fuel column := by
  obtain ⟨⟨i, m, item⟩, rest, hc⟩ := List.exists_cons_of_ne_nil hne
  have hq : State.Quiet { st with commands := rest } := ⟨h.quiet.suffixes, h.quiet.remeasure⟩
  obtain ⟨hi, hitem⟩ := h.commands ⟨i, m, item⟩ (by simp [hc])
  rcases hitem with ⟨d, hd, hitem, hm⟩ | ⟨hm, kind, hitem⟩
  rotate_left
  · cases hm
    cases hitem
    exact stepsOrderly_of_newline h hc ht
  cases hitem
  -- A command for a part of `d`.
  have hpart : ∀ {i' : Indentation} {m' : Mode} {d' : Doc}, i'.Built settings (fun _ => True) →
      d'.Plain (· = none) → (m' = .flat → d'.exposesBreak = false) →
      Command.Orderly settings ⟨i', m', .doc d'.propagateBreaks⟩ :=
    fun hi' hd' hm' => ⟨hi', .inl ⟨_, hd', rfl, hm'⟩⟩
  cases hd with
  | @text s hs =>
    have hcol : ({ st with commands := rest }.write s.toList).column =
        .ofNat (column + s.toList.length) := by
      rw [UInt64.ofNat_add, ← h.column]
      exact columnAfterText_of_notMem st.column hs
    have hwrites : st.writes settings fuel = [.text s.toList] := by simp [writes, hc]
    refine stepsOrderly_of_perform [] h hc rfl ⟨hq.suffixes, hq.remeasure⟩ rfl hcol (by simp) ?_
    rw [hwrites]
    exact .text
  | @concat parts hparts =>
    rw [Doc.propagateBreaks_concat] at hc
    refine stepsOrderly_of_opened ((parts.map Doc.propagateBreaks).map (⟨i, m, .doc ·⟩)) h hc rfl
      ⟨hq.suffixes, hq.remeasure⟩ rfl rfl ?_ (by simp) (fun _ => by simp [opened])
      (by simp [writes, hc])
    intro c' hc'
    simp only [List.map_map, List.mem_map, Function.comp_apply] at hc'
    obtain ⟨d, hd, rfl⟩ := hc'
    exact hpart hi (hparts d hd) fun hflat => Doc.exposesBreak_of_mem (hm hflat) hd
  | softline => exact stepsOrderly_of_line rfl h hc ht
  | space => exact stepsOrderly_of_line rfl h hc ht
  | hardline | literalline =>
    -- The mark beside the line breaks every group around it.
    have hbroken : m = .broken := by
      cases m with
      | flat => exact absurd (hm rfl) (by decide)
      | broken => rfl
    subst hbroken
    refine stepsOrderly_of_opened [⟨i, .broken, .doc (.line _)⟩, ⟨i, .broken, .doc .breakParent⟩] h
      hc rfl ⟨hq.suffixes, hq.remeasure⟩ rfl rfl ?_ (by simp) (fun _ => rfl)
      (by simp only [writes, hc]; rfl)
    intro c' hc'
    simp only [List.mem_cons, List.not_mem_nil, or_false] at hc'
    rcases hc' with rfl | rfl
    · exact ⟨hi, .inr ⟨rfl, _, rfl⟩⟩
    · exact hpart hi .breakParent fun hflat => by cases hflat
  | @group contents b id hcontents =>
    rw [Doc.propagateBreaks_group] at hc
    rw [Doc.exposesBreak_group] at hm
    refine stepsOrderly_of_group h hc hi hcontents (fun hb => ?_) hm hw
    exact (Bool.or_eq_false_iff.mp hb).2
  | @indent contents hcontents =>
    exact stepsOrderly_of_push h hc rfl (hi.indent trivial) hcontents hm (fun _ => rfl)
      (by simp only [writes, hc]; rfl)
  | @align al contents hcontents =>
    exact stepsOrderly_of_push h hc rfl (hi.align fun _ _ => trivial) hcontents hm (fun _ => rfl)
      (by simp only [writes, hc]; rfl)
  | @ifBreak broken flat id hid hbroken hflat =>
    subst hid
    rw [Doc.exposesBreak_ifBreak] at hm
    cases m with
    | broken =>
      exact stepsOrderly_of_push h hc rfl hi hbroken (fun hflat => by cases hflat) (fun _ => rfl)
        (by simp only [writes, hc]; rfl)
    | flat =>
      exact stepsOrderly_of_push h hc rfl hi hflat
        (fun _ => (Bool.or_eq_false_iff.mp (hm rfl)).2) (fun _ => rfl)
        (by simp only [writes, hc]; rfl)
  | breakParent =>
    exact stepsOrderly_of_opened [] h hc rfl hq rfl rfl (by simp) (by simp) (fun _ => rfl)
      (by simp only [writes, hc]; rfl)
  | cursor =>
    exact stepsOrderly_of_opened [] h hc rfl ⟨hq.suffixes, hq.remeasure⟩ rfl rfl (by simp)
      (by simp) (fun _ => rfl) (by simp only [writes, hc]; rfl)

/-- Along a run, every line on which something is flat is at most as wide as the page. -/
theorem Orderly.length_le_of_trace (hw : settings.width < columnLimit) (ht : settings.useTabs = false)
    (fuel : Nat) {st : State} (h : st.Orderly settings column) (hf : FlatFirst st.items)
    {line : OutputLine} (hlen : line.text.length = column)
    (hwatch : Watched settings column st.items line) :
    ∀ l ∈ linesFrom line (st.trace settings fuel), l.HasFlat → l.text.length < columnLimit →
      l.text.length ≤ settings.width := by
  induction fuel generalizing st line column with
  | zero =>
    intro l hl
    rw [List.mem_singleton.mp hl]
    exact hwatch.length_le hlen
  | succ fuel ih =>
    intro l hl
    rw [trace] at hl
    split at hl
    · rw [List.mem_singleton.mp hl]
      exact hwatch.length_le hlen
    · rename_i hne
      obtain ⟨column', hnext, hadv⟩ := h.stepsOrderly (by simpa using hne) hw ht (fuel + 2)
      obtain ⟨line', hlen', hwatch', hmem⟩ := hadv.exists_line hf hlen hwatch
      rcases hmem _ l hl with rfl | hl
      · exact hwatch.length_le hlen
      · exact ih hnext (hadv.flatFirst hf) hlen' hwatch' l hl

theorem orderly_start {d : Doc} (hd : d.Plain (· = none)) :
    (start d.propagateBreaks).Orderly settings 0 := by
  refine ⟨⟨rfl, rfl⟩, fun c hc => ?_, rfl⟩
  rw [List.mem_singleton.mp hc]
  exact ⟨Indentation.built_none, .inl ⟨d, hd, rfl, fun hflat => by cases hflat⟩⟩

end State

/-- **The layout overflows only where nothing is left to break.** The layout of a document is made of
the lines of its trace, and a line that is wider than the page holds no line of the document that
stayed flat, and no group that was found to fit. -/
theorem length_le_width_of_flat (settings : Settings) {d : Doc} (hd : d.Plain (· = none))
    (hw : settings.width < columnLimit) (ht : settings.useTabs = false) :
    (print settings d).formatted =
        String.ofList (assemble settings.newline.toList (traceOf settings d)) ∧
      ∀ line ∈ linesOf (traceOf settings d), line.text.length < columnLimit →
        settings.width < line.text.length →
        (∀ kind, .flatLine kind ∉ line.pieces) ∧ .fitted ∉ line.pieces := by
  refine ⟨formatted_eq_assemble settings d, fun line hline hshort hwide => ?_⟩
  have hstart : FlatFirst (State.start d.propagateBreaks).items := List.pairwise_singleton _ _
  have hwatch : Watched settings 0 (State.start d.propagateBreaks).items ⟨[], []⟩ := by
    rintro (hflat | ⟨x, hx, hxf⟩)
    · exact absurd hflat (OutputLine.not_hasFlat_nil [])
    · rw [List.mem_singleton.mp hx] at hxf
      cases hxf
  have hle := (State.orderly_start hd).length_le_of_trace hw ht _ hstart rfl hwatch line hline
  have hnot : ¬ line.HasFlat := fun hflat => absurd (hle hflat hshort) (by omega)
  simpa [OutputLine.HasFlat] using hnot

/-- A text that is too wide by itself, before a group that fits. -/
theorem length_le_width_of_flat_group :
    let d : Doc := .concat [.text "abcdef", Doc.hardline,
      Doc.groupOf (.concat [.text "x", Doc.space, .text "y"])]
    (∃ line ∈ linesOf (traceOf (Settings.ofWidth 4) d), 4 < line.text.length) ∧
      (∃ line ∈ linesOf (traceOf (Settings.ofWidth 4) d), .flatLine .normal ∈ line.pieces) ∧
      ∀ line ∈ linesOf (traceOf (Settings.ofWidth 4) d), line.text.length < columnLimit →
        4 < line.text.length → (∀ kind, .flatLine kind ∉ line.pieces) ∧ .fitted ∉ line.pieces := by
  intro d
  have hd : d.Plain (· = none) := by
    refine .concat ?_
    simp only [List.forall_mem_cons]
    refine ⟨.text (by decide), .hardline, .group (.concat ?_), by simp⟩
    simp only [List.forall_mem_cons]
    exact ⟨.text (by decide), .space, .text (by decide), by simp⟩
  refine ⟨by decide, by decide, ?_⟩
  exact (length_le_width_of_flat (Settings.ofWidth 4) hd (by decide) rfl).2

end CodeFormatter.Layout
