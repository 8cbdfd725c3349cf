import CodeFormatter.Proofs.Layout.Invariants

/-!
# Which characters a layout is made of

A document writes its texts, and the texts of its alignments at the start of lines. `Doc.spelledIn`
says which characters those have; everything on the stack inherits it (`passes_spelled`), and so do
the indentations (`Indentation.Built`). What else is written are newlines, spaces and tabs.

`State.Moves` lists what a command can do to the output, and to the column and the cursors beside it.
Together they say what the end of the output may look like after a step.
-/

namespace CodeFormatter

variable {ok : Char → Bool}

/-- The own text of the document and the text of its own alignment have such characters only. -/
def Doc.spelledIn (ok : Char → Bool) : Doc → Bool
  | .text s | .align (.text s) _ => s.toList.all ok
  | _ => true

theorem Doc.spelledIn_propagateBreaks (ok : Char → Bool) (d : Doc) :
    d.propagateBreaks.spelledIn ok = d.spelledIn ok := by
  cases d with
  | align alignment contents => cases alignment <;> simp [spelledIn]
  | _ => simp [spelledIn]

namespace Layout

variable {settings : Settings}

/-! ## Commands -/

/-- A text in an indentation has such characters only. -/
def IndentPart.SpelledIn (ok : Char → Bool) : IndentPart → Prop
  | .text s => ∀ c ∈ s.toList, ok c = true
  | _ => True

/-- The documents of a command are as the test says, and its indentation has such characters only. -/
abbrev Command.Spelled (settings : Settings) (ok : Char → Bool) (test : Doc → Bool) : Command → Prop :=
  Command.Made (Indentation.Built settings (IndentPart.SpelledIn ok)) (Doc.Every (test · = true))

/-- Everything in a document that is spelled in some characters is. -/
theorem passes_spelled {test : Doc → Bool} (hline : test (.line .hard) = true)
    (htest : ∀ d, test d = true → d.spelledIn ok = true) :
    Passes settings (Command.Spelled settings ok test) := by
  refine passes_made (.intro hline (by simp [Doc.children])) (·.of_mem_children) fun {c} hc => ?_
  refine Command.built_scope hc.indentation trivial (fun _ => trivial) fun s contents hitem => ?_
  have hdoc := (hc.docs (.align (.text s) contents) (by simp [hitem, Item.docs])).self
  exact List.all_eq_true.mp (htest _ hdoc)

namespace State

/-- Of a document as the test says, all that is ever to be printed is. -/
theorem holds_spelled_start {test : Doc → Bool} {d : Doc} (hd : d.all test = true)
    (hmarks : ∀ d : Doc, test d.propagateBreaks = test d) :
    (start d.propagateBreaks).Holds (Command.Spelled settings ok test) :=
  holds_start Indentation.built_none <|
    (Doc.every_of_all hd).propagateBreaks fun d h => (hmarks d).trans h

/-! ## What a command writes -/

variable {fuel : Nat} {st st' : State} {c : Command}

@[simp] theorem text_trim (st : State) : st.trim.out.text = trimEnd st.out.text := Output.text_trim _

/-- What a command can do to the output, and to the column and the cursors beside it. -/
inductive Moves (settings : Settings) (st : State) (c : Command) (st' : State) : Prop
  /-- It writes nothing. -/
  | stay : st'.out = st.out → st'.column = st.column → st'.cursors = st.cursors →
      Moves settings st c st'
  | text (s : String) : c.item = .doc (.text s) → st'.out = st.out.append s.toList →
      st'.column = columnAfterText st.column s.toList → st'.cursors = st.cursors →
      Moves settings st c st'
  /-- A line that stays flat is a space. -/
  | space : st'.out = st.out.append [' '] → st'.column = st.column + 1 → st'.cursors = st.cursors →
      Moves settings st c st'
  /-- It removes the blanks at the end, and starts a line. -/
  | newline : st'.out = st.trim.out.append (settings.newline.toList ++ c.indentation.value) →
      st'.column = c.indentation.width → st'.cursors = st.trim.cursors → Moves settings st c st'
  /-- It starts a line without removing anything. -/
  | literal : c.item = .doc (.line .literal) →
      st'.out = st.out.append (settings.newline.toList ++ (c.indentation.root.getD .none).value) →
      st'.column = (c.indentation.root.getD .none).width → st'.cursors = st.cursors →
      Moves settings st c st'
  /-- It removes the blanks at the end. -/
  | trim : c.item = .doc .trim → st'.out = st.trim.out → st'.column = st.trim.column →
      st'.cursors = st.trim.cursors → Moves settings st c st'
  | cursor : c.item = .doc .cursor → st'.out = st.out → st'.column = st.column →
      st'.cursors = st.cursors ++ [st.out.size] → Moves settings st c st'

theorem moves_printLine (st : State) (i : Indentation) (m : Mode) (kind : LineKind) :
    Moves settings st ⟨i, m, .doc (.line kind)⟩ (st.printLine settings i m kind) := by
  have hbreak : ∀ remeasure, Moves settings st ⟨i, m, .doc (.line kind)⟩
      ({ st with remeasure }.breakLine settings i m kind) := by
    intro remeasure
    unfold breakLine
    split
    · cases kind with
      | literal => exact .literal rfl rfl rfl rfl
      | soft | normal | hard => exact .newline rfl rfl rfl
    · exact .stay rfl rfl rfl
  cases m with
  | broken => exact hbreak st.remeasure
  | flat =>
    cases kind with
    | soft => exact .stay rfl rfl rfl
    | normal => exact .space rfl rfl rfl
    | hard | literal => exact hbreak true

/-- **What a command writes.** -/
theorem moves_perform (settings : Settings) (fuel : Nat) (st : State) (c : Command) :
    Moves settings st c (st.perform settings fuel c) := by
  obtain ⟨i, m, item⟩ := c
  have hfill : ∀ parts, Moves settings st ⟨i, m, item⟩ (st.printFill settings fuel i m parts) := by
    intro parts
    obtain ⟨new, heq, -⟩ := exists_printFill_eq settings fuel st i m parts
    rw [heq]
    exact .stay rfl rfl rfl
  have hgroup : ∀ contents states b id,
      Moves settings st ⟨i, m, item⟩ (st.printGroup settings fuel i m contents states b id) := by
    intro contents states b id
    obtain ⟨mode, d, -, modes, remeasure, heq⟩ :=
      exists_printGroup_eq settings fuel st i m contents states b id
    rw [heq]
    exact .stay rfl rfl rfl
  cases item with
  | fillRest parts => exact hfill parts
  | doc d =>
    cases d with
    | text s => exact .text s rfl rfl rfl rfl
    | line kind => exact moves_printLine st i m kind
    | trim => exact .trim rfl rfl rfl rfl
    | cursor => exact .cursor rfl rfl rfl rfl
    | group contents b id => exact hgroup contents none b id
    | conditionalGroup contents states b id => exact hgroup contents (some states) b id
    | fill parts => exact hfill parts
    | lineSuffixBoundary =>
      simp only [perform, printDoc]
      split <;> exact .stay rfl rfl rfl
    | concat | indent | align | ifBreak | lineSuffix | breakParent => exact .stay rfl rfl rfl

@[simp] theorem column_settle (st : State) : st.settle.column = st.column := by
  unfold settle
  split <;> rfl

@[simp] theorem cursors_settle (st : State) : st.settle.cursors = st.cursors := by
  unfold settle
  split <;> rfl

/-- What a step writes is what its command writes. -/
theorem moves_step (settings : Settings) (fuel : Nat) {rest : List Command}
    (hc : st.commands = c :: rest) : Moves settings st c (st.step settings fuel) := by
  rw [step_eq hc]
  have hout := out_settle ({ st with commands := rest }.perform settings fuel c)
  have hcolumn := column_settle ({ st with commands := rest }.perform settings fuel c)
  have hcursors := cursors_settle ({ st with commands := rest }.perform settings fuel c)
  cases moves_perform settings fuel { st with commands := rest } c with
  | stay h h' h'' => exact .stay (hout.trans h) (hcolumn.trans h') (hcursors.trans h'')
  | text s hitem h h' h'' =>
    exact .text s hitem (hout.trans h) (hcolumn.trans h') (hcursors.trans h'')
  | space h h' h'' => exact .space (hout.trans h) (hcolumn.trans h') (hcursors.trans h'')
  | newline h h' h'' => exact .newline (hout.trans h) (hcolumn.trans h') (hcursors.trans h'')
  | literal hitem h h' h'' =>
    exact .literal hitem (hout.trans h) (hcolumn.trans h') (hcursors.trans h'')
  | trim hitem h h' h'' => exact .trim hitem (hout.trans h) (hcolumn.trans h') (hcursors.trans h'')
  | cursor hitem h h' h'' =>
    exact .cursor hitem (hout.trans h) (hcolumn.trans h') (hcursors.trans h'')

end State

end Layout

end CodeFormatter
