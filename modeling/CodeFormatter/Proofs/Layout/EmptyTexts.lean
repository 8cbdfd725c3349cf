import CodeFormatter.Proofs.Doc.Basic
import CodeFormatter.Proofs.Layout.Trace

/-!
# Empty sequences and empty texts

An empty sequence and an empty text both write nothing, and the one takes as many steps as the other. `unified`
has an empty text in place of each empty sequence; two documents are the same up to an exchange of the two if
they are equal after that.

**Theorem (`print_unified`).** The layout is the same, on every page.

The two machines go side by side: in each state, what one of them is left to print is that of the other one,
unified. So every choice is made alike.
-/

namespace CodeFormatter

namespace Doc

mutual

/-- The document with an empty text in place of each empty sequence. -/
def unified : Doc → Doc
  | .concat [] => .text ""
  | .concat (d :: rest) => .concat (unified d :: unifiedAll rest)
  | .group contents shouldBreak id => .group (unified contents) shouldBreak id
  | .conditionalGroup contents states shouldBreak id =>
    .conditionalGroup (unified contents) (unifiedAll states) shouldBreak id
  | .indent contents => .indent (unified contents)
  | .align alignment contents => .align alignment (unified contents)
  | .fill parts => .fill (unifiedAll parts)
  | .ifBreak broken flat id => .ifBreak (unified broken) (unified flat) id
  | .lineSuffix contents => .lineSuffix (unified contents)
  | .text s => .text s
  | .line kind => .line kind
  | .lineSuffixBoundary => .lineSuffixBoundary
  | .breakParent => .breakParent
  | .trim => .trim
  | .cursor => .cursor

def unifiedAll : List Doc → List Doc
  | [] => []
  | d :: rest => unified d :: unifiedAll rest

end

@[simp] theorem unifiedAll_eq (parts : List Doc) : unifiedAll parts = parts.map unified := by
  induction parts with
  | nil => rfl
  | cons d rest ih => rw [unifiedAll, ih, List.map_cons]

theorem work_unified (d : Doc) : d.unified.work = d.work := by
  have hall : ∀ {parts : List Doc}, (∀ d ∈ parts, d.unified.work = d.work) →
      workAll (parts.map unified) = workAll parts := by
    intro parts h
    induction parts with
    | nil => rfl
    | cons d rest ih =>
      obtain ⟨hd, hrest⟩ := List.forall_mem_cons.mp h
      rw [List.map_cons, workAll, workAll, hd, ih hrest]
  induction d using Doc.induction with
  | concat parts ih =>
    cases parts with
    | nil => rfl
    | cons d rest => simpa [unified, work] using hall ih
  | fill parts ih => simp [unified, work, hall ih]
  | conditionalGroup contents states shouldBreak id ih ihs => simp [unified, work, ih, hall ihs]
  | group _ _ _ ih | indent _ ih | align _ _ ih | lineSuffix _ ih => simp [unified, work, ih]
  | ifBreak _ _ _ ih ih' => simp [unified, work, ih, ih']
  | text | line | lineSuffixBoundary | breakParent | trim | cursor => rfl

/-- Breaks are carried outward alike. -/
theorem propagate_unified (d : Doc) : propagate d.unified = ((propagate d).1.unified, (propagate d).2) := by
  have hall : ∀ {parts : List Doc},
      (∀ d ∈ parts, propagate d.unified = ((propagate d).1.unified, (propagate d).2)) →
      propagateAll (parts.map unified) = ((propagateAll parts).1.map unified, (propagateAll parts).2) := by
    intro parts h
    induction parts with
    | nil => rfl
    | cons d rest ih =>
      obtain ⟨hd, hrest⟩ := List.forall_mem_cons.mp h
      simp only [List.map_cons, propagateAll, hd, ih hrest]
  induction d using Doc.induction with
  | concat parts ih =>
    cases parts with
    | nil => rfl
    | cons d rest =>
      have hparts := hall ih
      simp only [List.map_cons, propagateAll] at hparts
      simp [unified, propagate, propagateAll, hparts]
  | fill parts ih => simp [unified, propagate, hall ih]
  | conditionalGroup contents states shouldBreak id ih ihs => simp [unified, propagate, ih, hall ihs]
  | group _ _ _ ih | indent _ ih | align _ _ ih | lineSuffix _ ih => simp [unified, propagate, ih]
  | ifBreak _ _ _ ih ih' => simp [unified, propagate, ih, ih']
  | text | line | lineSuffixBoundary | breakParent | trim | cursor => rfl

theorem propagateBreaks_unified (d : Doc) : d.unified.propagateBreaks = d.propagateBreaks.unified :=
  congrArg Prod.fst (propagate_unified d)

end Doc

namespace Layout

/-! ## Commands -/

def Item.unified : Item → Item
  | .doc d => .doc d.unified
  | .fillRest parts => .fillRest (parts.map Doc.unified)

def Command.unified (c : Command) : Command := { c with item := c.item.unified }

/-- The test has the same answer for unified documents. -/
theorem fits_unified (modes : GroupModes) (mustBeFlat : Bool) (fuel : Nat) (width : Int) (padding : Nat)
    (stack : List (Mode × Item)) (rest : List Command) :
    fits modes mustBeFlat fuel width padding (stack.map (Prod.map id Item.unified)) (rest.map Command.unified) =
      fits modes mustBeFlat fuel width padding stack rest := by
  induction fuel generalizing width padding stack rest with
  | zero => rfl
  | succ fuel ih =>
    have hnext : nextItem (stack.map (Prod.map id Item.unified)) (rest.map Command.unified) =
        (nextItem stack rest).map fun (mode, item, stack, rest) =>
          (mode, item.unified, stack.map (Prod.map id Item.unified), rest.map Command.unified) := by
      match stack, rest with
      | (_, _) :: _, _ => rfl
      | [], _ :: _ => rfl
      | [], [] => rfl
    rw [fits, fits, hnext]
    split
    · rfl
    cases nextItem stack rest with
    | none => rfl
    | some next =>
      obtain ⟨mode, item, stack, rest⟩ := next
      have hopen : ∀ (parts : List Doc),
          fits modes mustBeFlat fuel width padding
              ((parts.map Doc.unified).map (mode, .doc ·) ++ stack.map (Prod.map id Item.unified))
              (rest.map Command.unified) =
            fits modes mustBeFlat fuel width padding (parts.map (mode, .doc ·) ++ stack) rest := by
        intro parts
        have hstack := ih width padding (parts.map (mode, .doc ·) ++ stack) rest
        rw [List.map_append, List.map_map] at hstack
        rw [List.map_map]
        exact hstack
      have hpush : ∀ (mode : Mode) (d : Doc),
          fits modes mustBeFlat fuel width padding
              ((mode, .doc d.unified) :: stack.map (Prod.map id Item.unified)) (rest.map Command.unified) =
            fits modes mustBeFlat fuel width padding ((mode, .doc d) :: stack) rest := fun mode d =>
        ih width padding ((mode, .doc d) :: stack) rest
      cases item with
      | fillRest parts => exact hopen parts
      | doc d =>
        cases d with
        | concat parts =>
          cases parts with
          | nil =>
            have hempty := ih width padding stack rest
            have hpadding : paddingAfter padding [] = padding := rfl
            simpa [Item.unified, Doc.unified, hpadding] using hempty
          | cons d rest =>
            have hparts := hopen (d :: rest)
            simpa [Item.unified, Doc.unified] using hparts
        | line kind =>
          cases mode with
          | broken => rfl
          | flat =>
            cases kind with
            | normal | soft => exact ih _ _ _ _
            | hard | literal => rfl
        | group contents shouldBreak id | conditionalGroup contents states shouldBreak id =>
          simp only [Option.map_some, Item.unified, Doc.unified, hpush]
        | text | trim | lineSuffix | lineSuffixBoundary | breakParent | cursor => exact ih _ _ _ _
        | fill parts =>
          have hparts := hopen parts
          simpa [Item.unified, Doc.unified] using hparts
        | indent | align => exact hpush _ _
        | ifBreak broken flat id =>
          simp only [Option.map_some, Item.unified, Doc.unified]
          cases choiceMode modes mode id <;> exact hpush _ _

/-! ## States -/

namespace State

/-- The state with the documents that are left unified. -/
def unified (st : State) : State :=
  { st with
    commands := st.commands.map Command.unified
    suffixes := st.suffixes.map Command.unified }

variable (settings : Settings)

theorem release_unified (st : State) : st.unified.release = st.release.unified := by
  simp [release, unified]

theorem newline_unified (st : State) (i : Indentation) (kind : LineKind) :
    st.unified.newline settings i kind = (st.newline settings i kind).unified := by
  cases kind <;> rfl

theorem breakLine_unified (st : State) (i : Indentation) (m : Mode) (kind : LineKind) :
    st.unified.breakLine settings i m kind = (st.breakLine settings i m kind).unified := by
  have hempty : st.unified.suffixes.isEmpty = st.suffixes.isEmpty := List.isEmpty_map
  rw [breakLine, breakLine, hempty]
  split
  · exact newline_unified settings st i kind
  · exact release_unified (st.push i m (.line kind))

theorem printLine_unified (st : State) (i : Indentation) (m : Mode) (kind : LineKind) :
    st.unified.printLine settings i m kind = (st.printLine settings i m kind).unified := by
  cases m with
  | broken => exact breakLine_unified settings st i .broken kind
  | flat =>
    cases kind with
    | soft | normal => rfl
    | hard | literal => exact breakLine_unified settings { st with remeasure := true } i .flat _

theorem fitsFlat_unified (fuel : Nat) (st : State) (d : Doc) :
    st.unified.fitsFlat settings fuel d.unified = st.fitsFlat settings fuel d :=
  fits_unified st.modes false fuel (st.remaining settings) 0 [(.flat, .doc d)] st.commands

theorem fitsAlone_unified (fuel : Nat) (st : State) (docs : List Doc) :
    st.unified.fitsAlone settings fuel (docs.map Doc.unified) = st.fitsAlone settings fuel docs := by
  have hfits := fits_unified st.modes true fuel (st.remaining settings) 0
    (docs.map (.flat, .doc ·)) []
  rw [List.map_map] at hfits
  rw [fitsAlone, fitsAlone, List.map_map]
  exact hfits

/-- The same state of a group is chosen. -/
theorem chooseState_unified (fuel : Nat) (st : State) (contents : Doc) (states : List Doc) (b : Bool) :
    st.unified.chooseState settings fuel contents.unified (states.map Doc.unified) b =
      Prod.map id Doc.unified (st.chooseState settings fuel contents states b) := by
  have hlast : ((states.map Doc.unified).getLast?.getD contents.unified) =
      (states.getLast?.getD contents).unified := by
    rw [List.getLast?_map, Option.getD_map]
  have hfind : (states.map Doc.unified).tail.find? (st.unified.fitsFlat settings fuel) =
      (states.tail.find? (st.fitsFlat settings fuel)).map Doc.unified := by
    rw [← List.map_tail, List.find?_map]
    congr 2
    exact funext (fitsFlat_unified settings fuel st)
  rw [chooseState, chooseState, hlast, hfind]
  cases b with
  | true => rfl
  | false => cases states.tail.find? (st.fitsFlat settings fuel) <;> rfl

theorem chooseLayout_unified (fuel : Nat) (st : State) (contents : Doc) (states : Option (List Doc))
    (b : Bool) :
    st.unified.chooseLayout settings fuel contents.unified (states.map (List.map Doc.unified)) b =
      Prod.map id Doc.unified (st.chooseLayout settings fuel contents states b) := by
  unfold chooseLayout
  rw [fitsFlat_unified]
  split
  · rfl
  · cases states with
    | none => rfl
    | some states => exact chooseState_unified settings fuel st contents states b

theorem printGroup_unified (fuel : Nat) (st : State) (i : Indentation) (m : Mode) (contents : Doc)
    (states : Option (List Doc)) (b : Bool) (id : Option GroupId) :
    st.unified.printGroup settings fuel i m contents.unified (states.map (List.map Doc.unified)) b id =
      (st.printGroup settings fuel i m contents states b id).unified := by
  cases hm : decide (m = .broken) || st.remeasure with
  | false =>
    have hm' : (decide (m = .broken) || st.unified.remeasure) = false := hm
    rw [printGroup_of_not_measured settings fuel hm, printGroup_of_not_measured settings fuel hm']
    rfl
  | true =>
    have hm' : (decide (m = .broken) || st.unified.remeasure) = true := hm
    have hlayout := chooseLayout_unified settings fuel { st with remeasure := false } contents states b
    rw [printGroup_of_measured settings fuel hm i contents states b id rfl,
      printGroup_of_measured settings fuel hm' i _ _ b id hlayout]
    rfl

theorem printFill_unified (fuel : Nat) (st : State) (i : Indentation) (m : Mode) (parts : List Doc) :
    st.unified.printFill settings fuel i m (parts.map Doc.unified) =
      (st.printFill settings fuel i m parts).unified := by
  rcases parts with _ | ⟨content, _ | ⟨separator, _ | ⟨second, others⟩⟩⟩
  · rfl
  · have hcontent := fitsAlone_unified settings fuel st [content]
    simp only [List.map_cons, List.map_nil] at hcontent
    simp only [List.map_cons, List.map_nil, printFill, hcontent]
    rfl
  · have hcontent := fitsAlone_unified settings fuel st [content]
    simp only [List.map_cons, List.map_nil] at hcontent
    simp only [List.map_cons, List.map_nil, printFill, hcontent]
    rfl
  · have hcontent := fitsAlone_unified settings fuel st [content]
    have hpair := fitsAlone_unified settings fuel st [content, separator, second]
    simp only [List.map_cons, List.map_nil] at hcontent hpair
    simp only [List.map_cons, printFill, hcontent, hpair]
    rfl

/-! ## Steps -/

theorem write_nil (st : State) : st.write [] = st := by
  have hcolumn : columnAfterText st.column [] = st.column := UInt64.add_zero st.column
  rw [write, hcolumn]
  rfl

theorem printDoc_unified (fuel : Nat) (st : State) (i : Indentation) (m : Mode) (d : Doc) :
    st.unified.printDoc settings fuel i m d.unified = (st.printDoc settings fuel i m d).unified := by
  have hparts : ∀ parts : List Doc,
      st.unified.printDoc settings fuel i m (.concat (parts.map Doc.unified)) =
        (st.printDoc settings fuel i m (.concat parts)).unified := by
    intro parts
    simp [printDoc, unified, Command.unified, Item.unified, Function.comp_def]
  cases d with
  | concat parts =>
    cases parts with
    -- An empty sequence leaves what is on the stack, and an empty text what is written.
    | nil => exact st.unified.write_nil
    | cons d rest => simpa [Doc.unified] using hparts (d :: rest)
  | group contents b id => exact printGroup_unified settings fuel st i m contents none b id
  | conditionalGroup contents states b id =>
    rw [Doc.unified, Doc.unifiedAll_eq]
    exact printGroup_unified settings fuel st i m contents (some states) b id
  | fill parts =>
    rw [Doc.unified, Doc.unifiedAll_eq]
    exact printFill_unified settings fuel st i m parts
  | ifBreak broken flat id =>
    simp only [Doc.unified, printDoc]
    cases h : choiceMode st.modes m id <;> simp [unified, h, push, Command.unified, Item.unified]
  | lineSuffix contents => simp [Doc.unified, printDoc, unified, Command.unified, Item.unified]
  | lineSuffixBoundary =>
    have hempty : st.unified.suffixes.isEmpty = st.suffixes.isEmpty := List.isEmpty_map
    rw [Doc.unified, printDoc, printDoc, hempty]
    split <;> rfl
  | line kind => exact printLine_unified settings st i m kind
  | text | indent | align | breakParent | trim | cursor => rfl

theorem settle_unified (st : State) : st.unified.settle = st.settle.unified := by
  have hempty : st.unified.commands.isEmpty = st.commands.isEmpty := List.isEmpty_map
  rw [settle, settle, hempty]
  split
  · exact release_unified st
  · rfl

/-- **A step keeps the two machines side by side.** -/
theorem step_unified (fuel : Nat) (st : State) :
    st.unified.step settings fuel = (st.step settings fuel).unified := by
  cases hcommands : st.commands with
  | nil => simp [step, unified, hcommands]
  | cons c rest =>
    have hperform : ({ st with commands := rest }.unified.perform settings fuel c.unified) =
        ({ st with commands := rest }.perform settings fuel c).unified := by
      obtain ⟨i, m, item⟩ := c
      cases item with
      | doc d => exact printDoc_unified settings fuel _ i m d
      | fillRest parts => exact printFill_unified settings fuel _ i m parts
    have hcommands' : st.unified.commands = c.unified :: rest.map Command.unified := by
      simp [unified, hcommands]
    rw [step_eq hcommands, step_eq hcommands', ← settle_unified, ← hperform]
    rfl

/-- **A run keeps them side by side.** -/
theorem run_unified (fuel : Nat) (st : State) :
    st.unified.run settings fuel = (st.run settings fuel).unified := by
  induction fuel generalizing st with
  | zero => rfl
  | succ fuel ih =>
    have hempty : st.unified.commands.isEmpty = st.commands.isEmpty := List.isEmpty_map
    rw [run, run, hempty]
    split
    · rfl
    · rw [step_unified, ih]

end State

/-- **Documents that are the same up to empty texts have the same layout.** -/
theorem print_unified (settings : Settings) (d : Doc) : print settings d.unified = print settings d := by
  have hstart : State.start d.propagateBreaks.unified = (State.start d.propagateBreaks).unified := rfl
  rw [print, print, Doc.propagateBreaks_unified, Doc.work_unified, hstart, State.run_unified]
  rfl

end Layout

end CodeFormatter
