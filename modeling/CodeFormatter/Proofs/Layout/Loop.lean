import CodeFormatter.Proofs.Layout.Invariants
import CodeFormatter.Proofs.Layout.Pieces
import Mathlib.Data.List.Find

/-!
# The loop of the machine

A run and the fitting tests in it are given fuel. Here is the loop without it. `State.next` is a step
in which every test has as much fuel as there is work, and more than that changes nothing
(`step_eq_next`): a test reads each item that is left at most once. So a run with enough fuel repeats
one and the same step (`run_eq_iterate`).

**Theorem (`exists_measure`).** What is left to print and what waits have a measure that every step
makes smaller, also a step that puts a line back behind the waiting suffixes, or the suffixes back on
the stack. The loop reaches a state in which nothing is left and nothing waits, and the layout of the
document is what has been written then.
-/

namespace CodeFormatter.Layout

theorem itemsWork_map_command (commands : List Command) :
    itemsWork (commands.map fun c => (c.mode, c.item)) = workOf commands := by
  induction commands with
  | nil => rfl
  | cons c rest ih => rw [List.map_cons, itemsWork_cons, ih, workOf_cons]

namespace State

variable {settings : Settings} {fuel fuel' : Nat} {st : State} {c : Command}

/-! ## Enough fuel for the tests -/

theorem fitsFlat_congr {d : Doc} (hf : d.work + workOf st.commands < fuel)
    (hf' : d.work + workOf st.commands < fuel') :
    st.fitsFlat settings fuel d = st.fitsFlat settings fuel' d := by
  have hwork : itemsWork (itemsOf [(Mode.flat, Item.doc d)] st.commands) =
      d.work + workOf st.commands := by
    rw [itemsOf, List.singleton_append, itemsWork_cons, itemsWork_map_command, Item.work]
  rw [fitsFlat, fitsFlat, fits_itemsOf, fits_itemsOf fuel']
  exact fits_congr rfl (hwork ▸ hf) (hwork ▸ hf')

theorem fitsAlone_congr {docs : List Doc} (hf : Doc.workAll docs < fuel)
    (hf' : Doc.workAll docs < fuel') :
    st.fitsAlone settings fuel docs = st.fitsAlone settings fuel' docs := by
  have hwork : itemsWork (docs.map (Mode.flat, .doc ·)) = Doc.workAll docs := itemsWork_map_doc
  exact fits_congr rfl (hwork ▸ hf) (hwork ▸ hf')

/-- A group with states tests its contents and then the states. -/
theorem chooseLayout_congr {contents : Doc} {states : Option (List Doc)} (shouldBreak : Bool)
    (h : ∀ d ∈ contents :: states.getD [],
      st.fitsFlat settings fuel d = st.fitsFlat settings fuel' d) :
    st.chooseLayout settings fuel contents states shouldBreak =
      st.chooseLayout settings fuel' contents states shouldBreak := by
  unfold chooseLayout
  rw [h contents List.mem_cons_self]
  cases states with
  | none => rfl
  | some states =>
    have hfind : states.tail.find? (st.fitsFlat settings fuel) =
        states.tail.find? (st.fitsFlat settings fuel') :=
      List.find?_congr fun d hd => h d (List.mem_cons_of_mem _ (List.mem_of_mem_tail hd))
    simp only [chooseState, hfind]

theorem printGroup_congr {contents : Doc} {states : Option (List Doc)} (i : Indentation) (m : Mode)
    (shouldBreak : Bool) (id : Option GroupId)
    (h : ∀ d ∈ contents :: states.getD [],
      d.work + workOf st.commands < fuel ∧ d.work + workOf st.commands < fuel') :
    st.printGroup settings fuel i m contents states shouldBreak id =
      st.printGroup settings fuel' i m contents states shouldBreak id := by
  cases hm : decide (m = .broken) || st.remeasure with
  | true =>
    have hlayout : { st with remeasure := false }.chooseLayout settings fuel contents states shouldBreak =
        { st with remeasure := false }.chooseLayout settings fuel' contents states shouldBreak :=
      chooseLayout_congr shouldBreak fun d hd => fitsFlat_congr (h d hd).1 (h d hd).2
    rw [printGroup_of_measured settings fuel hm i contents states shouldBreak id hlayout,
      printGroup_of_measured settings fuel' hm i contents states shouldBreak id rfl]
  | false =>
    rw [printGroup_of_not_measured settings fuel hm, printGroup_of_not_measured settings fuel' hm]

/-- A fill tests its first part, and its first three. -/
theorem printFill_congr {parts : List Doc} (i : Indentation) (m : Mode)
    (hf : Doc.workAll parts < fuel) (hf' : Doc.workAll parts < fuel') :
    st.printFill settings fuel i m parts = st.printFill settings fuel' i m parts := by
  have htake : ∀ n, st.fitsAlone settings fuel (parts.take n) =
      st.fitsAlone settings fuel' (parts.take n) := fun n =>
    fitsAlone_congr ((Doc.workAll_take_le n parts).trans_lt hf)
      ((Doc.workAll_take_le n parts).trans_lt hf')
  match parts, htake with
  | [], _ => rfl
  | [content], htake | [content, separator], htake =>
    have hcontent : st.fitsAlone settings fuel [content] = st.fitsAlone settings fuel' [content] :=
      htake 1
    simp only [printFill, hcontent]
  | content :: separator :: second :: others, htake =>
    have hcontent : st.fitsAlone settings fuel [content] = st.fitsAlone settings fuel' [content] :=
      htake 1
    have hpair : st.fitsAlone settings fuel [content, separator, second] =
        st.fitsAlone settings fuel' [content, separator, second] := htake 3
    simp only [printFill, hcontent, hpair]

theorem perform_congr (hf : c.item.work + workOf st.commands ≤ fuel)
    (hf' : c.item.work + workOf st.commands ≤ fuel') :
    st.perform settings fuel c = st.perform settings fuel' c := by
  obtain ⟨i, m, item⟩ := c
  dsimp only at hf hf'
  cases item with
  | fillRest parts =>
    have hlt := Item.workAll_lt_fillRest parts
    exact printFill_congr i m (by omega) (by omega)
  | doc d =>
    cases d with
    | fill parts =>
      have hlt : Doc.workAll parts < (Item.doc (.fill parts)).work := Item.workAll_lt_fillRest parts
      exact printFill_congr i m (by omega) (by omega)
    | group contents shouldBreak id =>
      refine printGroup_congr i m shouldBreak id fun d hd => ?_
      have hlt := Doc.work_lt_of_mem_children (d := .group contents shouldBreak id) hd
      rw [Item.work] at hf hf'
      omega
    | conditionalGroup contents states shouldBreak id =>
      refine printGroup_congr i m shouldBreak id fun d hd => ?_
      have hlt := Doc.work_lt_of_mem_children (d := .conditionalGroup contents states shouldBreak id) hd
      rw [Item.work] at hf hf'
      omega
    | text | concat | line | indent | align | ifBreak | lineSuffix | lineSuffixBoundary | breakParent
    | trim | cursor => rfl

/-! ## Steps without fuel -/

/-- One turn of the loop: the next command is printed, and its tests have fuel for all that is
left. -/
def next (settings : Settings) (st : State) : State := st.step settings st.work

/-- **More fuel changes nothing.** -/
theorem step_eq_next (h : st.work ≤ fuel) : st.step settings fuel = st.next settings := by
  cases hc : st.commands with
  | nil => simp only [next, step, hc]
  | cons c rest =>
    have hwork : c.item.work + workOf rest ≤ st.work := by
      rw [work, hc, workOf_cons]
      omega
    rw [next, step_eq hc, step_eq hc]
    exact congrArg settle (perform_congr (hwork.trans h) hwork)

theorem work_next_lt (settings : Settings) (hne : st.commands ≠ []) :
    (st.next settings).work < st.work := work_step_lt settings _ hne

/-- **A run repeats the turn of the loop.** -/
theorem run_eq_iterate (settings : Settings) (h : st.work ≤ fuel) :
    st.run settings fuel = (next settings)^[fuel] st := by
  induction fuel generalizing st with
  | zero => rfl
  | succ fuel ih =>
    rw [run, Function.iterate_succ_apply]
    split
    · rename_i hc
      -- Nothing is left, so that a turn changes nothing.
      have hc : st.commands = [] := by simpa using hc
      have hfix : st.next settings = st := by rw [next, step, hc]
      rw [hfix, Function.iterate_fixed hfix]
    · rename_i hc
      have hlt := work_next_lt settings (by simpa using hc)
      rw [step_eq_next (h.trans (by omega)), ih (by omega)]

/-- The layout of a document after so many turns. -/
def after (settings : Settings) (d : Doc) (turns : Nat) : State :=
  (next settings)^[turns] (start d.propagateBreaks)

theorem after_zero (settings : Settings) (d : Doc) : after settings d 0 = start d.propagateBreaks := rfl

theorem after_succ (settings : Settings) (d : Doc) (turns : Nat) :
    after settings d (turns + 1) = (after settings d turns).next settings :=
  Function.iterate_succ_apply' ..

/-- What every step keeps holds after any number of turns. -/
theorem after_keeps {P : State → Prop} {d : Doc}
    (hstep : ∀ st fuel, P st → P (st.step settings fuel)) (h : P (start d.propagateBreaks))
    (turns : Nat) : P (after settings d turns) := by
  induction turns with
  | zero => exact h
  | succ turns ih => exact after_succ settings d turns ▸ hstep _ _ ih

/-- What passes from command to command holds of all of them after any number of turns. -/
theorem holds_after {C : Command → Prop} {d : Doc} (hC : Passes settings C)
    (h : (start d.propagateBreaks).Holds C) (turns : Nat) : (after settings d turns).Holds C :=
  after_keeps (fun _ fuel h => h.step hC fuel) h turns

theorem print_eq_finish_after (settings : Settings) (d : Doc) :
    print settings d = (after settings d (start d.propagateBreaks).work).finish := by
  have hwork : (start d.propagateBreaks).work = d.propagateBreaks.work := by
    simp [work, start, Item.work]
  rw [after, ← run_eq_iterate settings le_rfl, hwork]
  rfl

end State

/-- **The loop ends with nothing pending.** -/
theorem exists_measure (settings : Settings) :
    ∃ measure : List Command → List Command → Nat,
      (∀ st : State, st.commands ≠ [] →
        (∀ fuel, st.work ≤ fuel → st.step settings fuel = st.next settings) ∧
        measure (st.next settings).commands (st.next settings).suffixes <
          measure st.commands st.suffixes) ∧
      ∀ d : Doc, let start := State.start d.propagateBreaks
        ∃ turns ≤ measure start.commands start.suffixes, let st := State.after settings d turns
          st.commands = [] ∧ st.suffixes = [] ∧ print settings d = st.finish := by
  refine ⟨fun commands suffixes => workOf commands + workOf suffixes + suffixes.length,
    fun st hne => ⟨fun fuel h => State.step_eq_next h, State.work_next_lt settings hne⟩, ?_⟩
  intro d start
  refine ⟨start.work, le_rfl, ?_⟩
  have hpending := State.run_finishes settings (le_refl start.work) fun _ => rfl
  rw [State.run_eq_iterate settings le_rfl] at hpending
  exact ⟨hpending.1, hpending.2, State.print_eq_finish_after settings d⟩

end CodeFormatter.Layout
