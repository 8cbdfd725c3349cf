import CodeFormatter.Proofs.Doc.Basic
import CodeFormatter.Proofs.Layout.Trace

/-!
# The layout is a choice of modes

The layout of a plain document decides one thing only: which groups are flat and which are broken.
Once each group has a mode, the text follows by recursion on the document. `render` is that
recursion. It knows no stack, no column and no measuring; the indentation of a line is that of the
scopes around it, and a line or a choice follows the group around it or the group it names.

**Theorem (`exists_assignment_render`).** The layout of a plain document is its rendering under some
assignment of modes in which every group that has to break is broken, and every group inside a flat
one is flat.

The proof is a simulation. `Simulated` says that the machine, with a document on top of its stack,
reaches the state where the document is gone and its rendering has been written. One lemma for each
kind of document builds this from the same fact about its parts. The machine must stay *quiet*: no
suffix waits, and no group is to be measured again. It does, because a flat group never meets a hard
line.
-/

namespace CodeFormatter.Layout

/-! ## Assignments -/

/-- A mode for each group of a document. A group is named by its path: the positions of the parts
that lead to it. -/
abbrev Assignment := List Nat → Mode

namespace Assignment

/-- What is assigned inside part `i`. -/
def part (a : Assignment) (i : Nat) : Assignment := fun path => a (i :: path)

/-- What is assigned to the parts after the first, as if they were all. -/
def later (a : Assignment) : Assignment
  | i :: path => a ((i + 1) :: path)
  | [] => a []

/-- `mode` for the document itself, and `a` inside its only part. -/
def under (mode : Mode) (a : Assignment) : Assignment
  | [] => mode
  | _ :: path => a path

/-- `a` inside the first part and `b` for the parts after it. -/
def cons (a b : Assignment) : Assignment
  | 0 :: path => a path
  | (i + 1) :: path => b (i :: path)
  | [] => b []

@[simp] theorem under_nil (mode : Mode) (a : Assignment) : under mode a [] = mode := rfl

@[simp] theorem part_under (mode : Mode) (a : Assignment) (i : Nat) :
    (under mode a).part i = a := rfl

@[simp] theorem part_cons_zero (a b : Assignment) : (cons a b).part 0 = a := rfl

@[simp] theorem part_cons_one (a b : Assignment) : (cons a b).part 1 = b.part 0 := rfl

@[simp] theorem later_cons (a b : Assignment) : (cons a b).later = b := by
  funext path
  cases path <;> rfl

end Assignment

mutual

/-- The assignment breaks every group that has to break, and keeps every group inside a flat one
flat. The mode is that of the group around. -/
def Admissible : Doc → Assignment → Mode → Prop
  | .group contents shouldBreak _, a, around =>
    (shouldBreak = true → a [] = .broken) ∧ (around = .flat → a [] = .flat) ∧
      Admissible contents (a.part 0) (a [])
  | .concat parts, a, around => AdmissibleAll parts a around
  | .indent contents, a, around => Admissible contents (a.part 0) around
  | .align _ contents, a, around => Admissible contents (a.part 0) around
  | .ifBreak broken flat _, a, around =>
    Admissible broken (a.part 0) around ∧ Admissible flat (a.part 1) around
  | _, _, _ => True

def AdmissibleAll : List Doc → Assignment → Mode → Prop
  | [], _, _ => True
  | d :: rest, a, around => Admissible d (a.part 0) around ∧ AdmissibleAll rest a.later around

end

/-! ## The reference rendering -/

mutual

/-- The rendering of a plain document under an assignment: what it writes, and the modes of the named
groups after it. Given are the indentation and the mode of the scope around it, and the modes of the
named groups before it. -/
def render (settings : Settings) :
    Doc → Assignment → Indentation → Mode → GroupModes → List Piece × GroupModes
  | .text s, _, _, _, modes => ([.text s.toList], modes)
  | .line kind, _, indentation, mode, modes => ([linePiece indentation mode kind], modes)
  | .concat parts, a, indentation, mode, modes =>
    renderAll settings parts a indentation mode modes
  | .group contents _ id, a, indentation, _, modes =>
    render settings contents (a.part 0) indentation (a []) (modes.record id (a []))
  | .indent contents, a, indentation, mode, modes =>
    render settings contents (a.part 0) (indentation.indent settings) mode modes
  | .align alignment contents, a, indentation, mode, modes =>
    render settings contents (a.part 0) (indentation.align settings alignment) mode modes
  | .ifBreak broken flat id, a, indentation, mode, modes =>
    match choiceMode modes mode id with
    | .broken => render settings broken (a.part 0) indentation mode modes
    | .flat => render settings flat (a.part 1) indentation mode modes
  | _, _, _, _, modes => ([], modes)

def renderAll (settings : Settings) :
    List Doc → Assignment → Indentation → Mode → GroupModes → List Piece × GroupModes
  | [], _, _, _, modes => ([], modes)
  | d :: rest, a, indentation, mode, modes =>
    let first := render settings d (a.part 0) indentation mode modes
    let others := renderAll settings rest a.later indentation mode first.2
    (first.1 ++ others.1, others.2)

end

/-! ## Simulation -/

namespace State

variable {settings : Settings} {fuel : Nat} {st : State}

/-- No suffix waits, and no group is to be measured again. -/
structure Quiet (st : State) : Prop where
  suffixes : st.suffixes = []
  remeasure : st.remeasure = false

/-- A line that breaks in a quiet state writes its newline at once. -/
theorem Quiet.printLine_broken (hq : st.Quiet) (i : Indentation) (kind : LineKind) :
    st.printLine settings i .broken kind = st.newline settings i kind := by
  simp [printLine, breakLine, hq.suffixes]

/-- From `st`, something was rendered: `rest` is left to print, `rendered` has been written, and the
modes of its named groups are known. -/
structure Rendered (settings : Settings) (st st' : State) (rest : List Command)
    (rendered : List Piece × GroupModes) : Prop where
  commands : st'.commands = rest
  quiet : st'.Quiet
  modes : st'.modes = rendered.2
  text : st'.out.text = writeAll settings.newline.toList st.out.text rendered.1

theorem Rendered.trans {st₁ st₂ st₃ : State} {rest₁ rest₂ : List Command}
    {r₁ r₂ : List Piece × GroupModes} (h₁ : Rendered settings st₁ st₂ rest₁ r₁)
    (h₂ : Rendered settings st₂ st₃ rest₂ r₂) :
    Rendered settings st₁ st₃ rest₂ (r₁.1 ++ r₂.1, r₂.2) :=
  ⟨h₂.commands, h₂.quiet, h₂.modes, by rw [h₂.text, h₁.text, writeAll_append]⟩

/-- One step of a run that leaves no suffix waiting. -/
theorem run_succ {c : Command} {rest : List Command} {next : State}
    (hc : st.commands = c :: rest)
    (hn : { st with commands := rest }.perform settings (fuel + 2) c = next)
    (hs : next.suffixes = []) : st.run settings (fuel + 1) = next.run settings fuel := by
  rw [run, if_neg (by simp [hc]), step_eq hc, hn, settle_of_suffixes_nil hs]

/-- The mode that a plain group gets in a quiet state: inside a flat group only its own mark breaks
it, inside a broken one it is measured. -/
def groupMode (settings : Settings) (fuel : Nat) (st : State) (mode : Mode) (contents : Doc)
    (shouldBreak : Bool) : Mode :=
  match mode with
  | .flat => if shouldBreak then .broken else .flat
  | .broken => if !shouldBreak && st.fitsFlat settings fuel contents then .flat else .broken

theorem Quiet.printGroup_eq (hq : st.Quiet) (settings : Settings) (fuel : Nat) (i : Indentation)
    (mode : Mode) (c : Doc) (b : Bool) (id : Option GroupId) :
    st.printGroup settings fuel i mode c none b id =
      { st with modes := st.modes.record id (st.groupMode settings fuel mode c b) }.push i
        (st.groupMode settings fuel mode c b) c := by
  cases mode with
  | flat =>
    exact printGroup_of_not_measured settings fuel (by simp [hq.remeasure]) i c none b id
  | broken =>
    have hst : { st with remeasure := false } = st := by rw [← hq.remeasure]
    have hlayout : { st with remeasure := false }.chooseLayout settings fuel c none b =
        (st.groupMode settings fuel .broken c b, c) := by
      rw [hst]
      simp only [chooseLayout, groupMode]
      split <;> rfl
    have hmeasured : (decide (Mode.broken = .broken) || st.remeasure) = true := rfl
    rw [printGroup_of_measured settings fuel hmeasured i c none b id hlayout, ← hq.remeasure]

theorem groupMode_eq_broken {c : Doc} {b : Bool} (hb : b = true) :
    st.groupMode settings fuel mode c b = .broken := by
  cases mode <;> simp [groupMode, hb]

end State

open State

variable {settings : Settings} {mode : Mode} {d : Doc}

/-- With `d` on top of its stack, the machine renders `d` under some admissible assignment, in at
most `d.work` steps. -/
def Simulated (settings : Settings) (mode : Mode) (d : Doc) : Prop :=
  ∀ (st : State) (indentation : Indentation) (rest : List Command) (fuel : Nat),
    st.commands = ⟨indentation, mode, .doc d⟩ :: rest → st.Quiet → d.work ≤ fuel →
    ∃ (a : Assignment) (st' : State) (left : Nat), Admissible d a mode ∧
      st.run settings fuel = st'.run settings left ∧ fuel ≤ left + d.work ∧
      Rendered settings st st' rest (render settings d a indentation mode st.modes)

/-- Every simulated document has an admissible assignment: that of a run which prints nothing
else. -/
theorem Simulated.exists_admissible (h : Simulated settings mode d) : ∃ a, Admissible d a mode := by
  let st : State := { State.start d with commands := [⟨.none, mode, .doc d⟩] }
  obtain ⟨a, -, -, ha, -⟩ := h st .none [] d.work rfl ⟨rfl, rfl⟩ le_rfl
  exact ⟨a, ha⟩

/-- A document that one step prints. -/
theorem simulated_of_leaf (p : Indentation → List Piece)
    (hadm : ∀ a, Admissible d a mode)
    (hrender : ∀ a i modes, render settings d a i mode modes = (p i, modes))
    (hstep : ∀ (st : State) (i : Indentation) (fuel : Nat), st.Quiet →
      Rendered settings st (st.printDoc settings fuel i mode d) st.commands (p i, st.modes)) :
    Simulated settings mode d := by
  intro st i rest fuel hc hq hf
  have hpos := d.one_le_work
  obtain ⟨fuel, rfl⟩ : ∃ n, fuel = n + 1 := ⟨fuel - 1, by omega⟩
  have hr := hstep { st with commands := rest } i (fuel + 2) ⟨hq.suffixes, hq.remeasure⟩
  refine ⟨fun _ => .flat, _, fuel, hadm _, run_succ hc rfl hr.quiet.suffixes, by omega, ?_⟩
  rw [hrender]
  exact ⟨hr.commands, hr.quiet, hr.modes, hr.text⟩

/-- A document whose step puts `c` on the stack in its place. -/
theorem exists_rendered_of_push {st st₁ : State} {i i' : Indentation} {mode' : Mode} {c : Doc}
    {rest : List Command} {fuel : Nat} (hc : st.commands = ⟨i, mode, .doc d⟩ :: rest)
    (hstep : { st with commands := rest }.printDoc settings (fuel + 2) i mode d =
      st₁.push i' mode' c)
    (hr : st₁.commands = rest) (hq : st₁.Quiet) (hout : st₁.out = st.out)
    (hsim : Simulated settings mode' c) (hf : c.work ≤ fuel) :
    ∃ (a : Assignment) (st' : State) (left : Nat), Admissible c a mode' ∧
      st.run settings (fuel + 1) = st'.run settings left ∧ fuel ≤ left + c.work ∧
      Rendered settings st st' rest (render settings c a i' mode' st₁.modes) := by
  have hq' : (st₁.push i' mode' c).Quiet := ⟨hq.suffixes, hq.remeasure⟩
  obtain ⟨a, st', left, ha, hrun, hleft, hren⟩ :=
    hsim (st₁.push i' mode' c) i' st₁.commands fuel rfl hq' hf
  refine ⟨a, st', left, ha, (run_succ hc hstep hq'.suffixes).trans hrun, hleft, ?_⟩
  have htext := hren.text
  rw [out_push, hout] at htext
  exact ⟨hren.commands.trans hr, hren.quiet, hren.modes, htext⟩

/-! ## One lemma for each kind of document -/

theorem simulated_text (s : String) : Simulated settings mode (.text s) :=
  simulated_of_leaf (fun _ => [.text s.toList]) (fun _ => trivial) (fun _ _ _ => rfl)
    fun st i fuel hq => ⟨rfl, ⟨hq.suffixes, hq.remeasure⟩, rfl, by
      simp [printDoc, write, Piece.write]⟩

/-- A hard line is simulated in a broken group only. -/
theorem simulated_line {kind : LineKind} (hk : mode = .flat → kind.isHard = false) :
    Simulated settings mode (.line kind) := by
  refine simulated_of_leaf (fun i => [linePiece i mode kind]) (fun _ => trivial) (fun _ _ _ => rfl)
    fun st i fuel hq => ?_
  have htext : (st.printLine settings i mode kind).out.text = _ := text_printLine st i mode kind
  rw [if_pos (by simp [hq.suffixes])] at htext
  cases mode with
  | flat =>
    cases kind with
    | soft | normal => exact ⟨rfl, ⟨hq.suffixes, hq.remeasure⟩, rfl, htext⟩
    | hard | literal => exact absurd (hk rfl) (by decide)
  | broken =>
    rw [hq.printLine_broken] at htext
    rw [printDoc, hq.printLine_broken]
    cases kind <;> exact ⟨rfl, ⟨hq.suffixes, hq.remeasure⟩, rfl, htext⟩

theorem simulated_breakParent : Simulated settings mode .breakParent :=
  simulated_of_leaf (fun _ => []) (fun _ => trivial) (fun _ _ _ => rfl)
    fun _ _ _ hq => ⟨rfl, hq, rfl, rfl⟩

theorem simulated_cursor : Simulated settings mode .cursor :=
  simulated_of_leaf (fun _ => []) (fun _ => trivial) (fun _ _ _ => rfl)
    fun _ _ _ hq => ⟨rfl, ⟨hq.suffixes, hq.remeasure⟩, rfl, rfl⟩

/-- A document that changes the indentation of its contents. -/
theorem simulated_of_scope {c : Doc} (scope : Indentation → Indentation)
    (hwork : d.work = 1 + c.work) (hadm : ∀ a, Admissible c (a.part 0) mode → Admissible d a mode)
    (hrender : ∀ a i modes,
      render settings d a i mode modes = render settings c (a.part 0) (scope i) mode modes)
    (hstep : ∀ (st : State) (i : Indentation) (fuel : Nat),
      st.printDoc settings fuel i mode d = st.push (scope i) mode c)
    (h : Simulated settings mode c) : Simulated settings mode d := by
  intro st i rest fuel hc hq hf
  obtain ⟨fuel, rfl⟩ : ∃ n, fuel = n + 1 := ⟨fuel - 1, by omega⟩
  obtain ⟨a, st', left, ha, hrun, hleft, hren⟩ :=
    exists_rendered_of_push hc (hstep _ i (fuel + 2)) rfl ⟨hq.suffixes, hq.remeasure⟩ rfl h
      (by omega)
  refine ⟨.under .flat a, st', left, hadm _ ha, hrun, by omega, ?_⟩
  rw [hrender]
  exact hren

theorem simulated_indent (h : Simulated settings mode d) : Simulated settings mode (.indent d) :=
  simulated_of_scope (Indentation.indent settings) rfl (fun _ ha => ha) (fun _ _ _ => rfl)
    (fun _ _ _ => rfl) h

theorem simulated_align {al : Alignment} (h : Simulated settings mode d) :
    Simulated settings mode (.align al d) :=
  simulated_of_scope (Indentation.align settings · al) rfl (fun _ ha => ha) (fun _ _ _ => rfl)
    (fun _ _ _ => rfl) h

/-- The contents of a group are printed in the mode that the group gets. -/
theorem simulated_group {c : Doc} {b : Bool} {id : Option GroupId} (hb : mode = .flat → b = false)
    (h : ∀ m : Mode, (m = .flat → b = false) → Simulated settings m c) :
    Simulated settings mode (.group c b id) := by
  intro st i rest fuel hc hq hf
  rw [Doc.work] at hf
  obtain ⟨fuel, rfl⟩ : ∃ n, fuel = n + 1 := ⟨fuel - 1, by omega⟩
  have hq' : State.Quiet { st with commands := rest } := ⟨hq.suffixes, hq.remeasure⟩
  set m := { st with commands := rest }.groupMode settings (fuel + 2) mode c b with hm
  have hbm : b = true → m = .broken := groupMode_eq_broken
  have hflat : mode = .flat → m = .flat := by
    rintro rfl
    rw [hm, hb rfl]
    rfl
  have hsim : Simulated settings m c := h m fun hm' => by
    by_contra hb'
    rw [hbm (by simpa using hb')] at hm'
    cases hm'
  obtain ⟨a, st', left, ha, hrun, hleft, hren⟩ :=
    exists_rendered_of_push hc (hq'.printGroup_eq settings (fuel + 2) i mode c b id) rfl
      ⟨hq.suffixes, hq.remeasure⟩ rfl hsim (by omega)
  refine ⟨.under m a, st', left, ?_, hrun, by rw [Doc.work]; omega, ?_⟩
  · simpa only [Admissible, Assignment.under_nil, Assignment.part_under] using ⟨hbm, hflat, ha⟩
  · simpa only [render, Assignment.under_nil, Assignment.part_under] using hren

/-- The branch that is not printed gets an admissible assignment, too. -/
theorem simulated_ifBreak {broken flat : Doc} {id : Option GroupId}
    (hb : Simulated settings mode broken) (hf : Simulated settings mode flat) :
    Simulated settings mode (.ifBreak broken flat id) := by
  intro st i rest fuel hc hq hfuel
  rw [Doc.work] at hfuel
  obtain ⟨fuel, rfl⟩ : ∃ n, fuel = n + 1 := ⟨fuel - 1, by omega⟩
  have hq' : State.Quiet { st with commands := rest } := ⟨hq.suffixes, hq.remeasure⟩
  have hstep : ∀ c, (match choiceMode st.modes mode id with | .broken => broken | .flat => flat) = c →
      { st with commands := rest }.printDoc settings (fuel + 2) i mode (.ifBreak broken flat id) =
        { st with commands := rest }.push i mode c := by
    rintro c rfl
    rfl
  cases hm : choiceMode st.modes mode id with
  | broken =>
    obtain ⟨a, st', left, ha, hrun, hleft, hren⟩ :=
      exists_rendered_of_push hc (hstep broken (by rw [hm])) rfl hq' rfl hb (by omega)
    obtain ⟨a', ha'⟩ := hf.exists_admissible
    refine ⟨.cons a (.under .flat a'), st', left, ?_, hrun, by rw [Doc.work]; omega, ?_⟩
    · simpa [Admissible] using ⟨ha, ha'⟩
    · simpa only [render, hm, Assignment.part_cons_zero] using hren
  | flat =>
    obtain ⟨a, st', left, ha, hrun, hleft, hren⟩ :=
      exists_rendered_of_push hc (hstep flat (by rw [hm])) rfl hq' rfl hf (by omega)
    obtain ⟨a', ha'⟩ := hb.exists_admissible
    refine ⟨.cons a' (.under .flat a), st', left, ?_, hrun, by rw [Doc.work]; omega, ?_⟩
    · simpa [Admissible] using ⟨ha', ha⟩
    · simpa only [render, hm, Assignment.part_cons_one, Assignment.part_under] using hren

/-- Documents one after another. The work that is left after the first is enough for the others. -/
theorem exists_rendered_all {parts : List Doc} (h : ∀ d ∈ parts, Simulated settings mode d)
    (st : State) (i : Indentation) (rest : List Command) (fuel : Nat)
    (hc : st.commands = parts.map (⟨i, mode, .doc ·⟩) ++ rest) (hq : st.Quiet)
    (hf : Doc.workAll parts ≤ fuel) :
    ∃ (a : Assignment) (st' : State) (left : Nat), AdmissibleAll parts a mode ∧
      st.run settings fuel = st'.run settings left ∧ fuel ≤ left + Doc.workAll parts ∧
      Rendered settings st st' rest (renderAll settings parts a i mode st.modes) := by
  induction parts generalizing st fuel with
  | nil =>
    exact ⟨fun _ => .flat, st, fuel, trivial, rfl, by omega, ⟨hc, hq, rfl, rfl⟩⟩
  | cons d parts ih =>
    rw [Doc.workAll] at hf
    obtain ⟨a₁, st₁, left₁, ha₁, hrun₁, hleft₁, hren₁⟩ :=
      h d (by simp) st i _ fuel hc hq (by omega)
    obtain ⟨a₂, st₂, left₂, ha₂, hrun₂, hleft₂, hren₂⟩ :=
      ih (fun d hd => h d (by simp [hd])) st₁ left₁ hren₁.commands hren₁.quiet (by omega)
    refine ⟨.cons a₁ a₂, st₂, left₂, ?_, hrun₁.trans hrun₂, by rw [Doc.workAll]; omega, ?_⟩
    · simpa [AdmissibleAll] using ⟨ha₁, ha₂⟩
    · rw [hren₁.modes] at hren₂
      simpa only [renderAll, Assignment.part_cons_zero, Assignment.later_cons] using
        hren₁.trans hren₂

theorem simulated_concat {parts : List Doc} (h : ∀ d ∈ parts, Simulated settings mode d) :
    Simulated settings mode (.concat parts) := by
  intro st i rest fuel hc hq hf
  rw [Doc.work] at hf
  obtain ⟨fuel, rfl⟩ : ∃ n, fuel = n + 1 := ⟨fuel - 1, by omega⟩
  let next : State := { st with commands := parts.map (⟨i, mode, .doc ·⟩) ++ rest }
  have hq' : next.Quiet := ⟨hq.suffixes, hq.remeasure⟩
  obtain ⟨a, st', left, ha, hrun, hleft, hren⟩ :=
    exists_rendered_all h next i rest fuel rfl hq' (by omega)
  refine ⟨a, st', left, by simpa only [Admissible] using ha,
    (run_succ hc rfl hq'.suffixes).trans hrun, by rw [Doc.work]; omega, ?_⟩
  rw [render]
  exact ⟨hren.commands, hren.quiet, hren.modes, hren.text⟩

/-! ## Plain documents -/

/-- A plain document, its breaks propagated, is simulated in a broken group, and in a flat group if
no break leaves it. -/
theorem simulated_propagateBreaks {named : Option GroupId → Prop} (hd : d.Plain named) (mode : Mode)
    (hm : mode = .flat → d.exposesBreak = false) : Simulated settings mode d.propagateBreaks := by
  induction hd generalizing mode with
  | @text s _ => exact simulated_text s
  | @concat parts _ ih =>
    rw [Doc.propagateBreaks_concat]
    refine simulated_concat fun d' hd' => ?_
    obtain ⟨d, hmem, rfl⟩ := List.mem_map.mp hd'
    exact ih d hmem mode fun hflat => Doc.exposesBreak_of_mem (hm hflat) hmem
  | softline => exact simulated_line fun _ => rfl
  | space => exact simulated_line fun _ => rfl
  | hardline | literalline =>
    -- The mark beside the line breaks every group around it.
    have hbroken : mode ≠ .flat := fun hflat => absurd (hm hflat) (by decide)
    refine simulated_concat fun d' hd' => ?_
    simp only [List.mem_cons, List.not_mem_nil, or_false] at hd'
    rcases hd' with rfl | rfl
    · exact simulated_line fun hflat => absurd hflat hbroken
    · exact simulated_breakParent
  | @group c b id _ ih =>
    rw [Doc.propagateBreaks_group]
    refine simulated_group hm fun m hm' => ih m fun hflat => ?_
    exact (Bool.or_eq_false_iff.mp (hm' hflat)).2
  | indent _ ih => exact simulated_indent (ih mode hm)
  | align _ ih => exact simulated_align (ih mode hm)
  | ifBreak _ _ _ ihb ihf =>
    rw [Doc.exposesBreak_ifBreak] at hm
    rw [Doc.propagateBreaks_ifBreak]
    exact simulated_ifBreak (ihb mode fun hflat => (Bool.or_eq_false_iff.mp (hm hflat)).1)
      (ihf mode fun hflat => (Bool.or_eq_false_iff.mp (hm hflat)).2)
  | breakParent => exact simulated_breakParent
  | cursor => exact simulated_cursor

/-- **Layout soundness.** The layout of a plain document is its reference rendering, after breaks are
propagated, under some assignment that breaks every group that has to break and keeps every group
inside a flat one flat. -/
theorem exists_assignment_render (settings : Settings) {d : Doc} (hd : d.Plain fun _ => True) :
    ∃ a : Assignment, Admissible d.propagateBreaks a .broken ∧
      (print settings d).formatted = String.ofList (assemble settings.newline.toList
        (render settings d.propagateBreaks a .none .broken []).1) := by
  have hsim : Simulated settings .broken d.propagateBreaks :=
    simulated_propagateBreaks hd .broken (by simp)
  obtain ⟨a, st', left, ha, hrun, -, hren⟩ :=
    hsim (State.start d.propagateBreaks) .none [] d.propagateBreaks.work rfl ⟨rfl, rfl⟩ le_rfl
  refine ⟨a, ha, ?_⟩
  have hdone : st'.run settings left = st' := by
    cases left with
    | zero => rfl
    | succ left => rw [run, if_pos (by simp [hren.commands])]
  rw [print, hrun, hdone, formatted_finish, hren.text]
  rfl

/-- A group that does not fit, and a choice that names it. -/
theorem exists_assignment_render_named :
    let d : Doc := .concat [.group (.concat [.text "ab", Doc.softline, .text "cd"]) false (some 1),
      .ifBreak (.text ",") (.text ";") (some 1)]
    ∃ a : Assignment, Admissible d.propagateBreaks a .broken ∧
      "ab\ncd," = String.ofList (assemble ['\n']
        (render (Settings.ofWidth 3) d.propagateBreaks a .none .broken []).1) := by
  intro d
  have hd : d.Plain fun _ => True := by
    refine .concat ?_
    simp only [List.forall_mem_cons]
    refine ⟨.group (.concat ?_), .ifBreak trivial (.text (by decide)) (.text (by decide)), by simp⟩
    simp only [List.forall_mem_cons]
    exact ⟨.text (by decide), .softline, .text (by decide), by simp⟩
  have hformatted : (print (Settings.ofWidth 3) d).formatted = "ab\ncd," := by decide
  rw [← hformatted]
  exact exists_assignment_render (Settings.ofWidth 3) hd

end CodeFormatter.Layout
