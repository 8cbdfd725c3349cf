import CodeFormatter.Proofs.Doc.Basic
import CodeFormatter.Proofs.Layout.Trace

/-!
# Every step makes progress

What one step can do to the commands of a state, whatever the document. A command goes, and

* others take its place, for the documents that it opens into (`Item.openings`), or
* it is a line suffix and waits in the queue, or
* it is a line that finds suffixes waiting, and comes back after them.

`performs_perform` says that there is nothing else, and facts about runs follow from these three cases
without a look at the machine.

**Theorem (`run_finishes`).** The work of a state is enough fuel: a run with that much fuel ends with
nothing left to print and no suffix waiting.
-/

namespace CodeFormatter.Layout

/-! ## Work -/

@[simp] theorem workOf_nil : workOf [] = 0 := rfl

@[simp] theorem workOf_cons (c : Command) (rest : List Command) :
    workOf (c :: rest) = c.item.work + workOf rest := rfl

@[simp] theorem workOf_append (cs cs' : List Command) :
    workOf (cs ++ cs') = workOf cs + workOf cs' := by
  induction cs with
  | nil => simp
  | cons c rest ih => rw [List.cons_append, workOf_cons, workOf_cons, ih, Nat.add_assoc]

theorem workOf_map_doc (i : Indentation) (m : Mode) (parts : List Doc) :
    workOf (parts.map (⟨i, m, .doc ·⟩)) = Doc.workAll parts := by
  induction parts with
  | nil => rfl
  | cons d rest ih => rw [List.map_cons, workOf_cons, ih, Doc.workAll, Item.work]

/-! ## What a command opens into -/

namespace Item

/-- The documents of an item. -/
def docs : Item → List Doc
  | .doc d => [d]
  | .fillRest parts => parts

/-- What an item may open into: each list holds the documents that are left to print when the item
itself is done. A group with states and a choice have several, and a line suffix has none. -/
def openings : Item → List (List Doc)
  | .fillRest parts | .doc (.fill parts) | .doc (.concat parts) => [parts]
  | .doc (.group contents _ _) | .doc (.indent contents) | .doc (.align _ contents) => [[contents]]
  | .doc (.conditionalGroup contents states _ _) => (contents :: states).map ([·])
  | .doc (.ifBreak broken flat _) => [[broken], [flat]]
  | .doc .lineSuffixBoundary => [[], [.line .hard]]
  | .doc (.lineSuffix _) => []
  | .doc (.text _) | .doc (.line _) | .doc .breakParent | .doc .trim | .doc .cursor => [[]]

theorem one_le_work (item : Item) : 1 ≤ item.work := by
  cases item with
  | doc d => exact d.one_le_work
  | fillRest parts =>
    rw [work]
    omega

end Item

/-- The indentation inside a command. -/
def Command.scope (settings : Settings) (c : Command) : Indentation :=
  match c.item with
  | .doc (.indent _) => c.indentation.indent settings
  | .doc (.align alignment _) => c.indentation.align settings alignment
  | _ => c.indentation

namespace State

variable {settings : Settings} {fuel : Nat} {st : State} {c : Command}

/-- What printing the command `c` can do to the commands of a state. -/
inductive Performs (settings : Settings) (st : State) (c : Command) (st' : State) : Prop
  /-- Others take its place. -/
  | opened (new : List Command) : st'.commands = new ++ st.commands → st'.suffixes = st.suffixes →
      new.flatMap (·.item.docs) ∈ c.item.openings →
      (∀ c' ∈ new, c'.indentation = c.scope settings) →
      workOf new < c.item.work → Performs settings st c st'
  /-- It waits for the end of the line. -/
  | deferred (d : Doc) : c.item = .doc (.lineSuffix d) → st'.commands = st.commands →
      st'.suffixes = st.suffixes ++ [⟨c.indentation, c.mode, .doc d⟩] → Performs settings st c st'
  /-- It comes back after the suffixes. -/
  | released (kind : LineKind) : c.item = .doc (.line kind) → st.suffixes ≠ [] →
      st'.commands = st.suffixes ++ c :: st.commands → st'.suffixes = [] →
      Performs settings st c st'

/-! ## What a group prints -/

/-- A group prints its contents or one of its states. -/
theorem mem_chooseLayout (settings : Settings) (fuel : Nat) (st : State) (contents : Doc)
    (states : Option (List Doc)) (shouldBreak : Bool) :
    (st.chooseLayout settings fuel contents states shouldBreak).2 ∈ contents :: states.getD [] := by
  unfold chooseLayout
  split
  · simp
  cases states with
  | none => simp
  | some states =>
    have hlast : states.getLast?.getD contents ∈ contents :: states := by
      cases h : states.getLast? with
      | none => simp
      | some last => exact List.mem_cons_of_mem _ (List.mem_of_getLast? h)
    dsimp only [Option.getD_some]
    unfold chooseState
    dsimp only
    split
    · exact hlast
    split
    · rename_i state hstate
      exact List.mem_cons_of_mem _ (List.mem_of_mem_tail (List.mem_of_find?_eq_some hstate))
    · exact hlast

/-- What a group puts on the stack: its contents or one of its states, in some mode. -/
theorem exists_printGroup_eq (settings : Settings) (fuel : Nat) (st : State) (i : Indentation)
    (m : Mode) (contents : Doc) (states : Option (List Doc)) (shouldBreak : Bool)
    (id : Option GroupId) :
    ∃ mode, ∃ d ∈ contents :: states.getD [], ∃ modes remeasure,
      st.printGroup settings fuel i m contents states shouldBreak id =
        { st with modes, remeasure }.push i mode d := by
  cases hm : decide (m = .broken) || st.remeasure with
  | true =>
    have heq := printGroup_of_measured settings fuel hm i contents states shouldBreak id rfl
    exact ⟨_, _, mem_chooseLayout settings fuel _ contents states shouldBreak, _, _, heq⟩
  | false =>
    have heq := printGroup_of_not_measured settings fuel hm i contents states shouldBreak id
    exact ⟨_, contents, List.mem_cons_self, _, st.remeasure, heq⟩

/-! ## What a fill prints -/

/-- What a fill puts on the stack: commands for its parts, in order. Each part takes one step more
in a fill, so they are less work. -/
theorem exists_printFill_eq (settings : Settings) (fuel : Nat) (st : State) (i : Indentation)
    (m : Mode) (parts : List Doc) :
    ∃ new : List Command, st.printFill settings fuel i m parts =
        { st with commands := new ++ st.commands } ∧
      (∀ c ∈ new, c.indentation = i) ∧ new.flatMap (·.item.docs) = parts ∧
      workOf new < 1 + Doc.workAll parts + parts.length := by
  match parts with
  | [] => exact ⟨[], rfl, by simp, rfl, by simp [Doc.workAll]⟩
  | [content] =>
    refine ⟨[⟨i, _, .doc content⟩], rfl, by simp, rfl, ?_⟩
    simp only [workOf_cons, workOf_nil, Item.work, Doc.workAll, List.length_cons]
    omega
  | [content, separator] =>
    refine ⟨[⟨i, _, .doc content⟩, ⟨i, _, .doc separator⟩], rfl, by simp, rfl, ?_⟩
    simp only [workOf_cons, workOf_nil, Item.work, Doc.workAll, List.length_cons]
    omega
  | content :: separator :: second :: others =>
    refine ⟨[⟨i, _, .doc content⟩, ⟨i, _, .doc separator⟩, ⟨i, m, .fillRest (second :: others)⟩], rfl,
      by simp, by simp [Item.docs], ?_⟩
    simp only [workOf_cons, workOf_nil, Item.work, Doc.workAll, List.length_cons]
    omega

/-! ## What a line prints -/

/-- A line leaves the commands as they are, or it puts the waiting suffixes on the stack and comes
back after them. -/
theorem printLine_cases (st : State) (i : Indentation) (m : Mode) (kind : LineKind) :
    ((st.printLine settings i m kind).commands = st.commands ∧
      (st.printLine settings i m kind).suffixes = st.suffixes) ∨
    (st.suffixes ≠ [] ∧ (st.printLine settings i m kind).commands =
        st.suffixes ++ ⟨i, m, .doc (.line kind)⟩ :: st.commands ∧
      (st.printLine settings i m kind).suffixes = []) := by
  have hbreak : ∀ st : State, ((st.breakLine settings i m kind).commands = st.commands ∧
        (st.breakLine settings i m kind).suffixes = st.suffixes) ∨
      (st.suffixes ≠ [] ∧ (st.breakLine settings i m kind).commands =
          st.suffixes ++ ⟨i, m, .doc (.line kind)⟩ :: st.commands ∧
        (st.breakLine settings i m kind).suffixes = []) := by
    intro st
    unfold breakLine
    split
    · cases kind <;> exact .inl ⟨rfl, rfl⟩
    · rename_i hne
      exact .inr ⟨by simpa using hne, rfl, rfl⟩
  cases m with
  | broken => exact hbreak st
  | flat =>
    cases kind with
    | soft | normal => exact .inl ⟨rfl, rfl⟩
    | hard | literal => exact hbreak { st with remeasure := true }

/-! ## One command -/

/-- A command that one document takes the place of. -/
theorem performs_of_push {m : Mode} {d : Doc} {st' : State}
    (hc : st'.commands = ⟨c.scope settings, m, .doc d⟩ :: st.commands)
    (hs : st'.suffixes = st.suffixes) (hopen : [d] ∈ c.item.openings)
    (hwork : d.work < c.item.work) : Performs settings st c st' := by
  refine .opened [⟨c.scope settings, m, .doc d⟩] hc hs hopen (by simp) ?_
  simpa [Item.work] using hwork

/-- A command that nothing takes the place of. -/
theorem performs_of_done {st' : State} (hc : st'.commands = st.commands)
    (hs : st'.suffixes = st.suffixes) (hopen : [] ∈ c.item.openings) (hwork : 0 < c.item.work) :
    Performs settings st c st' :=
  .opened [] hc hs hopen (by simp) hwork

theorem performs_printGroup {i : Indentation} {m : Mode} {contents : Doc}
    {states : Option (List Doc)} {shouldBreak : Bool} {id : Option GroupId}
    (hi : c.scope settings = i)
    (hopen : ∀ d ∈ contents :: states.getD [], [d] ∈ c.item.openings ∧ d.work < c.item.work) :
    Performs settings st c (st.printGroup settings fuel i m contents states shouldBreak id) := by
  obtain ⟨mode, d, hd, modes, remeasure, heq⟩ :=
    exists_printGroup_eq settings fuel st i m contents states shouldBreak id
  rw [heq]
  subst hi
  exact performs_of_push rfl rfl (hopen d hd).1 (hopen d hd).2

theorem performs_printFill {i : Indentation} {m : Mode} {parts : List Doc}
    (hi : c.scope settings = i) (hopen : parts ∈ c.item.openings)
    (hwork : 1 + Doc.workAll parts + parts.length ≤ c.item.work) :
    Performs settings st c (st.printFill settings fuel i m parts) := by
  obtain ⟨new, heq, hind, hdocs, hlt⟩ := exists_printFill_eq settings fuel st i m parts
  rw [heq]
  subst hi hdocs
  exact .opened new rfl rfl hopen hind (by omega)

/-- **What a command can do.** -/
theorem performs_perform (settings : Settings) (fuel : Nat) (st : State) (c : Command) :
    Performs settings st c (st.perform settings fuel c) := by
  obtain ⟨i, m, item⟩ := c
  cases item with
  | fillRest parts => exact performs_printFill rfl (by simp [Item.openings]) le_rfl
  | doc d =>
    cases d with
    | text s => exact performs_of_done rfl rfl (by simp [Item.openings]) Nat.one_pos
    | breakParent => exact performs_of_done rfl rfl (by simp [Item.openings]) Nat.one_pos
    | trim => exact performs_of_done rfl rfl (by simp [Item.openings]) Nat.one_pos
    | cursor => exact performs_of_done rfl rfl (by simp [Item.openings]) Nat.one_pos
    | concat parts =>
      refine .opened (parts.map (⟨i, m, .doc ·⟩)) rfl rfl ?_ (by simp [Command.scope]) ?_
      · simp [Item.openings, Item.docs, List.flatMap_map]
      · simp [workOf_map_doc, Item.work, Doc.work]
    | line kind =>
      rcases printLine_cases st i m kind with ⟨hc, hs⟩ | ⟨hne, hc, hs⟩
      · exact performs_of_done hc hs (by simp [Item.openings]) Nat.one_pos
      · exact .released kind rfl hne hc hs
    | group contents b id =>
      refine performs_printGroup rfl fun d hd => ?_
      rw [List.mem_singleton.mp hd]
      simp [Item.openings, Item.work, Doc.work]
    | conditionalGroup contents states b id =>
      refine performs_printGroup rfl fun d hd => ⟨List.mem_map_of_mem hd, ?_⟩
      have hle := Doc.work_le_workAll hd
      simp only [Option.getD_some, Doc.workAll] at hle
      simp only [Item.work, Doc.work]
      omega
    | indent contents =>
      exact performs_of_push rfl rfl (by simp [Item.openings]) (by simp [Item.work, Doc.work])
    | align al contents =>
      exact performs_of_push rfl rfl (by simp [Item.openings]) (by simp [Item.work, Doc.work])
    | fill parts => exact performs_printFill rfl (by simp [Item.openings]) le_rfl
    | ifBreak broken flat id =>
      have hchosen : ∃ d ∈ [broken, flat],
          st.perform settings fuel ⟨i, m, .doc (.ifBreak broken flat id)⟩ = st.push i m d := by
        simp only [perform, printDoc]
        split
        · exact ⟨broken, by simp, rfl⟩
        · exact ⟨flat, by simp, rfl⟩
      obtain ⟨d, hd, heq⟩ := hchosen
      rw [heq]
      have hle := Doc.work_le_workAll hd
      simp only [Doc.workAll] at hle
      refine performs_of_push rfl rfl ?_ ?_
      · simpa [Item.openings] using hd
      · simp only [Item.work, Doc.work]
        omega
    | lineSuffix contents => exact .deferred contents rfl rfl rfl
    | lineSuffixBoundary =>
      simp only [perform, printDoc]
      split
      · exact performs_of_done rfl rfl (by simp [Item.openings]) Nat.two_pos
      · exact performs_of_push rfl rfl (by simp [Item.openings]) Nat.one_lt_two

/-! ## Whole runs -/

theorem work_settle_le (st : State) : st.settle.work ≤ st.work := by
  unfold settle
  split
  · simp only [work, release, workOf_append, workOf_nil, List.length_nil]
    omega
  · exact le_rfl

/-- **Every step leaves less work.** -/
theorem work_step_lt (settings : Settings) (fuel : Nat) {st : State} (hne : st.commands ≠ []) :
    (st.step settings fuel).work < st.work := by
  obtain ⟨c, rest, hc⟩ := List.exists_cons_of_ne_nil hne
  rw [step_eq hc]
  refine (work_settle_le _).trans_lt ?_
  rw [work, work, hc, workOf_cons]
  cases performs_perform settings fuel { st with commands := rest } c with
  | opened new hc' hs' _ _ hlt =>
    rw [hc', hs', workOf_append]
    dsimp only
    omega
  | deferred d hitem hc' hs' =>
    rw [hc', hs', hitem]
    simp only [workOf_append, workOf_cons, workOf_nil, List.length_append, List.length_cons,
      List.length_nil, Item.work, Doc.work]
    omega
  | released kind hitem hne' hc' hs' =>
    have hpos : 0 < st.suffixes.length := List.length_pos_of_ne_nil hne'
    rw [hc', hs', workOf_append, workOf_cons, workOf_nil, List.length_nil]
    dsimp only
    omega

/-- When nothing is left to print after a step, no suffix waits. -/
theorem suffixes_step (settings : Settings) (fuel : Nat) {st : State} (hne : st.commands ≠ [])
    (h : (st.step settings fuel).commands = []) : (st.step settings fuel).suffixes = [] := by
  obtain ⟨c, rest, hc⟩ := List.exists_cons_of_ne_nil hne
  rw [step_eq hc] at h ⊢
  generalize { st with commands := rest }.perform settings fuel c = st' at h ⊢
  by_cases hcommands : st'.commands.isEmpty
  · rw [settle, if_pos hcommands]
    rfl
  · rw [settle, if_neg hcommands] at h
    exact absurd (by simp [h]) hcommands

/-- **The work of a state is enough fuel.** -/
theorem run_finishes (settings : Settings) {fuel : Nat} {st : State} (hf : st.work ≤ fuel)
    (hs : st.commands = [] → st.suffixes = []) :
    (st.run settings fuel).commands = [] ∧ (st.run settings fuel).suffixes = [] := by
  induction fuel generalizing st with
  | zero =>
    have hc : st.commands = [] := by
      cases hc : st.commands with
      | nil => rfl
      | cons c rest =>
        have hpos := c.item.one_le_work
        rw [work, hc, workOf_cons] at hf
        omega
    exact ⟨hc, hs hc⟩
  | succ fuel ih =>
    rw [run]
    split
    · rename_i hc
      have hc : st.commands = [] := by simpa using hc
      exact ⟨hc, hs hc⟩
    · rename_i hc
      have hne : st.commands ≠ [] := by simpa using hc
      have hlt := work_step_lt settings (fuel + 2) hne
      exact ih (by omega) (suffixes_step settings (fuel + 2) hne)

end State

end CodeFormatter.Layout
