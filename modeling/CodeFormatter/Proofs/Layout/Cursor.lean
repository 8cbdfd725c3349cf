import CodeFormatter.Proofs.Layout.Characters
import CodeFormatter.Proofs.Layout.Leaves

/-!
# Where cursors stand

A text between two cursors is *marked*. The layout records the size of the output at each cursor, and
where it removes spaces and tabs at the end of the output, it moves the cursors back that stood among
them.

**Theorem (`cursor_of_meets`).** If all cursors of a document stand around a text, and the text is met
in every layout, then the first two cursors stand before and after one occurrence of the text in the
output.

Before the text is met no cursor is recorded (`Ahead`). From then on the text and what is written before
it stay as they are (`Behind`): the text does not end in a space or a tab, so that nothing is removed from
it, and the two cursors do not move.
-/

namespace CodeFormatter

/-- A text between two cursors. -/
def Doc.marked (x : String) : Doc := .concat [.cursor, .text x, .cursor]

theorem Doc.propagateBreaks_marked (x : String) : (marked x).propagateBreaks = marked x := by
  simp [marked]

namespace Layout

variable {x : String} {d : Doc}

/-! ## Documents with a marked text -/

/-- Cursors stand around the text only. -/
inductive Tidy (x : String) : Doc → Prop
  | marked : Tidy x (.marked x)
  | intro {d : Doc} (self : d ≠ .cursor) (below : ∀ e ∈ d.children, Tidy x e) : Tidy x d

/-- The marked text is met when these documents are printed, whatever is chosen. -/
inductive Meets (x : String) : List Doc → Prop
  | here (ds : List Doc) : Meets x (.cursor :: .text x :: .cursor :: ds)
  | opens {d : Doc} {ds : List Doc} : (∀ e, d ≠ .lineSuffix e) →
      (∀ docs ∈ (Item.doc d).openings, Meets x (docs ++ ds)) → Meets x (d :: ds)
  | held {d : Doc} {ds : List Doc} : Meets x ds → Meets x (.lineSuffix d :: ds)

theorem Tidy.propagateBreaks (h : Tidy x d) : Tidy x d.propagateBreaks := by
  induction h with
  | marked =>
    rw [Doc.propagateBreaks_marked]
    exact .marked
  | @intro d hself _ ih =>
    refine .intro (by cases d <;> simp at hself ⊢) fun e he => ?_
    rw [Doc.children_propagateBreaks] at he
    obtain ⟨c, hc, rfl⟩ := List.mem_map.mp he
    exact ih c hc

namespace Meets

variable {ds ds' : List Doc}

theorem append (h : Meets x ds) (ds' : List Doc) : Meets x (ds ++ ds') := by
  induction h with
  | here ds => exact .here _
  | opens hne _ ih =>
    rw [List.cons_append]
    refine .opens hne fun docs hdocs => ?_
    rw [← List.append_assoc]
    exact ih docs hdocs
  | held _ ih => exact .held ih

/-- A document more in front. -/
theorem cons (d : Doc) (h : Meets x ds) : Meets x (d :: ds) := by
  induction d using Doc.childrenInduction generalizing ds with
  | node d ih =>
    by_cases hsuffix : ∃ e, d = .lineSuffix e
    · obtain ⟨e, rfl⟩ := hsuffix
      exact .held h
    · refine .opens (fun e heq => hsuffix ⟨e, heq⟩) fun docs hdocs => ?_
      have hmem : ∀ e ∈ docs, e = .line .hard ∨ e ∈ d.children := fun e he =>
        (Item.mem_children_of_mem_openings hdocs he).imp_left (·.2)
      clear hdocs
      induction docs with
      | nil => exact h
      | cons e rest ihrest =>
        obtain ⟨he, hrest⟩ := List.forall_mem_cons.mp hmem
        rcases he with rfl | he
        · refine .opens (by simp) fun docs hdocs => ?_
          rw [List.mem_singleton.mp hdocs]
          exact ihrest hrest
        · exact ih e he (ihrest hrest)

theorem of_suffix (h : Meets x ds) (before : List Doc) : Meets x (before ++ ds) := by
  induction before with
  | nil => exact h
  | cons d rest ih => exact ih.cons d

theorem concat (h : Meets x ds) : Meets x [.concat ds] := by
  refine .opens (by simp) fun docs hdocs => ?_
  rw [List.mem_singleton.mp hdocs, List.append_nil]
  exact h

theorem of_concat (h : Meets x [.concat ds]) : Meets x ds := by
  cases h with
  | opens _ h => simpa using h ds (List.mem_singleton_self ds)

/-- A document that opens into one of several. -/
theorem of_parts (parts : List Doc) (hd : ∀ e, d ≠ .lineSuffix e)
    (hopen : (Item.doc d).openings = parts.map ([·])) (h : ∀ e ∈ parts, Meets x [e]) :
    Meets x [d] := by
  refine .opens hd fun docs hdocs => ?_
  rw [hopen] at hdocs
  obtain ⟨e, he, rfl⟩ := List.mem_map.mp hdocs
  exact h e he

theorem marked (x : String) : Meets x [.marked x] := (here []).concat

/-- Marking groups leaves what is met. -/
theorem propagateBreaks (h : Meets x ds) : Meets x (ds.map Doc.propagateBreaks) := by
  induction h with
  | here ds => exact .here _
  | @opens d ds hne _ ih =>
    refine .opens (fun e => by cases d <;> simp at hne ⊢) fun docs hdocs => ?_
    obtain ⟨docs', hdocs', rfl⟩ := Selects.exists_of_mem_openings_propagateBreaks hdocs
    rw [← List.map_append]
    exact ih docs' hdocs'
  | held _ ih => exact .held ih

theorem ne_nil (h : Meets x ds) : ds ≠ [] := by
  cases h <;> exact List.cons_ne_nil _ _

/-- There is no cursor in documents that are empty. -/
theorem exists_not_isEmpty (h : Meets x ds) : ∃ d ∈ ds, d.isEmpty = false := by
  induction h with
  | here ds => exact ⟨.cursor, List.mem_cons_self, rfl⟩
  | @opens d ds _ _ ih =>
    cases d with
    | text s =>
      obtain ⟨e, he, hempty⟩ := ih [] (List.mem_singleton_self _)
      exact ⟨e, List.mem_cons_of_mem _ he, hempty⟩
    | concat parts =>
      obtain ⟨e, he, hempty⟩ := ih parts (List.mem_singleton_self _)
      rcases List.mem_append.mp he with he | he
      · refine ⟨_, List.mem_cons_self, ?_⟩
        rw [Doc.isEmpty, Bool.eq_false_iff]
        intro hall
        rw [Doc.isEmpty_of_mem hall he] at hempty
        cases hempty
      · exact ⟨e, List.mem_cons_of_mem _ he, hempty⟩
    | _ => exact ⟨_, List.mem_cons_self, rfl⟩
  | held => exact ⟨_, List.mem_cons_self, rfl⟩

end Meets

/-- A text that one of the leaves meets is met. -/
theorem Lays.meets {β : Type} {keep : Char → Bool} {Aside : Doc → Prop} {ls : List (Leaf β)} {b : β}
    {e : Doc} (h : Lays keep Aside ls d) (hmem : .part b e ∈ ls) (he : Meets x [e]) :
    Meets x [d] := by
  induction h with
  | text s => simp [letters] at hmem
  | part b d =>
    cases List.mem_singleton.mp hmem
    exact he
  | aside | nil | line | breakParent | cursor => cases hmem
  | vanish _ hempty _ ih ih' =>
    rcases List.mem_append.mp hmem with hmem | hmem
    · obtain ⟨d, hd, hne⟩ := (ih hmem).exists_not_isEmpty
      rw [List.mem_singleton.mp hd, hempty] at hne
      cases hne
    · exact ih' hmem
  | cons _ _ ih ih' =>
    rcases List.mem_append.mp hmem with hmem | hmem
    · exact ((ih hmem).append _).concat
    · exact ((ih' hmem).of_concat.cons _).concat
  | group b id _ ih | indent _ ih => exact .of_parts [_] (by simp) rfl (by simpa using ih hmem)
  | conditional b id _ ih => exact .of_parts _ (by simp) rfl fun e he => ih e he hmem
  | choose id _ _ ih ih' =>
    exact .of_parts [_, _] (by simp) rfl (by simpa using ⟨ih hmem, ih' hmem⟩)

/-! ## The size of the output -/

/-- The size is that of the text written so far. -/
def Output.Sized (out : Output) : Prop := out.size = byteLength out.text

theorem Output.Sized.append {out : Output} (h : out.Sized) (cs : List Char) :
    (out.append cs).Sized := by
  have hsize : (out.append cs).size = out.size + byteLength cs := rfl
  rw [Sized, hsize, text_append, byteLength_append, h]

theorem byteLength_of_padding {cs : List Char} (h : ∀ c ∈ cs, isPadding c = true) :
    byteLength cs = cs.length := by
  induction cs with
  | nil => rfl
  | cons c cs ih =>
    obtain ⟨hc, hcs⟩ := List.forall_mem_cons.mp h
    have hsize : c.utf8Size = 1 := by
      rw [isPadding, Bool.or_eq_true, beq_iff_eq, beq_iff_eq] at hc
      rcases hc with rfl | rfl <;> rfl
    rw [byteLength_cons, ih hcs, hsize, List.length_cons, Nat.add_comm]

/-- Spaces and tabs are as many bytes as characters. -/
theorem Output.Sized.trim {out : Output} (h : out.Sized) : out.trim.Sized := by
  have hsize : out.trim.size = out.size - out.padding := rfl
  have hpadding : out.padding = byteLength (out.text.rtakeWhile isPadding) := by
    rw [byteLength_of_padding fun c hc => List.mem_rtakeWhile_imp hc, padding_eq]
  have hsplit : trimEnd out.text ++ out.text.rtakeWhile isPadding = out.text :=
    List.rdropWhile_append_rtakeWhile
  have hlength : byteLength out.text =
      byteLength (trimEnd out.text) + byteLength (out.text.rtakeWhile isPadding) := by
    rw [← byteLength_append, hsplit]
  rw [Sized, hsize, text_trim, h, hpadding]
  omega

namespace State

variable {settings : Settings} {fuel : Nat} {st st' : State} {c : Command}

/-! ## What a command does to output and cursors -/

/-- A command writes a text, or removes blanks before it does, or records a cursor. -/
inductive Types (st : State) (c : Command) (st' : State) : Prop
  | text (cs : List Char) : st'.out = st.out.append cs → st'.cursors = st.cursors → Types st c st'
  | trimmed (cs : List Char) : st'.out = st.trim.out.append cs → st'.cursors = st.trim.cursors →
      Types st c st'
  | cursor : c.item = .doc .cursor → st'.out = st.out → st'.cursors = st.cursors ++ [st.out.size] →
      Types st c st'

theorem append_nil (out : Output) : out.append [] = out := by
  simp [Output.append]

/-- A command that leaves output and cursors alone. -/
theorem types_of_eq (hout : st'.out = st.out) (hcursors : st'.cursors = st.cursors) :
    Types st c st' := .text [] (by rw [append_nil, hout]) hcursors

theorem types_perform (settings : Settings) (fuel : Nat) (st : State) (c : Command) :
    Types st c (st.perform settings fuel c) := by
  cases moves_perform settings fuel st c with
  | stay hout _ hcursors => exact types_of_eq hout hcursors
  | text s _ hout _ hcursors => exact .text _ hout hcursors
  | space hout _ hcursors | literal _ hout _ hcursors => exact .text _ hout hcursors
  | newline hout _ hcursors => exact .trimmed _ hout hcursors
  | trim _ hout _ hcursors => exact .trimmed [] (hout.trans (append_nil _).symm) hcursors
  | cursor hitem hout _ hcursors => exact .cursor hitem hout hcursors

theorem Types.sized (h : Types st c st') (hst : st.out.Sized) : st'.out.Sized := by
  cases h with
  | text cs hout _ =>
    rw [hout]
    exact hst.append cs
  | trimmed cs hout _ =>
    rw [hout]
    exact hst.trim.append cs
  | cursor _ hout _ => rwa [hout]

/-! ## After the text has been met -/

/-- The text stands in the output behind `before`, and the first two cursors stand around it. -/
structure Behind (before x : List Char) (st : State) : Prop where
  sized : st.out.Sized
  kept : before ++ x <+: st.out.text
  cursors : ∃ later, st.cursors = byteLength before :: byteLength (before ++ x) :: later

section Behind

variable {before x : List Char}

theorem Behind.text (h : Behind before x st) (cs : List Char) (hout : st'.out = st.out.append cs)
    (hcursors : st'.cursors = st.cursors) : Behind before x st' := by
  refine ⟨?_, ?_, hcursors ▸ h.cursors⟩
  · rw [hout]
    exact h.sized.append cs
  · rw [hout, Output.text_append]
    exact h.kept.trans (List.prefix_append _ _)

/-- Blanks are removed behind the text only. -/
theorem Behind.trim (h : Behind before x st) (hx : ∃ c ∈ x.getLast?, isPadding c = false) :
    Behind before x st.trim := by
  obtain ⟨c, hc, hpadding⟩ := hx
  have hkept : before ++ x <+: trimEnd st.out.text := by
    obtain ⟨after, hafter⟩ := h.kept
    rw [← hafter, trimEnd_append]
    split
    · have hlast : (before ++ x).getLast? = some c := by
        rw [List.getLast?_append, hc, Option.some_or]
      have hnone : trimEnd (before ++ x) = before ++ x := by
        refine List.rdropWhile_eq_self_iff.mpr fun hne => ?_
        rw [List.getLast?_eq_some_getLast hne, Option.some.injEq] at hlast
        rw [hlast, hpadding]
        exact Bool.false_ne_true
      exact hnone.symm ▸ List.prefix_rfl
    · exact List.prefix_append _ _
  obtain ⟨later, hcursors⟩ := h.cursors
  have hsize : byteLength (before ++ x) ≤ st.out.trim.size := by
    have hsized := h.sized.trim
    rw [Output.Sized, Output.text_trim] at hsized
    rw [hsized]
    obtain ⟨after, hafter⟩ := hkept
    rw [← hafter, byteLength_append (before ++ x)]
    exact Nat.le_add_right _ _
  refine ⟨h.sized.trim, ?_, later.map (min · st.out.trim.size), ?_⟩
  · rw [State.trim, Output.text_trim]
    exact hkept
  · have hle : byteLength before ≤ st.out.trim.size := by
      rw [byteLength_append] at hsize
      omega
    simp only [State.trim, hcursors, List.map_cons, min_eq_left hle, min_eq_left hsize]

theorem Behind.step (h : Behind before x st) (hx : ∃ c ∈ x.getLast?, isPadding c = false)
    (settings : Settings) (fuel : Nat) : Behind before x (st.step settings fuel) := by
  cases hc : st.commands with
  | nil => simpa [State.step, hc] using h
  | cons c rest =>
    rw [step_eq hc]
    have hrest : Behind before x { st with commands := rest } := ⟨h.sized, h.kept, h.cursors⟩
    have hperform : Behind before x (perform settings fuel { st with commands := rest } c) := by
      cases types_perform settings fuel { st with commands := rest } c with
      | text cs hout hcursors => exact hrest.text cs hout hcursors
      | trimmed cs hout hcursors => exact (hrest.trim hx).text cs hout hcursors
      | cursor _ hout hcursors =>
        obtain ⟨later, hlater⟩ := h.cursors
        refine ⟨by rw [hout]; exact h.sized, by rw [hout]; exact h.kept, later ++ [st.out.size], ?_⟩
        rw [hcursors]
        simp [hlater]
    exact ⟨by simpa using hperform.sized, by simpa using hperform.kept,
      by simpa using hperform.cursors⟩

theorem Behind.run (h : Behind before x st) (hx : ∃ c ∈ x.getLast?, isPadding c = false)
    (settings : Settings) (fuel : Nat) : Behind before x (st.run settings fuel) :=
  run_keeps (fun _ fuel h => h.step hx settings fuel) fuel h

end Behind

/-! ## Before the text is met -/

/-- No cursor has been recorded, and those that are left to print stand around the text. -/
structure Unmet (x : String) (st : State) : Prop where
  sized : st.out.Sized
  cursors : st.cursors = []
  commands : ∀ c ∈ st.commands, ∀ d ∈ c.item.docs, Tidy x d
  suffixes : ∀ c ∈ st.suffixes, ∀ d ∈ c.item.docs, Tidy x d

/-- The text is still to be met, and no cursor has been recorded. -/
structure Ahead (x : String) (st : State) : Prop extends Unmet x st where
  meets : Meets x st.docs

/-- What a command opens into is tidy, unless it is the marked text. -/
theorem tidy_of_mem_openings {item : Item} {docs : List Doc} (h : ∀ d ∈ item.docs, Tidy x d)
    (hne : item ≠ .doc (.marked x)) (hopen : docs ∈ item.openings) : ∀ d ∈ docs, Tidy x d := by
  intro d hd
  cases item with
  | fillRest parts =>
    rw [List.mem_singleton.mp hopen] at hd
    exact h d hd
  | doc e =>
    cases h e (List.mem_singleton_self e) with
    | marked => exact absurd rfl hne
    | intro _ below =>
      rcases Item.mem_children_of_mem_openings hopen hd with ⟨-, rfl⟩ | hd
      · exact .intro nofun nofun
      · exact below d hd

/-- The text is met in what a command opens into. -/
theorem meets_of_mem_openings {item : Item} {docs ds : List Doc} (h : Meets x (item.docs ++ ds))
    (htidy : ∀ d ∈ item.docs, Tidy x d) (hopen : docs ∈ item.openings) : Meets x (docs ++ ds) := by
  cases item with
  | fillRest parts =>
    rw [List.mem_singleton.mp hopen]
    exact h
  | doc d =>
    cases h with
    | here =>
      -- A bare cursor is not tidy.
      cases htidy .cursor (List.mem_singleton_self _) with
      | intro self _ => exact absurd rfl self
    | opens _ h => exact h docs hopen
    | held => cases hopen

/-- A command that is not the marked text records no cursor. -/
theorem Unmet.perform {rest : List Command} (h : Unmet x { st with commands := c :: rest })
    (hne : c.item ≠ .doc (.marked x)) (settings : Settings) (fuel : Nat) :
    Unmet x (State.perform settings fuel { st with commands := rest } c) := by
  obtain ⟨hsized, hcursors, hcommands, hsuffixes⟩ := h
  obtain ⟨htidy, hrest⟩ := List.forall_mem_cons.mp hcommands
  have htypes := types_perform settings fuel { st with commands := rest } c
  have hperforms := performs_perform settings fuel { st with commands := rest } c
  generalize State.perform settings fuel { st with commands := rest } c = st' at htypes hperforms ⊢
  have hcursors' : st'.cursors = [] := by
    cases htypes with
    | text cs _ h => rw [h, hcursors]
    | trimmed cs _ h => rw [h, State.trim, hcursors, List.map_nil]
    | cursor hitem _ _ =>
      -- A bare cursor is not tidy.
      have hbare : Tidy x .cursor := htidy .cursor (by simp [hitem, Item.docs])
      cases hbare with
      | intro self _ => exact absurd rfl self
  cases hperforms with
  | opened new hnew hs hopen _ _ =>
    refine ⟨htypes.sized hsized, hcursors', fun c' hc' d hd => ?_, by rwa [hs]⟩
    rw [hnew] at hc'
    rcases List.mem_append.mp hc' with hc' | hc'
    · exact tidy_of_mem_openings htidy hne hopen d (List.mem_flatMap.mpr ⟨c', hc', hd⟩)
    · exact hrest c' hc' d hd
  | deferred d hitem hc hs =>
    refine ⟨htypes.sized hsized, hcursors', by rwa [hc], fun c' hc' e he => ?_⟩
    rw [hs] at hc'
    rcases List.mem_append.mp hc' with hc' | hc'
    · exact hsuffixes c' hc' e he
    · rw [List.mem_singleton.mp hc'] at he
      rw [List.mem_singleton.mp he]
      have hsuffix : Tidy x (.lineSuffix d) := htidy (.lineSuffix d) (by simp [hitem, Item.docs])
      cases hsuffix with
      | intro _ below => exact below d (List.mem_singleton_self d)
  | released kind hitem _ hc hs =>
    refine ⟨htypes.sized hsized, hcursors', fun c' hc' d hd => ?_, by simp [hs]⟩
    rw [hc] at hc'
    rcases List.mem_append.mp hc' with hc' | hc'
    · exact hsuffixes c' hc' d hd
    · exact hcommands c' hc' d hd

theorem Unmet.settle (h : Unmet x st) : Unmet x st.settle := by
  unfold State.settle
  split
  · refine ⟨h.sized, h.cursors, fun c hc => ?_, by simp [release]⟩
    exact (List.mem_append.mp hc).elim (h.suffixes c) (h.commands c)
  · exact h

/-- A command that is not the marked text leaves the text to be met. -/
theorem Ahead.perform {rest : List Command} (h : Ahead x { st with commands := c :: rest })
    (hne : c.item ≠ .doc (.marked x)) (settings : Settings) (fuel : Nat) :
    Ahead x (State.perform settings fuel { st with commands := rest } c) := by
  refine ⟨h.toUnmet.perform hne settings fuel, ?_⟩
  have htidy := (List.forall_mem_cons.mp h.commands).1
  have hmeets : Meets x (c.item.docs ++ rest.flatMap (·.item.docs)) := h.meets
  cases performs_perform settings fuel { st with commands := rest } c with
  | opened new hnew _ hopen _ _ =>
    rw [docs, hnew, List.flatMap_append]
    exact meets_of_mem_openings hmeets htidy hopen
  | deferred d hitem hc _ =>
    rw [hitem] at hmeets
    rw [docs, hc]
    cases hmeets with
    | held h => exact h
    | opens hne _ => exact absurd rfl (hne d)
  | released _ _ _ hc _ =>
    rw [docs, hc, List.flatMap_append]
    exact hmeets.of_suffix _

theorem Ahead.commands_ne_nil (h : Ahead x st) : st.commands ≠ [] := fun hnone =>
  h.meets.ne_nil (by rw [docs, hnone]; rfl)

/-- The text is still left to print, so the suffixes are not released. -/
theorem Ahead.settle (h : Ahead x st) : st.settle = st := by
  rw [State.settle, if_neg]
  simpa using h.commands_ne_nil

/-- The marked text is printed in four steps. -/
theorem run_marked {i : Indentation} {m : Mode} {rest : List Command}
    (hc : st.commands = ⟨i, m, .doc (.marked x)⟩ :: rest) (settings : Settings) (fuel : Nat) :
    ∃ st' : State, st.run settings (fuel + 4) = st'.run settings fuel ∧
      st'.out = st.out.append x.toList ∧
      st'.cursors = st.cursors ++ [st.out.size, st.out.size + byteLength x.toList] := by
  refine ⟨State.settle { st.write x.toList with
    commands := rest
    cursors := st.cursors ++ [st.out.size, st.out.size + byteLength x.toList] }, ?_, ?_, ?_⟩
  · simp [run, step, hc, Doc.marked, printDoc, write, settle, Output.append]
  · rw [out_settle]
    rfl
  · rw [cursors_settle]

/-- What every command but the marked text keeps holds until the text is met, or to the end. -/
theorem Unmet.run {P : State → Prop} (hunmet : ∀ {st}, P st → Unmet x st)
    (hperform : ∀ {st : State} {c : Command} {rest : List Command},
      P { st with commands := c :: rest } → c.item ≠ .doc (.marked x) →
      ∀ fuel, P (State.perform settings fuel { st with commands := rest } c).settle)
    (hx : ∃ c ∈ x.toList.getLast?, isPadding c = false) (h : P st) (hwork : st.work ≤ fuel) :
    (P (st.run settings fuel) ∧ (st.run settings fuel).commands = []) ∨
      ∃ before, Behind before x.toList (st.run settings fuel) := by
  induction fuel generalizing st with
  | zero =>
    cases hc : st.commands with
    | nil => exact .inl ⟨h, hc⟩
    | cons c rest =>
      have hpos := c.item.one_le_work
      rw [work, hc, workOf_cons] at hwork
      omega
  | succ fuel ih =>
    cases hc : st.commands with
    | nil =>
      rw [run_of_commands_nil hc]
      exact .inl ⟨h, hc⟩
    | cons c rest =>
      obtain ⟨i, m, item⟩ := c
      by_cases hne : item = .doc (.marked x)
      · subst hne
        obtain ⟨fuel, rfl⟩ : ∃ n, fuel = n + 3 := by
          refine ⟨fuel - 3, ?_⟩
          have hfour : Item.work (.doc (.marked x)) = 4 := by
            simp [Item.work, Doc.marked, Doc.work, Doc.workAll]
          rw [work, hc, workOf_cons] at hwork
          dsimp only at hwork
          omega
        obtain ⟨st', heq, hout, hcursors⟩ := run_marked hc settings fuel
        have hbehind : Behind st.out.text x.toList st' := by
          have hsize : st.out.size = byteLength st.out.text := (hunmet h).sized
          refine ⟨?_, ?_, [], ?_⟩
          · rw [hout]
            exact (hunmet h).sized.append _
          · have htext : st'.out.text = st.out.text ++ x.toList := by rw [hout, Output.text_append]
            exact htext.symm ▸ List.prefix_rfl
          · rw [hcursors, (hunmet h).cursors, hsize, byteLength_append]
            rfl
        exact .inr ⟨st.out.text, heq ▸ hbehind.run hx settings fuel⟩
      · have hlt := work_step_lt settings (fuel + 2) (hc ▸ List.cons_ne_nil _ _)
        rw [State.run, if_neg (by simp [hc])]
        refine ih ?_ (by omega)
        have hst : { st with commands := ⟨i, m, item⟩ :: rest } = st := by rw [← hc]
        rw [step_eq hc]
        exact hperform (hst.symm ▸ h) hne (fuel + 2)

/-- **The text is met in the end.** -/
theorem Ahead.run (h : Ahead x st) (hx : ∃ c ∈ x.toList.getLast?, isPadding c = false)
    (settings : Settings) (hwork : st.work ≤ fuel) :
    ∃ before, Behind before x.toList (st.run settings fuel) := by
  have hperform : ∀ {st : State} {c : Command} {rest : List Command},
      Ahead x { st with commands := c :: rest } → c.item ≠ .doc (.marked x) →
      ∀ fuel, Ahead x (State.perform settings fuel { st with commands := rest } c).settle := by
    intro st c rest h hne fuel
    have hnext := h.perform hne settings fuel
    rwa [hnext.settle]
  exact (Unmet.run (·.toUnmet) hperform hx h hwork).resolve_left fun ⟨h, hnone⟩ =>
    h.commands_ne_nil hnone

/-- **The first two cursors stand around the text, or there are none**, if cursors stand around the text
only. -/
theorem Unmet.run_cursors (h : Unmet x st) (hx : ∃ c ∈ x.toList.getLast?, isPadding c = false)
    (settings : Settings) (hwork : st.work ≤ fuel) :
    (st.run settings fuel).cursors = [] ∨ ∃ before, Behind before x.toList (st.run settings fuel) :=
  (Unmet.run id (fun h hne fuel => (h.perform hne settings fuel).settle) hx h hwork).imp_left
    fun h => h.1.cursors

theorem unmet_start {d : Doc} (htidy : Tidy x d) : Unmet x (start d) := by
  refine ⟨rfl, rfl, fun c hc e he => ?_, by simp [start]⟩
  rw [List.mem_singleton.mp hc] at he
  rwa [List.mem_singleton.mp he]

end State

/-! ## Layouts -/

/-- **The first two cursors stand around the text**, if the text is met in every layout. -/
theorem cursor_of_meets (settings : Settings) (htidy : Tidy x d) (hmeets : Meets x [d])
    (hx : ∃ c ∈ x.toList.getLast?, isPadding c = false) :
    ∃ before after, (print settings d).formatted.toList = before ++ x.toList ++ after ∧
      (print settings d).cursor = some (byteLength before) ∧
      (print settings d).cursorEnd = some (byteLength (before ++ x.toList)) := by
  have hstart : State.Ahead x (.start d.propagateBreaks) :=
    ⟨State.unmet_start htidy.propagateBreaks, hmeets.propagateBreaks⟩
  have hwork : (State.start d.propagateBreaks).work ≤ d.propagateBreaks.work := by
    simp [State.work, State.start, Item.work]
  obtain ⟨before, hbehind⟩ := hstart.run hx settings hwork
  obtain ⟨-, ⟨after, hafter⟩, later, hcursors⟩ := hbehind.trim hx
  refine ⟨before, after, ?_, ?_, ?_⟩
  · rw [hafter]
    simp [print, State.finish, Output.toString, Output.text]
  · simp only [print, State.finish, hcursors]
    rfl
  · simp only [print, State.finish, hcursors]
    rfl

end Layout

end CodeFormatter
