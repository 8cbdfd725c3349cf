import CodeFormatter.Proofs.Layout.Conservation

/-!
# Which texts are written

A layout makes all the choices that a document leaves open: a side of each `ifBreak`, a state of each
conditional group. What is left of the document then is a list of texts. `Selects` says which lists
this can be, without any measuring, so that what holds of all of them holds on every page.

**Theorem (`exists_selects_texts`).** The texts outside of line suffixes are written in the order of
one such list.

**Theorem (`exists_filter_formatted`).** In a plain document, which has no line suffixes and no
alignments, nothing else is written but blanks.

**Theorem (`infix_formatted`).** Each text that is written is in the output, but for spaces and tabs
at its end: those may end a line.
-/

namespace CodeFormatter

/-! ## Plain documents -/

namespace Doc

mutual

/-- Is the document free of line suffixes and alignments? -/
def isPlain : Doc → Bool
  | .lineSuffix _ | .align _ _ => false
  | .concat parts | .fill parts => allPlain parts
  | .group contents _ _ | .indent contents => isPlain contents
  | .conditionalGroup contents states _ _ => isPlain contents && allPlain states
  | .ifBreak broken flat _ => isPlain broken && isPlain flat
  | .text _ | .line _ | .lineSuffixBoundary | .breakParent | .trim | .cursor => true

def allPlain : List Doc → Bool
  | [] => true
  | d :: rest => isPlain d && allPlain rest

end

theorem allPlain_eq (parts : List Doc) : allPlain parts = parts.all isPlain := by
  induction parts with
  | nil => rfl
  | cons d rest ih => rw [allPlain, ih, List.all_cons]

theorem isPlain_of_mem_children {d e : Doc} (hd : d.isPlain = true) (he : e ∈ d.children) :
    e.isPlain = true := by
  cases d with
  | concat parts | fill parts =>
    rw [isPlain, allPlain_eq, List.all_eq_true] at hd
    exact hd e he
  | group contents _ _ | indent contents => rwa [List.mem_singleton.mp he]
  | conditionalGroup contents states _ _ =>
    simp only [isPlain, allPlain_eq, Bool.and_eq_true, List.all_eq_true] at hd
    rcases List.mem_cons.mp he with rfl | he
    · exact hd.1
    · exact hd.2 e he
  | ifBreak broken flat _ =>
    rw [isPlain, Bool.and_eq_true] at hd
    rcases List.mem_pair.mp he with rfl | rfl
    · exact hd.1
    · exact hd.2
  | lineSuffix | align => cases hd
  | text | line | lineSuffixBoundary | breakParent | trim | cursor => cases he

theorem isPlain_propagateBreaks (d : Doc) : d.propagateBreaks.isPlain = d.isPlain := by
  have hall : ∀ parts : List Doc, (∀ d ∈ parts, d.propagateBreaks.isPlain = d.isPlain) →
      allPlain (parts.map propagateBreaks) = allPlain parts := by
    intro parts ih
    rw [allPlain_eq, allPlain_eq, List.all_map, Bool.eq_iff_iff, List.all_eq_true,
      List.all_eq_true]
    exact forall₂_congr fun d hd => by rw [Function.comp_apply, ih d hd]
  induction d using Doc.induction with
  | concat parts ih => simpa [isPlain] using hall parts ih
  | fill parts ih => simpa [isPlain] using hall parts ih
  | group _ _ _ ih => simpa [isPlain] using ih
  | conditionalGroup contents states _ _ ih ihs =>
    rw [propagateBreaks_conditionalGroup, isPlain, isPlain, ih, hall states ihs]
  | indent _ ih => simpa [isPlain] using ih
  | ifBreak _ _ _ ihb ihf => rw [propagateBreaks_ifBreak, isPlain, isPlain, ihb, ihf]
  | align => rw [propagateBreaks_align, isPlain, isPlain]
  | text | line | lineSuffix | lineSuffixBoundary | breakParent | trim | cursor => rfl

theorem hasSuffix_of_isPlain {d : Doc} (hd : d.isPlain = true) : d.hasSuffix = false := by
  have hall : ∀ parts : List Doc, (∀ d ∈ parts, d.isPlain = true → d.hasSuffix = false) →
      allPlain parts = true → anyHasSuffix parts = false := by
    intro parts ih hparts
    rw [allPlain_eq, List.all_eq_true] at hparts
    rw [anyHasSuffix_eq, List.any_eq_false]
    intro d hd
    simp [ih d hd (hparts d hd)]
  induction d using Doc.induction with
  | concat parts ih => exact hall parts ih hd
  | fill parts ih => exact hall parts ih hd
  | group _ _ _ ih => exact ih hd
  | conditionalGroup contents states _ _ ih ihs =>
    rw [isPlain, Bool.and_eq_true] at hd
    rw [hasSuffix, ih hd.1, hall states ihs hd.2, Bool.or_self]
  | indent _ ih => exact ih hd
  | ifBreak _ _ _ ihb ihf =>
    rw [isPlain, Bool.and_eq_true] at hd
    rw [hasSuffix, ihb hd.1, ihf hd.2, Bool.or_self]
  | align | lineSuffix => cases hd
  | text | line | lineSuffixBoundary | breakParent | trim | cursor => rfl

/-- The texts that a document writes itself. -/
def ownTexts : Doc → List String
  | .text s => [s]
  | _ => []

end Doc

/-! ## Choices -/

namespace Layout

/-- The texts of some documents, in order, when all choices have been made. What is in line suffixes
is left out. -/
inductive Selects : List Doc → List String → Prop
  | nil : Selects [] []
  | opens {d : Doc} {docs ds : List Doc} {ts : List String} : docs ∈ (Item.doc d).openings →
      Selects (docs ++ ds) ts → Selects (d :: ds) (d.ownTexts ++ ts)
  | held {d : Doc} {ds : List Doc} {ts : List String} : Selects ds ts →
      Selects (.lineSuffix d :: ds) ts

namespace Selects

variable {d : Doc} {ds ds' parts : List Doc} {ts : List String}

theorem of_append (h : Selects (ds ++ ds') ts) :
    ∃ ts₁ ts₂, ts = ts₁ ++ ts₂ ∧ Selects ds ts₁ ∧ Selects ds' ts₂ := by
  generalize hall : ds ++ ds' = all at h
  induction h generalizing ds with
  | nil =>
    obtain ⟨rfl, rfl⟩ := List.append_eq_nil_iff.mp hall
    exact ⟨[], [], rfl, .nil, .nil⟩
  | @opens d docs rest ts hopen hrest ih =>
    cases ds with
    | nil =>
      obtain rfl : ds' = d :: rest := hall
      exact ⟨[], _, rfl, .nil, .opens hopen hrest⟩
    | cons e ds =>
      obtain ⟨rfl, rfl⟩ := List.cons.inj hall
      obtain ⟨ts₁, ts₂, rfl, h₁, h₂⟩ := ih (List.append_assoc docs ds ds')
      exact ⟨_, ts₂, (List.append_assoc ..).symm, .opens hopen h₁, h₂⟩
  | @held d rest ts hrest ih =>
    cases ds with
    | nil =>
      obtain rfl : ds' = .lineSuffix d :: rest := hall
      exact ⟨[], _, rfl, .nil, .held hrest⟩
    | cons e ds =>
      obtain ⟨rfl, rfl⟩ := List.cons.inj hall
      obtain ⟨ts₁, ts₂, rfl, h₁, h₂⟩ := ih rfl
      exact ⟨_, ts₂, rfl, .held h₁, h₂⟩

theorem append {ts' : List String} (h : Selects ds ts) (h' : Selects ds' ts') :
    Selects (ds ++ ds') (ts ++ ts') := by
  induction h with
  | nil => exact h'
  | opens hopen _ ih =>
    rw [List.append_assoc, List.cons_append]
    refine .opens hopen ?_
    rwa [← List.append_assoc]
  | held _ ih => exact .held ih

theorem of_cons (h : Selects (d :: ds) ts) :
    ∃ ts₁ ts₂, ts = ts₁ ++ ts₂ ∧ Selects [d] ts₁ ∧ Selects ds ts₂ := by
  rw [← List.singleton_append] at h
  exact h.of_append

theorem eq_nil (h : Selects [] ts) : ts = [] := by
  cases h
  rfl

/-- A document that is no line suffix writes its own texts and what it opens into. -/
theorem exists_opening (h : Selects [d] ts) (hd : ∀ e, d ≠ .lineSuffix e) :
    ∃ docs ∈ (Item.doc d).openings, ∃ ts', ts = d.ownTexts ++ ts' ∧ Selects docs ts' := by
  cases h with
  | opens hopen h =>
    rw [List.append_nil] at h
    exact ⟨_, hopen, _, rfl, h⟩
  | held => exact absurd rfl (hd _)

/-- Marking groups leaves what a document opens into. -/
theorem exists_of_mem_openings_propagateBreaks {docs : List Doc}
    (hopen : docs ∈ (Item.doc d.propagateBreaks).openings) :
    ∃ docs' ∈ (Item.doc d).openings, docs = docs'.map Doc.propagateBreaks := by
  cases d with
  | conditionalGroup contents states b id =>
    rw [Doc.propagateBreaks_conditionalGroup] at hopen
    simp only [Item.openings, ← List.map_cons, List.mem_map] at hopen
    obtain ⟨_, ⟨state, hstate, rfl⟩, rfl⟩ := hopen
    exact ⟨[state], List.mem_map_of_mem hstate, rfl⟩
  | ifBreak broken flat id =>
    rw [Doc.propagateBreaks_ifBreak] at hopen
    rcases List.mem_pair.mp hopen with rfl | rfl
    · exact ⟨[broken], by simp [Item.openings], rfl⟩
    · exact ⟨[flat], by simp [Item.openings], rfl⟩
  | lineSuffixBoundary =>
    rcases List.mem_pair.mp hopen with rfl | rfl
    · exact ⟨[], by simp [Item.openings], rfl⟩
    · exact ⟨[.line .hard], by simp [Item.openings], rfl⟩
  | lineSuffix => simp [Item.openings] at hopen
  | text | line | breakParent | trim | cursor =>
    rw [List.mem_singleton.mp hopen]
    exact ⟨[], by simp [Item.openings], rfl⟩
  | concat | fill | group | indent | align =>
    simp only [Doc.propagateBreaks_concat, Doc.propagateBreaks_fill, Doc.propagateBreaks_group,
      Doc.propagateBreaks_indent, Doc.propagateBreaks_align, Item.openings,
      List.mem_singleton] at hopen
    exact ⟨_, List.mem_singleton_self _, hopen⟩

/-- Documents whose groups are marked make the same choices. -/
theorem of_propagateBreaks (h : Selects (ds.map Doc.propagateBreaks) ts) : Selects ds ts := by
  generalize hall : ds.map Doc.propagateBreaks = all at h
  induction h generalizing ds with
  | nil =>
    rw [List.map_eq_nil_iff.mp hall]
    exact .nil
  | @opens d docs rest ts hopen hrest ih =>
    obtain ⟨e, ds, rfl, rfl, rfl⟩ := List.map_eq_cons_iff.mp hall
    obtain ⟨docs', hopen', rfl⟩ := exists_of_mem_openings_propagateBreaks hopen
    have hown : e.propagateBreaks.ownTexts = e.ownTexts := by
      cases e <;> simp [Doc.ownTexts]
    rw [hown]
    exact .opens hopen' (ih (List.map_append ..))
  | @held d rest ts hrest ih =>
    obtain ⟨e, ds, rfl, he, rfl⟩ := List.map_eq_cons_iff.mp hall
    cases e <;> simp at he
    exact .held (ih rfl)

end Selects

/-! ## Written texts -/

/-- The texts among some pieces. -/
def textsOf (pieces : List Piece) : List String :=
  pieces.filterMap fun
    | .text cs => some (String.ofList cs)
    | _ => none

@[simp] theorem textsOf_append (ps qs : List Piece) :
    textsOf (ps ++ qs) = textsOf ps ++ textsOf qs := List.filterMap_append

theorem textsOf_subset {ps qs : List Piece} (h : ps ⊆ qs) : textsOf ps ⊆ textsOf qs :=
  List.filterMap_subset _ h

/-- The texts that an item writes itself. -/
def Item.ownTexts : Item → List String
  | .doc d => d.ownTexts
  | .fillRest _ => []

namespace State

variable {settings : Settings} {fuel : Nat} {st st' : State} {c : Command} {rest : List Command}

/-- The documents that are left to print. -/
def docs (st : State) : List Doc := st.commands.flatMap (·.item.docs)

theorem textsOf_writes (settings : Settings) (fuel : Nat) (hc : st.commands = c :: rest) :
    textsOf (st.writes settings fuel) = c.item.ownTexts := by
  obtain ⟨i, m, item⟩ := c
  rw [writes, hc]
  cases item with
  | fillRest parts => rfl
  | doc d =>
    cases d with
    | text s => simp [textsOf, Item.ownTexts, Doc.ownTexts]
    | line kind =>
      dsimp only
      split
      · cases m <;> cases kind <;> rfl
      · rfl
    | group contents shouldBreak id =>
      cases m with
      | flat => rfl
      | broken =>
        dsimp only
        split <;> rfl
    | trim | concat | conditionalGroup | indent | align | fill | ifBreak | lineSuffix
    | lineSuffixBoundary | breakParent | cursor => rfl

/-- What an item writes and opens into. -/
theorem selects_of_mem_openings {item : Item} {docs ds : List Doc} {ts : List String}
    (hopen : docs ∈ item.openings) (h : Selects (docs ++ ds) ts) :
    Selects (item.docs ++ ds) (item.ownTexts ++ ts) := by
  cases item with
  | doc d => exact .opens hopen h
  | fillRest parts =>
    rw [List.mem_singleton.mp hopen] at h
    exact h

/-- All that is left is plain, and nothing waits. -/
structure Plain (settings : Settings) (st : State) : Prop where
  docs : ∀ c ∈ st.commands, ∀ d ∈ c.item.docs, d.isPlain = true
  indentation : ∀ c ∈ st.commands, c.indentation.Built settings IndentPart.Blank
  suffixes : st.suffixes = []

theorem docs_settle (st : State) (h : st.suffixes = []) : st.settle.docs = st.docs := by
  rw [settle_of_suffixes_nil h]

/-- What is released in the end comes in addition. -/
theorem exists_selects_settle {ts : List String} (h : Selects st.settle.docs ts) :
    ∃ ts', Selects st.docs ts' ∧ ts'.Sublist ts ∧ (st.suffixes = [] → ts' = ts) := by
  by_cases hs : st.suffixes = []
  · exact ⟨ts, docs_settle st hs ▸ h, List.Sublist.refl _, fun _ => rfl⟩
  · unfold settle at h
    split at h
    · rename_i hc
      refine ⟨[], ?_, List.nil_sublist _, fun h => absurd h hs⟩
      rw [docs, List.isEmpty_iff.mp hc]
      exact .nil
    · exact ⟨ts, h, List.Sublist.refl _, fun _ => rfl⟩

namespace Performs

/-- A command writes its texts, and goes on with what it opens into. -/
theorem exists_selects (hp : Performs settings st c st') {ts : List String}
    (h : Selects st'.docs ts) :
    ∃ ts', Selects (c.item.docs ++ st.docs) (c.item.ownTexts ++ ts') ∧ ts'.Sublist ts ∧
      ((∀ d ∈ c.item.docs, d.isPlain = true) → st.suffixes = [] → ts' = ts) := by
  cases hp with
  | opened new hc _ hopen _ _ =>
    rw [docs, hc, List.flatMap_append] at h
    exact ⟨ts, selects_of_mem_openings hopen h, List.Sublist.refl _, fun _ _ => rfl⟩
  | deferred d hitem hc _ =>
    rw [docs, hc] at h
    refine ⟨ts, ?_, List.Sublist.refl _, fun hplain => ?_⟩
    · rw [hitem]
      exact .held h
    · have := hplain (.lineSuffix d) (by simp [hitem, Item.docs])
      cases this
  | released kind hitem hne hc _ =>
    rw [docs, hc, List.flatMap_append] at h
    obtain ⟨ts₁, ts₂, rfl, -, h₂⟩ := h.of_append
    refine ⟨ts₂, ?_, List.sublist_append_right _ _, fun _ hs => absurd hs hne⟩
    have hown : c.item.ownTexts = [] := by rw [hitem]; rfl
    rw [hown]
    exact h₂

theorem plain (hp : Performs settings st c st')
    (h : State.Plain settings { st with commands := c :: st.commands }) :
    st'.Plain settings := by
  have hc : ∀ d ∈ c.item.docs, d.isPlain = true := h.docs c List.mem_cons_self
  have hscope : (c.scope settings).Built settings IndentPart.Blank := by
    have hi : c.indentation.Built settings IndentPart.Blank := h.indentation c List.mem_cons_self
    unfold Command.scope
    split
    · exact hi.indent trivial
    · rename_i alignment contents hitem
      have := hc (.align alignment contents) (by simp [hitem, Item.docs])
      cases this
    · exact hi
  cases hp with
  | opened new hc' hs' hopen hi _ =>
    refine ⟨fun c' hmem d hd => ?_, fun c' hmem => ?_, hs'.trans h.suffixes⟩ <;>
      rw [hc', List.mem_append] at hmem
    · rcases hmem with hmem | hmem
      · rcases Item.mem_of_mem_openings hopen (List.mem_flatMap.mpr ⟨c', hmem, hd⟩) with
          rfl | hd | ⟨e, he, hd⟩
        · rfl
        · exact hc d hd
        · exact Doc.isPlain_of_mem_children (hc e he) hd
      · exact h.docs c' (List.mem_cons_of_mem _ hmem) d hd
    · rcases hmem with hmem | hmem
      · rw [hi c' hmem]
        exact hscope
      · exact h.indentation c' (List.mem_cons_of_mem _ hmem)
  | deferred d hitem _ _ =>
    have := hc (.lineSuffix d) (by simp [hitem, Item.docs])
    cases this
  | released _ _ hne _ _ => exact absurd h.suffixes hne

end Performs

/-- The step of a plain state needs no settling. -/
theorem Plain.perform (h : st.Plain settings) (fuel : Nat) (hc : st.commands = c :: rest) :
    (State.perform settings fuel { st with commands := rest } c).Plain settings := by
  refine (performs_perform settings fuel { st with commands := rest } c).plain ?_
  dsimp only
  rw [← hc]
  exact h

theorem Plain.step (h : st.Plain settings) (fuel : Nat) (hne : st.commands ≠ []) :
    (st.step settings fuel).Plain settings := by
  obtain ⟨c, rest, hc⟩ := List.exists_cons_of_ne_nil hne
  have hplain := h.perform fuel hc
  rw [step_eq hc, settle_of_suffixes_nil hplain.suffixes]
  exact hplain

/-- **A run makes all choices.** -/
theorem exists_selects_trace (settings : Settings) {fuel : Nat} (hf : st.work ≤ fuel)
    (hs : st.commands = [] → st.suffixes = []) :
    ∃ ts, Selects st.docs ts ∧ ts.Sublist (textsOf (st.trace settings fuel)) ∧
      (st.Plain settings → ts = textsOf (st.trace settings fuel)) := by
  induction fuel generalizing st with
  | zero =>
    have hc : st.commands = [] := by
      have hfinished := (run_finishes settings hf hs).1
      rwa [run] at hfinished
    refine ⟨[], ?_, List.nil_sublist _, fun _ => rfl⟩
    rw [docs, hc]
    exact .nil
  | succ fuel ih =>
    rw [trace]
    split
    · rename_i hc
      refine ⟨[], ?_, List.nil_sublist _, fun _ => rfl⟩
      rw [docs, List.isEmpty_iff.mp hc]
      exact .nil
    · rename_i hc
      have hne : st.commands ≠ [] := by simpa using hc
      have hlt := work_step_lt settings (fuel + 2) hne
      obtain ⟨ts, hts, hsub, heq⟩ := ih (by omega) (suffixes_step settings (fuel + 2) hne)
      obtain ⟨c, rest, hc⟩ := List.exists_cons_of_ne_nil hne
      have hdocs : st.docs = c.item.docs ++ State.docs { st with commands := rest } := by
        rw [docs, hc, List.flatMap_cons, docs]
      rw [step_eq hc] at hts
      obtain ⟨ts₁, hts₁, hsub₁, heq₁⟩ := exists_selects_settle hts
      obtain ⟨ts₂, hts₂, hsub₂, heq₂⟩ :=
        (performs_perform settings (fuel + 2) { st with commands := rest } c).exists_selects hts₁
      rw [textsOf_append, textsOf_writes settings _ hc, hdocs]
      refine ⟨_, hts₂, (hsub₂.trans (hsub₁.trans hsub)).append_left _, fun h => ?_⟩
      rw [heq₂ (h.docs c (by simp [hc])) h.suffixes, heq₁ (h.perform _ hc).suffixes,
        heq (h.step _ hne)]

end State

/-! ## What else is written -/

/-- If the piece starts a line, the line starts with a blank. -/
def Piece.Faint : Piece → Prop
  | .newline _ indentation => ∀ c ∈ indentation, isPadding c = true
  | _ => True

namespace State

variable {settings : Settings} {st : State}

theorem faint_writes (h : ∀ c ∈ st.commands, c.indentation.Built settings IndentPart.Blank)
    (fuel : Nat) : ∀ p ∈ st.writes settings fuel, p.Faint := by
  intro p hp
  unfold writes at hp
  split at hp
  · rw [List.mem_singleton.mp hp]
    exact trivial
  · rename_i i m kind rest hc
    have hi : i.Built settings IndentPart.Blank := h _ (by rw [hc]; exact List.mem_cons_self)
    have hbreak : (breakPiece i kind).Faint := by
      cases kind with
      | literal => exact hi.getD_root.isPadding_of_mem fun _ hs => hs
      | soft | normal | hard => exact hi.isPadding_of_mem fun _ hs => hs
    split at hp
    · rw [List.mem_singleton.mp hp]
      cases m with
      | broken => exact hbreak
      | flat =>
        cases kind with
        | soft | normal => exact trivial
        | hard | literal => exact hbreak
    · cases hp
  · dsimp only at hp
    split at hp
    · rw [List.mem_singleton.mp hp]
      exact trivial
    · cases hp
  · rw [List.mem_singleton.mp hp]
    exact trivial
  · cases hp

theorem Plain.faint_trace (h : st.Plain settings) (fuel : Nat) :
    ∀ p ∈ st.trace settings fuel, p.Faint :=
  forall_mem_trace (fun _ fuel hne h => h.step fuel hne)
    (fun _ fuel _ h => faint_writes h.indentation fuel) fuel h

theorem plain_start (settings : Settings) {d : Doc} (hd : d.isPlain = true) :
    (start d.propagateBreaks).Plain settings := by
  refine ⟨fun c hc e he => ?_, fun c hc => ?_, rfl⟩
  · rw [List.mem_singleton.mp hc] at he
    rw [List.mem_singleton.mp he, Doc.isPlain_propagateBreaks, hd]
  · rw [List.mem_singleton.mp hc]
    exact Indentation.built_none

end State

section Filter

variable {keep : Char → Bool} {newline : List Char}

theorem filter_trimEnd (hpad : ∀ c, isPadding c = true → keep c = false) (cs : List Char) :
    (trimEnd cs).filter keep = cs.filter keep := by
  have hsplit : trimEnd cs ++ cs.rtakeWhile isPadding = cs := List.rdropWhile_append_rtakeWhile
  have hblank : (cs.rtakeWhile isPadding).filter keep = [] := by
    refine List.filter_eq_nil_iff.mpr fun c hc => ?_
    rw [hpad c (List.mem_rtakeWhile_imp hc)]
    exact Bool.false_ne_true
  calc (trimEnd cs).filter keep = (trimEnd cs ++ cs.rtakeWhile isPadding).filter keep := by
        rw [List.filter_append, hblank, List.append_nil]
    _ = cs.filter keep := by rw [hsplit]

/-- When blanks are left out, a piece writes its text. -/
theorem filter_write (hpad : ∀ c, isPadding c = true → keep c = false)
    (hn : newline.filter keep = []) {p : Piece} (hp : p.Faint) (out : List Char) :
    (p.write newline out).filter keep =
      out.filter keep ++ (textsOf [p]).flatMap (·.toList.filter keep) := by
  cases p with
  | text cs => simp [Piece.write, textsOf]
  | flatLine kind =>
    have hflat : kind.flatText.filter keep = [] := by
      cases kind with
      | normal => simp [LineKind.flatText, hpad ' ' rfl]
      | soft | hard | literal => rfl
    simp [Piece.write, textsOf, hflat]
  | fitted => simp [Piece.write, textsOf]
  | newline trims indentation =>
    have hindent : indentation.filter keep = [] :=
      List.filter_eq_nil_iff.mpr fun c hc => by rw [hpad c (hp c hc)]; exact Bool.false_ne_true
    cases trims <;> simp [Piece.write, textsOf, hn, hindent, filter_trimEnd hpad]
  | trim => simp [Piece.write, textsOf, filter_trimEnd hpad]

theorem filter_writeAll (hpad : ∀ c, isPadding c = true → keep c = false)
    (hn : newline.filter keep = []) {pieces : List Piece} (hp : ∀ p ∈ pieces, p.Faint)
    (out : List Char) :
    (writeAll newline out pieces).filter keep =
      out.filter keep ++ (textsOf pieces).flatMap (·.toList.filter keep) := by
  induction pieces generalizing out with
  | nil => simp [textsOf]
  | cons p rest ih =>
    rw [writeAll_cons, ih (fun q hq => hp q (List.mem_cons_of_mem p hq)),
      filter_write hpad hn (hp p List.mem_cons_self), List.append_assoc, ← List.flatMap_append,
      ← textsOf_append, List.singleton_append]

end Filter

/-! ## Whole layouts -/

/-- **A layout makes all choices.** -/
theorem exists_selects_texts (settings : Settings) (d : Doc) :
    ∃ ts, Selects [d] ts ∧ ts.Sublist (textsOf (traceOf settings d)) ∧
      (d.isPlain = true → ts = textsOf (traceOf settings d)) := by
  have hwork : (State.start d.propagateBreaks).work ≤ d.propagateBreaks.work := by
    simp [State.work, State.start, Item.work]
  obtain ⟨ts, hts, hsub, heq⟩ :=
    State.exists_selects_trace settings hwork (by simp [State.start])
  exact ⟨ts, .of_propagateBreaks hts, hsub, fun hd => heq (State.plain_start settings hd)⟩

/-- **Nothing else is written but blanks.** A plain document is laid out as one of its selections,
when characters are left out among which are the blanks. -/
theorem exists_filter_formatted (settings : Settings) {d : Doc} (hd : d.isPlain = true)
    {keep : Char → Bool} (hpad : ∀ c, isPadding c = true → keep c = false)
    (hn : settings.newline.toList.filter keep = []) :
    ∃ ts, Selects [d] ts ∧
      (print settings d).formatted.toList.filter keep = ts.flatMap (·.toList.filter keep) := by
  obtain ⟨ts, hts, -, heq⟩ := exists_selects_texts settings d
  refine ⟨ts, hts, ?_⟩
  have hfaint : ∀ p ∈ traceOf settings d, p.Faint :=
    (State.plain_start settings hd).faint_trace d.propagateBreaks.work
  rw [formatted_eq_assemble, String.toList_ofList, assemble, filter_trimEnd hpad,
    filter_writeAll hpad hn hfaint, heq hd]
  rfl

/-! ## Texts in the output -/

theorem trimEnd_append (as bs : List Char) :
    trimEnd (as ++ bs) = if trimEnd bs = [] then trimEnd as else as ++ trimEnd bs := by
  simp only [trimEnd, List.rdropWhile, List.reverse_append, List.dropWhile_append,
    List.reverse_eq_nil_iff, List.isEmpty_iff]
  split <;> simp

theorem trimEnd_trimEnd (cs : List Char) : trimEnd (trimEnd cs) = trimEnd cs :=
  List.rdropWhile_idempotent _ _

theorem isPrefix_trimEnd (cs : List Char) : trimEnd cs <+: cs := List.rdropWhile_prefix _ _

/-- What is inside a text is left of it, but for spaces and tabs at the end. -/
theorem isInfix_trimEnd {cs out : List Char} (h : cs <:+: out) : trimEnd cs <:+: trimEnd out := by
  obtain ⟨before, after, rfl⟩ := h
  rw [trimEnd_append]
  split
  · rw [trimEnd_append]
    split
    · rename_i hcs
      rw [hcs]
      exact List.nil_infix
    · exact (List.suffix_append _ _).isInfix
  · exact (isPrefix_trimEnd cs).isInfix.trans ⟨before, trimEnd after, rfl⟩

theorem infix_write {cs out : List Char} (h : trimEnd cs <:+: out) (newline : List Char)
    (p : Piece) : trimEnd cs <:+: p.write newline out := by
  have htrim : trimEnd cs <:+: trimEnd out := by
    have hinfix := isInfix_trimEnd h
    rwa [trimEnd_trimEnd] at hinfix
  cases p with
  | text s => exact h.trans (List.prefix_append out s).isInfix
  | flatLine kind => exact h.trans (List.prefix_append out _).isInfix
  | fitted => exact h
  | newline trims indentation =>
    rw [Piece.write, List.append_assoc]
    cases trims with
    | false => exact h.trans (List.prefix_append _ _).isInfix
    | true => exact htrim.trans (List.prefix_append _ _).isInfix
  | trim => exact htrim

theorem infix_writeAll {cs : List Char} (newline : List Char) (pieces : List Piece)
    (out : List Char) (h : trimEnd cs <:+: out ∨ String.ofList cs ∈ textsOf pieces) :
    trimEnd cs <:+: writeAll newline out pieces := by
  induction pieces generalizing out with
  | nil => exact h.resolve_right (by simp [textsOf])
  | cons p rest ih =>
    rw [writeAll_cons]
    refine ih _ ?_
    rw [← List.singleton_append, textsOf_append, List.mem_append, ← or_assoc] at h
    refine h.imp_left fun h => ?_
    rcases h with h | h
    · exact infix_write h newline p
    · cases p with
      | text s =>
        have hs : String.ofList cs = String.ofList s := by simpa [textsOf] using h
        have hs : cs = s := String.ofList_inj.mp hs
        rw [hs]
        exact (isPrefix_trimEnd s).isInfix.trans (List.suffix_append out s).isInfix
      | flatLine | fitted | newline | trim => simp [textsOf] at h

/-- **A text that is written is in the output**, but for spaces and tabs at its end. -/
theorem infix_formatted (settings : Settings) (d : Doc) {s : String}
    (hs : s ∈ textsOf (traceOf settings d)) :
    trimEnd s.toList <:+: (print settings d).formatted.toList := by
  rw [formatted_eq_assemble, String.toList_ofList, assemble]
  have hinfix : trimEnd s.toList <:+: writeAll settings.newline.toList [] (traceOf settings d) :=
    infix_writeAll _ _ _ (.inr (by rwa [String.ofList_toList]))
  have htrim := isInfix_trimEnd hinfix
  rwa [trimEnd_trimEnd] at htrim

end Layout

end CodeFormatter
