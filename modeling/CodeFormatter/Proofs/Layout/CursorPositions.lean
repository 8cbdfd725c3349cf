import CodeFormatter.Proofs.Layout.Cursor
import CodeFormatter.Proofs.Layout.Loop
import CodeFormatter.Proofs.Text.Slice

/-!
# Cursors are positions of the output

Whatever the document, the layout records the cursors from left to right, and each of them at a place where
the output can be cut: when blanks are removed at the end of the output, a cursor among them moves to the
place where the output ends then (`State.Placed`).

**Theorem (`exists_of_cursor`).** If cursors stand in pairs, one before a document and one after it, and
the layout answers a first cursor, then it answers a second one as well, and the output is cut by the two in
three.

**Theorem (`cursors_delimit`).** After any number of turns the recorded cursors are in order and cut the
output, and so do those of the layout. If all cursors stand around one text, the layout answers two cursors
or none, and between the two stands that text.
-/

namespace CodeFormatter.Layout

/-- Cursors stand in pairs, around a document. -/
inductive Paired : Doc → Prop
  | marked {d : Doc} : Paired d → Paired (.concat [.cursor, d, .cursor])
  | intro {d : Doc} (self : d ≠ .cursor) (below : ∀ e ∈ d.children, Paired e) : Paired d

theorem Paired.ne_cursor {d : Doc} (h : Paired d) : d ≠ .cursor := by
  cases h with
  | marked _ => exact nofun
  | intro self _ => exact self

theorem Paired.propagateBreaks {d : Doc} (h : Paired d) : Paired d.propagateBreaks := by
  induction h with
  | marked _ ih =>
    rw [Doc.propagateBreaks_concat]
    exact .marked ih
  | @intro d hself _ ih =>
    refine .intro (by cases d <;> simp at hself ⊢) fun e he => ?_
    rw [Doc.children_propagateBreaks] at he
    obtain ⟨c, hc, rfl⟩ := List.mem_map.mp he
    exact ih c hc

/-! ## Where a text can be cut -/

/-- Of two beginnings of a text, the shorter one begins the longer one. -/
theorem prefix_of_byteLength_le {cs ds text : List Char} (h : cs <+: text) (h' : ds <+: text)
    (hle : byteLength cs ≤ byteLength ds) : cs <+: ds := by
  obtain ⟨after, rfl⟩ := h
  obtain ⟨after', heq⟩ := h'
  obtain ⟨m, rfl, -⟩ := exists_append_of_byteLength_le heq.symm hle
  exact List.prefix_append cs m

/-- The text can be cut at this position. -/
def Cuts (text : List Char) (i : Nat) : Prop := ∃ before, before <+: text ∧ byteLength before = i

theorem cuts_byteLength (text : List Char) : Cuts text (byteLength text) :=
  ⟨text, List.prefix_rfl, rfl⟩

theorem Cuts.append {text : List Char} {i : Nat} (h : Cuts text i) (cs : List Char) :
    Cuts (text ++ cs) i := by
  obtain ⟨before, hbefore, hi⟩ := h
  exact ⟨before, hbefore.trans (List.prefix_append _ _), hi⟩

theorem Cuts.le {text : List Char} {i : Nat} (h : Cuts text i) : i ≤ byteLength text := by
  obtain ⟨before, ⟨after, rfl⟩, rfl⟩ := h
  rw [byteLength_append]
  exact Nat.le_add_right _ _

theorem Cuts.isBoundary {text : String} {i : Nat} (h : Cuts text.toList i) : isBoundary text i = true := by
  obtain ⟨before, ⟨after, htext⟩, hi⟩ := h
  exact isBoundary_iff.mpr ⟨before, after, htext.symm, hi⟩

/-- What is left of a text can be cut where the text could be, or at its end. -/
theorem Cuts.min {text kept : List Char} {i : Nat} (h : Cuts text i) (hkept : kept <+: text) :
    Cuts kept (min i (byteLength kept)) := by
  obtain ⟨before, hbefore, rfl⟩ := h
  rcases Nat.le_total (byteLength before) (byteLength kept) with hle | hle
  · rw [Nat.min_eq_left hle]
    exact ⟨before, prefix_of_byteLength_le hbefore hkept hle, rfl⟩
  · rw [Nat.min_eq_right hle]
    exact cuts_byteLength kept

/-- Two cuts make three parts. -/
theorem exists_of_cuts {text : List Char} {i j : Nat} (hi : Cuts text i) (hj : Cuts text j)
    (hle : i ≤ j) : ∃ before inside after, text = before ++ inside ++ after ∧ i = byteLength before ∧
      j = byteLength (before ++ inside) := by
  obtain ⟨before, hbefore, rfl⟩ := hi
  obtain ⟨front, hfront, rfl⟩ := hj
  obtain ⟨inside, rfl⟩ := prefix_of_byteLength_le hbefore hfront hle
  obtain ⟨after, rfl⟩ := hfront
  exact ⟨before, inside, after, rfl, rfl, rfl⟩

/-- A text between two offsets that cut it there. -/
theorem slice?_of_prefix {text x : String} {before : List Char} (h : before ++ x.toList <+: text.toList) :
    slice? text (byteLength before) (byteLength (before ++ x.toList)) = some x := by
  obtain ⟨after, htext⟩ := h
  exact slice?_eq_some_iff.mpr ⟨before, after, htext.symm, rfl, (byteLength_append _ _).symm⟩

theorem Output.toList_toString (out : Output) : out.toString.toList = out.text := String.toList_ofList

namespace State

variable {settings : Settings} {fuel : Nat} {st st' : State} {c : Command}

/-! ## The recorded cursors -/

/-- The cursors are recorded from left to right, where the output can be cut. -/
structure Placed (st : State) : Prop where
  sized : st.out.Sized
  sorted : st.cursors.Pairwise (· ≤ ·)
  cuts : ∀ i ∈ st.cursors, Cuts st.out.text i

theorem Placed.text (h : st.Placed) (cs : List Char) (hout : st'.out = st.out.append cs)
    (hcursors : st'.cursors = st.cursors) : st'.Placed := by
  refine ⟨hout ▸ h.sized.append cs, hcursors ▸ h.sorted, fun i hi => ?_⟩
  rw [hcursors] at hi
  rw [hout, Output.text_append]
  exact (h.cuts i hi).append cs

theorem Placed.trim (h : st.Placed) : st.trim.Placed := by
  have hsize : st.out.trim.size = byteLength (trimEnd st.out.text) := by
    rw [h.sized.trim, Output.text_trim]
  have hmap : st.trim.cursors = st.cursors.map (min · (byteLength (trimEnd st.out.text))) := by
    rw [← hsize]
    rfl
  refine ⟨h.sized.trim, ?_, fun i hi => ?_⟩
  · rw [hmap, List.pairwise_map]
    exact h.sorted.imp fun hle => by omega
  · rw [hmap] at hi
    obtain ⟨j, hj, rfl⟩ := List.mem_map.mp hi
    change Cuts st.out.trim.text _
    rw [Output.text_trim]
    exact (h.cuts j hj).min (List.rdropWhile_prefix _ _)

theorem Placed.cursor (h : st.Placed) (hout : st'.out = st.out)
    (hcursors : st'.cursors = st.cursors ++ [st.out.size]) : st'.Placed := by
  have hsize : st.out.size = byteLength st.out.text := h.sized
  refine ⟨hout ▸ h.sized, ?_, fun i hi => ?_⟩
  · rw [hcursors, List.pairwise_append]
    refine ⟨h.sorted, List.pairwise_singleton _ _, fun i hi j hj => ?_⟩
    rw [List.mem_singleton.mp hj, hsize]
    exact (h.cuts i hi).le
  · rw [hout]
    rw [hcursors] at hi
    rcases List.mem_append.mp hi with hi | hi
    · exact h.cuts i hi
    · rw [List.mem_singleton.mp hi, hsize]
      exact cuts_byteLength _

theorem Types.placed (htypes : Types st c st') (h : st.Placed) : st'.Placed := by
  cases htypes with
  | text cs hout hcursors => exact h.text cs hout hcursors
  | trimmed cs hout hcursors => exact h.trim.text cs hout hcursors
  | cursor _ hout hcursors => exact h.cursor hout hcursors

/-- **A step records cursors where the output can be cut.** -/
theorem Placed.step (h : st.Placed) (settings : Settings) (fuel : Nat) :
    (st.step settings fuel).Placed := by
  cases hc : st.commands with
  | nil => simpa [State.step, hc] using h
  | cons c rest =>
    rw [step_eq hc]
    have hrest : Placed { st with commands := rest } := ⟨h.sized, h.sorted, h.cuts⟩
    have hperform := (types_perform settings fuel { st with commands := rest } c).placed hrest
    exact ⟨by simpa using hperform.sized, by simpa using hperform.sorted, by simpa using hperform.cuts⟩

theorem Placed.run (h : st.Placed) (settings : Settings) (fuel : Nat) :
    (st.run settings fuel).Placed :=
  run_keeps (fun _ fuel h => h.step settings fuel) fuel h

theorem placed_start (d : Doc) : (start d).Placed := ⟨rfl, .nil, nofun⟩

theorem placed_after (settings : Settings) (d : Doc) (turns : Nat) : (after settings d turns).Placed :=
  after_keeps (fun _ fuel h => h.step settings fuel) (placed_start _) turns

theorem Placed.size_eq (h : st.Placed) : st.out.size = st.out.toString.utf8ByteSize := by
  rw [h.sized, ← Output.toList_toString, byteLength_toList]

theorem Placed.isBoundary {i : Nat} (h : st.Placed) (hi : i ∈ st.cursors) :
    i ≤ st.out.toString.utf8ByteSize ∧ isBoundary st.out.toString i = true := by
  have hcuts := h.cuts i hi
  rw [← Output.toList_toString] at hcuts
  exact ⟨byteLength_toList st.out.toString ▸ hcuts.le, hcuts.isBoundary⟩

/-- The second cursor is not in front of the first one. -/
theorem Placed.exists_le {j : Nat} (h : st.Placed) (hj : st.cursors.tail.head? = some j) :
    j ∈ st.cursors ∧ ∃ i, st.cursors.head? = some i ∧ i ≤ j := by
  have hsorted := h.sorted
  cases hcursors : st.cursors with
  | nil => simp [hcursors] at hj
  | cons i later =>
    rw [hcursors] at hj hsorted
    have hmem : j ∈ later := List.mem_of_mem_head? hj
    exact ⟨List.mem_cons_of_mem _ hmem, i, rfl, List.rel_of_pairwise_cons hsorted hmem⟩

/-! ## Cursors come in pairs -/

/-- Is the document a cursor? -/
def isCursor : Doc → Bool
  | .cursor => true
  | _ => false

theorem isCursor_eq_false {d : Doc} (h : d ≠ .cursor) : isCursor d = false := by
  cases d <;> first | rfl | exact absurd rfl h

/-- The cursors among these documents. -/
def bare (ds : List Doc) : Nat := ds.countP isCursor

@[simp] theorem bare_append (ds ds' : List Doc) : bare (ds ++ ds') = bare ds + bare ds' :=
  List.countP_append

theorem bare_of_paired {ds : List Doc} (h : ∀ d ∈ ds, Paired d) : bare ds = 0 :=
  List.countP_eq_zero.mpr fun d hd => by simp [isCursor_eq_false (h d hd).ne_cursor]

/-- A cursor that is left of a pair, or a document in which they stand in pairs. -/
def Half (d : Doc) : Prop := d = .cursor ∨ Paired d

theorem Half.of_mem_children {d e : Doc} (h : Half d) (he : e ∈ d.children) : Half e := by
  rcases h with rfl | h
  · cases he
  · cases h with
    | @marked d h =>
      have he : e = .cursor ∨ e = d ∨ e = .cursor := by simpa [Doc.children] using he
      rcases he with rfl | rfl | rfl
      · exact .inl rfl
      · exact .inr h
      · exact .inl rfl
    | intro _ below => exact .inr (below e he)

/-- What an item opens into has as many cursors as the item, or two more. -/
theorem bare_openings_mod {item : Item} {ds : List Doc} (h : ∀ d ∈ item.docs, Half d)
    (hne : item ≠ .doc .cursor) (hopen : ds ∈ item.openings) :
    bare ds % 2 = bare item.docs % 2 := by
  cases item with
  | fillRest parts =>
    rw [List.mem_singleton.mp hopen]
    rfl
  | doc d =>
    have hd : Paired d := (h d (List.mem_singleton_self d)).resolve_left fun heq => hne (heq ▸ rfl)
    have hzero : bare (Item.doc d).docs = 0 := bare_of_paired fun e he => List.mem_singleton.mp he ▸ hd
    rw [hzero]
    cases hd with
    | @marked e he =>
      have htwo : bare [.cursor, e, .cursor] = 2 := by
        rw [bare, List.countP_cons, List.countP_cons, isCursor_eq_false he.ne_cursor]
        rfl
      rw [List.mem_singleton.mp hopen, htwo]
    | intro _ below =>
      rw [bare_of_paired fun e he => ?_]
      rcases Item.mem_children_of_mem_openings hopen he with ⟨-, rfl⟩ | he
      · exact .intro nofun nofun
      · exact below e he

/-- The cursors among these commands. -/
def bareIn (commands : List Command) : Nat := bare (commands.flatMap (·.item.docs))

@[simp] theorem bareIn_cons (c : Command) (rest : List Command) :
    bareIn (c :: rest) = bare c.item.docs + bareIn rest := by
  rw [bareIn, List.flatMap_cons, bare_append, bareIn]

@[simp] theorem bareIn_append (cs cs' : List Command) : bareIn (cs ++ cs') = bareIn cs + bareIn cs' := by
  rw [bareIn, List.flatMap_append, bare_append, bareIn, bareIn]

@[simp] theorem bareIn_nil : bareIn [] = 0 := rfl

/-- The cursors that are left to record. -/
def waiting (st : State) : Nat := bareIn st.commands + bareIn st.suffixes

theorem waiting_settle (st : State) : st.settle.waiting = st.waiting := by
  unfold settle
  split
  · simp [waiting, release, Nat.add_comm]
  · rfl

/-- No other command records a cursor, and in place of it there are as many cursors, or two more. -/
theorem waiting_perform_mod (hc : ∀ d ∈ c.item.docs, Half d) (hne : c.item ≠ .doc .cursor)
    (settings : Settings) (fuel : Nat) (st : State) :
    let st' := st.perform settings fuel c
    st'.waiting % 2 = (bare c.item.docs + st.waiting) % 2 ∧
      st'.cursors.length = st.cursors.length := by
  have hperforms := performs_perform settings fuel st c
  have htypes := types_perform settings fuel st c
  generalize st.perform settings fuel c = st' at hperforms htypes ⊢
  constructor
  · cases hperforms with
    | opened new hnew hs hopen _ _ =>
      have hparity : bareIn new % 2 = bare c.item.docs % 2 := bare_openings_mod hc hne hopen
      rw [waiting, waiting, hnew, hs, bareIn_append]
      omega
    | deferred d hitem hnew hs =>
      have hsuffix : Half (.lineSuffix d) := hc _ (by rw [hitem]; exact List.mem_singleton_self _)
      have hpaired : Paired d := by
        rcases hsuffix with heq | h
        · cases heq
        · cases h with
          | intro _ below => exact below d (List.mem_singleton_self d)
      have hone : bare [d] = 0 := bare_of_paired (by simpa using hpaired)
      have hzero : bare c.item.docs = 0 := by
        rw [hitem]
        rfl
      rw [waiting, waiting, hnew, hs, bareIn_append, bareIn_cons, bareIn_nil, hzero, Item.docs, hone]
      omega
    | released kind hitem _ hnew hs =>
      rw [waiting, waiting, hnew, hs, bareIn_append, bareIn_cons, bareIn_nil]
      omega
  · cases htypes with
    | text cs _ h => rw [h]
    | trimmed cs _ h => rw [h, State.trim, List.length_map]
    | cursor hitem _ _ => exact absurd hitem hne

/-- The cursors that are left to record make pairs with those that have been recorded. -/
structure Balanced (st : State) : Prop where
  holds : st.Holds (Command.Made (fun _ => True) Half)
  even : (st.waiting + st.cursors.length) % 2 = 0

theorem passes_half : Passes settings (Command.Made (fun _ => True) Half) :=
  passes_made (.inr (.intro nofun nofun)) Half.of_mem_children fun _ => trivial

/-- **A step leaves cursors in pairs.** -/
theorem Balanced.step (h : st.Balanced) (settings : Settings) (fuel : Nat) :
    (st.step settings fuel).Balanced := by
  refine ⟨h.holds.step passes_half fuel, ?_⟩
  cases hc : st.commands with
  | nil => simpa [State.step, hc] using h.even
  | cons c rest =>
    have heven := h.even
    have hwaiting : st.waiting = bare c.item.docs + waiting { st with commands := rest } := by
      rw [waiting, hc, bareIn_cons, waiting, Nat.add_assoc]
    rw [hwaiting] at heven
    rw [step_eq hc, waiting_settle, cursors_settle]
    by_cases hne : c.item = .doc .cursor
    · -- The cursor goes from the commands to the recorded ones.
      have hone : bare c.item.docs = 1 := by
        rw [hne]
        rfl
      have hperform : perform settings fuel { st with commands := rest } c =
          { st with commands := rest, cursors := st.cursors ++ [st.out.size] } := by
        rw [perform, hne]
        rfl
      have hrest : waiting { st with commands := rest, cursors := st.cursors ++ [st.out.size] } =
          waiting { st with commands := rest } := rfl
      rw [hperform, hrest, List.length_append, List.length_singleton]
      omega
    · have hdocs := (h.holds.commands c (by simp [hc])).docs
      obtain ⟨hparity, hsame⟩ := waiting_perform_mod hdocs hne settings fuel { st with commands := rest }
      rw [hsame]
      dsimp only at heven ⊢
      omega

theorem Balanced.run (h : st.Balanced) (settings : Settings) (fuel : Nat) :
    (st.run settings fuel).Balanced :=
  run_keeps (fun _ fuel h => h.step settings fuel) fuel h

theorem balanced_start {d : Doc} (h : Paired d) : (start d).Balanced := by
  refine ⟨holds_start trivial (.inr h), ?_⟩
  have hzero : bareIn (start d).commands = 0 := bare_of_paired (by simpa [start, Item.docs] using h)
  rw [waiting, hzero]
  rfl

end State

/-! ## Layouts -/

/-- **The first two cursors cut the output in three**, if cursors stand in pairs. -/
theorem exists_of_cursor (settings : Settings) {d : Doc} (h : Paired d) {start : Nat}
    (hstart : (print settings d).cursor = some start) :
    ∃ before inside after, (print settings d).formatted.toList = before ++ inside ++ after ∧
      start = byteLength before ∧
      (print settings d).cursorEnd = some (byteLength (before ++ inside)) := by
  let st := (State.start d.propagateBreaks).run settings d.propagateBreaks.work
  have hplaced : st.trim.Placed := ((State.placed_start _).run settings _).trim
  have hbalanced : st.Balanced := (State.balanced_start h.propagateBreaks).run settings _
  have hwork : (State.start d.propagateBreaks).work ≤ d.propagateBreaks.work := by
    simp [State.work, State.start, Item.work]
  obtain ⟨hcommands, hsuffixes⟩ := State.run_finishes settings hwork (fun h => by cases h)
  have heven : st.trim.cursors.length % 2 = 0 := by
    have heven := hbalanced.even
    have hnone : st.waiting = 0 := by
      rw [State.waiting, hcommands, hsuffixes]
      rfl
    rw [hnone, Nat.zero_add] at heven
    rwa [State.trim, List.length_map]
  have htext : (print settings d).formatted.toList = st.trim.out.text := Output.toList_toString _
  change st.trim.cursors.head? = some start at hstart
  change ∃ before inside after, _ ∧ _ ∧ st.trim.cursors.tail.head? = _
  rw [htext]
  cases hcursors : st.trim.cursors with
  | nil =>
    rw [hcursors] at hstart
    cases hstart
  | cons i rest =>
    rw [hcursors] at hstart heven
    cases hstart
    cases rest with
    | nil => cases heven
    | cons j later =>
      have hsorted := hplaced.sorted
      have hcuts := hplaced.cuts
      rw [hcursors] at hsorted hcuts
      have hle : start ≤ j := List.rel_of_pairwise_cons hsorted List.mem_cons_self
      obtain ⟨before, inside, after, heq, hi, hj⟩ :=
        exists_of_cuts (hcuts start (by simp)) (hcuts j (by simp)) hle
      exact ⟨before, inside, after, heq, hi, by rw [← hj]; rfl⟩

/-- **The first two cursors delimit their text**, if all cursors stand around one text. -/
theorem exists_slice_of_tidy (settings : Settings) {d : Doc} {x : String} (htidy : Tidy x d)
    (hx : ∃ c ∈ x.toList.getLast?, isPadding c = false)
    (hsome : (print settings d).cursor.isSome = true ∨ (print settings d).cursorEnd.isSome = true) :
    ∃ i j, (print settings d).cursor = some i ∧ (print settings d).cursorEnd = some j ∧
      slice? (print settings d).formatted i j = some x := by
  have hwork : (State.start d.propagateBreaks).work ≤ d.propagateBreaks.work := by
    simp [State.work, State.start, Item.work]
  rcases (State.unmet_start htidy.propagateBreaks).run_cursors hx settings hwork with
    hnone | ⟨before, hbehind⟩
  · simp [print, State.finish, State.trim, hnone] at hsome
  · obtain ⟨-, hkept, later, hcursors⟩ := hbehind.trim hx
    refine ⟨byteLength before, byteLength (before ++ x.toList), ?_, ?_, ?_⟩
    · simp only [print, State.finish, hcursors, List.head?_cons]
    · simp only [print, State.finish, hcursors, List.tail_cons, List.head?_cons]
    · exact slice?_of_prefix (Output.toList_toString _ ▸ hkept)

/-- **Cursors are positions of the output, and delimit their text.** After any number of turns the recorded
cursors are in order, and the output can be cut at them. So it is with the cursors that the layout answers.
If all cursors of the document stand around one text that does not end in a space or a tab, it answers both
of them or none, and that text is between them. -/
theorem cursors_delimit (settings : Settings) (d : Doc) :
    (∀ turns, let st := State.after settings d turns
      st.out.size = st.out.toString.utf8ByteSize ∧ st.cursors.Pairwise (· ≤ ·) ∧
        ∀ i ∈ st.cursors, i ≤ st.out.size ∧ isBoundary st.out.toString i = true) ∧
    let p := print settings d
    (∀ i, p.cursor = some i → i ≤ p.formatted.utf8ByteSize ∧ isBoundary p.formatted i = true) ∧
    (∀ j, p.cursorEnd = some j → ∃ i, p.cursor = some i ∧ i ≤ j ∧
      j ≤ p.formatted.utf8ByteSize ∧ isBoundary p.formatted j = true) ∧
    ∀ x : String, (∃ c ∈ x.toList.getLast?, isPadding c = false) → Tidy x d →
      p.cursor.isSome = true ∨ p.cursorEnd.isSome = true →
      ∃ i j, p.cursor = some i ∧ p.cursorEnd = some j ∧ slice? p.formatted i j = some x := by
  have hplaced := State.placed_after settings d
  have hlast := (hplaced (State.start d.propagateBreaks).work).trim
  refine ⟨fun turns => ?_, fun i hi => ?_, fun j hj => ?_, fun x hx htidy =>
    exists_slice_of_tidy settings htidy hx⟩
  · refine ⟨(hplaced turns).size_eq, (hplaced turns).sorted, fun i hi => ?_⟩
    rw [(hplaced turns).size_eq]
    exact (hplaced turns).isBoundary hi
  · rw [State.print_eq_finish_after] at hi ⊢
    exact hlast.isBoundary (List.mem_of_mem_head? hi)
  · rw [State.print_eq_finish_after] at hj ⊢
    obtain ⟨hmem, i, hi, hle⟩ := hlast.exists_le hj
    exact ⟨i, hi, hle, hlast.isBoundary hmem⟩

/-- The text is met in a line suffix first, which comes in front of the newline after it. Spaces at the end
go. -/
theorem cursors_delimit_suffix :
    let d : Doc := .concat [.lineSuffix (.marked "é"), .text "a  ", .line .hard,
      Doc.groupOf (.marked "é"), .text "  "]
    let p := print (.ofWidth 80) d
    Tidy "é" d ∧ p = ⟨"a  é\né", some 3, some 5⟩ ∧
      ∃ i j, p.cursor = some i ∧ p.cursorEnd = some j ∧ slice? p.formatted i j = some "é" := by
  intro d p
  have hleaf : ∀ e : Doc, e ≠ .cursor → e.children = [] → Tidy "é" e := fun e hne hnone =>
    .intro hne (by simp [hnone])
  have hnode : ∀ e : Doc, e ≠ .cursor → e.children = [.marked "é"] → Tidy "é" e := fun e hne hone =>
    .intro hne (hone ▸ List.forall_mem_singleton.mpr .marked)
  have htidy : Tidy "é" d := by
    refine .intro (by simp [d]) fun e he => ?_
    simp only [d, Doc.children, List.mem_cons, List.not_mem_nil, or_false] at he
    rcases he with rfl | rfl | rfl | rfl | rfl
    · exact hnode _ (by simp) rfl
    · exact hleaf _ (by simp) rfl
    · exact hleaf _ (by simp) rfl
    · exact hnode _ (by simp [Doc.groupOf]) rfl
    · exact hleaf _ (by simp) rfl
  have hp : p = ⟨"a  é\né", some 3, some 5⟩ := by decide +kernel
  have hsome : p.cursor.isSome = true := by rw [hp]; rfl
  exact ⟨htidy, hp, (cursors_delimit (.ofWidth 80) d).2.2.2 "é" ⟨'é', by decide +kernel⟩ htidy (.inl hsome)⟩

end CodeFormatter.Layout
