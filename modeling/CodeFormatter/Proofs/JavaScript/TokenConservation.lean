import CodeFormatter.Proofs.JavaScript.LayoutOptions
import CodeFormatter.Proofs.JavaScript.Spelling
import CodeFormatter.Proofs.JavaScript.Success
import CodeFormatter.Proofs.Text.NextLine

/-!
# No token is lost

The printers write keywords, operators and brackets as constants of their own, and do not look them up
in the source. For a text without comments that its tree covers, they write the same ones as the source
has, in the same order.

**Documents** (`Spells`). In each of its layouts, the document of a node writes the solid
characters of the node: all but blanks, commas, semicolons and quotes.

**Totality** (`Covers.legible`). All places that the printers look at exist in a text that is covered.

**Theorem (`solid_format`).** Such a text can be formatted, and the output has the same characters as
the text, but for blanks, commas, semicolons and quotes.
-/

namespace CodeFormatter.JavaScript

open Layout Pipeline Printer CodeFormatter.Tree Walk

variable {scene : Scene} {root t : Node} {a b : Nat} {d d' : Doc} {text : String}

/-! ## Places in the text -/

theorem Gap.isBoundary_start (h : Gap text a b) : isBoundary text a = true := by
  obtain ⟨cs, hcs, -⟩ := h
  exact hcs.isBoundary_start

theorem Gap.isBoundary_stop (h : Gap text a b) : isBoundary text b = true := by
  obtain ⟨cs, hcs, -⟩ := h
  exact hcs.isBoundary_stop

theorem Gap.le (h : Gap text a b) : a ≤ b := by
  obtain ⟨cs, hcs, -⟩ := h
  exact hcs.le

theorem succeeds_commasBetween (ha : isBoundary scene.text a = true)
    (hb : isBoundary scene.text b = true) (hab : a ≤ b) : Succeeds (commasBetween scene a b) := by
  obtain ⟨cs, hcs⟩ := exists_lies ha hb hab
  have hslice : sliceOrError scene.text a b = .ok (String.ofList cs) :=
    sliceOrError_eq_ok_iff.mpr (slice?_of_lies hcs)
  exact (succeeds_lift hslice).bind_pure

/-- The commas of an array can be counted, between the items that are left. -/
theorem Spelled.succeeds_go {items : List Item} (h : Spelled scene.text a items b)
    (hb : b = t.stop - 1) {previous : Nat} (hprevious : isBoundary scene.text previous = true)
    (hle : previous ≤ a) (isFirst : Bool) :
    Succeeds (hasHoles.go scene t previous isFirst (nodesIn items)) := by
  induction h generalizing previous isFirst with
  | blank hgap =>
    subst hb
    exact (succeeds_commasBetween hprevious hgap.isBoundary_stop (hle.trans hgap.le)).bind_pure
  | token hgap hs _ ih => exact ih hb hprevious (hle.trans (hgap.le.trans hs.le)) isFirst
  | @node a b u cs items hgap hu _ ih =>
    have hcount := succeeds_commasBetween hprevious hgap.isBoundary_stop (hle.trans hgap.le)
    refine hcount.bind fun commas => ?_
    generalize (commas != if isFirst = true then 0 else 1) = misplaced
    cases misplaced
    · exact ih hb hu.isBoundary_stop le_rfl false
    · exact succeeds_pure _

theorem Spelled.isBoundary_start {items : List Item} (h : Spelled text a items b) :
    isBoundary text a = true := by
  cases h with
  | blank hgap | token hgap | node hgap => exact hgap.isBoundary_start

/-- **The places that the printers look at exist.** -/
theorem Covers.legible (h : Covers scene.text root) (hbytes : scene.bytes = bytesOf scene.text)
    (hfree : CodeFree scene.text root) : Legible scene root where
  slices t ht := by
    obtain ⟨items, hitems, -⟩ := h.spelled t ht
    obtain ⟨cs, hcs, -⟩ := hitems.exists_lies
    exact ⟨_, sliceOrError_eq_ok_iff.mpr (slice?_of_lies hcs)⟩
  lines t ht := by
    obtain ⟨items, hitems, -⟩ := h.spelled t ht
    obtain ⟨cs, hcs, -⟩ := hitems.exists_lies
    rw [hbytes]
    exact Scan.exists_isNextLineEmpty? hcs.isBoundary_stop
  holes t ht hkind := by
    obtain ⟨items, hitems, hnodes⟩ := h.arrays t ht hkind
    rw [hasHoles, ← hnodes]
    exact hitems.succeeds_go rfl hitems.isBoundary_start le_rfl true
  codeFree := hfree

/-! ## What documents write -/

/-- In each of its layouts, the document writes the solid characters of the node. -/
structure Spells (scene : Scene) (t : Node) (d : Doc) : Prop where
  writes : Writes (!isLoose ·) d (solidOf scene.text t)
  plain : d.isPlain = true

theorem writes_nil (keep : Char → Bool) : Writes keep Doc.nil [] := fun ts hts => by
  rw [(selects_concat.mp hts).eq_nil]
  rfl

theorem spells_of_builds {shape : List (Char ⊕ Node)}
    (h : Builds (!isLoose ·) (· = Doc.nil) (Spells scene) shape d)
    (hshape : shape.flatMap (writing (solidOf scene.text)) = solidOf scene.text t) :
    Spells scene t d where
  writes := by
    rw [← hshape]
    refine h.writes (fun u e _ he => he.writes) ?_
    rintro e rfl
    exact writes_nil _
  plain := by
    refine h.isPlain (fun u e he => he.plain) ?_
    rintro e rfl
    rfl

/-- Each way to print a node writes its solid characters. -/
theorem spells_of_form (h : Covers scene.text root) (hfree : CodeFree scene.text root)
    (ht : t ∈ root.nodes)
    (hd : Form (!isLoose ·) (· = Doc.nil) (Spells scene) (Comments.ofList []) scene t d)
    (hd' : Surrounds (Comments.ofList []) t d d') : Spells scene t d' := by
  have hspells : Spells scene t d := by
    cases hd with
    | @copy s hs =>
      refine spells_of_builds (.text s) ?_
      rw [flatMap_word, solidOf, sliceOrError_eq_ok_iff.mp hs, Option.getD_some]
    | code _ hcode => exact absurd hcode (hfree t ht _ _ _)
    | layout _ houtlined =>
      obtain ⟨shape, hshape, hbuilds⟩ := houtlined
      exact spells_of_builds hbuilds (h.flatMap_writing ht hshape)
  rcases hd'.of_bare with rfl | rfl
  · exact hspells
  · exact spells_of_builds (BuildsAll.skip .cursor (.cons (.part hspells)
      (.singleton .cursor))).concat (by simp)

/-- **The document of a tree can be made, and writes the solid characters of the tree.** -/
theorem Covers.exists_printTree (h : Covers scene.text root)
    (hbytes : scene.bytes = bytesOf scene.text) (hfree : CodeFree scene.text root)
    (group : GroupId) : ∃ e log last, printTree language scene root 0 (bareState [] group) =
      .ok (e.propagateBreaks, bareState log last) ∧ Spells scene root e := by
  obtain ⟨d, log, last, hrun⟩ := (h.legible hbytes hfree).succeeds_printTree [] group
  obtain ⟨e, rfl, he⟩ := exists_document (Counts.of_bare rfl fun hcomma => absurd hcomma (by decide))
    (fun _ ht _ _ => spells_of_form h hfree ht) hrun
  exact ⟨e, log, last, hrun, he⟩

/-! ## Texts -/

/-- Spaces, tabs and line ends are not solid. -/
theorem solid_eq_nil_of_ink {cs : List Char} (h : ink cs = []) : solid cs = [] := by
  refine solid_eq_nil fun c hc => ?_
  have hgap : isGap c = true := by simpa using List.filter_eq_nil_iff.mp h c hc
  simp only [isGap, isPadding, Bool.or_eq_true, beq_iff_eq] at hgap
  rcases hgap with ((rfl | rfl) | rfl) | rfl <;> rfl

theorem solid_restoreMark (marked : Bool) (out : String) :
    solid (restoreMark marked out).toList = solid out.toList := by
  rw [restoreMark]
  split
  · rw [String.toList_ofList]
    rfl
  · rfl

theorem solid_stripMark (text : String) : solid (stripMark text).toList = solid text.toList := by
  rcases toList_stripMark_or text with h | h
  · rw [h]
  · rw [h]
    rfl

variable {p : TextParser} {options n : Options} {tree : Node} {job : Job}

/-- A text that is ready and covered by its tree is printed, with the same solid characters. -/
theorem exists_prints (hwanted : skips n text = false)
    (hprepared : prepare language n text = .ok job) (hparse : p job.text = .ok ⟨tree, []⟩)
    (hcovers : Covers job.text tree) (hfree : CodeFree job.text tree) :
    ∃ s d st, Prints p n text s job ⟨tree, []⟩ d st ∧
      solid s.toList = solid job.text.toList := by
  have hscene : Covers (sceneOf ((formatterOf p).embedding ((formatterOf p).nesting text)) job
    tree).text tree := hcovers
  obtain ⟨e, log, last, hrun, hspells⟩ := hscene.exists_printTree rfl hfree 0
  refine ⟨_, _, _, ⟨hwanted, hprepared, hparse, hrun, rfl, rfl⟩, ?_⟩
  have hplain : e.propagateBreaks.isPlain = true :=
    (Doc.isPlain_propagateBreaks e).trans hspells.plain
  have hpadding : ∀ c, isPadding c = true → (!isLoose c) = false := by
    intro c hc
    rw [isPadding, Bool.or_eq_true, beq_iff_eq, beq_iff_eq] at hc
    rcases hc with rfl | rfl <;> rfl
  obtain ⟨ts, hts, hformatted⟩ := exists_filter_formatted (job.options.page job.text) hplain
    hpadding (solid_eq_nil_of_ink (ink_page _ _))
  have hwrites := hspells.writes ts (Selects.of_propagateBreaks hts)
  rw [solid_restoreMark, hcovers.solid_eq]
  exact hformatted.trans hwrites

/-- **No token is lost.** A text without comments and without code in templates, which its tree covers,
can be formatted. The output has the same characters, but for blanks, commas, semicolons and quotes. -/
theorem solid_format (hvalid : options.validate = .ok ()) (hjs : IsJavaScript options)
    (hwhole : options.formatsWholeFile = true) (hrequire : options.requirePragma = false)
    (hinsert : options.insertPragma = false) (hparse : p (stripMark text) = .ok ⟨tree, []⟩)
    (hcovers : Covers (stripMark text) tree) (hfree : CodeFree (stripMark text) tree) :
    ∃ s, (formatterOf p).format text options = .ok s ∧ solid s.toList = solid text.toList := by
  have hwanted : skips (named options) text = false := by simp [skips, named, hrequire]
  have hprepared : prepare language (named options) text = .ok (unmark (named options) text) :=
    prepare_of_no_pragma hinsert
  rw [← unmark_text (named options) text] at hparse hcovers hfree
  obtain ⟨s, d, st, hprints, hsolid⟩ := exists_prints hwanted hprepared hparse hcovers hfree
  refine ⟨s, (format_eq_ok_iff hwhole).mpr ⟨hvalid, hjs, .inr ⟨_, _, d, st, hprints⟩⟩, ?_⟩
  rw [hsolid, unmark_text, solid_stripMark]

/-- A list of a string and a name. -/
def quotedList : Node :=
  ⟨0, 0, 9, ⟨.program, [], none⟩, [⟨1, 0, 9, ⟨.expressionStatement, [], none⟩,
    [⟨2, 0, 9, ⟨.array, ["[", ",", "]"], none⟩, [⟨3, 1, 4, ⟨.string, [], none⟩, []⟩,
      ⟨4, 7, 8, ⟨.identifier, [], none⟩, []⟩]⟩]⟩]⟩

def quotedText : String := "['b' , c]"

theorem covers_quotedList : Covers quotedText quotedList := by
  have hgap : ∀ a b, (slice? quotedText a b).any (·.toList.all isFiller) = true →
      Gap quotedText a b := by
    intro a b h
    obtain ⟨s, hs, hfiller⟩ := Option.any_eq_true _ _ |>.mp h
    exact ⟨s.toList, slice?_eq_some_iff.mp hs, List.all_eq_true.mp hfiller⟩
  have hlies : ∀ a b s, slice? quotedText a b = some s → Lies quotedText.toList a b s.toList :=
    fun _ _ _ h => slice?_eq_some_iff.mp h
  have hwhole : Lies quotedText.toList 0 9 quotedText.toList :=
    hlies 0 9 quotedText (by decide +kernel)
  have hstring : Lies quotedText.toList 1 4 "'b'".toList := hlies 1 4 "'b'" (by decide +kernel)
  have hname : Lies quotedText.toList 7 8 "c".toList := hlies 7 8 "c" (by decide +kernel)
  have hstart : Gap quotedText 0 0 := hgap 0 0 (by decide +kernel)
  have hstop : Gap quotedText 9 9 := hgap 9 9 (by decide +kernel)
  -- The items between the brackets, with others behind them.
  have hinside : ∀ {b} items, Spelled quotedText 8 items b → Spelled quotedText 1
      (.inr ⟨3, 1, 4, ⟨.string, [], none⟩, []⟩ :: .inl "," ::
        .inr ⟨4, 7, 8, ⟨.identifier, [], none⟩, []⟩ :: items) b := fun items h =>
    .node (hgap 1 1 (by decide +kernel)) hstring (.token (hgap 4 5 (by decide +kernel))
      (hlies 5 6 "," (by decide +kernel)) (.node (hgap 6 7 (by decide +kernel)) hname h))
  have hend : Gap quotedText 8 8 := hgap 8 8 (by decide +kernel)
  refine ⟨hstart, hstop, ?_, ?_, ?_⟩
  · intro t ht
    simp only [quotedList, nodes, nodesAll, List.append_nil, List.cons_append, List.nil_append,
      List.mem_cons, List.not_mem_nil, or_false] at ht
    rcases ht with rfl | rfl | rfl | rfl | rfl
    · exact ⟨_, .node hstart hwhole (.blank hstop), rfl, rfl⟩
    · exact ⟨_, .node hstart hwhole (.blank hstop), rfl, rfl⟩
    · refine ⟨_, .token hstart (hlies 0 1 "[" (by decide +kernel)) (hinside _ (.token hend
        (hlies 8 9 "]" (by decide +kernel)) (.blank hstop))), rfl, ?_⟩
      simp [Rule, kindOf, Enclosed, core, isMark, itemsOf]
    · exact ⟨_, .token (hgap 1 1 (by decide +kernel)) hstring
        (.blank (hgap 4 4 (by decide +kernel))), rfl, trivial⟩
    · exact ⟨_, .token (hgap 7 7 (by decide +kernel)) hname (.blank hend), rfl, trivial⟩
  · intro t ht hkind
    simp only [quotedList, nodes, nodesAll, List.append_nil, List.cons_append, List.nil_append,
      List.mem_cons, List.not_mem_nil, or_false] at ht
    rcases ht with rfl | rfl | rfl | rfl | rfl <;> try cases hkind
    exact ⟨_, hinside _ (.blank hend), rfl⟩
  · intro t ht hkind
    simp only [quotedList, nodes, nodesAll, List.append_nil, List.cons_append, List.nil_append,
      List.mem_cons, List.not_mem_nil, or_false] at ht
    rcases ht with rfl | rfl | rfl | rfl | rfl <;> try cases hkind
    exact ⟨'\'', by simp, ['b'], hstring⟩

theorem solid_format_quotedList :
    (formatterOf fun _ => .ok ⟨quotedList, []⟩).format quotedText { parser := some "javascript" } =
      .ok "[\"b\", c];\n" ∧ solid "[\"b\", c];\n".toList = solid quotedText.toList := by
  have hformat : (formatterOf fun _ => .ok ⟨quotedList, []⟩).format quotedText
      { parser := some "javascript" } = .ok "[\"b\", c];\n" := by
    decide +kernel
  have hstrip : stripMark quotedText = quotedText := by decide +kernel
  have hcovers : Covers (stripMark quotedText) quotedList := hstrip ▸ covers_quotedList
  have hfree : CodeFree (stripMark quotedText) quotedList :=
    codeFree_of_kinds (by simp [quotedList, nodes, nodesAll, kindOf])
  have hexists : ∃ s, (formatterOf fun _ => .ok ⟨quotedList, []⟩).format quotedText
      { parser := some "javascript" } = .ok s ∧ solid s.toList = solid quotedText.toList :=
    solid_format rfl rfl rfl rfl rfl rfl hcovers hfree
  obtain ⟨s, hs, hsolid⟩ := hexists
  rw [hformat, Except.ok.injEq] at hs
  subst hs
  exact ⟨hformat, hsolid⟩

end CodeFormatter.JavaScript
