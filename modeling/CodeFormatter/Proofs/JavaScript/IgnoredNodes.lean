import CodeFormatter.Proofs.JavaScript.AnyParser
import CodeFormatter.Proofs.Text.Slice

/-!
# Nodes that are left as they are

A comment can ask for the node after it to be left as it is. The node is then copied from the source,
whatever its kind. All printers print it as one piece: those of the nodes above it go through the
nodes below them, in every layout, and a copy of one of them has the copy of the node in it.

The layout does not leave a copy alone: it removes spaces and tabs at the end of each line that it
ends itself, and of the last one, even when they are part of the copy (`not_byte_exact`).

**Theorem (`infix_format_of_ignored`).** But for spaces and tabs at its end, the copy of a node that is
to be left as it is stands in the output.
-/

namespace CodeFormatter.JavaScript

open Attach Layout Pipeline Printer CodeFormatter.Tree Walk

variable {scene : Scene} {root t u v c : Node} {done : Comments}

/-! ## Copies in a document -/

section Always

variable {p : String → Prop} {d d' e : Doc}

/-- What is always written is written with documents around it. -/
theorem always_of_mem {parts : List Doc} (h : Always p e) (he : e ∈ parts) :
    Always p (.concat parts) := by
  refine h.imp_right fun h ts hts => ?_
  obtain ⟨before, after, rfl⟩ := List.append_of_mem he
  obtain ⟨ts₁, ts₂, rfl, -, hrest⟩ := (selects_concat.mp hts).of_append
  obtain ⟨ts₂, ts₃, rfl, hmiddle, -⟩ := hrest.of_cons
  obtain ⟨s, hs, hp⟩ := h ts₂ hmiddle
  exact ⟨s, by simp [hs], hp⟩

theorem always_of_surrounds (h : Always p d) (hd : Surrounds done t d d') : Always p d' := by
  obtain ⟨e, he, hd'⟩ := hd
  have he : Always p e := by
    rcases he with rfl | rfl
    · exact h
    · exact always_of_mem h (by simp)
  rcases hd' with rfl | ⟨-, before, after, rfl⟩
  · exact he
  · exact always_of_mem he (by simp)

theorem always_text {s : String} (h : p s) : Always p (.text s) := by
  refine .inr fun ts hts => ?_
  obtain ⟨docs, hopen, ts', rfl, -⟩ := hts.exists_opening (by simp)
  exact ⟨s, by simp [Doc.ownTexts], h⟩

end Always

/-- No template in the tree holds code. -/
def CodeFree (text : String) (root : Node) : Prop :=
  ∀ t ∈ root.nodes, ∀ tag template code, ¬ HoldsCode text t tag template code

theorem codeFree_of_kinds {text : String} (h : .callExpression ∉ root.nodes.map kindOf) :
    CodeFree text root := fun _ ht _ _ _ hcode =>
  h (List.mem_map.mpr ⟨_, ht, hcode.kind⟩)

/-- In every layout, the copies of the nodes that are to be left as they are stand in the document. -/
def Copies (done : Comments) (scene : Scene) (u : Node) (d : Doc) : Prop :=
  ∀ v ∈ u.nodes, ignored done v = true → ∀ s, slice? scene.text v.start v.stop = some s →
    Always (fun w => s.toList <:+: w.toList) d

theorem of_ne_nil_of_ignored (h : ignored done t = true) : done.of t.id ≠ [] := by
  intro hnone
  simp [ignored, hnone] at h

theorem Resident.canAttach_of_ignored (h : Resident root done) (ht : t ∈ root.nodes)
    (hc : c ∈ t.children) (hv : v ∈ c.nodes) (hignored : ignored done v = true) :
    language.canAttach c = true := by
  by_contra hattach
  have hattach : language.canAttach c = false := by simpa using hattach
  have hcroot := mem_nodes_trans (mem_nodes_of_mem_children hc (mem_nodes_self c)) ht
  rw [mem_nodes, h.shaped.transparent c hcroot hattach] at hv
  obtain rfl : v = c := hv.resolve_right (by simp)
  obtain ⟨i, hi, -⟩ := List.any_eq_true.mp hignored
  exact h.owner?_ne ht hc hattach (h.consistent.mem_of.mp hi)

/-- Each way to print a node passes the copies on. -/
theorem Resident.copies_of_form (h : Resident root done) (hfree : CodeFree scene.text root)
    (ht : t ∈ root.nodes) {d d' : Doc}
    (hd : Form (fun _ => false) (fun _ => True) (Copies done scene) done scene t d)
    (hd' : Surrounds done t d d') : Copies done scene t d' := by
  intro v hv hignored s hs
  refine always_of_surrounds ?_ hd'
  cases hd with
  | copy hcopy =>
    obtain ⟨hstart, hstop⟩ := (h.wellFormed.of_mem ht).within hv
    exact always_text ((slice?_eq_some_iff.mp (sliceOrError_eq_ok_iff.mp hcopy)).isInfix
      (slice?_eq_some_iff.mp hs) hstart hstop)
  | code _ hcode => exact absurd hcode (hfree t ht _ _ _)
  | layout hnot houtlined =>
    obtain ⟨shape, hshape, hbuilds⟩ := houtlined
    rcases mem_nodes.mp hv with rfl | ⟨c, hc, hv⟩
    · rw [hignored] at hnot
      cases hnot
    · obtain ⟨hchain, hempty⟩ := canAttach_iff.mp (h.canAttach_of_ignored ht hc hv hignored)
      obtain ⟨u, hu, hv⟩ := inr_mem_of_outline hshape (h.shaped.leaf t ht) hc hchain hempty
        (fun _ => of_ne_nil_of_ignored hignored) hv
      exact hbuilds.always hu fun e he => he v hv hignored s hs

theorem Resident.copies_printTree (h : Resident root done) (hfree : CodeFree scene.text root)
    {group : GroupId} {d : Doc} {st : WalkState}
    (hrun : printTree language scene root 0 ⟨done, group⟩ = .ok (d, st)) :
    ∃ e, d = e.propagateBreaks ∧ Copies done scene root e :=
  exists_document (counts_nothing done scene) (fun _ ht _ _ => h.copies_of_form hfree ht) hrun

/-! ## Copies in the output -/

theorem infix_restoreMark {cs : List Char} {out : String} (h : cs <:+: out.toList) (marked : Bool) :
    cs <:+: (restoreMark marked out).toList := by
  rw [restoreMark]
  split
  · rw [String.toList_ofList]
    exact h.trans (List.suffix_cons _ _).isInfix
  · exact h

theorem infix_stripMark (text : String) : (stripMark text).toList <:+: text.toList := by
  rcases toList_stripMark_or text with h | h
  · exact h ▸ List.infix_rfl
  · rw [h]
    exact (List.suffix_cons _ _).isInfix

theorem isInfix_of_slice? {text s : String} {start stop : Nat} (h : slice? text start stop = some s) :
    s.toList <:+: text.toList := by
  obtain ⟨before, after, htext, -, -⟩ := slice?_eq_some_iff.mp h
  exact ⟨before, after, htext.symm⟩

/-- The layout of a document that always writes a text has it, but for blanks at its end. -/
theorem infix_of_always {settings : Settings} {d : Doc} {cs : List Char}
    (h : Always (fun w => cs <:+: w.toList) d) :
    Layout.trimEnd cs <:+: (print settings d.propagateBreaks).formatted.toList := by
  rcases h with hempty | h
  · have hnil : cs = [] := List.infix_nil.mp hempty
    rw [hnil]
    exact List.nil_infix
  · obtain ⟨ts, hts, hsub, -⟩ := exists_selects_texts settings d.propagateBreaks
    have hts : Selects [d] ts := Selects.of_propagateBreaks hts
    obtain ⟨w, hw, hcs⟩ := h ts hts
    exact (isInfix_trimEnd hcs).trans (infix_formatted settings _ (hsub.subset hw))

variable {p : TextParser} {text source s : String} {options : Options} {parsed : Parsed Info}

/-- **What is to be left as it is stands in the output**, but for spaces and tabs at its end. -/
theorem infix_format_of_ignored (hwhole : options.formatsWholeFile = true)
    (hformat : (formatterOf p).format text options = .ok s)
    (hsource : sourceOf options text = .ok source) (hparse : p source = .ok parsed)
    (hroot : parsed.tree.WellFormed) (hshape : Shaped parsed.tree)
    (hspan : ∀ c ∈ parsed.comments, parsed.tree.Holds c.start c.stop)
    (hclear : ∀ c ∈ parsed.comments, Clear language.canAttach parsed.tree c.start c.stop)
    (hfree : CodeFree source parsed.tree) :
    ∀ v ∈ parsed.tree.nodes, ignored (attached language source parsed) v = true →
      ∀ w, slice? source v.start v.stop = some w → Layout.trimEnd w.toList <:+: s.toList := by
  intro v hv hignored w hw
  obtain ⟨-, -, ⟨hskips, rfl⟩ | ⟨job, parsed', d, st, hprints⟩⟩ :=
    (format_eq_ok_iff hwhole).mp hformat
  · rw [sourceOf, hskips, if_pos rfl] at hsource
    cases hsource
    exact (isPrefix_trimEnd _).isInfix.trans ((isInfix_of_slice? hw).trans (infix_stripMark _))
  · have hwanted : skips options text = false := hprints.wanted
    rw [sourceOf, hwanted, if_neg Bool.false_ne_true, hprints.prepared] at hsource
    cases hsource
    obtain rfl : parsed' = parsed := by
      rw [hprints.parses] at hparse
      exact Except.ok.inj hparse
    have hresident := resident_attach hroot hshape hspan hclear job.text
    obtain ⟨e, rfl, he⟩ := hresident.copies_printTree hfree hprints.printed
    rw [hprints.outcome]
    exact infix_restoreMark (infix_of_always (he v hv hignored w hw)) _

/-! ## A statement with a comment in it -/

/-- A statement that is to be left as it is. A comment in it ends with two blanks. -/
def kept : Parsed Info where
  tree := ⟨0, 0, 27, ⟨.program, [], none⟩,
    [⟨1, 17, 25, ⟨.expressionStatement, [], none⟩, [⟨2, 17, 18, ⟨.identifier, [], none⟩, []⟩]⟩,
    ⟨3, 26, 27, ⟨.expressionStatement, [], none⟩, [⟨4, 26, 27, ⟨.identifier, [], none⟩, []⟩]⟩]⟩
  comments := [{ text := "// docfmt-ignore", start := 0, stop := 16, block := false },
    { text := "// c  ", start := 19, stop := 25, block := false }]

def keptText : String := "// docfmt-ignore\na // c  \nb"

theorem infix_format_kept :
    (formatterOf fun _ => .ok kept).format keptText { parser := some "javascript" } =
      .ok "// docfmt-ignore\na // c\nb;\n" ∧
    "a // c".toList <:+: "// docfmt-ignore\na // c\nb;\n".toList := by
  have hformat : (formatterOf fun _ => .ok kept).format keptText { parser := some "javascript" } =
      .ok "// docfmt-ignore\na // c\nb;\n" := by
    decide +kernel
  have hroot : kept.tree.WellFormed := by
    constructor <;> simp [kept, nodes, nodesAll]
  have hshape : Shaped kept.tree := by
    constructor <;> simp [kept, nodes, nodesAll, language, kindOf, printsDangling]
  have hspan : ∀ c ∈ kept.comments, kept.tree.Holds c.start c.stop := by
    simp [kept, Holds]
  have hclear : ∀ c ∈ kept.comments, Clear language.canAttach kept.tree c.start c.stop := by
    simp [kept, Clear, nodes, nodesAll, Holds, Avoids]
  have hfree : CodeFree keptText kept.tree :=
    codeFree_of_kinds (by simp [kept, nodes, nodesAll, kindOf])
  refine ⟨hformat, infix_format_of_ignored rfl hformat rfl rfl hroot hshape hspan hclear hfree
    ⟨1, 17, 25, ⟨.expressionStatement, [], none⟩, [⟨2, 17, 18, ⟨.identifier, [], none⟩, []⟩]⟩ ?_ ?_
    "a // c  " ?_⟩
  · simp [kept, nodes, nodesAll]
  · decide +kernel
  · decide +kernel

/-- A copy can lose blanks at its end. -/
theorem not_byte_exact :
    ¬ ∀ (text s : String) (options : Options) (parsed : Parsed Info),
      options.validate = .ok () → IsJavaScript options → options.formatsWholeFile = true →
      formatter.format text options = .ok s → parse text = .ok parsed →
      CodeFree text parsed.tree →
      ∀ v ∈ parsed.tree.nodes, ignored (attached language text parsed) v = true →
        ∀ w, slice? text v.start v.stop = some w → w.toList <:+: s.toList := by
  intro h
  have hformat : formatter.format keptText { parser := some "javascript" } =
      .ok "// docfmt-ignore\na // c\nb;\n" := by
    decide +kernel
  have hparse : (parse keptText).toOption.map (fun p => (p.tree.nodes.map kindOf,
      p.tree.nodes.any fun v => ignored (attached language keptText p) v &&
        slice? keptText v.start v.stop == some "a // c  ")) =
      some ([.program, .expressionStatement, .identifier, .expressionStatement, .identifier],
        true) := by
    decide +kernel
  obtain ⟨parsed, hparsed, hparse⟩ := Option.map_eq_some_iff.mp hparse
  have hparsed := Formatter.eq_ok_of_toOption hparsed
  rw [Prod.mk.injEq] at hparse
  obtain ⟨v, hv, hcopy⟩ := List.any_eq_true.mp hparse.2
  rw [Bool.and_eq_true, beq_iff_eq] at hcopy
  have hfree : CodeFree keptText parsed.tree := codeFree_of_kinds (by simp [hparse.1])
  have hinfix := h keptText _ { parser := some "javascript" } parsed rfl rfl rfl hformat hparsed
    hfree v hv hcopy.1 _ hcopy.2
  revert hinfix
  decide +kernel

end CodeFormatter.JavaScript
