import CodeFormatter.Proofs.JavaScript.Residence
import CodeFormatter.Proofs.JavaScript.Visits
import CodeFormatter.Proofs.SelfCheck

/-!
# No comment is lost, but for two kinds

Every comment is meant to be in the output. It is, with two exceptions (`Stranded`), in which
formatting fails because a comment is missing:

* a comment that has moved into a block which is to be left as it is. The comment stands in front of
  the block, so the copy of the block does not have it.
* a comment that belongs to a template with code. The template is not printed; the code in it is.

**Theorem (`printTree_prints_comments`).** When the tree of a text has been printed, every comment
that is not stranded has been printed, whichever node owns it and however that node, or one above
it, was printed.
-/

namespace CodeFormatter.JavaScript

open Attach CodeFormatter.Tree Walk Printer

variable {scene : Scene} {root t : Node} {done : Comments} {i : Nat}

/-! ## What is due -/

/-- Does a comment ask for the node to be left as it is? -/
def ignored (cs : Comments) (t : Node) : Bool :=
  (cs.of t.id).any fun i =>
    (cs.get? i).any fun c => c.placement == some .leading && CommentText.isIgnore c

/-- Comments that are not printed. -/
inductive Stranded (scene : Scene) (root : Node) (done : Comments) (i : Nat) : Prop
  /-- In a block that is left as it is, in front of which the comment stands. -/
  | block {b o : Node} {c : Comment} (hb : b ∈ root.nodes) (hkind : kindOf b = .statementBlock)
      (hignored : ignored done b = true) (hc : done.get? i = some c)
      (hout : ¬ b.Holds c.start c.stop) (ho : o = b ∨ o ∈ b.children)
      (howner : done.owner? i = some o.id)
  /-- At a template with code. -/
  | template {call tag template o : Node} {s : String} (hcall : call ∈ root.nodes)
      (hkind : kindOf call = .callExpression) (hparts : call.children = [tag, template])
      (htag : kindOf tag = .identifier) (htemplate : kindOf template = .templateString)
      (hsource : sliceOrError scene.text tag.start tag.stop = .ok s)
      (hcode : Embedded.isCodeTag s = true) (ho : o ∈ template.nodes)
      (howner : done.owner? i = some o.id)

/-- The comment belongs to one of the nodes, and can be printed with them. -/
def Due (scene : Scene) (root : Node) (done : Comments) (t : Node) (i : Nat) : Prop :=
  (∃ o ∈ t.nodes, done.owner? i = some o.id) ∧ ¬ Stranded scene root done i

/-- The comment is to be printed next to the node. -/
def Flanks (done : Comments) (t : Node) (i : Nat) : Prop :=
  i ∈ done.of t.id ∧ isBeside done i = true

theorem Due.owner_or_child (h : Due scene root done t i) :
    done.owner? i = some t.id ∨ ∃ c ∈ t.children, Due scene root done c i := by
  obtain ⟨⟨o, ho, howner⟩, hstranded⟩ := h
  rcases mem_nodes.mp ho with rfl | ⟨c, hc, ho⟩
  · exact .inl howner
  · exact .inr ⟨c, hc, ⟨o, ho, howner⟩, hstranded⟩

namespace Resident

/-- The owner of a comment is where it resides. -/
theorem exists_resides (h : Resident root done) {o : Node} (ho : o ∈ root.nodes)
    (howner : done.owner? i = some o.id) : ∃ c placement, done.get? i = some c ∧
      done.placement? i = some placement ∧ Resides root c.start c.stop o placement := by
  obtain ⟨c, hc⟩ := h.consistent.exists_get? howner
  obtain ⟨o', placement, hresides, howner', c', hc', -, hplacement⟩ := h.resides i c hc
  rw [howner', Option.some.injEq] at howner
  obtain rfl := h.wellFormed.eq_of_id_eq hresides.mem_nodes ho howner
  refine ⟨c, placement, hc, ?_, hresides⟩
  rw [Comments.placement?, hc', Option.bind_some, hplacement]

/-- A comment of a node is printed next to it or inside it. -/
theorem flanks_or_dangles (h : Resident root done) (ht : t ∈ root.nodes)
    (howner : done.owner? i = some t.id) : Flanks done t i ∨ Dangles done t i := by
  obtain ⟨c, placement, -, hplacement, -⟩ := h.exists_resides ht howner
  have hmem := h.consistent.mem_of.mpr howner
  cases placement with
  | leading => exact .inl ⟨hmem, by simp [isBeside, hplacement]⟩
  | trailing => exact .inl ⟨hmem, by simp [isBeside, hplacement]⟩
  | dangling => exact .inr ⟨hmem, by simp [isInside, hplacement]⟩

/-- A node that cannot own comments owns none. -/
theorem owner?_ne (h : Resident root done) (ht : t ∈ root.nodes) {c : Node} (hc : c ∈ t.children)
    (hattach : language.canAttach c = false) : done.owner? i ≠ some c.id := by
  intro howner
  have hcroot := mem_nodes_trans (mem_nodes_of_mem_children hc (mem_nodes_self c)) ht
  obtain ⟨_, _, _, _, hresides⟩ := h.exists_resides hcroot howner
  rcases hresides.canAttach h.shaped with rfl | htrue
  · exact not_mem_nodes_of_mem_children hc ht
  · rw [hattach] at htrue
    cases htrue

/-- Nothing is due for a node that cannot own comments. -/
theorem not_due (h : Resident root done) (ht : t ∈ root.nodes) {c : Node} (hc : c ∈ t.children)
    (hattach : language.canAttach c = false) : ¬ Due scene root done c i := by
  rintro ⟨⟨o, ho, howner⟩, -⟩
  have hcroot := mem_nodes_trans (mem_nodes_of_mem_children hc (mem_nodes_self c)) ht
  rw [mem_nodes, h.shaped.transparent c hcroot hattach] at ho
  obtain rfl : o = c := ho.resolve_right (by simp)
  exact h.owner?_ne ht hc hattach howner

/-- A copy has all that is due, but for what is next to it and what has moved into it. -/
theorem holds_of_due (h : Resident root done) (ht : t ∈ root.nodes)
    (hi : Due scene root done t i) (hnext : ¬ Flanks done t i) : ∃ c, done.get? i = some c ∧
      (t.Holds c.start c.stop ∨ kindOf t = .statementBlock ∧
        ∃ o, (o = t ∨ o ∈ t.children) ∧ done.owner? i = some o.id) := by
  obtain ⟨⟨o, ho, howner⟩, -⟩ := hi
  obtain ⟨c, placement, hc, hplacement, hresides⟩ :=
    h.exists_resides (mem_nodes_trans ho ht) howner
  refine ⟨c, hc, ?_⟩
  rcases hresides.holds_of_mem h.wellFormed h.shaped (h.spanned i c hc) ht ho with
    hholds | ⟨rfl, hbeside⟩ | ⟨hkind, hplace⟩
  · exact .inl hholds
  · refine absurd ⟨h.consistent.mem_of.mpr howner, ?_⟩ hnext
    cases placement <;> simp_all [isBeside]
  · exact .inr ⟨hkind, o, hplace, howner⟩

theorem of_dangles (h : Resident root done) (ht : t ∈ root.nodes) (hi : Dangles done t i) :
    ownersBelow language.canAttach t = [] ∨ kindOf t = .statementBlock ∨
      kindOf t = .ifStatement ∧ 2 < t.children.length := by
  obtain ⟨c, placement, -, hplacement, hresides⟩ :=
    h.exists_resides ht (h.consistent.mem_of.mp hi.1)
  have hinside := hi.2
  rw [isInside, hplacement, beq_iff_eq, Option.some.injEq] at hinside
  subst hinside
  exact hresides.of_dangling

/-- Comments dangle where the printer puts them. -/
theorem dangling_place (h : Resident root done) (ht : t ∈ root.nodes)
    (hprints : printsDangling (kindOf t) = true) (hi : Dangles done t i) :
    kindOf t = .program ∨ kindOf t = .statementBlock ∨ t.children = [] ∨
      kindOf t = .ifStatement ∧ 2 < t.children.length := by
  rcases h.of_dangles ht hi with hnil | hblock | hfork
  · refine (h.shaped.filled t ht hprints).imp_right fun hplace => hplace.imp_right fun hplace => ?_
    refine .inl (hplace.resolve_right ?_)
    rintro ⟨d, hd, hattach⟩
    exact ownersBelow_ne_nil hd hattach hnil
  · exact .inr (.inl hblock)
  · exact .inr (.inr (.inr hfork))

end Resident

/-! ## Nodes -/

/-- The nodes below a node, as its printer gets them. -/
def below (scene : Scene) (ancestors : List Node) (t : Node) : List Child :=
  Printable.ofTrees language scene (t :: ancestors) t.children

section Nodes

variable {ancestors : List Node}

theorem children_ofTree (scene : Scene) (ancestors : List Node) (t : Node) :
    (Printable.ofTree language scene ancestors t).children = below scene ancestors t := by
  cases t
  rfl

theorem mem_below {p : Child} : p ∈ below scene ancestors t ↔
    ∃ c ∈ t.children, Printable.ofTree language scene (t :: ancestors) c = p := by
  rw [below, ofTrees_eq, List.mem_map]

theorem map_node_below (scene : Scene) (ancestors : List Node) (t : Node) :
    (below scene ancestors t).map (·.node) = t.children := by
  rw [below, ofTrees_eq, List.map_map]
  exact List.map_id'' (fun c => node_ofTree language scene (t :: ancestors) c) t.children

/-- What a node leaves to its printer. -/
def Rest (scene : Scene) (root : Node) (done : Comments) (t : Node) (i : Nat) : Prop :=
  Due scene root done t i ∧ ¬ Flanks done t i

theorem reads_isIgnored (t : Node) : Reads done (isIgnored language t) (ignored done t) := by
  -- A mark does not change what a comment asks for.
  have hunmarked : ∀ cs : Comments, ignored cs t = ignored cs.unmarked t := fun cs => by
    simp only [ignored, Comments.get?_unmarked, Option.any_map]
    rfl
  refine reads_comments (g := fun cs => ignored cs t) fun cs cs' h => ?_
  rw [hunmarked, h, ← hunmarked]

namespace Resident

/-- What is left to the printer belongs to the nodes below, or is inside. -/
theorem visits_or_dangles (h : Resident root done) (ht : t ∈ root.nodes)
    (hi : Rest scene root done t i) :
    Visits (Due scene root done) (below scene ancestors t) i ∨ Dangles done t i := by
  rcases hi.1.owner_or_child with howner | ⟨c, hc, hdue⟩
  · exact .inr ((h.flanks_or_dangles ht howner).resolve_left hi.2)
  · refine .inl ⟨_, mem_below.mpr ⟨c, hc, rfl⟩, ?_⟩
    rwa [node_ofTree]

theorem parts (h : Resident root done) (ht : t ∈ root.nodes)
    (hsound : ∀ c ∈ t.children, ∀ ancestors,
      Sound done (Due scene root done) (Printable.ofTree language scene ancestors c)) :
    Parts done (Due scene root done) t (below scene ancestors t) where
  sound p hp := by
    obtain ⟨c, hc, rfl⟩ := mem_below.mp hp
    exact hsound c hc _
  skipped p hp hattach i := by
    obtain ⟨c, hc, rfl⟩ := mem_below.mp hp
    rw [node_ofTree] at hattach ⊢
    exact h.not_due ht hc hattach
  chained t i hi hnone := by
    refine hi.owner_or_child.resolve_left fun howner => ?_
    have hmem := h.consistent.mem_of.mpr howner
    rw [hnone] at hmem
    cases hmem
  leaf hkind := by
    rw [below, h.shaped.leaf t ht hkind, Printable.ofTrees]
  dangling hprints i hi := by
    have hplace := h.dangling_place ht hprints hi
    rw [← map_node_below scene ancestors t] at hplace
    simpa using hplace

/-- A node that is to be left as it is is copied. -/
theorem marks_ignored (h : Resident root done) (ht : t ∈ root.nodes)
    (hignored : ignored done t = true) :
    Marks done (verbatim scene t) fun _ => Rest scene root done t := by
  refine (marks_verbatim scene t).mono fun _ i hi => ?_
  obtain ⟨c, hc, hholds | ⟨hkind, o, ho, howner⟩⟩ := h.holds_of_due ht hi.1 hi.2
  · exact ⟨c, hc, hholds⟩
  · refine ⟨c, hc, ?_⟩
    by_contra hout
    exact hi.1.2 (.block ht hkind hignored hc hout ho howner)

/-- A template with code has no comments but stranded ones. -/
theorem due_of_tagged? (h : Resident root done) (ht : t ∈ root.nodes) {tag template : Child}
    {s : String}
    (htagged : Embedded.tagged? t (below scene ancestors t) = some (tag, template))
    (hs : sliceOrError scene.text tag.node.start tag.node.stop = .ok s)
    (hcode : Embedded.isCodeTag s = true) (hi : Rest scene root done t i) :
    Due scene root done tag.node i := by
  obtain ⟨hkind, hchildren, htag, htemplate⟩ := Embedded.of_tagged? htagged
  have hparts : t.children = [tag.node, template.node] := by
    rw [← map_node_below scene ancestors t, hchildren]
    rfl
  have hdangles : ¬ Dangles done t i := by
    intro hdangles
    rcases h.of_dangles ht hdangles with hnil | hblock | ⟨hfork, -⟩
    · have hattach : language.canAttach tag.node = true := canAttach_iff.mpr (by simp [htag])
      exact ownersBelow_ne_nil (hparts ▸ List.mem_cons_self) hattach hnil
    · simp [hkind] at hblock
    · simp [hkind] at hfork
  obtain ⟨p, hp, hdue⟩ := (h.visits_or_dangles ht hi).resolve_right hdangles
  rw [hchildren] at hp
  rcases List.mem_pair.mp hp with rfl | rfl
  · exact hdue
  · obtain ⟨⟨o, ho, howner⟩, hstranded⟩ := hdue
    exact absurd (.template ht hkind hparts htag htemplate hs hcode ho howner) hstranded

theorem marks_layout (h : Resident root done) (ht : t ∈ root.nodes)
    (hparts : Parts done (Due scene root done) t (below scene ancestors t)) :
    Marks done (Printer.print scene ⟨t, ancestors⟩ (below scene ancestors t)) fun _ =>
      Rest scene root done t := by
  refine Parts.marks_print ⟨t, ancestors⟩ hparts (fun i hi => h.visits_or_dangles ht hi)
    fun hkind i hi => ?_
  obtain ⟨c, hc, hholds | ⟨hblock, -⟩⟩ := h.holds_of_due ht hi.1 hi.2
  · exact ⟨c, hc, hholds⟩
  · exact absurd hblock hkind

theorem marks_printNode (h : Resident root done) (ht : t ∈ root.nodes)
    (hparts : Parts done (Due scene root done) t (below scene ancestors t)) :
    Marks done (printNode language scene ⟨t, ancestors⟩ (below scene ancestors t)) fun _ =>
      Rest scene root done t := by
  refine (reads_isIgnored t).bind_marks ?_
  split
  · rename_i hignored
    exact h.marks_ignored ht hignored
  · have hembed := Embedded.marks_print ⟨t, ancestors⟩ (fun c => hparts.prints)
      fun tag template s htagged hs hcode i hi => h.due_of_tagged? ht htagged hs hcode hi
    exact hembed.bind_option (fun _ => quiet_pure _) (h.marks_layout ht hparts)

theorem prints (h : Resident root done) (ht : t ∈ root.nodes)
    (hparts : Parts done (Due scene root done) t (below scene ancestors t)) :
    Prints done (Due scene root done) (Printable.ofTree language scene ancestors t) := by
  rw [Prints, print_ofTree, node_ofTree]
  refine ((h.marks_printNode ht hparts).seq fun doc =>
    marks_withComments language scene t _).mono fun _ i hi => ?_
  by_cases hnext : Flanks done t i
  · exact .inr hnext
  · exact .inl ⟨hi, hnext⟩

/-- **What a node marks**: all that is due for it and for the nodes below it. -/
theorem sound (h : Resident root done) (scene : Scene) (ht : t ∈ root.nodes)
    (ancestors : List Node) :
    Sound done (Due scene root done) (Printable.ofTree language scene ancestors t) := by
  induction t using Tree.induction generalizing ancestors with
  | node t ih =>
    have hchildren : ∀ c ∈ t.children, ∀ ancestors,
        Sound done (Due scene root done) (Printable.ofTree language scene ancestors c) :=
      fun c hc => ih c hc (mem_nodes_trans (mem_nodes_of_mem_children hc (mem_nodes_self c)) ht)
    have hparts : Parts done (Due scene root done) t (below scene ancestors t) :=
      h.parts ht hchildren
    refine .intro (h.prints ht hparts) ?_ ?_
    · rw [children_ofTree, node_ofTree, map_node_below]
    · rw [children_ofTree]
      exact hparts.sound

end Resident

end Nodes

/-! ## Whole trees -/

/-- **Comments are printed, or stranded.** When a tree has been printed, each comment that is not
stranded has been printed, so that a missing one is stranded. -/
theorem printTree_prints_comments (scene : Scene) (root : Node) (comments : List Comment)
    (hroot : root.WellFormed) (hshape : Shaped root)
    (hspan : ∀ c ∈ comments, root.Holds c.start c.stop)
    (hclear : ∀ c ∈ comments, Clear language.canAttach root c.start c.stop) (alignment : Nat)
    (group : GroupId) {d : Doc} {st' : WalkState}
    (hrun : printTree language scene root alignment
      ⟨attach language root scene.text (.ofList comments), group⟩ = .ok (d, st')) :
    (∀ i < comments.length, IsPrinted st'.comments i ∨
      Stranded scene root (attach language root scene.text (.ofList comments)) i) ∧
    ∀ e, Pipeline.ensureAllPrinted st'.comments = .error e → ∃ i c,
      st'.comments.get? i = some c ∧ e = .commentNotPrinted (trim c.text) ∧
      Stranded scene root (attach language root scene.text (.ofList comments)) i := by
  have h := resident_attach hroot hshape hspan hclear scene.text
  have hsize : (attach language root scene.text (.ofList comments)).size = comments.length := by
    rw [← Comments.length_bare, (reached_attach language root scene.text
      (Comments.consistent_ofList comments)).2.1, Comments.length_bare, Comments.size_ofList]
  generalize attach language root scene.text (.ofList comments) = done at *
  have hmarks : Marks done (printTree language scene root alignment) fun _ =>
      Due scene root done root := by
    have hprints := (h.sound scene (mem_nodes_self root) []).prints
    rw [Prints, node_ofTree] at hprints
    exact hprints.bind_quiet fun _ => quiet_pure _
  obtain ⟨hunmarked, hprinted⟩ := hmarks _ _ _ rfl hrun
  have hall : ∀ i < comments.length, IsPrinted st'.comments i ∨ Stranded scene root done i := by
    intro i hi
    by_cases hstranded : Stranded scene root done i
    · exact .inr hstranded
    · obtain ⟨c, hc⟩ := Comments.get?_eq_some_of_lt (hsize ▸ hi)
      obtain ⟨o, placement, hresides, howner, -⟩ := h.resides i c hc
      exact .inl (hprinted i (.inr ⟨⟨o, hresides.mem_nodes, howner⟩, hstranded⟩))
  refine ⟨hall, fun e he => ?_⟩
  unfold Pipeline.ensureAllPrinted at he
  split at he
  · rename_i c hc
    cases he
    obtain ⟨i, hi, rfl⟩ := List.getElem_of_mem (List.mem_of_find?_eq_some hc)
    have hget : st'.comments.get? i = some st'.comments.list[i] := List.getElem?_eq_getElem hi
    have hlt : i < comments.length := by
      rw [← hsize, ← Comments.length_bare, ← Comments.bare_eq_of_unmarked hunmarked,
        Comments.length_bare]
      exact hi
    refine ⟨i, _, hget, rfl, (hall i hlt).resolve_left ?_⟩
    rintro ⟨c', hc', hmark⟩
    rw [hget, Option.some.injEq] at hc'
    have hunprinted := List.find?_some hc
    rw [hc', hmark] at hunprinted
    cases hunprinted
  · cases he

/-! ## A loop with two comments -/

/-- A loop before whose body a comment stands, with another one at a template. -/
def loopScene : Scene where
  language := "javascript"
  text := "while (a) // c\n\x7b js /* d */ `e` \x7d"
  bytes := bytesOf "while (a) // c\n\x7b js /* d */ `e` \x7d"
  options := { parser := some "javascript" }
  cursorNode := none
  embedded := formatter.embedding 1

def loop : Node :=
  ⟨0, 0, 33, ⟨.program, [], none⟩, [⟨1, 0, 33, ⟨.whileStatement, ["while"], none⟩,
    [⟨2, 6, 9, ⟨.parenthesizedExpression, ["(", ")"], none⟩,
      [⟨3, 7, 8, ⟨.identifier, [], none⟩, []⟩]⟩,
    ⟨4, 15, 33, ⟨.statementBlock, ["\x7b", "\x7d"], none⟩,
      [⟨5, 17, 31, ⟨.expressionStatement, [], none⟩,
        [⟨6, 17, 31, ⟨.callExpression, [], none⟩,
          [⟨7, 17, 19, ⟨.identifier, [], none⟩, []⟩,
          ⟨8, 28, 31, ⟨.templateString, [], none⟩, []⟩]⟩]⟩]⟩]⟩]⟩

def loopComments : List Comment :=
  [{ text := "// c", start := 10, stop := 14, block := false },
    { text := "/* d */", start := 20, stop := 27, block := true }]

example : (parse loopScene.text).toOption.map (fun p => (p.comments, p.tree.nodes.map (·.id))) =
    some (loopComments, loop.nodes.map (·.id)) := by
  decide +kernel

example : ((parse loopScene.text).toOption.bind fun p =>
    (p.tree.dump language loopScene.text).toOption) =
      (loop.dump language loopScene.text).toOption := by
  decide +kernel

theorem wellFormed_loop : loop.WellFormed := by
  constructor <;> simp [loop, nodes, nodesAll]

theorem shaped_loop : Shaped loop := by
  constructor <;> simp [loop, nodes, nodesAll, language, kindOf, printsDangling]

theorem printTree_loop : ∃ d st', printTree language loopScene loop 0
    ⟨attach language loop loopScene.text (.ofList loopComments), 0⟩ = .ok (d, st') ∧
    st'.comments.list.map (·.printed) = [true, false] ∧
    ∀ i < loopComments.length, IsPrinted st'.comments i ∨
      Stranded loopScene loop (attach language loop loopScene.text (.ofList loopComments)) i := by
  have hspan : ∀ c ∈ loopComments, loop.Holds c.start c.stop := by
    simp [loopComments, loop, Holds]
  have hclear : ∀ c ∈ loopComments, Clear language.canAttach loop c.start c.stop := by
    simp [loopComments, Clear, loop, nodes, nodesAll, Holds, Avoids]
  have hmarks : (printTree language loopScene loop 0
      ⟨attach language loop loopScene.text (.ofList loopComments), 0⟩).toOption.map
        (fun r => r.2.comments.list.map (·.printed)) = some [true, false] := by
    decide +kernel
  obtain ⟨⟨d, st'⟩, hrun, hmarks⟩ := Option.map_eq_some_iff.mp hmarks
  have hrun := Formatter.eq_ok_of_toOption hrun
  exact ⟨d, st', hrun, hmarks, (printTree_prints_comments loopScene loop loopComments
    wellFormed_loop shaped_loop hspan hclear 0 0 hrun).1⟩

/-! ## Lost comments -/

theorem format_comment_at_template :
    formatter.format "js /* c */ `a`" { parser := some "javascript" } =
      .error (.commentNotPrinted "/* c */") := by
  decide +kernel

example : formatter.format "if (x) // a\n/* docfmt-ignore */ \x7b b \x7d"
    { parser := some "javascript" } = .error (.commentNotPrinted "// a") := by
  decide +kernel

/-- Comments can get lost. -/
theorem not_total :
    ¬ ∀ (text : String) (options : Options), options.validate = .ok () →
      options.parser = some "javascript" → (parse text).isOk →
      ∀ comment, formatter.format text options ≠ .error (.commentNotPrinted comment) := by
  intro h
  exact h "js /* c */ `a`" { parser := some "javascript" } rfl rfl (by decide +kernel) _
    format_comment_at_template

end CodeFormatter.JavaScript
