import CodeFormatter.JavaScript
import CodeFormatter.Proofs.Walk.Coverage
import Mathlib.Data.Option.Basic

/-!
# Where comments reside

The general rules give a comment to a node next to it, or to the innermost node that holds it. This
language moves some comments: into a body that follows them, and into a branch whose `else` follows
them. `Resides` lists the places that are left.

**Copies.** The copy of a node has the comments in it that reside with the nodes below it
(`Resides.holds_of_mem`). The exception is a block that a comment has moved into, because the
comment stands in front of it.
-/

namespace CodeFormatter.JavaScript

open Attach CodeFormatter.Tree

variable {root t a o : Node} {start stop : Nat} {placement : Placement}

/-! ## Shapes -/

/-- What the grammar promises of a tree: the nodes that own no comments and the strings are leaves,
there is something to attach a comment to in a list that is not empty, and in a block there are
statements. -/
structure Shaped (root : Node) : Prop where
  transparent : ∀ t ∈ root.nodes, language.canAttach t = false → t.children = []
  leaf : ∀ t ∈ root.nodes, kindOf t = .string → t.children = []
  filled : ∀ t ∈ root.nodes, Printer.printsDangling (kindOf t) = true →
    kindOf t = .program ∨ kindOf t = .statementBlock ∨ t.children = [] ∨
      ∃ c ∈ t.children, language.canAttach c = true
  statements : ∀ t ∈ root.nodes, kindOf t = .statementBlock →
    ∀ c ∈ t.children, kindOf c ≠ .optionalChain

theorem canAttach_iff : language.canAttach t = true ↔
    kindOf t ≠ .optionalChain ∧ kindOf t ≠ .emptyStatement := by
  simp [language]

theorem Shaped.copyable (h : Shaped root) (ht : t ∈ root.nodes) :
    Copyable language.canAttach root t := by
  cases hattach : language.canAttach t with
  | false => exact .inr (.inl (h.transparent t ht hattach))
  | true => exact .inr (.inr hattach)

/-- No node has to be looked through. -/
theorem Shaped.ownersBelow_sublist (h : Shaped root) (ht : t ∈ root.nodes) :
    (ownersBelow language.canAttach t).Sublist t.children := by
  have hnil : ∀ c ∈ t.children, language.canAttach c = false →
      ownersBelow language.canAttach c = [] := by
    intro c hc hattach
    have hleaf := h.transparent c (mem_nodes_trans (mem_nodes_of_mem_children hc
      (mem_nodes_self c)) ht) hattach
    rw [ownersBelow_eq, hleaf, List.flatMap_nil]
  rw [ownersBelow_eq]
  generalize t.children = ts at hnil
  induction ts with
  | nil => exact .slnil
  | cons c rest ih =>
    have hrest := ih fun d hd => hnil d (List.mem_cons_of_mem c hd)
    rw [List.flatMap_cons]
    cases hattach : language.canAttach c with
    | false =>
      rw [if_neg Bool.false_ne_true, hnil c List.mem_cons_self hattach]
      exact hrest.cons c
    | true => exact hrest.cons_cons c

/-! ## Residences -/

/-- The owner and the placement that a comment can have. -/
inductive Resides (root : Node) (start stop : Nat) : Node → Placement → Prop
  | home {a o : Node} {placement : Placement}
      (home : Home language.canAttach root start stop a o placement) :
      Resides root start stop o placement
  /-- In a block that follows, before the first statement. -/
  | body {a b o : Node} {placement : Placement}
      (anchor : Anchor language.canAttach root start stop a)
      (hb : b ∈ ownersBelow language.canAttach a) (hkind : kindOf b = .statementBlock)
      (ho : o = b ∧ placement = .dangling ∨
        o ∈ b.children ∧ kindOf o ≠ .emptyStatement ∧ placement = .leading) :
      Resides root start stop o placement
  /-- Between the branches. -/
  | fork {a : Node} (anchor : Anchor language.canAttach root start stop a)
      (hkind : kindOf a = .ifStatement) (hlength : 2 < a.children.length) :
      Resides root start stop a .dangling

namespace Resides

theorem mem_nodes (h : Resides root start stop o placement) : o ∈ root.nodes := by
  cases h with
  | home h => exact h.mem_nodes
  | fork anchor => exact anchor.mem
  | body anchor hb _ ho =>
    have hb := mem_nodes_trans (mem_nodes_of_mem_ownersBelow hb) anchor.mem
    rcases ho with ⟨rfl, -⟩ | ⟨ho, -⟩
    · exact hb
    · exact mem_nodes_trans (mem_nodes_of_mem_children ho (mem_nodes_self o)) hb

/-- Only nodes that can own comments, and the root, own any. -/
theorem canAttach (h : Resides root start stop o placement) (hshape : Shaped root) :
    o = root ∨ language.canAttach o = true := by
  cases h with
  | home h =>
    cases h.rests with
    | leading ho => exact .inr (of_mem_ownersBelow ho).1
    | trailing ho => exact .inr (of_mem_ownersBelow ho).1
    | dangling => exact h.holds.imp_right And.left
  | fork anchor => exact anchor.holds.imp_right And.left
  | body anchor hb hkind ho =>
    rcases ho with ⟨rfl, -⟩ | ⟨ho, hne, -⟩
    · exact .inr (of_mem_ownersBelow hb).1
    · have hb := mem_nodes_trans (mem_nodes_of_mem_ownersBelow hb) anchor.mem
      exact .inr (canAttach_iff.mpr ⟨hshape.statements _ hb hkind o ho, hne⟩)

/-- The nodes that comments dangle from. -/
theorem of_dangling (h : Resides root start stop t .dangling) :
    ownersBelow language.canAttach t = [] ∨ kindOf t = .statementBlock ∨
      kindOf t = .ifStatement ∧ 2 < t.children.length := by
  cases h with
  | home h =>
    cases h.rests with
    | dangling hnil => exact .inl hnil
  | fork _ hkind hlength => exact .inr (.inr ⟨hkind, hlength⟩)
  | body _ _ hkind ho =>
    rcases ho with ⟨rfl, -⟩ | ⟨-, -, hne⟩
    · exact .inr (.inl hkind)
    · cases hne

/-- **Copies.** What resides with the nodes of a copy is in it, or next to the copied node, or it
has moved into a block and only the block is copied. -/
theorem holds_of_mem (h : Resides root start stop o placement) (hroot : root.WellFormed)
    (hshape : Shaped root) (hspan : root.Holds start stop) (ht : t ∈ root.nodes)
    (hot : o ∈ t.nodes) :
    t.Holds start stop ∨ o = t ∧ placement ≠ .dangling ∨
      kindOf t = .statementBlock ∧ (o = t ∨ o ∈ t.children) := by
  have hcopy := hshape.copyable ht
  cases h with
  | home h =>
    by_cases hnext : o = t ∧ placement ≠ .dangling
    · exact .inr (.inl hnext)
    · refine .inl (h.holds_of_mem hroot hspan ht hcopy hot fun heq => ?_)
      by_contra hne
      exact hnext ⟨heq, hne⟩
  | fork anchor => exact .inl ((hroot.of_mem ht).holds_of_mem hot (anchor.holds_span hspan))
  | @body a b _ _ anchor hb hkind ho =>
    have hbroot := mem_nodes_trans (mem_nodes_of_mem_ownersBelow hb) anchor.mem
    by_cases hbt : b ∈ t.nodes
    · by_cases hne : b = t
      · subst hne
        exact .inr (.inr ⟨hkind, ho.imp And.left And.left⟩)
      · refine .inl ((hroot.of_mem ht).holds_of_mem ?_ (anchor.holds_span hspan))
        exact anchor.mem_of_owner hroot ht hcopy hb hbt hne
    · -- A node in the block with the owner in it is the owner.
      rcases ho with ⟨rfl, -⟩ | ⟨ho, -, rfl⟩
      · exact absurd hot hbt
      have hself := mem_nodes_of_mem_children ho (mem_nodes_self o)
      have htb := (hroot.nested hbroot ht hself hot).resolve_left hbt
      rcases Tree.mem_nodes.mp htb with rfl | ⟨d, hd, htd⟩
      · exact absurd (mem_nodes_self t) hbt
      obtain rfl := (hroot.of_mem hbroot).eq_of_mem_nodes ho hd (mem_nodes_self o)
        (mem_nodes_trans hot htd)
      exact .inr (.inl ⟨mem_nodes_antisymm hot htd, by simp⟩)

end Resides

/-! ## Moved comments -/

section Moved

variable {s : Surroundings Info} {owner : Nat}

theorem resides_in_body (hroot : root.WellFormed)
    (h : Around language.canAttach root start stop a s)
    (howner : CommentText.ownerInBody? s = some (owner, placement)) :
    ∃ o, o.id = owner ∧ Resides root start stop o placement := by
  obtain ⟨enclosing, preceding, following⟩ := s
  simp only [CommentText.ownerInBody?, Option.bind_eq_bind, Option.bind_eq_some_iff] at howner
  obtain ⟨e, rfl, f, rfl, ⟨body, blocksOnly⟩, hbody, ⟨⟩, hid, howner⟩ := howner
  have hf := h.neighbours.mem_following
  split at howner
  · rename_i hblock
    split at howner <;> cases howner
    · rename_i first hfirst
      refine ⟨first, rfl, .body h.toAnchor hf hblock
        (.inr ⟨List.mem_of_find?_eq_some hfirst, ?_, rfl⟩)⟩
      simpa using List.find?_some hfirst
    · exact ⟨f, rfl, .body h.toAnchor hf hblock (.inl ⟨rfl, rfl⟩)⟩
  · split at howner <;> cases howner
    exact ⟨f, rfl, .home ⟨h.toAnchor, fun v => h.innermost hroot,
      .leading hf (h.neighbours.after f rfl).1⟩⟩

/-- A node with a second child and a child after that has three of them. -/
theorem two_lt_length {p f : Node} (hroot : root.WellFormed) (ha : a ∈ root.nodes)
    (hsub : [p, f].Sublist a.children) (hp : a.children[1]?.any (·.id == p.id) = true) :
    2 < a.children.length := by
  have hchild : ∀ {c}, c ∈ a.children → c ∈ root.nodes := fun hc =>
    mem_nodes_trans (mem_nodes_of_mem_children hc (mem_nodes_self _)) ha
  cases hsecond : a.children[1]? with
  | none => simp [hsecond] at hp
  | some q =>
    rw [hsecond, Option.any_some, beq_iff_eq] at hp
    obtain rfl := hroot.eq_of_id_eq (hchild (List.mem_of_getElem? hsecond))
      (hchild (hsub.subset List.mem_cons_self)) hp
    by_contra hlength
    -- With two children only, the second one would have to come first.
    have hnodup := (hroot.of_mem ha).nodup_children
    rw [← hsub.eq_of_length_le (Nat.le_of_not_lt hlength)] at hsecond hnodup
    cases hsecond
    simp at hnodup

theorem resides_before_else (hroot : root.WellFormed) (hshape : Shaped root)
    (h : Around language.canAttach root start stop a s)
    (howner : CommentText.ownerBeforeElse? s = some (owner, placement)) :
    ∃ o, o.id = owner ∧ Resides root start stop o placement := by
  obtain ⟨enclosing, preceding, following⟩ := s
  simp only [CommentText.ownerBeforeElse?, Option.bind_eq_bind, Option.bind_eq_some_iff] at howner
  obtain ⟨e, rfl, p, rfl, f, rfl, ⟨⟩, hguard, howner⟩ := howner
  obtain rfl : e = a := h.enclosing
  rw [Option.guard_eq_some', Bool.and_eq_true, Bool.and_eq_true, decide_eq_true_eq] at hguard
  split at howner <;> cases howner
  · exact ⟨p, rfl, .home ⟨h.toAnchor, fun v => h.innermost hroot,
      .trailing h.neighbours.mem_preceding (h.neighbours.before p rfl).1⟩⟩
  · have hsub := h.neighbours.sublist.trans (hshape.ownersBelow_sublist h.mem)
    exact ⟨e, rfl, .fork h.toAnchor hguard.1.1 (two_lt_length hroot h.mem hsub hguard.2)⟩

/-- **Moved comments** are in one of the places that are listed. -/
theorem resides_of_owner? {c : Comment} (hroot : root.WellFormed) (hshape : Shaped root)
    (h : Around language.canAttach root start stop a s)
    (howner : CommentText.owner? c s = some (owner, placement)) :
    ∃ o, o.id = owner ∧ Resides root start stop o placement := by
  rw [CommentText.owner?] at howner
  cases hbody : if c.block then none else CommentText.ownerInBody? s with
  | none =>
    rw [hbody] at howner
    exact resides_before_else hroot hshape h howner
  | some answer =>
    rw [hbody] at howner
    cases howner
    split at hbody
    · cases hbody
    · exact resides_in_body hroot h hbody

end Moved

/-! ## The comments of a text -/

/-- All comments are in the tree, and have owners where they reside. -/
structure Resident (root : Node) (done : Comments) : Prop where
  wellFormed : root.WellFormed
  shaped : Shaped root
  consistent : done.Consistent
  spanned : ∀ i c, done.get? i = some c → root.Holds c.start c.stop
  resides : ∀ i c, done.get? i = some c → ∃ o placement,
    Resides root c.start c.stop o placement ∧ done.Owned i o.id placement

/-- **Every comment resides somewhere.** -/
theorem resident_attach {comments : List Comment} (hroot : root.WellFormed) (hshape : Shaped root)
    (hspan : ∀ c ∈ comments, root.Holds c.start c.stop)
    (hclear : ∀ c ∈ comments, Clear language.canAttach root c.start c.stop) (text : String) :
    Resident root (attach language root text (.ofList comments)) := by
  obtain ⟨hconsistent, hbare, -, hplaced⟩ :=
    reached_attach language root text (Comments.consistent_ofList comments)
  have hmem : ∀ {i c}, (Comments.ofList comments).get? i = some c → c ∈ comments := fun hc =>
    (Comments.perm_sortByStart comments).mem_iff.mp (List.mem_of_getElem? hc)
  have hclear : ∀ i c, (Comments.ofList comments).get? i = some c →
      Clear language.canAttach root c.start c.stop := fun i c hc => hclear c (hmem hc)
  refine ⟨hroot, hshape, hconsistent, fun i c hc => ?_, fun i c hc => ?_⟩ <;>
    obtain ⟨d, hd, hstart, hstop⟩ := Comments.get?_of_bare_eq hbare.symm hc <;>
    rw [← hstart, ← hstop]
  · exact hspan d (hmem hd)
  · rcases (hplaced i (List.getElem?_eq_some_iff.mp hd).1).exists_home hroot hclear hd with
      ⟨owner, placement, howned, hclaims⟩ | ⟨a, o, placement, hhome, howned⟩
    · obtain ⟨a, haround⟩ := around_surroundings (hclear i d hd)
      obtain ⟨o, rfl, hresides⟩ := resides_of_owner? hroot hshape haround hclaims
      exact ⟨o, placement, hresides, howned⟩
    · exact ⟨o, placement, .home hhome, howned⟩

end CodeFormatter.JavaScript
