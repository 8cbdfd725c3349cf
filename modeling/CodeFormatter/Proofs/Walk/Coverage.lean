import CodeFormatter.Proofs.Walk.Emission
import CodeFormatter.Proofs.Comment.Attachment
import Mathlib.Algebra.GroupWithZero.Nat

/-!
# Every comment is written once

Ownership is by node, copies of the source are by span. The two agree at every node that is copied
(`Home.holds_iff`): the node holds the comments that dangle from it, and those of the nodes below it,
and no others. This is where the tree has to be well formed and comments have to be clear of its nodes.

**Counting.** A comment is held by the nodes that own it. The count is additive over a tree
(`held_eq`), as is what a run writes, so that they can be compared call by call: a child covers what the
nodes of the child hold, and a call for dangling comments what dangles from the node.

**Theorem (`Housed.emits_print`).** With all nodes below it, a node covers each of their comments once.
The induction is over the tree. At each node the printer of the language either copies the node, or asks
for each child and for the dangling comments once (`Complete`).
-/

namespace CodeFormatter

variable {α β : Type}

/-! ## Verbatim nodes -/

namespace Attach

open CodeFormatter.Tree

variable {f : Tree α → Bool} {root a o t : Tree α} {start stop : Nat} {placement : Placement}

/-- A node may be copied from the source: it is the root, has no children or can own comments. -/
def Copyable (f : Tree α → Bool) (root t : Tree α) : Prop :=
  t = root ∨ t.children = [] ∨ f t = true

/-- No node overlaps the span in part, and the root and nodes that can own comments are the only ones
that hold it. -/
structure Spaced (f : Tree α → Bool) (root : Tree α) (start stop : Nat) : Prop where
  spanned : root.Holds start stop
  apart : ∀ t ∈ root.nodes, t.Holds start stop ↔ ¬ t.Avoids start stop
  free : ∀ t ∈ root.nodes, t.Holds start stop → t = root ∨ f t = true

theorem Spaced.clear (h : Spaced f root start stop) : Clear f root start stop := fun t ht _ => by
  rw [h.apart t ht]
  exact (em _).symm

theorem Anchor.holds_span (h : Anchor f root start stop a) (hroot : root.Holds start stop) :
    a.Holds start stop := by
  rcases h.holds with rfl | ⟨-, ha⟩
  · exact hroot
  · exact ha

/-- A copied node above an owner is above the anchor, too: else it would stand between the two. -/
theorem Anchor.mem_of_owner (h : Anchor f root start stop a) (hroot : root.WellFormed)
    (ht : t ∈ root.nodes) (hcopy : Copyable f root t) (ho : o ∈ ownersBelow f a) (hot : o ∈ t.nodes)
    (hne : o ≠ t) : a ∈ t.nodes := by
  rcases hroot.nested h.mem ht (mem_nodes_of_mem_ownersBelow ho) hot with hat | hta
  · exact hat
  rcases mem_nodes.mp hta with rfl | ⟨c, hc, htc⟩
  · exact mem_nodes_self t
  rcases hcopy with rfl | hleaf | hf
  · exact h.mem
  · rw [mem_nodes, hleaf] at hot
    exact absurd (hot.resolve_right (by simp)) hne
  · exact absurd ((hroot.of_mem h.mem).eq_of_between ho hc htc hf hot) hne

/-- What the nodes below a copied node own, and what dangles from it, is in the copy. -/
theorem Home.holds_of_mem (h : Home f root start stop a o placement) (hroot : root.WellFormed)
    (hspan : root.Holds start stop) (ht : t ∈ root.nodes) (hcopy : Copyable f root t)
    (hot : o ∈ t.nodes) (hdangling : o = t → placement = .dangling) : t.Holds start stop := by
  refine (hroot.of_mem ht).holds_of_mem ?_ (h.toAnchor.holds_span hspan)
  cases h.rests with
  | leading ho =>
    exact h.toAnchor.mem_of_owner hroot ht hcopy ho hot fun heq => nomatch hdangling heq
  | trailing ho =>
    exact h.toAnchor.mem_of_owner hroot ht hcopy ho hot fun heq => nomatch hdangling heq
  | dangling => exact hot

/-- What a copied node holds is what the nodes below it own, and what dangles from it. -/
theorem Home.holds_iff (h : Home f root start stop a o placement) (hroot : root.WellFormed)
    (hspaced : Spaced f root start stop) (ht : t ∈ root.nodes) (hcopy : Copyable f root t) :
    t.Holds start stop ↔ o ∈ t.nodes ∧ (o = t → placement = .dangling) := by
  refine ⟨fun hholds => ?_, fun ⟨hot, hdangling⟩ =>
    h.holds_of_mem hroot hspaced.spanned ht hcopy hot hdangling⟩
  have hat : a ∈ t.nodes := by
    rcases hspaced.free t ht hholds with rfl | hf
    · exact h.mem
    · exact h.innermost t ht hf ((hspaced.apart t ht).mp hholds)
  have hnext : ∀ {o}, o ∈ ownersBelow f a → o ∈ t.nodes ∧ o ≠ t := by
    refine fun ho => ⟨mem_nodes_trans (mem_nodes_of_mem_ownersBelow ho) hat, ?_⟩
    rintro rfl
    exact absurd (depth_le_of_mem_nodes hat) (Nat.not_le_of_lt (depth_lt_of_mem_ownersBelow ho))
  cases h.rests with
  | leading ho => exact ⟨(hnext ho).1, fun heq => absurd heq (hnext ho).2⟩
  | trailing ho => exact ⟨(hnext ho).1, fun heq => absurd heq (hnext ho).2⟩
  | dangling => exact ⟨hat, fun _ => rfl⟩

end Attach

/-! ## How often a comment is written -/

namespace Walk

open Attach CodeFormatter.Tree

variable {language : Language α} {scene : Scene} {root t : Tree α} {done : Comments}
  {st st' st'' : WalkState} {i : Nat} {c : Comment}

/-- The number of nodes of a tree that own the comment. -/
def held (done : Comments) (t : Tree α) (i : Nat) : Nat :=
  t.nodes.countP fun u => done.owner? i == some u.id

/-- Is the comment one of those next to the node? -/
def beside (done : Comments) (t : Tree α) (i : Nat) : Nat :=
  if done.owner? i = some t.id ∧ isBeside done i = true then 1 else 0

/-- Is the comment one of those inside the node? -/
def inside (done : Comments) (t : Tree α) (i : Nat) : Nat :=
  if done.owner? i = some t.id ∧ isInside done i = true then 1 else 0

/-- The number of nodes below a node that own the comment, and one more if it dangles from the node. -/
def within (done : Comments) (t : Tree α) (i : Nat) : Nat :=
  inside done t i + (t.children.map fun c => held done c i).sum

/-- Every comment has a home, where no node overlaps it in part. -/
structure Housed (language : Language α) (root : Tree α) (done : Comments) : Prop where
  wellFormed : root.WellFormed
  consistent : done.Consistent
  spaced : ∀ i c, done.get? i = some c → Spaced language.canAttach root c.start c.stop
  home : ∀ i c, done.get? i = some c → ∃ a o placement,
    Home language.canAttach root c.start c.stop a o placement ∧ done.Owned i o.id placement

theorem held_eq (done : Comments) (t : Tree α) (i : Nat) :
    held done t i = (if done.owner? i = some t.id then 1 else 0) +
      (t.children.map fun c => held done c i).sum := by
  rw [held, nodes_eq, List.countP_cons, List.countP_flatMap, Nat.add_comm]
  simp only [beq_iff_eq]
  rfl

/-- A comment is next to its owner or inside of it. -/
theorem Housed.held_eq_within (h : Housed language root done) (hc : done.get? i = some c) (t : Tree α) :
    held done t i = within done t i + beside done t i := by
  obtain ⟨a, o, placement, -, howner, c', hc', -, hplacement⟩ := h.home i c hc
  have hplacement : done.placement? i = some placement := by
    rw [Comments.placement?, hc', Option.bind_some, hplacement]
  rw [held_eq, within, inside, beside, isInside, isBeside, hplacement, howner]
  cases placement <;> simp <;> omega

theorem Housed.held_eq_one (h : Housed language root done) {o : Tree α} (ht : t ∈ root.nodes)
    (ho : o ∈ t.nodes) (howner : done.owner? i = some o.id) : held done t i = 1 := by
  have hcount : held done t i = (t.nodes.map (·.id)).count o.id := by
    rw [held, List.count, List.countP_map, howner]
    refine List.countP_congr fun u _ => ?_
    rw [beq_iff_eq, Function.comp_apply, beq_iff_eq, Option.some.injEq, eq_comm]
  rw [hcount]
  exact List.count_eq_one_of_mem (h.wellFormed.of_mem ht).distinct (List.mem_map_of_mem ho)

theorem Housed.held_eq_zero (h : Housed language root done) {o : Tree α} (ht : t ∈ root.nodes)
    (ho : o ∈ root.nodes) (hot : o ∉ t.nodes) (howner : done.owner? i = some o.id) :
    held done t i = 0 := by
  refine List.countP_eq_zero.mpr fun u hu hid => hot ?_
  rw [howner, beq_iff_eq, Option.some.injEq] at hid
  rwa [h.wellFormed.eq_of_id_eq ho (mem_nodes_trans hu ht) hid]

/-- A copy of a node covers the comments that dangle from it, and those of the nodes below. -/
theorem Housed.covers_slice (h : Housed language root done) (hc : done.get? i = some c)
    (ht : t ∈ root.nodes) (hcopy : Copyable language.canAttach root t) :
    [Emission.slice t.start t.stop].countP (·.covers i c) = within done t i := by
  obtain ⟨a, o, placement, hhome, howner, c', hc', -, hplacement⟩ := h.home i c hc
  have hplacement : done.placement? i = some placement := by
    rw [Comments.placement?, hc', Option.bind_some, hplacement]
  have hheld := h.held_eq_within hc t
  have hiff := hhome.holds_iff h.wellFormed (h.spaced i c hc) ht hcopy
  have hcovers : (Emission.slice t.start t.stop).covers i c = true ↔ t.Holds c.start c.stop := by
    simp [Emission.covers, Tree.Holds]
  have howner_iff : done.owner? i = some t.id ↔ o = t := by
    rw [howner, Option.some.injEq]
    exact ⟨h.wellFormed.eq_of_id_eq hhome.mem_nodes ht, fun heq => by rw [heq]⟩
  have hbeside : isBeside done i = true ↔ placement ≠ .dangling := by
    rw [isBeside, hplacement]
    cases placement <;> simp
  rw [List.countP_singleton]
  by_cases hholds : t.Holds c.start c.stop
  · obtain ⟨hot, hdangling⟩ := hiff.mp hholds
    rw [if_pos (hcovers.mpr hholds)]
    have hone := h.held_eq_one ht hot howner
    have hzero : beside done t i = 0 := by
      refine if_neg ?_
      rintro ⟨heq, hnext⟩
      exact hbeside.mp hnext (hdangling (howner_iff.mp heq))
    omega
  · rw [if_neg fun hcov => hholds (hcovers.mp hcov)]
    by_cases hot : o ∈ t.nodes
    · have hone := h.held_eq_one ht hot howner
      have hnext : beside done t i = 1 := by
        refine if_pos ?_
        rw [howner_iff, hbeside]
        by_contra hnot
        exact hholds (hiff.mpr ⟨hot, fun heq => by_contra fun hne => hnot ⟨heq, hne⟩⟩)
      omega
    · have hzero := h.held_eq_zero ht hhome.mem_nodes hot howner
      omega

/-- The run covers each comment as often as `n` says. -/
def Emits (done : Comments) (x : Walk β) (st : WalkState)
    (b : β) (st' : WalkState) (n : Nat → Comment → Nat) : Prop :=
  ∃ es, Writes x st es b st' ∧
    ∀ i c, done.get? i = some c → es.countP (·.covers i c) = n i c

theorem Emits.congr {x : Walk β} {b : β} {n m : Nat → Comment → Nat}
    (h : Emits done x st b st' n)
    (hnm : ∀ i c, done.get? i = some c → n i c = m i c) :
    Emits done x st b st' m := by
  obtain ⟨es, hes, hn⟩ := h
  exact ⟨es, hes, fun i c hc => (hn i c hc).trans (hnm i c hc)⟩

theorem Emits.bind {γ : Type} {x : Walk β} {f : β → Walk γ} {b : β} {d : γ}
    {n m : Nat → Comment → Nat} (hx : Emits done x st b st' n)
    (hf : Emits done (f b) st' d st'' m) :
    Emits done (x >>= f) st d st'' fun i c => n i c + m i c := by
  obtain ⟨es, hes, hn⟩ := hx
  obtain ⟨es', hes', hm⟩ := hf
  exact ⟨es ++ es', hes.bind hes', fun i c hc => by rw [List.countP_append, hn i c hc, hm i c hc]⟩

theorem Emits.quiet {x : Walk β} {b : β} (hx : Quiet x) (h : x st = .ok (b, st')) :
    Emits done x st b st' fun _ _ => 0 :=
  ⟨[], .quiet hx h, fun _ _ _ => rfl⟩

/-- The comments of a node that have a property are written once each. -/
theorem Housed.emits_comments (h : Housed language root done) {x : Walk β} {b : β} (p : Nat → Bool)
    (hx : Writes x st (((done.of t.id).filter p).map .comment) b st') :
    Emits done x st b st' fun i _ =>
      if done.owner? i = some t.id ∧ p i = true then 1 else 0 := by
  refine ⟨_, hx, fun i c _ => ?_⟩
  have hcount : (((done.of t.id).filter p).map Emission.comment).countP (·.covers i c) =
      ((done.of t.id).filter p).count i := by
    rw [List.countP_map]
    rfl
  rw [hcount]
  by_cases hp : p i = true
  · rw [List.count_filter hp, h.consistent.count_of]
    simp [hp]
  · show _ = if _ then 1 else 0
    rw [if_neg fun hand => hp hand.2]
    exact List.count_eq_zero.mpr fun hmem => hp (List.mem_filter.mp hmem).2

/-! ## Printers that call for every child -/

/-- What a printer asks for. -/
inductive Call (α : Type) where
  /-- A child, with its comments. -/
  | child (p : Printable α)
  /-- The dangling comments of the node. -/
  | dangling
  /-- The source of the node. -/
  | verbatim

/-- The child that a call asks for. -/
def Call.child? : Call α → Option (Printable α)
  | .child p => some p
  | _ => none

def Call.isDangling : Call α → Bool
  | .dangling => true
  | _ => false

/-- A run of a printer of the node `t`, with its calls in order. Between them it does not touch the
comments. -/
inductive Calls (language : Language α) (scene : Scene) (t : Tree α) (children : List (Printable α)) :
    {β : Type} → Walk β → WalkState → List (Call α) → β → WalkState → Prop
  | quiet {β : Type} {x : Walk β} {st : WalkState} {b : β} {st' : WalkState} (hx : Quiet x)
      (h : x st = .ok (b, st')) : Calls language scene t children x st [] b st'
  | child {p : Printable α} {st : WalkState} {d : Doc} {st' : WalkState} (hp : p ∈ children)
      (h : p.print st = .ok (d, st')) : Calls language scene t children p.print st [.child p] d st'
  | dangling {sameIndent : Bool} {st : WalkState} {d : Doc} {st' : WalkState}
      (h : danglingComments language.printComment t sameIndent st = .ok (d, st')) :
      Calls language scene t children (danglingComments language.printComment t sameIndent) st
        [.dangling] d st'
  | verbatim {st : WalkState} {d : Doc} {st' : WalkState}
      (h : Walk.verbatim scene t st = .ok (d, st')) :
      Calls language scene t children (Walk.verbatim scene t) st [.verbatim] d st'
  | bind {β γ : Type} {x : Walk β} {f : β → Walk γ} {st st' st'' : WalkState}
      {calls calls' : List (Call α)} {b : β} {c : γ}
      (hx : Calls language scene t children x st calls b st')
      (hf : Calls language scene t children (f b) st' calls' c st'') :
      Calls language scene t children (x >>= f) st (calls ++ calls') c st''

theorem Calls.bind_quiet {γ : Type} {children : List (Printable α)} {x : Walk β} {f : β → Walk γ}
    {calls : List (Call α)} {b : β} {c : γ} (hx : Calls language scene t children x st calls b st')
    (hf : Quiet (f b)) (hrun : f b st' = .ok (c, st'')) :
    Calls language scene t children (x >>= f) st calls c st'' := by
  have hbind := hx.bind (.quiet hf hrun)
  rwa [List.append_nil] at hbind

/-- The calls of a printer that does its duty: it copies a node that may be copied; or it asks for each
child once, and for the dangling comments once if there are any. -/
def Complete (f : Tree α → Bool) (root t : Tree α) (cs : Comments) (children : List (Printable α))
    (calls : List (Call α)) : Prop :=
  (calls = [.verbatim] ∧ Copyable f root t) ∨
  (.verbatim ∉ calls ∧ (calls.filterMap Call.child?).Perm children ∧
    (cs.hasPlacement t.id .dangling = true → calls.countP Call.isDangling = 1))

/-- The ways from the root to the nodes of a tree. -/
inductive WayIn (root : Tree α) : Tree.Path α → Prop
  | root : WayIn root ⟨root, []⟩
  | child {t c : Tree α} {ancestors : List (Tree α)} (h : WayIn root ⟨t, ancestors⟩)
      (hc : c ∈ t.children) : WayIn root ⟨c, t :: ancestors⟩

/-- The printer of the language does its duty at all nodes of a tree, as long as the comments belong to
the nodes that they were given to. -/
def Dutiful (language : Language α) (scene : Scene) (root : Tree α) (done : Comments) : Prop :=
  ∀ path, WayIn root path → ∀ st d st', st.comments.unmarked = done.unmarked →
    let children := Printable.ofTrees language scene (path.node :: path.ancestors) path.node.children
    language.print scene path children st = .ok (d, st') →
    ∃ calls, Calls language scene path.node children (language.print scene path children) st calls d st' ∧
      Complete language.canAttach root path.node st.comments children calls

theorem WayIn.mem_nodes {path : Tree.Path α} (h : WayIn root path) : path.node ∈ root.nodes := by
  induction h with
  | root => exact mem_nodes_self root
  | child _ hc ih => exact mem_nodes_trans (mem_nodes_of_mem_children hc (mem_nodes_self _)) ih

theorem ofTrees_eq (language : Language α) (scene : Scene) (ancestors ts : List (Tree α)) :
    Printable.ofTrees language scene ancestors ts =
      ts.map (Printable.ofTree language scene ancestors) := by
  induction ts with
  | nil => rfl
  | cons t rest ih => rw [Printable.ofTrees, ih, List.map_cons]

theorem node_ofTree (language : Language α) (scene : Scene) (ancestors : List (Tree α)) (t : Tree α) :
    (Printable.ofTree language scene ancestors t).node = t := by
  cases t
  rfl

theorem print_ofTree (language : Language α) (scene : Scene) (ancestors : List (Tree α)) (t : Tree α) :
    (Printable.ofTree language scene ancestors t).print =
      visit language scene ⟨t, ancestors⟩
        (Printable.ofTrees language scene (t :: ancestors) t.children) := by
  cases t
  rfl

/-- How often a call makes a comment covered. -/
def Call.weight (done : Comments) (t : Tree α) (i : Nat) (c : Comment) : Call α → Nat
  | .child p => held done p.node i
  | .dangling => inside done t i
  | .verbatim => [Emission.slice t.start t.stop].countP (·.covers i c)

/-- The calls of a printer cover comments as their weights say, if the children do. -/
theorem Housed.emits_of_calls (h : Housed language root done) {children : List (Printable α)}
    (hchildren : ∀ p ∈ children, ∀ st d st', st.comments.unmarked = done.unmarked →
      p.print st = .ok (d, st') →
      Emits done p.print st d st' fun i _ => held done p.node i)
    {x : Walk β} {b : β} {calls : List (Call α)}
    (hcalls : Calls language scene t children x st calls b st')
    (hst : st.comments.unmarked = done.unmarked) :
    Emits done x st b st' fun i c => (calls.map (Call.weight done t i c)).sum := by
  induction hcalls with
  | quiet hx hrun => exact .quiet hx hrun
  | child hp hrun => exact (hchildren _ hp _ _ _ hst hrun).congr fun _ _ _ => rfl
  | dangling hrun =>
    exact (h.emits_comments (isInside done) (writes_danglingComments hrun hst)).congr fun _ _ _ => rfl
  | verbatim hrun => exact ⟨_, .slice hrun, fun _ _ _ => rfl⟩
  | bind _ _ ihx ihf =>
    have hx := ihx hst
    obtain ⟨es, hes, -⟩ := id hx
    refine (hx.bind (ihf (hes.unmarked_eq.trans hst))).congr fun i c _ => ?_
    rw [List.map_append, List.sum_append]

/-- The calls of a printer that does its duty cover what is within the node. -/
theorem Housed.sum_weight (h : Housed language root done) (hc : done.get? i = some c)
    (ht : t ∈ root.nodes) {ancestors : List (Tree α)} {calls : List (Call α)} {cs : Comments}
    (hcs : cs.unmarked = done.unmarked)
    (hcomplete : Complete language.canAttach root t cs
      (Printable.ofTrees language scene ancestors t.children) calls) :
    (calls.map (Call.weight done t i c)).sum = within done t i := by
  rcases hcomplete with ⟨rfl, hcopy⟩ | ⟨hverbatim, hperm, hdangling⟩
  · exact h.covers_slice hc ht hcopy
  · have hsplit : ∀ calls : List (Call α), .verbatim ∉ calls →
        (calls.map (Call.weight done t i c)).sum =
          calls.countP Call.isDangling * inside done t i +
            ((calls.filterMap Call.child?).map fun p => held done p.node i).sum := by
      intro calls hcalls
      induction calls with
      | nil => simp
      | cons call rest ih =>
        rw [List.mem_cons, not_or] at hcalls
        rw [List.map_cons, List.sum_cons, ih hcalls.2]
        cases call with
        | child p =>
          simp [Call.weight, Call.isDangling, Call.child?]
          omega
        | dangling =>
          rw [List.countP_cons_of_pos rfl, List.filterMap_cons_none rfl, Nat.succ_mul, Call.weight]
          omega
        | verbatim => exact absurd rfl hcalls.1
    have hchildren : ((calls.filterMap Call.child?).map fun p => held done p.node i).sum =
        (t.children.map fun c => held done c i).sum := by
      rw [(hperm.map _).sum_nat, ofTrees_eq, List.map_map]
      refine congrArg List.sum (List.map_congr_left fun c _ => ?_)
      rw [Function.comp_apply, node_ofTree]
    rw [hsplit calls hverbatim, hchildren, within]
    by_cases hany : cs.hasPlacement t.id .dangling = true
    · rw [hdangling hany, Nat.one_mul]
    · have hzero : inside done t i = 0 := by
        refine if_neg ?_
        rintro ⟨howner, hinside⟩
        refine hany ((cs.hasPlacement_iff _ _).mpr ⟨i, ?_, ?_⟩)
        · rwa [Comments.of_eq_of_unmarked hcs, h.consistent.mem_of]
        · rw [Comments.placement?_eq_of_unmarked hcs]
          exact beq_iff_eq.mp hinside
      rw [hzero, Nat.mul_zero]

/-- A node that is to be left as it is owns a comment, so it may be copied. -/
theorem Housed.copyable_of_isIgnored (h : Housed language root done) (ht : t ∈ root.nodes)
    (hst : st.comments.unmarked = done.unmarked) {st' : WalkState}
    (hignored : isIgnored language t st = .ok (true, st')) :
    Copyable language.canAttach root t := by
  obtain ⟨cs, st₁, hcs, hignored⟩ := bind_eq_ok.mp hignored
  cases hcs
  obtain ⟨i, hi, hany⟩ := List.any_eq_true.mp (congrArg Prod.fst (Except.ok.inj hignored))
  rw [Comments.of_eq_of_unmarked hst] at hi
  have howner := h.consistent.mem_of.mp hi
  have hplacement : done.placement? i = some .leading := by
    rw [← Comments.placement?_eq_of_unmarked hst, Comments.placement?]
    cases hc : st.comments.get? i with
    | none => simp [hc] at hany
    | some c =>
      simp [hc] at hany
      exact hany.1
  have hc : ∃ c, done.get? i = some c := by
    rw [Comments.placement?] at hplacement
    cases hc : done.get? i with
    | none => simp [hc] at hplacement
    | some c => exact ⟨c, rfl⟩
  obtain ⟨c, hc⟩ := hc
  obtain ⟨a, o, placement, hhome, howner', c', hc', -, hplacement'⟩ := h.home i c hc
  rw [Comments.placement?, hc', Option.bind_some, hplacement'] at hplacement
  cases hplacement
  rw [howner', Option.some.injEq] at howner
  obtain rfl := h.wellFormed.eq_of_id_eq hhome.mem_nodes ht howner
  cases hhome.rests with
  | leading ho => exact .inr (.inr (of_mem_ownersBelow ho).1)

theorem quiet_isIgnored (language : Language α) (t : Tree α) : Quiet (isIgnored language t) :=
  quiet_comments.bind fun _ => quiet_pure _

/-- **What a node writes.** With all nodes below it, a node covers each of their comments once, and no
others. -/
theorem Housed.emits_print (h : Housed language root done)
    (hembed : ∀ path children, language.embed scene path children = pure none)
    (hprint : Dutiful language scene root done) {ancestors : List (Tree α)}
    (hway : WayIn root ⟨t, ancestors⟩) {d : Doc} (hst : st.comments.unmarked = done.unmarked)
    (hrun : (Printable.ofTree language scene ancestors t).print st = .ok (d, st')) :
    Emits done (Printable.ofTree language scene ancestors t).print st d st'
      fun i _ => held done t i := by
  induction t using Tree.induction generalizing ancestors st st' d with
  | node t ih =>
    rw [print_ofTree] at hrun ⊢
    obtain ⟨doc, st₁, hnode, hcomments⟩ := bind_eq_ok.mp hrun
    have hmem : t ∈ root.nodes := hway.mem_nodes
    have hnode : Emits done (printNode language scene ⟨t, ancestors⟩
        (Printable.ofTrees language scene (t :: ancestors) t.children)) st doc st₁
        fun i _ => within done t i := by
      obtain ⟨ignored, st₂, hignored, hnode⟩ := bind_eq_ok.mp hnode
      obtain rfl : st₂ = st := by
        cases hignored
        rfl
      refine ((Emits.quiet (quiet_isIgnored _ _) hignored).bind (?_ : Emits done _ _ _ _
        fun i _ => within done t i)).congr fun i c _ => Nat.zero_add _
      cases ignored with
      | true =>
        rw [if_pos rfl] at hnode ⊢
        exact ⟨_, .slice hnode, fun i c hc =>
          h.covers_slice hc hmem (h.copyable_of_isIgnored hmem hst hignored)⟩
      | false =>
        rw [if_neg Bool.false_ne_true] at hnode ⊢
        rw [hembed, pure_bind] at hnode ⊢
        obtain ⟨calls, hcalls, hcomplete⟩ := hprint _ hway _ _ _ hst hnode
        refine (h.emits_of_calls ?_ hcalls hst).congr fun i c hc =>
          h.sum_weight hc hmem hst hcomplete
        intro p hp st d st' hst hrun
        rw [ofTrees_eq] at hp
        obtain ⟨c, hc, rfl⟩ := List.mem_map.mp hp
        rw [node_ofTree]
        exact ih c hc (hway.child hc) hst hrun
    obtain ⟨es, hes, -⟩ := id hnode
    have hnext := h.emits_comments (isBeside done)
      (writes_withComments hcomments (hes.unmarked_eq.trans hst))
    exact (hnode.bind hnext).congr fun i c hc => (h.held_eq_within hc t).symm

theorem housed_attach {comments : List Comment}
    (hhook : ∀ t c position around, language.handleComment t c position around = none)
    (hroot : root.WellFormed)
    (hspaced : ∀ c ∈ comments, Spaced language.canAttach root c.start c.stop) (text : String) :
    Housed language root (attach language root text (.ofList comments)) := by
  obtain ⟨hconsistent, hbare, -, hplaced⟩ :=
    reached_attach language root text (Comments.consistent_ofList comments)
  have hspaced : ∀ i c, (Comments.ofList comments).get? i = some c →
      Spaced language.canAttach root c.start c.stop := fun i c hc =>
    hspaced c ((Comments.perm_sortByStart comments).mem_iff.mp (List.mem_of_getElem? hc))
  refine ⟨hroot, hconsistent, fun i c hc => ?_, fun i c hc => ?_⟩
  · obtain ⟨d, hd, hstart, hstop⟩ := Comments.get?_of_bare_eq hbare.symm hc
    rw [← hstart, ← hstop]
    exact hspaced i d hd
  · obtain ⟨d, hd, hstart, hstop⟩ := Comments.get?_of_bare_eq hbare.symm hc
    have hi : i < (Comments.ofList comments).size := (List.getElem?_eq_some_iff.mp hd).1
    rcases (hplaced i hi).exists_home hroot (fun i c hc => (hspaced i c hc).clear) hd with
      ⟨_, _, -, hclaims⟩ | hhome
    · rw [hhook] at hclaims
      cases hclaims
    · rwa [hstart, hstop] at hhome

/-! ## Languages that answer -/

/-- The answers of a language that does not fail on its own account. -/
structure Answers (language : Language α) (scene : Scene) (root : Tree α) : Prop where
  comments : ∀ c, ∃ d, language.printComment c = .ok d
  slices : ∀ t ∈ root.nodes, ∃ s, sliceOrError scene.text t.start t.stop = .ok s
  nodes : ∀ path, WayIn root path →
    let children := Printable.ofTrees language scene (path.node :: path.ancestors) path.node.children
    (∀ p ∈ children, Total p.print) → Total (language.print scene path children)

theorem Answers.total_printComment (h : Answers language scene root) (i : Nat) (c : Comment) :
    Total (printComment language i c) := by
  obtain ⟨d, hd⟩ := h.comments c
  intro st
  refine ⟨d, { st with comments := st.comments.markPrinted i }, ?_⟩
  rw [printComment, hd]
  rfl

theorem Answers.total_printAround (h : Answers language scene root) (indices : List Nat) :
    Total (printAround language scene indices) := by
  induction indices with
  | nil => exact total_pure _
  | cons i rest ih =>
    rw [printAround]
    refine total_comments.bind fun cs => ?_
    have htrailing : ∀ c, Total (trailingComment language scene i c) := fun c => by
      refine (h.total_printComment i c).bind fun contents => ?_
      split
      · exact total_pure _
      · split <;> exact total_pure _
    cases cs.get? i with
    | none => exact ih
    | some c =>
      dsimp only
      cases c.placement with
      | none => exact ih
      | some placement =>
        cases placement with
        | leading =>
          exact ((h.total_printComment i c).bind fun _ => total_pure _).bind fun _ =>
            ih.bind fun _ => total_pure _
        | trailing => exact (htrailing c).bind fun _ => ih.bind fun _ => total_pure _
        | dangling => exact ih

theorem Answers.total_withComments (h : Answers language scene root) (t : Tree α) (printed : Doc) :
    Total (withComments language scene t printed) := by
  refine total_comments.bind fun cs => ?_
  dsimp only
  split
  · exact total_pure _
  · exact (h.total_printAround _).bind fun _ => total_pure _

theorem Answers.total_verbatim (h : Answers language scene root) (ht : t ∈ root.nodes) :
    Total (verbatim scene t) := by
  obtain ⟨s, hs⟩ := h.slices t ht
  intro st
  refine ⟨.text s, { st with comments := st.comments.markPrintedWithin t.start t.stop }, ?_⟩
  rw [verbatim, source, hs]
  rfl

/-- A tree is printed if the language answers. -/
theorem Answers.total_print (h : Answers language scene root)
    (hembed : ∀ path children, language.embed scene path children = pure none)
    {ancestors : List (Tree α)} (hway : WayIn root ⟨t, ancestors⟩) :
    Total (Printable.ofTree language scene ancestors t).print := by
  induction t using Tree.induction generalizing ancestors with
  | node t ih =>
    rw [print_ofTree]
    refine Total.bind ?_ fun doc => h.total_withComments t _
    refine (total_comments.bind fun _ => total_pure _).bind fun ignored => ?_
    split
    · exact h.total_verbatim hway.mem_nodes
    · rw [hembed, pure_bind]
      refine h.nodes _ hway fun p hp => ?_
      rw [ofTrees_eq] at hp
      obtain ⟨c, hc, rfl⟩ := List.mem_map.mp hp
      exact ih c hc (hway.child hc)

end Walk

open Walk Attach in
/-- **Every comment is written once.** Let a language leave comments and nodes to the general rules, and
let its printer do its duty at each node. Then no comment is left behind when the tree is printed: each is
either printed in one call, or is inside one copy of the source. The tree is printed if the language does
not fail on its own account. -/
theorem printTree_writes_each_comment_once (language : Language α) (scene : Scene) (root : Tree α)
    (comments : List Comment)
    (hhook : ∀ t c position around, language.handleComment t c position around = none)
    (hembed : ∀ path children, language.embed scene path children = pure none)
    (hroot : root.WellFormed)
    (hspaced : ∀ c ∈ comments, Spaced language.canAttach root c.start c.stop)
    (hprint : Dutiful language scene root (attach language root scene.text (.ofList comments)))
    (alignment : Nat) (group : GroupId) :
    (Answers language scene root → ∃ d st', printTree language scene root alignment
      ⟨attach language root scene.text (.ofList comments), group⟩ = .ok (d, st')) ∧
    ∀ d st', printTree language scene root alignment
      ⟨attach language root scene.text (.ofList comments), group⟩ = .ok (d, st') →
      st'.comments.firstUnprinted? = none ∧
      ∀ i < comments.length, ∃ c, st'.comments.get? i = some c ∧
        st'.comments.emitted.countP (·.covers i c) = 1 := by
  refine ⟨fun hanswers => ?_, fun d st' hrun => ?_⟩
  · exact (hanswers.total_print hembed .root).bind (fun _ => total_pure _) _
  have h := housed_attach hhook hroot hspaced scene.text
  obtain ⟨-, hbare, hempty, -⟩ := reached_attach language root scene.text
    (Comments.consistent_ofList comments)
  have hsize : (attach language root scene.text (.ofList comments)).size = comments.length := by
    rw [← Comments.length_bare, hbare, Comments.length_bare, Comments.size_ofList]
  generalize attach language root scene.text (.ofList comments) = done at *
  obtain ⟨doc, st₁, hrun, hlast⟩ := bind_eq_ok.mp hrun
  obtain ⟨es, hes, hcount⟩ := h.emits_print hembed hprint .root rfl hrun
  have hwrites : Writes (printTree language scene root alignment) ⟨done, group⟩ es d st' := by
    rw [printTree]
    exact hes.bind_quiet (quiet_pure _) hlast
  have hlog : st'.comments.emitted = es := by
    rw [hwrites.emitted_eq, hempty]
    rfl
  have hone : ∀ i c, done.get? i = some c → es.countP (·.covers i c) = 1 := by
    intro i c hc
    obtain ⟨a, o, placement, hhome, howner, -⟩ := h.home i c hc
    exact (hcount i c hc).trans (h.held_eq_one (Tree.mem_nodes_self root) hhome.mem_nodes howner)
  have hbare := Comments.bare_eq_of_unmarked hwrites.unmarked_eq
  refine ⟨List.find?_eq_none.mpr fun c hc => ?_, fun i hi => ?_⟩
  · obtain ⟨i, hi, rfl⟩ := List.getElem_of_mem hc
    obtain ⟨c, hc, -⟩ := Comments.get?_of_bare_eq hbare.symm (List.getElem?_eq_getElem hi)
    have hcovered : 0 < es.countP (·.covers i c) := by
      rw [hone i c hc]
      exact Nat.one_pos
    obtain ⟨c', hc', hprinted⟩ := hwrites.printed hc (.inr (List.countP_pos_iff.mp hcovered))
    rw [Comments.get?, List.getElem?_eq_getElem hi, Option.some.injEq] at hc'
    simp [hc', hprinted]
  · obtain ⟨c, hc⟩ := Comments.get?_eq_some_of_lt (hsize ▸ hi)
    obtain ⟨c', hc', hstart, hstop⟩ := Comments.get?_of_bare_eq hbare hc
    refine ⟨c', hc', ?_⟩
    rw [hlog]
    simp only [Emission.covers_congr hstart hstop, hone i c hc]

namespace Table

open Walk Attach

/-- Two names with a comment on either side of a comma. -/
def twoNamesScene : Scene where
  language := "bare"
  text := "a /* x */, /* y */ b"
  bytes := bytesOf "a /* x */, /* y */ b"
  options := {}
  cursorNode := none
  embedded := fun _ _ _ => .error .nestedTooDeep

theorem calls_mapM {language : Language Info} {scene : Scene} {t : Tree Info}
    {children ps : List (Printable Info)} (hps : ∀ p ∈ ps, p ∈ children) {st st' : WalkState}
    {ds : List Doc} (h : ps.mapM (·.print) st = .ok (ds, st')) :
    Calls language scene t children (ps.mapM (·.print)) st (ps.map .child) ds st' := by
  induction ps generalizing st st' ds with
  | nil =>
    rw [List.mapM_nil] at h ⊢
    exact .quiet (quiet_pure _) h
  | cons p rest ih =>
    rw [List.mapM_cons] at h ⊢
    obtain ⟨d, st₁, hp, h⟩ := bind_eq_ok.mp h
    obtain ⟨ds, st₂, hrest, h⟩ := bind_eq_ok.mp h
    exact .bind (.child (hps p List.mem_cons_self) hp)
      (.bind_quiet (ih (fun q hq => hps q (List.mem_cons_of_mem _ hq)) hrest) (quiet_pure _) h)

theorem print_bare {lang : Lang} {scene : Scene} {path : Tree.Path Info}
    {kind : String} {start stop : Nat} {rows : List Nat}
    (hrow : path.node.info.row = plainRow kind start stop rows) (children : List (Printable Info)) :
    (bare lang).print scene path children = (do
      let ds ← (do
        let d ← (do return Doc.join (.text ", ") (← children.mapM (·.print)))
        let ds ← (do
          let d ← danglingComments (bare lang).printComment path.node true
          let ds ← pure []
          return d :: ds)
        return d :: ds)
      return .concat ds) := by
  simp only [bare, print, hrow, plainRow, Template.print, Template.printAll]

/-- The rows of all nodes are plain. -/
def Plain (root : Tree Info) : Prop :=
  ∀ t ∈ root.nodes, ∃ kind start stop children, t.info.row = plainRow kind start stop children

/-- A node whose row is plain asks for each child, and for its dangling comments. -/
theorem Plain.dutiful {root : Tree Info} (h : Plain root) (lang : Lang) (scene : Scene)
    (done : Comments) : Dutiful (bare lang) scene root done := by
  intro path hway st d st' hst children hrun
  obtain ⟨kind, start, stop, rows, hrow⟩ := h _ hway.mem_nodes
  rw [print_bare hrow] at hrun ⊢
  obtain ⟨ds, st₁, hparts, hlast⟩ := bind_eq_ok.mp hrun
  obtain ⟨d₁, st₂, hchildren, hrest⟩ := bind_eq_ok.mp hparts
  obtain ⟨docs, st₃, hmapM, hjoin⟩ := bind_eq_ok.mp hchildren
  obtain ⟨ds₂, st₄, hdangling, hcons⟩ := bind_eq_ok.mp hrest
  obtain ⟨inner, st₅, hinner, hend⟩ := bind_eq_ok.mp hdangling
  refine ⟨children.map .child ++ [.dangling], ?_, .inr ⟨?_, ?_, fun _ => ?_⟩⟩
  · refine .bind_quiet (.bind (.bind_quiet (calls_mapM (fun _ hp => hp) hmapM) (quiet_pure _) hjoin) ?_)
      (quiet_pure _) hlast
    exact .bind_quiet (.bind_quiet (.dangling hinner) ((quiet_pure _).bind fun _ => quiet_pure _) hend)
      (quiet_pure _) hcons
  · simp
  · have hchild : ∀ ps : List (Printable Info),
        (ps.map Call.child ++ [Call.dangling]).filterMap Call.child? = ps := by
      intro ps
      induction ps with
      | nil => rfl
      | cons p rest ih => exact congrArg (p :: ·) ih
    rw [hchild]
  · rw [List.countP_append, List.countP_map, List.countP_eq_zero.mpr (by simp [Call.isDangling])]
    rfl

theorem Plain.answers {root : Tree Info} (h : Plain root) (lang : Lang) {scene : Scene}
    (hslices : ∀ t ∈ root.nodes, ∃ s, sliceOrError scene.text t.start t.stop = .ok s) :
    Answers (bare lang) scene root := by
  refine ⟨fun c => ⟨_, rfl⟩, hslices, fun path hway hchildren => ?_⟩
  obtain ⟨kind, start, stop, rows, hrow⟩ := h _ hway.mem_nodes
  rw [print_bare hrow]
  refine Total.bind (.bind ?_ fun _ => .bind ?_ fun _ => total_pure _) fun _ => total_pure _
  · exact (total_mapM hchildren).bind fun _ => total_pure _
  · exact (total_danglingComments (fun c => ⟨_, rfl⟩) _ _).bind fun _ =>
      (total_pure _).bind fun _ => total_pure _

/-- The two comments are written, once each. -/
theorem printTree_twoComments :
    ∃ d st', printTree (bare noTable) twoNamesScene twoNames 0
        ⟨attach (bare noTable) twoNames twoNamesScene.text (.ofList twoComments), 0⟩ = .ok (d, st') ∧
      st'.comments.firstUnprinted? = none ∧
      ∀ i < twoComments.length, ∃ c, st'.comments.get? i = some c ∧
        st'.comments.emitted.countP (·.covers i c) = 1 := by
  have hspaced : ∀ c ∈ twoComments, Spaced (bare noTable).canAttach twoNames c.start c.stop := by
    intro c hc
    have hcases : c.start = 2 ∧ c.stop = 9 ∨ c.start = 11 ∧ c.stop = 18 := by
      revert c
      simp [twoComments]
    rcases hcases with ⟨hstart, hstop⟩ | ⟨hstart, hstop⟩ <;> rw [hstart, hstop] <;>
      constructor <;> simp [twoNames, Tree.nodes, Tree.nodesAll, Tree.Holds, Tree.Avoids]
  have hplain : Plain twoNames := by
    rintro t (_ | ⟨_, _ | ⟨_, _ | ⟨_, ⟨⟩⟩⟩⟩) <;> exact ⟨_, _, _, _, rfl⟩
  have hslices : ∀ t ∈ twoNames.nodes,
      ∃ s, sliceOrError twoNamesScene.text t.start t.stop = .ok s := by
    rintro t (_ | ⟨_, _ | ⟨_, _ | ⟨_, ⟨⟩⟩⟩⟩)
    · exact ⟨"a /* x */, /* y */ b", by decide +kernel⟩
    · exact ⟨"a", by decide +kernel⟩
    · exact ⟨"b", by decide +kernel⟩
  obtain ⟨hends, hwrites⟩ := printTree_writes_each_comment_once (bare noTable) twoNamesScene twoNames
    twoComments (fun _ _ _ _ => rfl) (fun _ _ => rfl) wellFormed_twoNames hspaced
    (hplain.dutiful _ _ _) 0 0
  obtain ⟨d, st', hrun⟩ := hends (hplain.answers _ hslices)
  exact ⟨d, st', hrun, hwrites d st' hrun⟩

end Table

end CodeFormatter
