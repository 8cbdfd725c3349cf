import CodeFormatter.Comment.Levels
import CodeFormatter.Proofs.Cache
import CodeFormatter.Proofs.Comment.Surroundings

/-!
# The search agrees with a look at every node

The search for the nodes around a span halves each level and never sees most of the nodes. `scan` looks at
all of them: it takes the last node that holds the span, and of the owners below it the last one before
the span and the first one after it.

**Theorem (`surroundings_eq_scan`).** On a well-formed tree, in which no owner overlaps the span in part,
the search finds what the scan finds. An empty span may be held by several nodes that stand side by side;
then the search finds one of them, and its neighbours below that one.

**Levels that are kept.** The kept levels are those of the tree (`Levels.Faithful`): searches put in
nothing else, whatever they search for. So they change no answer.

**Fuel.** Each turn of the descent goes to a node of smaller depth, and each turn of the halving makes the
bounds come closer. More fuel than that changes nothing (`descend_congr`, `search_congr`).
-/

namespace CodeFormatter

variable {α : Type} {f : Tree α → Bool} {root t : Tree α} {start stop : Nat}

namespace Tree

theorem depth_pos (t : Tree α) : 0 < t.depth := by
  cases t
  rw [depth]
  exact Nat.lt_of_lt_of_le Nat.one_pos (Nat.le_add_right _ _)

theorem mem_tail_nodes {u : Tree α} : u ∈ t.nodes.tail ↔ ∃ c ∈ t.children, u ∈ c.nodes := by
  rw [nodes_eq, List.tail_cons, List.mem_flatMap]

/-- A node stands before the nodes below it. -/
theorem WellFormed.pairwise_nodes (h : t.WellFormed) : t.nodes.Pairwise fun u v => u ∉ v.nodes := by
  induction t using induction with
  | node t ih =>
    rw [nodes_eq, List.pairwise_cons, List.pairwise_flatMap]
    refine ⟨?_, ?_, ?_⟩
    · intro v hv htv
      obtain ⟨c, hc, hv⟩ := List.mem_flatMap.mp hv
      exact not_mem_nodes_of_mem_children hc (mem_nodes_trans htv hv)
    · intro c hc
      exact ih c hc (h.of_mem_children hc)
    · -- A node is below only one of the children.
      apply h.nodup_children.imp_of_mem
      intro c d hc hd hne u hu v hv huv
      exact hne (h.eq_of_mem_nodes hc hd hu (mem_nodes_trans huv hv))

end Tree

namespace Attach

open CodeFormatter.Tree

/-! ## Enough fuel -/

/-- **More fuel changes nothing** in the search on one level. -/
theorem search_congr (nodes : Array (Tree α)) (start stop : Nat) {fuel fuel' left right : Nat}
    (preceding following : Option (Tree α)) (hf : right - left ≤ fuel) (hf' : right - left ≤ fuel') :
    search nodes start stop fuel left right preceding following =
      search nodes start stop fuel' left right preceding following := by
  induction fuel generalizing fuel' left right preceding following with
  | zero =>
    have hle : ¬ left < right := by omega
    cases fuel' with
    | zero => rfl
    | succ fuel' => rw [search, search, if_neg hle]
  | succ fuel ih =>
    cases fuel' with
    | zero =>
      have hle : ¬ left < right := by omega
      rw [search, search, if_neg hle]
    | succ fuel' =>
      rw [search, search]
      split
      · dsimp only
        cases nodes[(left + right) / 2]? with
        | none => rfl
        | some t =>
          dsimp only
          split_ifs
          · rfl
          · exact ih _ _ (by omega) (by omega)
          · exact ih _ _ (by omega) (by omega)
          · rfl
      · rfl

/-- What the search on a level finds inside it is an owner of the level. -/
theorem of_search_eq_inside {child : Tree α}
    (h : search (ownersBelow f t).toArray start stop (ownersBelow f t).toArray.size 0
      (ownersBelow f t).toArray.size none none = .inside child) :
    child ∈ ownersBelow f t ∧ child.Holds start stop := by
  have hfinds := finds_search (ownersBelow f t) start stop (ownersBelow f t).length 0
    (ownersBelow f t).length none none (Nat.zero_le _) (Nat.le_refl _) (Nat.le_refl _) (by simp)
    (by simp) (by simp) (by simp)
  rw [List.size_toArray] at h
  rwa [h] at hfinds

/-- **More fuel changes nothing** in the descent. -/
theorem descend_congr {fuel fuel' : Nat} (enclosing : Option (Tree α)) (hf : t.depth ≤ fuel)
    (hf' : t.depth ≤ fuel') :
    descend f start stop fuel t enclosing = descend f start stop fuel' t enclosing := by
  induction fuel generalizing fuel' t enclosing with
  | zero => exact absurd t.depth_pos (Nat.not_lt_of_le hf)
  | succ fuel ih =>
    cases fuel' with
    | zero => exact absurd t.depth_pos (Nat.not_lt_of_le hf')
    | succ fuel' =>
      rw [descend, descend]
      cases hfound : search (ownersBelow f t).toArray start stop _ 0 _ none none with
      | inside child =>
        have hlt := depth_lt_of_mem_ownersBelow (of_search_eq_inside hfound).1
        exact ih (some child) (by omega) (by omega)
      | between preceding following => rfl

/-! ## Levels that are kept -/

namespace Levels

/-- What is kept under the number of a node are the owners below it. -/
def Faithful (f : Tree α → Bool) (root : Tree α) (levels : Levels α) : Prop :=
  ∀ t ∈ root.nodes, ∀ nodes, levels.get? t.id = some nodes → nodes = (ownersBelow f t).toArray

variable {levels : Levels α}

theorem faithful_empty (f : Tree α → Bool) (root : Tree α) : Faithful f root .empty := nofun

/-- The owners below a node are the same whether they are kept or not. -/
theorem Faithful.owners (h : levels.Faithful f root) (hroot : root.WellFormed) (ht : t ∈ root.nodes) :
    (levels.owners f t).1 = (ownersBelow f t).toArray ∧ (levels.owners f t).2.Faithful f root := by
  unfold Levels.owners
  cases hget : levels.get? t.id with
  | some nodes => exact ⟨h t ht nodes hget, h⟩
  | none =>
    refine ⟨rfl, ?_⟩
    intro u hu nodes hnodes
    change (levels.setSlot t.id (some (ownersBelow f t).toArray)).get? u.id = some nodes at hnodes
    rw [Cache.get?_setSlot] at hnodes
    by_cases hid : t.id = u.id
    · rw [if_pos (by simpa using hid)] at hnodes
      rw [← hroot.eq_of_id_eq ht hu hid]
      exact (Option.some.inj hnodes).symm
    · rw [if_neg (by simpa using hid)] at hnodes
      exact h u hu nodes hnodes

/-- **Kept levels do not change the descent**, and are those of the tree after it. -/
theorem Faithful.descend (h : levels.Faithful f root) (hroot : root.WellFormed) (start stop fuel : Nat)
    (ht : t ∈ root.nodes) (enclosing : Option (Tree α)) :
    (levels.descend f start stop fuel t enclosing).1 = Attach.descend f start stop fuel t enclosing ∧
      (levels.descend f start stop fuel t enclosing).2.Faithful f root := by
  induction fuel generalizing t levels enclosing with
  | zero => exact ⟨rfl, h⟩
  | succ fuel ih =>
    obtain ⟨hnodes, hfaithful⟩ := h.owners hroot ht
    rw [Levels.descend, Attach.descend]
    dsimp only
    rw [hnodes]
    cases hfound : search (ownersBelow f t).toArray start stop _ 0 _ none none with
    | inside child =>
      have hmem := mem_nodes_of_mem_ownersBelow (of_search_eq_inside hfound).1
      exact ih hfaithful (mem_nodes_trans hmem ht) (some child)
    | between preceding following => exact ⟨rfl, hfaithful⟩

/-- **Searches keep nothing but levels of the tree.** -/
theorem faithful_after (hroot : root.WellFormed) (spans : List (Nat × Nat)) :
    (Levels.after f root spans).Faithful f root := by
  refine List.foldlRecOn (motive := Faithful f root) spans _ (faithful_empty f root) ?_
  intro levels hlevels span _
  exact (hlevels.descend hroot span.1 span.2 root.depth (mem_nodes_self root) none).2

end Levels

/-! ## A look at every node -/

/-- The last node below the root that can own comments and holds the span. -/
def lastHolding (f : Tree α → Bool) (root : Tree α) (start stop : Nat) : Option (Tree α) :=
  (root.nodes.tail.filter fun t => f t && t.start ≤ start && stop ≤ t.stop).getLast?

/-- The last of some nodes that ends before the span. -/
def lastBefore (nodes : List (Tree α)) (start : Nat) : Option (Tree α) :=
  (nodes.filter (·.stop ≤ start)).getLast?

/-- The first of some nodes that starts after the span. -/
def firstAfter (nodes : List (Tree α)) (stop : Nat) : Option (Tree α) :=
  nodes.find? (stop ≤ ·.start)

/-- The nodes around a span, by a look at every node. -/
def scan (f : Tree α → Bool) (root : Tree α) (start stop : Nat) : Surroundings α :=
  let enclosing := lastHolding f root start stop
  let owners := ownersBelow f (enclosing.getD root)
  ⟨enclosing, lastBefore owners start, firstAfter owners stop⟩

/-- An innermost node below the root that can own comments and holds the span, or none if there is none. -/
structure Encloses (f : Tree α → Bool) (root : Tree α) (start stop : Nat)
    (enclosing : Option (Tree α)) : Prop where
  owner : ∀ a ∈ enclosing, a ∈ root.nodes.tail ∧ f a = true ∧ a.Holds start stop
  innermost : ∀ v ∈ (enclosing.getD root).nodes.tail, f v = true → ¬ v.Holds start stop

/-- A span of some length has one innermost node, and it is the last one that holds the span. -/
theorem Encloses.eq_lastHolding {enclosing : Option (Tree α)}
    (h : Encloses f root start stop enclosing) (hroot : root.WellFormed) (hspan : start < stop) :
    enclosing = lastHolding f root start stop := by
  unfold lastHolding
  have hmem : ∀ v, v ∈ (root.nodes.tail.filter fun t => f t && t.start ≤ start && stop ≤ t.stop) ↔
      v ∈ root.nodes.tail ∧ f v = true ∧ v.Holds start stop := by
    intro v
    simp [Tree.Holds, and_assoc]
  have hsorted : (root.nodes.tail.filter fun t => f t && t.start ≤ start && stop ≤ t.stop).Pairwise
      fun u v => u ∉ v.nodes :=
    hroot.pairwise_nodes.sublist (List.filter_sublist.trans (List.tail_sublist _))
  generalize (root.nodes.tail.filter _) = holding at hmem hsorted
  obtain rfl | ⟨front, x, rfl⟩ := List.eq_nil_or_concat holding
  · cases enclosing with
    | none => rfl
    | some a => cases (hmem a).mpr (h.owner a rfl)
  · rw [List.concat_eq_append] at hmem hsorted ⊢
    obtain ⟨hx, hfx, hxholds⟩ := (hmem x).mp (by simp)
    rw [List.getLast?_concat]
    cases enclosing with
    | none => exact absurd hxholds (h.innermost x hx hfx)
    | some a =>
      obtain ⟨ha, hfa, haholds⟩ := h.owner a rfl
      have hax : a ∈ x.nodes := by
        rcases hroot.comparable (List.mem_of_mem_tail ha) (List.mem_of_mem_tail hx) with h' | h' | h' | h'
        · exact h'
        · rcases mem_nodes.mp h' with rfl | hbelow
          · exact mem_nodes_self x
          · exact absurd hxholds (h.innermost x (mem_tail_nodes.mpr hbelow) hfx)
        · unfold Tree.Holds at haholds hxholds
          omega
        · unfold Tree.Holds at haholds hxholds
          omega
      rcases List.mem_append.mp ((hmem a).mpr (h.owner a rfl)) with hfront | hlast
      · exact absurd hax ((List.pairwise_append.mp hsorted).2.2 a hfront x (List.mem_singleton_self x))
      · rw [List.mem_singleton.mp hlast]

/-! ## Neighbours -/

section Neighbours

variable {nodes : List (Tree α)} {preceding following : Option (Tree α)}
  (h : Between nodes start stop preceding following)
  (hordered : nodes.Pairwise fun a b => a.stop ≤ b.start) (hnodes : ∀ t ∈ nodes, t.start ≤ t.stop)
  (hspan : start ≤ stop)

include h hordered hnodes hspan

theorem Between.not_holds (ht : t ∈ nodes) : ¬ t.Holds start stop := by
  obtain ⟨before, after, rfl, -, -, hbefore, hafter⟩ := h.cut hordered hnodes
  rcases List.mem_append.mp ht with ht | ht
  · exact (hbefore t ht).2 hspan
  · exact (hafter t ht).2 hspan

/-- **The neighbours are the nodes next to the span.** A node that ends before the span and starts after
it would be an empty one that holds an empty span. -/
theorem Between.neighbours :
    preceding = lastBefore nodes start ∧ following = firstAfter nodes stop := by
  obtain ⟨before, after, rfl, rfl, rfl, hbefore, hafter⟩ := h.cut hordered hnodes
  rw [List.forall_mem_append] at hnodes
  have hnot : ∀ {t : Tree α}, t.start ≤ t.stop → ¬ t.Holds start stop →
      ¬ (t.stop ≤ start ∧ stop ≤ t.start) := by
    intro t hle hnot hboth
    unfold Tree.Holds at hnot
    omega
  constructor
  · have hkept : before.filter (·.stop ≤ start) = before := by
      apply List.filter_eq_self.mpr
      intro t ht
      simpa using (hbefore t ht).1
    have hdropped : after.filter (·.stop ≤ start) = [] := by
      apply List.filter_eq_nil_iff.mpr
      intro t ht
      obtain ⟨hstart, hholds⟩ := hafter t ht
      simpa using fun hstop => hnot (hnodes.2 t ht) (hholds hspan) ⟨hstop, hstart⟩
    rw [lastBefore, List.filter_append, hkept, hdropped, List.append_nil]
  · have hskipped : before.find? (stop ≤ ·.start) = none := by
      apply List.find?_eq_none.mpr
      intro t ht
      obtain ⟨hstop, hholds⟩ := hbefore t ht
      simpa using fun hstart => hnot (hnodes.1 t ht) (hholds hspan) ⟨hstop, hstart⟩
    rw [firstAfter, List.find?_append, hskipped, Option.none_or]
    cases after with
    | nil => rfl
    | cons u rest =>
      rw [List.head?_cons, List.find?_cons_of_pos]
      simpa using (hafter u List.mem_cons_self).1

end Neighbours

/-! ## The search -/

/-- The search reports nodes that can own comments and hold the span. -/
theorem of_descend_enclosing {a : Tree α} {fuel : Nat} {enclosing : Option (Tree α)}
    (h : (descend f start stop fuel t enclosing).enclosing = some a) :
    enclosing = some a ∨ a ∈ t.nodes.tail ∧ f a = true ∧ a.Holds start stop := by
  induction fuel generalizing t enclosing with
  | zero => exact .inl h
  | succ fuel ih =>
    rw [descend] at h
    cases hfound : search (ownersBelow f t).toArray start stop _ 0 _ none none with
    | between preceding following =>
      rw [hfound] at h
      exact .inl h
    | inside child =>
      rw [hfound] at h
      obtain ⟨hmem, hholds⟩ := of_search_eq_inside hfound
      obtain ⟨hf, c, hc, hchild⟩ := of_mem_ownersBelow hmem
      rcases ih h with heq | ⟨ha, hfa, haholds⟩
      · obtain rfl := Option.some.inj heq
        exact .inr ⟨mem_tail_nodes.mpr ⟨c, hc, hchild⟩, hf, hholds⟩
      · exact .inr ⟨mem_tail_nodes.mpr ⟨c, hc, mem_nodes_trans (List.mem_of_mem_tail ha) hchild⟩, hfa,
          haholds⟩

/-- The search ends where no owner below holds the span. -/
theorem Around.encloses {a : Tree α} (h : Around f root start stop a (surroundings f root start stop))
    (hroot : root.WellFormed) (hspan : start ≤ stop) :
    Encloses f root start stop (surroundings f root start stop).enclosing := by
  constructor
  · intro b hb
    exact (of_descend_enclosing hb).resolve_left nofun
  · intro v hv hf hholds
    -- The node is in an owner of the level at which the search ended, and that one would hold the span, too.
    have ha := hroot.of_mem h.mem
    rw [h.enclosing] at hv
    obtain ⟨c, hc, hvc⟩ := mem_tail_nodes.mp hv
    obtain ⟨w, hw, hvw⟩ := exists_mem_ownersBelow hf hc hvc
    have hwholds : w.Holds start stop :=
      (ha.of_mem (mem_nodes_of_mem_ownersBelow hw)).holds_of_mem hvw hholds
    exact h.neighbours.not_holds (ha.pairwise_ownersBelow f)
      (fun u hu => ha.start_le_stop u (mem_nodes_of_mem_ownersBelow hu)) hspan hw hwholds

/-- **The search finds what a look at every node finds.** It reports an innermost node that can own
comments and holds the span, and of the owners below it, or below the root, the last one before the span
and the first one after it. The levels that earlier searches have left change nothing, and neither does
more fuel. -/
theorem surroundings_eq_scan (hroot : root.WellFormed) (hspan : start ≤ stop)
    (hclear : Clear f root start stop) (earlier : List (Nat × Nat)) :
    let around := surroundings f root start stop
    let owners := ownersBelow f (around.enclosing.getD root)
    Encloses f root start stop around.enclosing ∧
      around.preceding = lastBefore owners start ∧ around.following = firstAfter owners stop ∧
      (start < stop → around = scan f root start stop) ∧
      (∀ fuel ≥ root.depth,
        ((Levels.after f root earlier).descend f start stop fuel root none).1 = around) ∧
      ∀ (nodes : Array (Tree α)) (fuel : Nat), nodes.size ≤ fuel →
        search nodes start stop fuel 0 nodes.size none none =
          search nodes start stop nodes.size 0 nodes.size none none := by
  intro around owners
  obtain ⟨a, haround⟩ := around_surroundings hclear
  have hencloses := haround.encloses hroot hspan
  have ha := hroot.of_mem haround.mem
  have howners : owners = ownersBelow f a := congrArg (ownersBelow f) haround.enclosing
  obtain ⟨hpreceding, hfollowing⟩ := haround.neighbours.neighbours (ha.pairwise_ownersBelow f)
    (fun u hu => ha.start_le_stop u (mem_nodes_of_mem_ownersBelow hu)) hspan
  rw [← howners] at hpreceding hfollowing
  refine ⟨hencloses, hpreceding, hfollowing, ?_, ?_, ?_⟩
  · intro hlt
    have henclosing : around.enclosing = lastHolding f root start stop :=
      hencloses.eq_lastHolding hroot hlt
    rw [scan, ← henclosing, ← hpreceding, ← hfollowing]
  · intro fuel hfuel
    have hlevels := Levels.faithful_after (f := f) hroot earlier
    rw [(hlevels.descend hroot start stop fuel (mem_nodes_self root) none).1]
    exact descend_congr none hfuel (Nat.le_refl _)
  · intro nodes fuel hfuel
    exact search_congr nodes start stop none none (by omega) (by omega)

/-- A tree whose nodes say themselves whether they can own comments. Node 3 holds its parts in a node that
cannot, and of these parts node 6 is empty. -/
def nestedParts : Tree Bool :=
  ⟨0, 0, 20, true,
    [⟨1, 0, 4, true, []⟩, ⟨2, 4, 4, true, []⟩,
      ⟨3, 4, 16, true,
        [⟨4, 5, 16, false, [⟨5, 5, 7, true, []⟩, ⟨6, 9, 9, true, []⟩, ⟨7, 12, 15, true, []⟩]⟩]⟩,
      ⟨8, 16, 20, true, []⟩]⟩

/-- The empty node stands right before the span, and an earlier search has kept the levels on the way. -/
theorem surroundings_eq_scan_nestedParts :
    nestedParts.WellFormed ∧ Clear (·.info) nestedParts 9 12 ∧
      surroundings (·.info) nestedParts 9 12 = scan (·.info) nestedParts 9 12 ∧
      ((Levels.after (·.info) nestedParts [(8, 13), (0, 20)]).surroundings (·.info) nestedParts 9 12).1 =
        scan (·.info) nestedParts 9 12 ∧
      let around := scan (·.info) nestedParts 9 12
      (around.enclosing.map (·.id), around.preceding.map (·.id), around.following.map (·.id)) =
        (some 3, some 6, some 7) := by
  have hroot : nestedParts.WellFormed := by
    constructor <;> simp [nestedParts, nodes, nodesAll]
  have hclear : Clear (·.info) nestedParts 9 12 := by
    simp [Clear, nestedParts, nodes, nodesAll, Tree.Holds, Tree.Avoids]
  obtain ⟨-, -, -, hscan, hlevels, -⟩ := surroundings_eq_scan hroot (by decide) hclear [(8, 13), (0, 20)]
  have hscan := hscan (by decide)
  exact ⟨hroot, hclear, hscan, (hlevels _ (Nat.le_refl _)).trans hscan, by decide +kernel⟩

end Attach

end CodeFormatter
