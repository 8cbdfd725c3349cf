import CodeFormatter.Proofs.Tree.Search
import CodeFormatter.Range

/-!
# Widening a range

The two ends of a range are lifted each on its own, and only the other end holds them back: the first
node goes up while the nodes above it end before the last one does, the last node while those above it
start after the first one does. A list of statements between brackets stops both, since the brackets lie
outside of the statements.

**Theorem (`siblingAncestors_eq`).** If two parts of a bracketed list hold the two ends, and neither is
stopped by the other end on its way up to them, then the ends are lifted to these parts.
-/

namespace CodeFormatter

open CodeFormatter.Tree Walk

variable {α : Type} {root t u s : Tree α} {ancestors : List (Tree α)}

/-! ## Searching -/

/-- A node without children is found from its start up to its end. At its start, no node before it may
stop there. -/
theorem exists_find?_of_leaf {v : Tree α} {offset : Nat} (hroot : root.WellFormed)
    (hv : v ∈ root.nodes) (hleaf : v.children = []) (hstart : v.start ≤ offset)
    (hstop : offset < v.stop) (hfirst : offset = v.start → ∀ u ∈ root.nodes, u.stop ≠ offset) :
    ∃ ancestors, root.find? offset (fun _ => true) = some ⟨v, ancestors⟩ := by
  suffices hfrom : ∀ t ∈ root.nodes, v ∈ t.nodes → ∀ ancestors,
      ∃ above, findFrom offset (fun _ => true) ancestors t = some ⟨v, above⟩ from
    hfrom root (mem_nodes_self root) hv []
  intro t ht hvt
  induction t using Tree.induction with
  | node t ih =>
    intro ancestors
    have hwithin := (hroot.of_mem ht).within hvt
    have hcovers : t.covers offset = true := by
      simp only [Tree.covers, Bool.and_eq_true, decide_eq_true_eq]
      omega
    rw [findFrom_eq, if_pos hcovers]
    rcases Tree.mem_nodes.mp hvt with rfl | ⟨c, hc, hvc⟩
    · rw [hleaf]
      exact ⟨ancestors, rfl⟩
    · obtain ⟨before, after, hchildren⟩ := List.append_of_mem hc
      have hmem : ∀ b ∈ before ++ c :: after, b ∈ root.nodes := fun b hb =>
        mem_nodes_trans (mem_nodes_of_mem_children (hchildren ▸ hb) (mem_nodes_self b)) ht
      -- The children before `c` stop too early.
      have hnone : before.findSome? (findFrom offset (fun _ => true) (t :: ancestors)) = none := by
        refine List.findSome?_eq_none_iff.mpr fun b hb => ?_
        have horder := hroot.ordered t ht
        rw [hchildren, List.pairwise_append] at horder
        have hbc := horder.2.2 b hb c List.mem_cons_self
        have hcv := ((hroot.of_mem ht).of_mem_children hc).within hvc
        have hne : offset = v.start → b.stop ≠ offset := fun h =>
          hfirst h b (hmem b (List.mem_append_left _ hb))
        rw [findFrom_eq, if_neg]
        simp only [Tree.covers, Bool.and_eq_true, decide_eq_true_eq]
        omega
      obtain ⟨above, habove⟩ := ih c hc (hmem c (by simp)) hvc (t :: ancestors)
      refine ⟨above, ?_⟩
      rw [hchildren, List.findSome?_append, hnone, Option.none_or, List.findSome?_cons, habove]
      rfl

/-! ## Ways through a node -/

/-- The nodes above a node are nodes with children. -/
theorem Walk.WayIn.of_mem_ancestors {path : Tree.Path α} {a : Tree α} (h : WayIn root path)
    (ha : a ∈ path.ancestors) : a ∈ root.nodes ∧ a.children ≠ [] := by
  induction h with
  | root => cases ha
  | child h hc ih =>
    rcases List.mem_cons.mp ha with rfl | ha
    · exact ⟨h.mem_nodes, List.ne_nil_of_mem hc⟩
    · exact ih ha

/-- A way to a node leads through each node above it. -/
theorem Walk.WayIn.exists_split {path : Tree.Path α} (h : WayIn root path) (hroot : root.WellFormed)
    (hs : s ∈ root.nodes) (hmem : path.node ∈ s.nodes) :
    ∃ before after, path.ancestors = before ++ after ∧ before.getLast?.getD path.node = s ∧
      WayIn root ⟨s, after⟩ ∧ ∀ a ∈ before, path.node ∈ a.nodes ∧ a ∈ s.nodes ∧ a ≠ path.node := by
  induction h with
  | root =>
    obtain rfl : s = root := mem_nodes_antisymm hs hmem
    exact ⟨[], [], rfl, rfl, .root, by simp⟩
  | @child t c ancestors h hc ih =>
    dsimp only at hmem ih ⊢
    by_cases hsc : s = c
    · subst hsc
      exact ⟨[], t :: ancestors, rfl, rfl, .child h hc, by simp⟩
    · -- Only `c` itself stands between `c` and the node right above it.
      have hts : t ∈ s.nodes := by
        have htroot : t ∈ root.nodes := h.mem_nodes
        rcases hroot.nested hs htroot hmem (mem_nodes_of_mem_children hc (mem_nodes_self c)) with
          hst | hts
        · rcases Tree.mem_nodes.mp hst with rfl | ⟨d, hd, hsd⟩
          · exact mem_nodes_self s
          · obtain rfl := (hroot.of_mem htroot).eq_of_mem_nodes hd hc (mem_nodes_trans hmem hsd)
              (mem_nodes_self c)
            exact absurd (mem_nodes_antisymm hsd hmem) hsc
        · exact hts
      obtain ⟨before, after, rfl, hlast, hway, hbefore⟩ := ih hts
      refine ⟨t :: before, after, rfl, ?_, hway, ?_⟩
      · rw [List.getLast?_cons, Option.getD_some, hlast]
      · have habove : ∀ {a : Tree α}, t ∈ a.nodes → a ≠ c := by
          rintro a hta rfl
          exact not_mem_nodes_of_mem_children hc hta
        have htc : c ∈ t.nodes := mem_nodes_of_mem_children hc (mem_nodes_self c)
        refine List.forall_mem_cons.mpr ⟨⟨htc, hts, habove (mem_nodes_self t)⟩, fun a ha => ?_⟩
        obtain ⟨hta, has, -⟩ := hbefore a ha
        exact ⟨mem_nodes_trans htc hta, has, habove hta⟩

/-- The nearest node above a child is the one it is a child of. -/
theorem Walk.WayIn.head?_eq {c : Tree α} (h : WayIn root ⟨c, ancestors⟩) (hroot : root.WellFormed)
    (ht : t ∈ root.nodes) (hc : c ∈ t.children) : ancestors.head? = some t := by
  generalize hpath : (⟨c, ancestors⟩ : Tree.Path α) = path at h
  cases h with
  | root =>
    cases hpath
    exact absurd ht (not_mem_nodes_of_mem_children hc)
  | @child u d above h hd =>
    cases hpath
    have hu : u ∈ root.nodes := h.mem_nodes
    have hmem : ∀ {v : Tree α}, c ∈ v.children → c ∈ v.nodes := fun hv =>
      mem_nodes_of_mem_children hv (mem_nodes_self c)
    -- Neither of the two nodes above `c` can be below `c`.
    have heq : ∀ {v w : Tree α}, w ∈ root.nodes → c ∈ v.children → c ∈ w.children → v ∈ w.nodes →
        v = w := by
      intro v w hw hv hcw hvw
      rcases Tree.mem_nodes.mp hvw with rfl | ⟨d, hd, hvd⟩
      · rfl
      · obtain rfl := (hroot.of_mem hw).eq_of_mem_nodes hd hcw (mem_nodes_trans (hmem hv) hvd)
          (mem_nodes_self c)
        exact absurd hvd (not_mem_nodes_of_mem_children hv)
    rcases hroot.nested hu ht (hmem hd) (hmem hc) with h | h
    · rw [List.head?_cons, heq ht hd hc h]
    · rw [List.head?_cons, heq hu hc hd h]

/-! ## Lifting -/

namespace Range

/-- A node stays, or is lifted to one above it. The root is never reached in this way. -/
theorem lift_eq_or_mem (root : Tree α) (refuses : Tree α → Bool) (t : Tree α) (above : List (Tree α)) :
    lift root refuses t above = t ∨
      (lift root refuses t above ∈ above ∧ (lift root refuses t above).id ≠ root.id) := by
  induction above generalizing t with
  | nil => exact .inl rfl
  | cons a rest ih =>
    rw [lift]
    split
    · exact .inl rfl
    · rename_i hpass
      rcases ih a with h | ⟨hmem, hid⟩
      · rw [h]
        exact .inr ⟨List.mem_cons_self, fun hid => hpass (by simp [hid])⟩
      · exact .inr ⟨List.mem_cons_of_mem a hmem, hid⟩

/-- A range is widened to where nodes start and stop. These are nodes that are looked for, or nodes
above them. -/
theorem exists_ends_of_widen? {p : Tree α → Bool} {text : String} {start stop a b : Nat}
    (h : widen? p root text start stop = some (a, b)) :
    (∃ t ∈ root.nodes, t.start = a) ∧
      ∃ t ∈ root.nodes, t.stop = b ∧ (p t = true ∨ t.children ≠ []) := by
  rw [widen?] at h
  dsimp only at h
  split at h
  case h_2 => cases h
  case h_1 first last hfirst hlast =>
    have hlift : ∀ {path : Tree.Path α} {offset : Nat}, root.find? offset p = some path →
        ∀ refuses, lift root refuses path.node path.ancestors ∈ root.nodes ∧
          (p (lift root refuses path.node path.ancestors) = true ∨
            (lift root refuses path.node path.ancestors).children ≠ []) := by
      intro path offset hfound refuses
      obtain ⟨hway, hp, -⟩ := wayIn_of_find? hfound
      rcases lift_eq_or_mem root refuses path.node path.ancestors with heq | ⟨hmem, -⟩
      · rw [heq]
        exact ⟨hway.mem_nodes, .inl hp⟩
      · exact (hway.of_mem_ancestors hmem).imp_right .inr
    have hends : ∀ t ∈ [(siblingAncestors root first last).1, (siblingAncestors root first last).2],
        t ∈ root.nodes ∧ (p t = true ∨ t.children ≠ []) := by
      have hself : ∀ {path : Tree.Path α} {offset : Nat}, root.find? offset p = some path →
          path.node ∈ root.nodes ∧ (p path.node = true ∨ path.node.children ≠ []) := fun hfound =>
        (wayIn_of_find? hfound).imp (·.mem_nodes) fun h => .inl h.1
      unfold siblingAncestors
      split
      · simpa using ⟨hself hfirst, hself hlast⟩
      · simpa using ⟨hlift hfirst _, hlift hlast _⟩
    simp only [List.forall_mem_cons, List.not_mem_nil, false_implies, implies_true, and_true] at hends
    obtain ⟨⟨hmem₁, hp₁⟩, hmem₂, hp₂⟩ := hends
    cases h
    constructor
    · rcases Nat.le_total (siblingAncestors root first last).1.start
        (siblingAncestors root first last).2.start with hle | hle
      · exact ⟨_, hmem₁, (Nat.min_eq_left hle).symm⟩
      · exact ⟨_, hmem₂, (Nat.min_eq_right hle).symm⟩
    · rcases Nat.le_total (siblingAncestors root first last).1.stop
        (siblingAncestors root first last).2.stop with hle | hle
      · exact ⟨_, hmem₂, (Nat.max_eq_right hle).symm, hp₂⟩
      · exact ⟨_, hmem₁, (Nat.max_eq_left hle).symm, hp₁⟩

/-- The nodes that let a node pass are left behind. -/
theorem lift_append_of_pass {refuses : Tree α → Bool} {before : List (Tree α)} (after : List (Tree α))
    (hpass : ∀ a ∈ before, a.id ≠ root.id ∧ refuses a = false) :
    lift root refuses t (before ++ after) = lift root refuses (before.getLast?.getD t) after := by
  induction before generalizing t with
  | nil => rfl
  | cons a rest ih =>
    obtain ⟨⟨hid, hrefuses⟩, hrest⟩ := List.forall_mem_cons.mp hpass
    rw [List.cons_append, lift, if_neg (by simp [hid, hrefuses]), ih hrest, List.getLast?_cons,
      Option.getD_some]

/-- A node is lifted to the last node before the first one that does not let it pass. -/
theorem lift_append {refuses : Tree α → Bool} {before after : List (Tree α)}
    (hpass : ∀ a ∈ before, a.id ≠ root.id ∧ refuses a = false)
    (hstop : ∀ a ∈ after.head?, a.id = root.id ∨ refuses a = true) :
    lift root refuses t (before ++ after) = before.getLast?.getD t := by
  rw [lift_append_of_pass after hpass]
  cases after with
  | nil => rfl
  | cons a rest =>
    have hstop : (decide (a.id = root.id) || refuses a) = true := by
      simpa using hstop a rfl
    rw [lift, if_pos hstop]

/-- A node is lifted to a part of a list, if the nodes on the way let it pass and the list does not. -/
theorem lift_eq {refuses : Tree α → Bool} {path : Tree.Path α} {list : Tree α}
    (hway : WayIn root path) (hroot : root.WellFormed) (hlist : list ∈ root.nodes)
    (hs : s ∈ list.children) (hmem : path.node ∈ s.nodes)
    (hpass : ∀ a ∈ s.nodes, path.node ∈ a.nodes → a ≠ path.node → refuses a = false)
    (hstop : list = root ∨ refuses list = true) :
    lift root refuses path.node path.ancestors = s := by
  have hsroot : s ∈ root.nodes := mem_nodes_trans (mem_nodes_of_mem_children hs (mem_nodes_self s)) hlist
  obtain ⟨before, after, hancestors, hlast, hafter, hbefore⟩ := hway.exists_split hroot hsroot hmem
  rw [hancestors, lift_append, hlast]
  · intro a ha
    obtain ⟨hpath, has, hne⟩ := hbefore a ha
    refine ⟨fun hid => ?_, hpass a has hpath hne⟩
    obtain rfl := hroot.eq_of_id_eq (mem_nodes_trans has hsroot) (mem_nodes_self root) hid
    exact not_mem_nodes_of_mem_children hs (mem_nodes_trans hlist has)
  · rw [hafter.head?_eq hroot hlist hs]
    rintro a ⟨⟩
    exact hstop.imp_left fun h => by rw [h]

/-- The list is the root, or brackets stand around the two parts of it. -/
structure Bracketed (root list first last : Tree α) : Prop where
  mem : list ∈ root.nodes
  first_mem : first ∈ list.children
  last_mem : last ∈ list.children
  brackets : list = root ∨ list.start < first.start ∧ last.stop < list.stop

/-- **The ends of a range are lifted to the parts of a list that hold them.** -/
theorem siblingAncestors_eq {first last : Tree.Path α} {list s₁ s₂ : Tree α}
    (hroot : root.WellFormed) (hfirst : WayIn root first) (hlast : WayIn root last)
    (hne : first.node ≠ last.node) (hlist : Bracketed root list s₁ s₂)
    (hmem₁ : first.node ∈ s₁.nodes) (hmem₂ : last.node ∈ s₂.nodes)
    (hpass₁ : ∀ a ∈ s₁.nodes, first.node ∈ a.nodes → a ≠ first.node → a.stop ≤ last.node.stop)
    (hpass₂ : ∀ a ∈ s₂.nodes, last.node ∈ a.nodes → a ≠ last.node → first.node.start ≤ a.start) :
    siblingAncestors root first last = (s₁, s₂) := by
  have hid : first.node.id ≠ last.node.id := fun h =>
    hne (hroot.eq_of_id_eq hfirst.mem_nodes hlast.mem_nodes h)
  have hwithin : ∀ {s : Tree α}, s ∈ list.children → s.WellFormed := fun hs =>
    (hroot.of_mem hlist.mem).of_mem_children hs
  have hin₁ := (hwithin hlist.first_mem).within hmem₁
  have hin₂ := (hwithin hlist.last_mem).within hmem₂
  rw [siblingAncestors, if_neg hid, Prod.mk.injEq]
  constructor
  · refine lift_eq hfirst hroot hlist.mem hlist.first_mem hmem₁ (fun a ha h hne => ?_) ?_
    · simpa using hpass₁ a ha h hne
    · refine hlist.brackets.imp_right fun h => ?_
      simp only [decide_eq_true_eq]
      omega
  · refine lift_eq hlast hroot hlist.mem hlist.last_mem hmem₂ (fun a ha h hne => ?_) ?_
    · simpa using hpass₂ a ha h hne
    · refine hlist.brackets.imp_right fun h => ?_
      simp only [decide_eq_true_eq]
      omega

/-- The ends are lifted to the parts of a list that stand one after the other. -/
theorem siblingAncestors_of_before {first last : Tree.Path α} {list s₁ s₂ : Tree α}
    (hroot : root.WellFormed) (hfirst : WayIn root first) (hlast : WayIn root last)
    (hne : first.node ≠ last.node) (hlist : Bracketed root list s₁ s₂)
    (hmem₁ : first.node ∈ s₁.nodes) (hmem₂ : last.node ∈ s₂.nodes) (hle : s₁.stop ≤ s₂.start) :
    siblingAncestors root first last = (s₁, s₂) := by
  have hwellFormed₁ := (hroot.of_mem hlist.mem).of_mem_children hlist.first_mem
  have hwellFormed₂ := (hroot.of_mem hlist.mem).of_mem_children hlist.last_mem
  have hin₁ := hwellFormed₁.within hmem₁
  have hin₂ := hwellFormed₂.within hmem₂
  have hle₁ := hroot.start_le_stop _ hfirst.mem_nodes
  have hle₂ := hroot.start_le_stop _ hlast.mem_nodes
  refine siblingAncestors_eq hroot hfirst hlast hne hlist hmem₁ hmem₂ (fun a ha _ _ => ?_)
    fun a ha _ _ => ?_
  · have := hwellFormed₁.within ha
    omega
  · have := hwellFormed₂.within ha
    omega

/-- Where one end is a part of the list and holds the other end, both are lifted to that part. -/
theorem siblingAncestors_of_mem {first last : Tree.Path α} {list : Tree α} (hroot : root.WellFormed)
    (hfirst : WayIn root first) (hlast : WayIn root last) (hne : first.node ≠ last.node)
    (hlist : Bracketed root list s s) (hmem₁ : first.node ∈ s.nodes) (hmem₂ : last.node ∈ s.nodes)
    (heq : first.node = s ∨ last.node = s) : siblingAncestors root first last = (s, s) := by
  have hwellFormed := (hroot.of_mem hlist.mem).of_mem_children hlist.first_mem
  refine siblingAncestors_eq hroot hfirst hlast hne hlist hmem₁ hmem₂ (fun a ha hpath hne => ?_)
    fun a ha hpath hne => ?_
  · rcases heq with rfl | rfl
    · exact absurd (mem_nodes_antisymm ha hpath) hne
    · exact (hwellFormed.within ha).2
  · rcases heq with rfl | rfl
    · exact (hwellFormed.within ha).1
    · exact absurd (mem_nodes_antisymm ha hpath) hne

end Range

end CodeFormatter
