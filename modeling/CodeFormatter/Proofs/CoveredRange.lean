import CodeFormatter.Proofs.Range
import CodeFormatter.Proofs.Text.Blank
import CodeFormatter.Proofs.Text.Slice

/-!
# Siblings cover a range

A range is widened to a part of the text that starts where one node starts and stops where another one
does. The two ends are looked up and lifted each on its own, each compared with the place where the *other*
one was found, and not with the place it was lifted to. Still the two nodes fit together.

* If one of the lifted nodes is below the other, then that one covers both ends by itself.
* If not, there is a node with two children, each with one of them below it. The child on the left stops
  before the other one starts, so nothing holds the first end back below it, and nothing the last end below
  the other: they are lifted just to these two children.

The children are in the order of the ends, since the first end is before the last. Empty nodes do not
matter: the ends are only told apart if there is something between them.

**Theorem (`widen?_covers`).** For every well-formed tree and every request, the range that is asked for
lies between boundaries of the text, and what it is widened to covers it and goes from the start of a node
to the stop of the same node or of a later sibling. The root is such a node only if it is a source element.
-/

namespace CodeFormatter

open CodeFormatter.Tree Walk

variable {α : Type} {root t u v a : Tree α} {first last : Tree.Path α}

/-! ## What is asked for -/

/-- A request goes on to the nearest boundary behind its end and back to the nearest one before its start,
where a start behind the end counts as the end. What is left of this slice without the blanks around it is
the range from `first` to `last`. -/
def Asks (text : String) (start stop first last : Nat) : Prop :=
  ∃ left right lead body trail,
    IsLeast {b | isBoundary text b = true ∧ min stop text.utf8ByteSize ≤ b} right ∧
      IsGreatest {b | isBoundary text b = true ∧ b ≤ min start right} left ∧
      (∃ slice, slice? text left right = some slice ∧ Trims slice.toList lead body trail) ∧
      first = left + byteLength lead ∧ last = first + byteLength body

theorem asks_stripped (text : String) (start stop : Nat) :
    Asks text start stop (Range.stripped text start stop).1 (Range.stripped text start stop).2 := by
  have hright := isLeast_ceilBoundary text stop
  have hleft := isGreatest_floorBoundary text (min start (ceilBoundary text stop))
  obtain ⟨cs, hcs⟩ := exists_lies hleft.1.1 hright.1.1 (hleft.1.2.trans (min_le_right _ _))
  have hslice := slice?_of_lies hcs
  have htrims := trims_trimBoth cs
  -- Trimming the left side takes as many bytes as the blanks there have.
  have hlead : byteLength cs - byteLength (trimLeft cs) = byteLength (cs.takeWhile isBlank) := by
    have hsplit := congrArg byteLength (takeWhile_append_trimLeft cs)
    rw [byteLength_append] at hsplit
    omega
  have hstripped : Range.stripped text start stop =
      (floorBoundary text (min start (ceilBoundary text stop)) + byteLength (cs.takeWhile isBlank),
        floorBoundary text (min start (ceilBoundary text stop)) + byteLength (cs.takeWhile isBlank) +
          byteLength (trimBoth cs)) := by
    simp only [Range.stripped, hslice, String.toList_ofList, hlead]
  rw [hstripped]
  exact ⟨_, _, _, _, _, hright, hleft, ⟨_, hslice, by rwa [String.toList_ofList]⟩, rfl, rfl⟩

/-! ## Nodes in a row -/

/-- Of two nodes one is below the other, or they are below two children of one node, of which one comes
first. -/
theorem Tree.nested_or_forked (hu : u ∈ root.nodes) (hv : v ∈ root.nodes) :
    u ∈ v.nodes ∨ v ∈ u.nodes ∨ ∃ t ∈ root.nodes, ∃ before c between d after,
      t.children = before ++ c :: (between ++ d :: after) ∧
        (u ∈ c.nodes ∧ v ∈ d.nodes ∨ v ∈ c.nodes ∧ u ∈ d.nodes) := by
  refine (nested_or_apart hu hv).imp_right (Or.imp_right ?_)
  rintro ⟨t, ht, c, hc, d, hd, hne, huc, hvd⟩
  refine ⟨t, ht, ?_⟩
  obtain ⟨before, after, hchildren⟩ := List.append_of_mem hc
  rw [hchildren, List.mem_append, List.mem_cons] at hd
  rcases hd with hd | rfl | hd
  · obtain ⟨before, between, rfl⟩ := List.append_of_mem hd
    exact ⟨before, d, between, c, after, by simp [hchildren], .inr ⟨hvd, huc⟩⟩
  · exact absurd rfl hne
  · obtain ⟨between, after, rfl⟩ := List.append_of_mem hd
    exact ⟨before, c, between, d, after, hchildren, .inl ⟨huc, hvd⟩⟩

/-- Two nodes are the same, or children of one node in this order. -/
inductive InRow (root : Tree α) : Tree α → Tree α → Prop
  | same {t : Tree α} (mem : t ∈ root.nodes) : InRow root t t
  | siblings {t first last : Tree α} {before between after : List (Tree α)} (mem : t ∈ root.nodes)
      (children : t.children = before ++ first :: (between ++ last :: after)) : InRow root first last

/-! ## Lifting -/

/-- The nodes above a node hold it. -/
theorem Walk.WayIn.node_mem_nodes {path : Tree.Path α} (h : WayIn root path) (ha : a ∈ path.ancestors) :
    path.node ∈ a.nodes := by
  induction h generalizing a with
  | root => cases ha
  | @child t c ancestors h hc ih =>
    have hself : c ∈ t.nodes := mem_nodes_of_mem_children hc (mem_nodes_self c)
    rcases List.mem_cons.mp ha with rfl | ha
    · exact hself
    · exact mem_nodes_trans hself (ih ha)

namespace Range

variable {refuses : Tree α → Bool} {path : Tree.Path α}

/-- A node is below the one it is lifted to, and this is the root only if the node is. -/
theorem lift_above (refuses : Tree α → Bool) (h : WayIn root path) :
    lift root refuses path.node path.ancestors ∈ root.nodes ∧
      path.node ∈ (lift root refuses path.node path.ancestors).nodes ∧
      (lift root refuses path.node path.ancestors = root → path.node = root) := by
  rcases lift_eq_or_mem root refuses path.node path.ancestors with heq | ⟨hmem, hid⟩
  · rw [heq]
    exact ⟨h.mem_nodes, mem_nodes_self _, id⟩
  · exact ⟨(h.of_mem_ancestors hmem).1, h.node_mem_nodes hmem, fun heq => absurd (by rw [heq]) hid⟩

/-- A node is lifted at least to each node above it that is not the root, if nothing up to there refuses. -/
theorem mem_nodes_lift (hroot : root.WellFormed) (h : WayIn root path) (ha : a ∈ root.nodes)
    (hmem : path.node ∈ a.nodes) (hne : a ≠ root)
    (hpass : ∀ b ∈ a.nodes, path.node ∈ b.nodes → refuses b = false) :
    a ∈ (lift root refuses path.node path.ancestors).nodes := by
  obtain ⟨before, after, hancestors, hlast, hway, hbefore⟩ := h.exists_split hroot ha hmem
  rw [hancestors, lift_append_of_pass after, hlast]
  · obtain ⟨-, hbelow, -⟩ := lift_above refuses hway
    exact hbelow
  · intro b hb
    obtain ⟨hpath, hba, -⟩ := hbefore b hb
    refine ⟨?_, hpass b hba hpath⟩
    intro hid
    obtain rfl := hroot.eq_of_id_eq (mem_nodes_trans hba ha) (mem_nodes_self root) hid
    exact hne (mem_nodes_antisymm ha hba)

/-- A node that is lifted to one below a child, though nothing below the child refuses, is lifted to the
child itself. -/
theorem lift_eq_child {c : Tree α} (hroot : root.WellFormed) (h : WayIn root path) (ht : t ∈ root.nodes)
    (hc : c ∈ t.children) (hmem : path.node ∈ c.nodes) (hpass : ∀ b ∈ c.nodes, refuses b = false)
    (hbelow : lift root refuses path.node path.ancestors ∈ c.nodes) :
    lift root refuses path.node path.ancestors = c := by
  have hcroot : c ∈ root.nodes := mem_nodes_trans (mem_nodes_of_mem_children hc (mem_nodes_self c)) ht
  apply mem_nodes_antisymm hbelow
  apply mem_nodes_lift hroot h hcroot hmem
  · rintro rfl
    exact not_mem_nodes_of_mem_children hc ht
  · intro b hb _
    exact hpass b hb

/-- **The ends of a range are lifted to siblings**, or to one node, as far as the outcome shows. -/
theorem exists_inRow {x y : Tree α} (hroot : root.WellFormed) (hfirst : WayIn root first)
    (hlast : WayIn root last) (hlt : first.node ≠ last.node → first.node.start < last.node.stop)
    (hends : siblingAncestors root first last = (x, y)) :
    x.start ≤ first.node.start ∧ last.node.stop ≤ y.stop ∧
      ∃ p q, InRow root p q ∧ min x.start y.start = p.start ∧ max x.stop y.stop = q.stop ∧
        (p = root ∨ q = root → first.node = root ∨ last.node = root) := by
  by_cases heq : first.node = last.node
  · rw [siblingAncestors, if_pos (by rw [heq]), Prod.mk.injEq] at hends
    obtain ⟨rfl, rfl⟩ := hends
    rw [heq]
    exact ⟨le_rfl, le_rfl, last.node, last.node, .same hlast.mem_nodes, min_self _, max_self _, by simp⟩
  have hlt := hlt heq
  have hid : first.node.id ≠ last.node.id := fun h =>
    heq (hroot.eq_of_id_eq hfirst.mem_nodes hlast.mem_nodes h)
  rw [siblingAncestors, if_neg hid, Prod.mk.injEq] at hends
  obtain ⟨hliftx, hlifty⟩ := hends
  obtain ⟨hx, hfirstx, hxroot⟩ := hliftx ▸ lift_above (fun a => last.node.stop < a.stop) hfirst
  obtain ⟨hy, hlasty, hyroot⟩ := hlifty ▸ lift_above (fun a => a.start < first.node.start) hlast
  have hwithinx := (hroot.of_mem hx).within hfirstx
  have hwithiny := (hroot.of_mem hy).within hlasty
  refine ⟨hwithinx.1, hwithiny.2, ?_⟩
  rcases Tree.nested_or_forked hx hy with hxy | hyx | ⟨t, ht, before, c, between, d, after, hchildren, hfork⟩
  · -- The last node holds both ends.
    have hwithin := (hroot.of_mem hy).within hxy
    refine ⟨y, y, .same hy, min_eq_right hwithin.1, max_eq_right hwithin.2, ?_⟩
    rintro (h | h) <;> exact .inr (hyroot h)
  · -- The first node holds both ends.
    have hwithin := (hroot.of_mem hx).within hyx
    refine ⟨x, x, .same hx, min_eq_left hwithin.1, max_eq_left hwithin.2, ?_⟩
    rintro (h | h) <;> exact .inl (hxroot h)
  · have hc : c ∈ t.children := by simp [hchildren]
    have hd : d ∈ t.children := by simp [hchildren]
    have hwithin : ∀ {b : Tree α}, b ∈ t.children → ∀ {u : Tree α}, u ∈ b.nodes →
        b.start ≤ u.start ∧ u.stop ≤ b.stop := fun hb _ hu =>
      ((hroot.of_mem ht).of_mem_children hb).within hu
    have horder : c.stop ≤ d.start := by
      have hordered := hroot.ordered t ht
      rw [hchildren, List.pairwise_append, List.pairwise_cons] at hordered
      exact hordered.2.1.1 d (by simp)
    rcases hfork with ⟨hxc, hyd⟩ | ⟨hyc, hxd⟩
    · have hle := hroot.start_le_stop _ hfirst.mem_nodes
      have hle' := hroot.start_le_stop _ hlast.mem_nodes
      have hfirstc := hwithin hc (mem_nodes_trans hfirstx hxc)
      have hlastd := hwithin hd (mem_nodes_trans hlasty hyd)
      have hxeq : x = c := by
        rw [← hliftx] at hxc ⊢
        refine lift_eq_child hroot hfirst ht hc (mem_nodes_trans (hliftx ▸ hfirstx) hxc) ?_ hxc
        intro b hb
        have hbc := hwithin hc hb
        simp only [decide_eq_false_iff_not]
        omega
      have hyeq : y = d := by
        rw [← hlifty] at hyd ⊢
        refine lift_eq_child hroot hlast ht hd (mem_nodes_trans (hlifty ▸ hlasty) hyd) ?_ hyd
        intro b hb
        have hbd := hwithin hd hb
        simp only [decide_eq_false_iff_not]
        omega
      subst hxeq hyeq
      refine ⟨x, y, .siblings ht hchildren, min_eq_left (by omega), max_eq_right (by omega), ?_⟩
      have hne : ∀ {b : Tree α}, b ∈ t.children → b ≠ root := by
        rintro b hb rfl
        exact not_mem_nodes_of_mem_children hb ht
      rintro (h | h)
      · exact absurd h (hne hc)
      · exact absurd h (hne hd)
    · -- The last end would be before the first one.
      have hlastc := hwithin hc (mem_nodes_trans hlasty hyc)
      have hfirstd := hwithin hd (mem_nodes_trans hfirstx hxd)
      omega

/-- **A widened range covers what is asked for**, and goes from the start of a node to the stop of the same
node or of a later sibling. -/
theorem widen?_covers (hroot : root.WellFormed) (isSourceElement : Tree α → Bool) (text : String)
    (start stop : Nat) :
    ∃ s e, stripped text start stop = (s, e) ∧ Asks text start stop s e ∧ s ≤ e ∧
      ∀ a b, widen? isSourceElement root text start stop = some (a, b) →
        a ≤ s ∧ e ≤ b ∧ ∃ p q, InRow root p q ∧ a = p.start ∧ b = q.stop ∧
          (p = root ∨ q = root → isSourceElement root = true) := by
  have hasks := asks_stripped text start stop
  cases hstripped : stripped text start stop with
  | mk s e =>
    rw [hstripped] at hasks
    have hse : s ≤ e := by
      obtain ⟨-, -, -, body, -, -, -, -, -, hlast⟩ := hasks
      omega
    refine ⟨s, e, rfl, hasks, hse, ?_⟩
    intro a b h
    rw [widen?, hstripped] at h
    dsimp only at h
    split at h
    case h_2 => cases h
    case h_1 first last hfirst hlast =>
      obtain ⟨hway, hp, hcovers⟩ := wayIn_of_find? hfirst
      obtain ⟨hway', hp', hcovers'⟩ := wayIn_of_find? hlast
      rw [Tree.covers, Bool.and_eq_true, decide_eq_true_eq, decide_eq_true_eq] at hcovers hcovers'
      have hlt : first.node ≠ last.node → first.node.start < last.node.stop := by
        intro hne
        by_cases hse : s = e
        · -- The same search finds the same node.
          rw [hse, hlast] at hfirst
          cases hfirst
          exact absurd rfl hne
        · omega
      obtain ⟨hstart, hstop, p, q, hrow, hmin, hmax, hends⟩ := exists_inRow hroot hway hway' hlt rfl
      cases h
      refine ⟨(min_le_left _ _).trans (hstart.trans hcovers.1),
        (hcovers'.2.trans hstop).trans (le_max_right _ _), p, q, hrow, hmin, hmax, ?_⟩
      intro hpq
      rcases hends hpq with h | h
      · rwa [h] at hp
      · rwa [h] at hp'

/-- A block with a name in it, and a name behind the block. -/
def blockAndName : Tree Unit :=
  ⟨0, 0, 8, (), [⟨1, 0, 5, (), [⟨2, 1, 4, (), []⟩]⟩, ⟨3, 6, 8, (), []⟩]⟩

/-- The request starts inside of a character, and its first end is lifted to the block. -/
theorem widen?_covers_block : blockAndName.WellFormed ∧
    ∃ s e, Asks "\x7bé;\x7d\nb;" 2 7 s e ∧ s = 1 ∧ e = 7 ∧
      ∃ p q, InRow blockAndName p q ∧ p.start = 0 ∧ q.stop = 8 := by
  have hroot : blockAndName.WellFormed := by
    constructor <;> simp [blockAndName, nodes, nodesAll]
  have hstripped : stripped "\x7bé;\x7d\nb;" 2 7 = (1, 7) := by decide +kernel
  have hwiden : widen? (fun t => t.id != 0) blockAndName "\x7bé;\x7d\nb;" 2 7 = some (0, 8) := by
    decide +kernel
  obtain ⟨s, e, hse, hasks, -, hcovers⟩ := widen?_covers hroot (fun t => t.id != 0) "\x7bé;\x7d\nb;" 2 7
  cases hstripped.symm.trans hse
  obtain ⟨-, -, p, q, hrow, hp, hq, -⟩ := hcovers 0 8 hwiden
  exact ⟨hroot, 1, 7, hasks, rfl, rfl, p, q, hrow, hp.symm, hq.symm⟩

end Range

end CodeFormatter
