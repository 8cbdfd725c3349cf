import CodeFormatter.Proofs.Tree.Nesting
import Mathlib.Data.List.Basic

/-!
# The nodes around a span

A node and a span do not overlap in part if the node *holds* the span or *avoids* it. If that is so for
all nodes that can own comments, the search goes down to the innermost of them that holds the span, and
finds the nodes next to the span on the level below.

**Theorem (`around_surroundings`).** The search ends at a node, its *anchor*: the enclosing node that it
reports, or the root if it reports none. The neighbours that it reports stand next to each other among
the owners below the anchor, the one before the span and the other after it.

The invariant of the search on one level is that the neighbours found so far stand just outside the
bounds. When the bounds have met, they stand next to each other. This needs no order among the nodes;
order is what makes all other nodes of the level avoid the span, and so the anchor the innermost node.
-/

namespace CodeFormatter

variable {α : Type} {f : Tree α → Bool} {root t : Tree α} {start stop : Nat}

namespace Tree

/-- The span lies inside the node. -/
def Holds (t : Tree α) (start stop : Nat) : Prop := t.start ≤ start ∧ stop ≤ t.stop

/-- The span lies outside of the node. -/
def Avoids (t : Tree α) (start stop : Nat) : Prop := stop ≤ t.start ∨ t.stop ≤ start

theorem WellFormed.holds_of_mem {u : Tree α} (h : t.WellFormed) (hu : u ∈ t.nodes)
    (hholds : u.Holds start stop) : t.Holds start stop := by
  have := h.within hu
  unfold Holds at hholds ⊢
  omega

end Tree

namespace Attach

open CodeFormatter.Tree

/-! ## One level -/

/-- Neighbours that stand next to each other among some nodes, with the span between them. -/
structure Between (nodes : List (Tree α)) (start stop : Nat) (preceding following : Option (Tree α)) :
    Prop where
  adjacent : ∃ m ≤ nodes.length, preceding = (nodes.take m).getLast? ∧ following = nodes[m]?
  before : ∀ t, preceding = some t → t.stop ≤ start ∧ ¬ t.Holds start stop
  after : ∀ t, following = some t → stop ≤ t.start ∧ ¬ t.Holds start stop

/-- What a search for a span among some nodes finds. -/
def Finds (nodes : List (Tree α)) (start stop : Nat) : Nearby α → Prop
  | .inside t => t ∈ nodes ∧ t.Holds start stop
  | .between preceding following =>
    Between nodes start stop preceding following ∨
      ∃ t ∈ nodes, ¬ t.Holds start stop ∧ ¬ t.Avoids start stop

theorem finds_search (nodes : List (Tree α)) (start stop : Nat) :
    ∀ fuel left right preceding following, left ≤ right → right ≤ nodes.length →
      right - left ≤ fuel →
      preceding = (nodes.take left).getLast? → following = nodes[right]? →
      (∀ t, preceding = some t → t.stop ≤ start ∧ ¬ t.Holds start stop) →
      (∀ t, following = some t → stop ≤ t.start ∧ ¬ t.Holds start stop) →
      Finds nodes start stop
        (search nodes.toArray start stop fuel left right preceding following) := by
  intro fuel
  induction fuel with
  | zero =>
    intro left right preceding following hle hright hfuel hp hf hbefore hafter
    obtain rfl : left = right := by omega
    exact .inl ⟨⟨left, hright, hp, hf⟩, hbefore, hafter⟩
  | succ fuel ih =>
    intro left right preceding following hle hright hfuel hp hf hbefore hafter
    rw [search]
    split
    case isFalse hlt =>
      obtain rfl : left = right := by omega
      exact .inl ⟨⟨left, hright, hp, hf⟩, hbefore, hafter⟩
    case isTrue hlt =>
      generalize hmiddle : (left + right) / 2 = middle
      have hmlt : middle < nodes.length := by omega
      have hget : nodes[middle]? = some nodes[middle] := List.getElem?_eq_getElem hmlt
      have hmem : nodes[middle] ∈ nodes := List.getElem_mem hmlt
      simp only [List.getElem?_toArray, hget]
      generalize nodes[middle] = t at hget hmem
      by_cases hin : t.Holds start stop
      · obtain ⟨hl, hr⟩ := hin
        simp only [hl, hr, decide_true, Bool.and_self, if_true]
        exact ⟨hmem, hl, hr⟩
      · have hholds : (decide (t.start ≤ start) && decide (stop ≤ t.stop)) = false := by
          simpa [Holds] using hin
        simp only [hholds, Bool.false_eq_true, if_false]
        split_ifs with hbefore' hafter'
        · refine ih (middle + 1) right (some t) following (by omega) hright (by omega) ?_ hf ?_ hafter
          · rw [List.getLast?_take]
            simp [hget]
          · rintro u ⟨⟩
            exact ⟨hbefore', hin⟩
        · refine ih left middle preceding (some t) (by omega) (Nat.le_of_lt hmlt) (by omega) hp
            hget.symm hbefore ?_
          rintro u ⟨⟩
          exact ⟨hafter', hin⟩
        · exact .inr ⟨t, hmem, hin, by simp [Avoids]; omega⟩

/-- Where nodes stand one after the other, a span between two neighbours cuts them in two: what stands
before the span ends with the one neighbour, and what stands after it starts with the other. -/
theorem Between.cut {nodes : List (Tree α)} {preceding following : Option (Tree α)}
    (h : Between nodes start stop preceding following)
    (hordered : nodes.Pairwise fun a b => a.stop ≤ b.start)
    (hspan : ∀ t ∈ nodes, t.start ≤ t.stop) :
    ∃ before after, nodes = before ++ after ∧ preceding = before.getLast? ∧ following = after.head? ∧
      (∀ t ∈ before, t.stop ≤ start ∧ (start ≤ stop → ¬ t.Holds start stop)) ∧
      ∀ t ∈ after, stop ≤ t.start ∧ (start ≤ stop → ¬ t.Holds start stop) := by
  obtain ⟨⟨m, -, hp, hf⟩, hbefore, hafter⟩ := h
  refine ⟨nodes.take m, nodes.drop m, (List.take_append_drop m nodes).symm, hp,
    hf.trans List.head?_drop.symm, fun t ht => ?_, fun t ht => ?_⟩
  · -- The last of them is the neighbour, and the others end where it starts, or before.
    obtain hnil | ⟨front, u, heq⟩ := List.eq_nil_or_concat (nodes.take m)
    · exact absurd ht (hnil ▸ List.not_mem_nil)
    rw [List.concat_eq_append] at heq
    obtain ⟨hstop, hnot⟩ := hbefore u (by rw [hp, heq, List.getLast?_concat])
    have hu := hspan u (List.mem_of_mem_take (i := m) (by simp [heq]))
    have hsorted := hordered.sublist (List.take_sublist m nodes)
    rw [heq] at ht hsorted
    rcases List.mem_append.mp ht with ht | ht
    · have hle := (List.pairwise_append.mp hsorted).2.2 t ht u (List.mem_singleton_self u)
      unfold Tree.Holds at hnot ⊢
      omega
    · rw [List.mem_singleton.mp ht]
      exact ⟨hstop, fun _ => hnot⟩
  · obtain ⟨u, rest, heq⟩ := List.exists_cons_of_ne_nil (List.ne_nil_of_mem ht)
    obtain ⟨hstart, hnot⟩ := hafter u (by rw [hf, ← List.head?_drop, heq, List.head?_cons])
    have hu := hspan u (List.mem_of_mem_drop (i := m) (by simp [heq]))
    have hsorted := hordered.sublist (List.drop_sublist m nodes)
    rw [heq] at ht hsorted
    rcases List.mem_cons.mp ht with rfl | ht
    · exact ⟨hstart, fun _ => hnot⟩
    · have hle := (List.pairwise_cons.mp hsorted).1 t ht
      unfold Tree.Holds at hnot ⊢
      omega

/-- Where nodes stand one after the other, a span between two neighbours is outside of all of them. -/
theorem Between.avoids {nodes : List (Tree α)} {preceding following : Option (Tree α)}
    (h : Between nodes start stop preceding following)
    (hordered : nodes.Pairwise fun a b => a.stop ≤ b.start)
    (hspan : ∀ t ∈ nodes, t.start ≤ t.stop) (ht : t ∈ nodes) : t.Avoids start stop := by
  obtain ⟨before, after, rfl, -, -, hbefore, hafter⟩ := h.cut hordered hspan
  rcases List.mem_append.mp ht with ht | ht
  · exact .inr (hbefore t ht).1
  · exact .inl (hafter t ht).1

/-- Without neighbours there are no nodes. -/
theorem Between.eq_nil {nodes : List (Tree α)} (h : Between nodes start stop none none) :
    nodes = [] := by
  obtain ⟨m, hm, hp, hf⟩ := h.adjacent
  have hlen : nodes.length ≤ m := List.getElem?_eq_none_iff.mp hf.symm
  rw [List.take_of_length_le hlen] at hp
  exact List.getLast?_eq_none_iff.mp hp.symm

/-- The node after the span determines the one before it. -/
theorem Between.preceding_eq {nodes : List (Tree α)} {start' stop' : Nat}
    {p p' : Option (Tree α)} (hnodup : nodes.Nodup)
    (h : Between nodes start stop p (some t)) (h' : Between nodes start' stop' p' (some t)) :
    p = p' := by
  obtain ⟨m, hm, rfl, hf⟩ := h.adjacent
  obtain ⟨m', hm', rfl, hf'⟩ := h'.adjacent
  have hlt : m < nodes.length := (List.getElem?_eq_some_iff.mp hf.symm).1
  rw [(List.getElem?_inj hlt hnodup).mp (hf.symm.trans hf')]

theorem Between.mem_preceding {nodes : List (Tree α)} {following : Option (Tree α)}
    (h : Between nodes start stop (some t) following) : t ∈ nodes := by
  obtain ⟨m, -, hp, -⟩ := h.adjacent
  exact List.mem_of_mem_take (List.mem_of_getLast? hp.symm)

theorem Between.mem_following {nodes : List (Tree α)} {preceding : Option (Tree α)}
    (h : Between nodes start stop preceding (some t)) : t ∈ nodes := by
  obtain ⟨m, -, -, hf⟩ := h.adjacent
  exact List.mem_of_getElem? hf.symm

theorem Between.sublist {nodes : List (Tree α)} {u : Tree α}
    (h : Between nodes start stop (some t) (some u)) : [t, u].Sublist nodes := by
  obtain ⟨m, -, hp, hf⟩ := h.adjacent
  have hbefore : [t].Sublist (nodes.take m) :=
    List.singleton_sublist.mpr (List.mem_of_getLast? hp.symm)
  have hafter : [u].Sublist (nodes.drop m) := by
    refine List.singleton_sublist.mpr (List.mem_of_getElem? (i := 0) ?_)
    rw [List.getElem?_drop, Nat.add_zero, ← hf]
  have happend := hbefore.append hafter
  rwa [List.take_append_drop] at happend

/-! ## All levels -/

/-- A node at which a search for a span may end: it can own comments and holds the span, or it is the
root. -/
structure Anchor (f : Tree α → Bool) (root : Tree α) (start stop : Nat) (a : Tree α) : Prop where
  mem : a ∈ root.nodes
  holds : a = root ∨ f a = true ∧ a.Holds start stop

/-- The surroundings of a span, as seen from the anchor. -/
structure Around (f : Tree α → Bool) (root : Tree α) (start stop : Nat) (a : Tree α)
    (s : Surroundings α) : Prop extends Anchor f root start stop a where
  enclosing : s.enclosing.getD root = a
  neighbours : Between (ownersBelow f a) start stop s.preceding s.following

/-- No node that can own comments overlaps the span in part. -/
def Clear (f : Tree α → Bool) (root : Tree α) (start stop : Nat) : Prop :=
  ∀ t ∈ root.nodes, f t = true → t.Holds start stop ∨ t.Avoids start stop

theorem around_descend (hclear : Clear f root start stop) :
    ∀ fuel (t : Tree α) (enclosing : Option (Tree α)), t.depth ≤ fuel →
      Anchor f root start stop t → enclosing.getD root = t →
      ∃ a ∈ t.nodes, Around f root start stop a (descend f start stop fuel t enclosing) := by
  intro fuel
  induction fuel with
  | zero =>
    intro t enclosing hdepth
    cases t
    simp [depth] at hdepth
  | succ fuel ih =>
    intro t enclosing hdepth hanchor henclosing
    have hfinds := finds_search (ownersBelow f t) start stop (ownersBelow f t).length 0
      (ownersBelow f t).length none none (Nat.zero_le _) (Nat.le_refl _) (Nat.le_refl _) (by simp)
      (by simp) (by simp) (by simp)
    rw [descend]
    simp only [List.size_toArray]
    generalize search (ownersBelow f t).toArray start stop _ 0 _ none none = found at hfinds ⊢
    cases found with
    | inside child =>
      obtain ⟨hmem, hholds⟩ := hfinds
      have hchild := mem_nodes_of_mem_ownersBelow hmem
      have hlt := depth_lt_of_mem_ownersBelow hmem
      obtain ⟨a, ha, haround⟩ := ih child (some child) (by omega)
        ⟨mem_nodes_trans hchild hanchor.mem, .inr ⟨(of_mem_ownersBelow hmem).1, hholds⟩⟩ rfl
      exact ⟨a, mem_nodes_trans ha hchild, haround⟩
    | between preceding following =>
      refine ⟨t, mem_nodes_self t, hanchor, henclosing, hfinds.resolve_right ?_⟩
      rintro ⟨u, hu, hholds, havoids⟩
      have hroot := mem_nodes_trans (mem_nodes_of_mem_ownersBelow hu) hanchor.mem
      exact (hclear u hroot (of_mem_ownersBelow hu).1).elim hholds havoids

/-- **Where the search ends.** -/
theorem around_surroundings (hclear : Clear f root start stop) :
    ∃ a, Around f root start stop a (surroundings f root start stop) := by
  obtain ⟨a, -, haround⟩ := around_descend hclear root.depth root none (Nat.le_refl _)
    ⟨mem_nodes_self root, .inl rfl⟩ rfl
  exact ⟨a, haround⟩

/-- No owner below the anchor holds the span. -/
theorem Around.avoids {a : Tree α} {s : Surroundings α} (h : Around f root start stop a s)
    (hroot : root.WellFormed) {v : Tree α} (hv : v ∈ ownersBelow f a) : v.Avoids start stop :=
  have ha := hroot.of_mem h.mem
  h.neighbours.avoids (ha.pairwise_ownersBelow f)
    (fun _ hu => ha.start_le_stop _ (mem_nodes_of_mem_ownersBelow hu)) hv

/-- A node that can own comments and does not avoid the span is the anchor or a node above it. -/
theorem Around.innermost {a v : Tree α} {s : Surroundings α} (h : Around f root start stop a s)
    (hroot : root.WellFormed) (hv : v ∈ root.nodes) (hf : f v = true)
    (havoids : ¬ v.Avoids start stop) : a ∈ v.nodes := by
  -- A node below the anchor is in one of the owners below it, and these avoid the span.
  have hbelow : v ∈ a.nodes → v = a := by
    intro hva
    refine (mem_nodes.mp hva).resolve_right ?_
    rintro ⟨c, hc, hvc⟩
    obtain ⟨w, hw, hvw⟩ := exists_mem_ownersBelow hf hc hvc
    have hwroot := mem_nodes_trans (mem_nodes_of_mem_ownersBelow hw) h.mem
    have hwithin := (hroot.of_mem hwroot).within hvw
    have hw := h.avoids hroot hw
    unfold Tree.Avoids at hw havoids
    omega
  rcases h.holds with rfl | ⟨-, ha⟩
  · rw [hbelow hv]
    exact mem_nodes_self a
  · rcases hroot.comparable h.mem hv with hav | hva | hapart | hapart
    · exact hav
    · rw [hbelow hva]
      exact mem_nodes_self a
    · exact absurd (.inl (Nat.le_trans ha.2 hapart)) havoids
    · exact absurd (.inr (Nat.le_trans hapart ha.1)) havoids

end Attach

end CodeFormatter
