import CodeFormatter.Comment.Attach
import Mathlib.Data.List.Nodup
import Mathlib.Data.List.Pairwise

/-!
# Nodes inside nodes

A tree is *well formed* if its nodes have numbers of their own and stand in the text as they are
nested: siblings one after the other, each inside the node above it. Parsers promise this of their
trees; nothing else is asked of a tree here, and nodes may be empty.

**Owners.** The nodes that can own comments form a tree of their own, in which the others are looked
through: below a node stand the nodes of `ownersBelow`. They are in order, too
(`pairwise_ownersBelow`), every node that can own comments is one of them or below one of them
(`exists_mem_ownersBelow`), and none of them belongs to two levels (`eq_of_mem_ownersBelow`).
-/

namespace CodeFormatter.Tree

open Attach

variable {α : Type} {f : Tree α → Bool} {root t u v : Tree α}

/-! ## Induction -/

@[elab_as_elim]
theorem induction {motive : Tree α → Prop}
    (node : ∀ t, (∀ c ∈ t.children, motive c) → motive t) (t : Tree α) : motive t :=
  @Tree.rec α motive (fun ts => ∀ c ∈ ts, motive c)
    (fun id start stop info children ih => node ⟨id, start, stop, info, children⟩ ih)
    (fun _ h => by cases h)
    (fun t ts ht hts c hc => by
      rcases List.mem_cons.mp hc with rfl | hc
      · exact ht
      · exact hts c hc)
    t

theorem depth_lt_of_mem_children (h : u ∈ t.children) : u.depth < t.depth := by
  have hle : ∀ ts : List (Tree α), u ∈ ts → u.depth ≤ depthAll ts := by
    intro ts hu
    induction ts with
    | nil => cases hu
    | cons c rest ih =>
      rw [depthAll]
      rcases List.mem_cons.mp hu with rfl | hu
      · exact Nat.le_max_left _ _
      · exact Nat.le_trans (ih hu) (Nat.le_max_right _ _)
  have := hle t.children h
  cases t
  rw [depth]
  exact Nat.lt_of_le_of_lt this (Nat.lt_add_of_pos_left Nat.one_pos)

/-! ## The nodes of a tree -/

mutual

/-- A node and the nodes below it, each before those below itself. -/
def nodes : Tree α → List (Tree α)
  | ⟨id, start, stop, info, children⟩ => ⟨id, start, stop, info, children⟩ :: nodesAll children

def nodesAll : List (Tree α) → List (Tree α)
  | [] => []
  | t :: rest => nodes t ++ nodesAll rest

end

theorem nodesAll_eq (ts : List (Tree α)) : nodesAll ts = ts.flatMap nodes := by
  induction ts with
  | nil => rfl
  | cons t rest ih => rw [nodesAll, ih, List.flatMap_cons]

theorem nodes_eq (t : Tree α) : t.nodes = t :: t.children.flatMap nodes := by
  cases t
  rw [nodes, nodesAll_eq]

theorem mem_nodes : u ∈ t.nodes ↔ u = t ∨ ∃ c ∈ t.children, u ∈ c.nodes := by
  rw [nodes_eq, List.mem_cons, List.mem_flatMap]

@[simp] theorem mem_nodes_self (t : Tree α) : t ∈ t.nodes := mem_nodes.mpr (.inl rfl)

theorem mem_nodes_of_mem_children {c : Tree α} (hc : c ∈ t.children) (hu : u ∈ c.nodes) :
    u ∈ t.nodes :=
  mem_nodes.mpr (.inr ⟨c, hc, hu⟩)

theorem nodes_sublist_of_mem (h : u ∈ t.nodes) : u.nodes.Sublist t.nodes := by
  induction t using induction with
  | node t ih =>
    rcases mem_nodes.mp h with rfl | ⟨c, hc, hu⟩
    · exact .refl _
    · rw [nodes_eq t]
      exact ((ih c hc hu).trans (List.sublist_flatten_of_mem (List.mem_map_of_mem hc))).cons t

theorem mem_nodes_trans (hu : u ∈ t.nodes) (ht : t ∈ root.nodes) : u ∈ root.nodes :=
  (nodes_sublist_of_mem ht).subset hu

theorem mem_nodes_child {c : Tree α} (ht : t ∈ root.nodes) (hc : c ∈ t.children) : c ∈ root.nodes :=
  mem_nodes_trans (mem_nodes_of_mem_children hc (mem_nodes_self c)) ht

/-- A node that is not the root is right below a node. -/
theorem exists_mem_children (hu : u ∈ root.nodes) (hne : u ≠ root) :
    ∃ t ∈ root.nodes, u ∈ t.children := by
  induction root using induction with
  | node r ih =>
    obtain ⟨c, hc, huc⟩ := (mem_nodes.mp hu).resolve_left hne
    by_cases heq : u = c
    · exact ⟨r, mem_nodes_self r, heq ▸ hc⟩
    · obtain ⟨t, ht, hut⟩ := ih c hc huc heq
      exact ⟨t, mem_nodes_of_mem_children hc ht, hut⟩

theorem depth_le_of_mem_nodes (h : u ∈ t.nodes) : u.depth ≤ t.depth := by
  induction t using induction with
  | node t ih =>
    rcases mem_nodes.mp h with rfl | ⟨c, hc, hu⟩
    · exact Nat.le_refl _
    · exact Nat.le_trans (ih c hc hu) (Nat.le_of_lt (depth_lt_of_mem_children hc))

/-- A node is not below itself. -/
theorem not_mem_nodes_of_mem_children {c : Tree α} (hc : c ∈ t.children) : t ∉ c.nodes := fun h =>
  absurd (depth_le_of_mem_nodes h) (Nat.not_le_of_lt (depth_lt_of_mem_children hc))

theorem mem_nodes_antisymm (hu : u ∈ t.nodes) (ht : t ∈ u.nodes) : u = t := by
  refine (mem_nodes.mp hu).resolve_right ?_
  rintro ⟨c, hc, huc⟩
  exact not_mem_nodes_of_mem_children hc (mem_nodes_trans ht huc)

/-- Of two nodes one is below the other, or they are below two children of one node. -/
theorem nested_or_apart (hu : u ∈ root.nodes) (hv : v ∈ root.nodes) :
    u ∈ v.nodes ∨ v ∈ u.nodes ∨ ∃ t ∈ root.nodes, ∃ c ∈ t.children, ∃ d ∈ t.children,
      c ≠ d ∧ u ∈ c.nodes ∧ v ∈ d.nodes := by
  induction root using induction with
  | node r ih =>
    rcases mem_nodes.mp hu with rfl | ⟨c, hc, huc⟩
    · exact .inr (.inl hv)
    rcases mem_nodes.mp hv with rfl | ⟨d, hd, hvd⟩
    · exact .inl hu
    by_cases hcd : c = d
    · subst hcd
      rcases ih c hc huc hvd with h | h | ⟨t, ht, hapart⟩
      · exact .inl h
      · exact .inr (.inl h)
      · exact .inr (.inr ⟨t, mem_nodes_of_mem_children hc ht, hapart⟩)
    · exact .inr (.inr ⟨r, mem_nodes_self r, c, hc, d, hd, hcd, huc, hvd⟩)

/-! ## Well-formed trees -/

/-- The nodes have numbers of their own, and siblings stand one after the other inside the node above
them. -/
structure WellFormed (root : Tree α) : Prop where
  distinct : (root.nodes.map (·.id)).Nodup
  start_le_stop : ∀ t ∈ root.nodes, t.start ≤ t.stop
  inside : ∀ t ∈ root.nodes, ∀ c ∈ t.children, t.start ≤ c.start ∧ c.stop ≤ t.stop
  ordered : ∀ t ∈ root.nodes, t.children.Pairwise fun a b => a.stop ≤ b.start

namespace WellFormed

theorem of_mem (h : root.WellFormed) (ht : t ∈ root.nodes) : t.WellFormed where
  distinct := h.distinct.sublist ((nodes_sublist_of_mem ht).map _)
  start_le_stop u hu := h.start_le_stop u (mem_nodes_trans hu ht)
  inside u hu := h.inside u (mem_nodes_trans hu ht)
  ordered u hu := h.ordered u (mem_nodes_trans hu ht)

theorem of_mem_children (h : t.WellFormed) {c : Tree α} (hc : c ∈ t.children) : c.WellFormed :=
  h.of_mem (mem_nodes_of_mem_children hc (mem_nodes_self c))

theorem eq_of_id_eq (h : root.WellFormed) (ht : t ∈ root.nodes) (hu : u ∈ root.nodes)
    (hid : t.id = u.id) : t = u :=
  List.inj_on_of_nodup_map h.distinct ht hu hid

/-- A node is below only one of its siblings. -/
theorem eq_of_mem_nodes (h : t.WellFormed) {c d : Tree α} (hc : c ∈ t.children)
    (hd : d ∈ t.children) (huc : u ∈ c.nodes) (hud : u ∈ d.nodes) : c = d := by
  have hnodup := h.distinct.of_map
  rw [nodes_eq, List.nodup_cons, List.nodup_flatMap] at hnodup
  have : Std.Symm (Function.onFun List.Disjoint (nodes (α := α))) := ⟨fun _ _ h _ hb ha => h ha hb⟩
  by_contra hne
  exact hnodup.2.2.forall hc hd hne huc hud

theorem within (h : t.WellFormed) (hu : u ∈ t.nodes) : t.start ≤ u.start ∧ u.stop ≤ t.stop := by
  induction t using induction with
  | node t ih =>
    rcases mem_nodes.mp hu with rfl | ⟨c, hc, hu⟩
    · exact ⟨Nat.le_refl _, Nat.le_refl _⟩
    · have hchild := h.inside t (mem_nodes_self t) c hc
      have hbelow := ih c hc (h.of_mem_children hc) hu
      omega

/-- Of two nodes above the same node one is below the other. -/
theorem nested (h : root.WellFormed) (hv : v ∈ root.nodes) (ht : t ∈ root.nodes)
    (huv : u ∈ v.nodes) (hut : u ∈ t.nodes) : v ∈ t.nodes ∨ t ∈ v.nodes := by
  rcases nested_or_apart hv ht with hvt | htv | ⟨r, hr, c, hc, d, hd, hne, hvc, htd⟩
  · exact .inl hvt
  · exact .inr htv
  · -- The node below both would be below two siblings.
    exact absurd ((h.of_mem hr).eq_of_mem_nodes hc hd (mem_nodes_trans huv hvc)
      (mem_nodes_trans hut htd)) hne

/-- Of two nodes one is below the other, or one stands before the other. -/
theorem comparable (h : root.WellFormed) (hu : u ∈ root.nodes) (hv : v ∈ root.nodes) :
    u ∈ v.nodes ∨ v ∈ u.nodes ∨ u.stop ≤ v.start ∨ v.stop ≤ u.start := by
  rcases nested_or_apart hu hv with huv | hvu | ⟨t, ht, c, hc, d, hd, hne, huc, hvd⟩
  · exact .inl huv
  · exact .inr (.inl hvu)
  · have ht := h.of_mem ht
    have huc := (ht.of_mem_children hc).within huc
    have hvd := (ht.of_mem_children hd).within hvd
    have : Std.Symm fun a b : Tree α => a.stop ≤ b.start ∨ b.stop ≤ a.start :=
      ⟨fun _ _ => Or.symm⟩
    have hpairwise : t.children.Pairwise
        (fun a b : Tree α => a.stop ≤ b.start ∨ b.stop ≤ a.start) :=
      (ht.ordered t (mem_nodes_self t)).imp Or.inl
    rcases hpairwise.forall hc hd hne with hlt | hlt
    · exact .inr (.inr (.inl (by omega)))
    · exact .inr (.inr (.inr (by omega)))

end WellFormed

/-! ## Owners below a node -/

theorem ownersBelow_eq (f : Tree α → Bool) (t : Tree α) :
    ownersBelow f t = t.children.flatMap fun c => if f c then [c] else ownersBelow f c := by
  have hall : ∀ ts : List (Tree α),
      ownersAmong f ts = ts.flatMap fun c => if f c then [c] else ownersBelow f c := by
    intro ts
    induction ts with
    | nil => rfl
    | cons c rest ih => rw [ownersAmong, ih, List.flatMap_cons]
  cases t
  rw [ownersBelow, hall]

theorem mem_ownersBelow : u ∈ ownersBelow f t ↔
    ∃ c ∈ t.children, (f c = true ∧ u = c) ∨ (f c = false ∧ u ∈ ownersBelow f c) := by
  rw [ownersBelow_eq, List.mem_flatMap]
  refine exists_congr fun c => and_congr_right fun _ => ?_
  cases f c <;> simp

theorem ownersBelow_ne_nil {c : Tree α} (hc : c ∈ t.children) (hf : f c = true) :
    ownersBelow f t ≠ [] :=
  List.ne_nil_of_mem (mem_ownersBelow.mpr ⟨c, hc, .inl ⟨hf, rfl⟩⟩)

theorem ownersBelow_sublist (f : Tree α → Bool) (t : Tree α) :
    (ownersBelow f t).Sublist (t.children.flatMap nodes) := by
  induction t using induction with
  | node t ih =>
    rw [ownersBelow_eq]
    have hall : ∀ ts : List (Tree α), (∀ c ∈ ts, c ∈ t.children) →
        (ts.flatMap fun c => if f c then [c] else ownersBelow f c).Sublist (ts.flatMap nodes) := by
      intro ts hts
      induction ts with
      | nil => exact .slnil
      | cons c rest ihrest =>
        rw [List.flatMap_cons, List.flatMap_cons]
        refine List.Sublist.append ?_ (ihrest fun d hd => hts d (List.mem_cons_of_mem _ hd))
        rw [nodes_eq]
        split
        · exact (List.nil_sublist _).cons_cons c
        · exact (ih c (hts c List.mem_cons_self)).cons c
    exact hall t.children fun _ hc => hc

/-- An owner below a node is below one of its children, and can own comments. -/
theorem of_mem_ownersBelow (h : u ∈ ownersBelow f t) :
    f u = true ∧ ∃ c ∈ t.children, u ∈ c.nodes := by
  induction t using induction with
  | node t ih =>
    obtain ⟨c, hc, ⟨hf, rfl⟩ | ⟨-, hu⟩⟩ := mem_ownersBelow.mp h
    · exact ⟨hf, u, hc, mem_nodes_self u⟩
    · obtain ⟨hf, d, hd, hud⟩ := ih c hc hu
      exact ⟨hf, c, hc, mem_nodes_of_mem_children hd hud⟩

theorem mem_nodes_of_mem_ownersBelow (h : u ∈ ownersBelow f t) : u ∈ t.nodes := by
  obtain ⟨-, c, hc, hu⟩ := of_mem_ownersBelow h
  exact mem_nodes_of_mem_children hc hu

theorem depth_lt_of_mem_ownersBelow (h : u ∈ ownersBelow f t) : u.depth < t.depth := by
  obtain ⟨-, c, hc, hu⟩ := of_mem_ownersBelow h
  exact Nat.lt_of_le_of_lt (depth_le_of_mem_nodes hu) (depth_lt_of_mem_children hc)

/-- A node that can own comments is among the owners below any node above it, or below one of
them. -/
theorem exists_mem_ownersBelow {c : Tree α} (hu : f u = true) (hc : c ∈ t.children)
    (huc : u ∈ c.nodes) : ∃ v ∈ ownersBelow f t, u ∈ v.nodes := by
  induction t using induction generalizing c with
  | node t ih =>
    by_cases hf : f c = true
    · exact ⟨c, mem_ownersBelow.mpr ⟨c, hc, .inl ⟨hf, rfl⟩⟩, huc⟩
    · rcases mem_nodes.mp huc with rfl | ⟨d, hd, hud⟩
      · exact absurd hu hf
      · obtain ⟨v, hv, huv⟩ := ih c hc hd hud
        exact ⟨v, mem_ownersBelow.mpr ⟨c, hc, .inr ⟨by simpa using hf, hv⟩⟩, huv⟩

namespace WellFormed

theorem pairwise_ownersBelow (h : t.WellFormed) (f : Tree α → Bool) :
    (ownersBelow f t).Pairwise fun a b => a.stop ≤ b.start := by
  induction t using induction with
  | node t ih =>
    rw [ownersBelow_eq, List.pairwise_flatMap]
    constructor
    · intro c hc
      split
      · exact List.pairwise_singleton _ _
      · exact ih c hc (h.of_mem_children hc)
    · refine List.Pairwise.imp_of_mem ?_ (h.ordered t (mem_nodes_self t))
      intro c d hc hd hcd a ha b hb
      -- What stands in the place of a child lies inside it.
      have hplace : ∀ c ∈ t.children, ∀ a ∈ (if f c then [c] else ownersBelow f c),
          c.start ≤ a.start ∧ a.stop ≤ c.stop := by
        intro c hc a ha
        refine (h.of_mem_children hc).within ?_
        split at ha
        · rw [List.mem_singleton.mp ha]
          exact mem_nodes_self c
        · exact mem_nodes_of_mem_ownersBelow ha
      have hca := hplace c hc a ha
      have hdb := hplace d hd b hb
      omega

theorem nodup_ownersBelow (h : t.WellFormed) (f : Tree α → Bool) : (ownersBelow f t).Nodup := by
  have hnodup := h.distinct.of_map
  rw [nodes_eq, List.nodup_cons] at hnodup
  exact hnodup.2.sublist (ownersBelow_sublist f t)

theorem nodup_children (h : t.WellFormed) : t.children.Nodup := by
  have hnodup := h.nodup_ownersBelow fun _ => true
  simpa [ownersBelow_eq] using hnodup

/-- No node is an owner below two others that can own comments, or that are the root. -/
theorem eq_of_mem_ownersBelow {a b : Tree α} (h : root.WellFormed) (ha : a ∈ root.nodes)
    (hb : b ∈ root.nodes) (hfa : a = root ∨ f a = true) (hfb : b = root ∨ f b = true)
    (hua : u ∈ ownersBelow f a) (hub : u ∈ ownersBelow f b) : a = b := by
  induction root using induction generalizing a b with
  | node r ih =>
    -- An owner below the root is not below another owner.
    have hroot : ∀ {b}, b ∈ r.nodes → b = r ∨ f b = true → u ∈ ownersBelow f r →
        u ∈ ownersBelow f b → r = b := by
      intro b hb hfb hur hub
      rcases mem_nodes.mp hb with rfl | ⟨c, hc, hbc⟩
      · rfl
      · have huc : u ∈ c.nodes := mem_nodes_trans (mem_nodes_of_mem_ownersBelow hub) hbc
        obtain ⟨d, hd, hplace⟩ := mem_ownersBelow.mp hur
        have hud : u ∈ d.nodes := by
          rcases hplace with ⟨-, rfl⟩ | ⟨-, hud⟩
          · exact mem_nodes_self u
          · exact mem_nodes_of_mem_ownersBelow hud
        obtain rfl := h.eq_of_mem_nodes hc hd huc hud
        have hb : f b = true := by
          refine hfb.resolve_left ?_
          rintro rfl
          exact not_mem_nodes_of_mem_children hc hbc
        rcases hplace with ⟨-, rfl⟩ | ⟨hfc, hud⟩
        · exact absurd (depth_le_of_mem_nodes hbc) (Nat.not_le_of_lt (depth_lt_of_mem_ownersBelow hub))
        · have hcb := ih c hc (h.of_mem_children hc) (mem_nodes_self c) hbc (.inl rfl) (.inr hb)
            hud hub
          rw [hcb, hb] at hfc
          cases hfc
    rcases mem_nodes.mp ha with rfl | ⟨c, hc, hac⟩
    · exact hroot hb hfb hua hub
    · rcases mem_nodes.mp hb with rfl | ⟨d, hd, hbd⟩
      · exact (hroot ha hfa hub hua).symm
      · have huc := mem_nodes_trans (mem_nodes_of_mem_ownersBelow hua) hac
        have hud := mem_nodes_trans (mem_nodes_of_mem_ownersBelow hub) hbd
        obtain rfl := h.eq_of_mem_nodes hc hd huc hud
        have hbelow : ∀ {x : Tree α}, x ∈ c.nodes → x ≠ r := by
          rintro x hx rfl
          exact not_mem_nodes_of_mem_children hc hx
        exact ih c hc (h.of_mem_children hc) hac hbd (.inr (hfa.resolve_left (hbelow hac)))
          (.inr (hfb.resolve_left (hbelow hbd))) hua hub

/-- A node is right below one node only. -/
theorem eq_of_mem_children {a b : Tree α} (h : root.WellFormed) (ha : a ∈ root.nodes)
    (hb : b ∈ root.nodes) (hua : u ∈ a.children) (hub : u ∈ b.children) : a = b := by
  have howner : ∀ {t : Tree α}, u ∈ t.children → u ∈ ownersBelow (fun _ => true) t := fun hut =>
    mem_ownersBelow.mpr ⟨u, hut, .inl ⟨rfl, rfl⟩⟩
  exact h.eq_of_mem_ownersBelow ha hb (.inr rfl) (.inr rfl) (howner hua) (howner hub)

/-- No node that can own comments stands between a node and an owner below it. -/
theorem eq_of_between {c : Tree α} (h : t.WellFormed) (hu : u ∈ ownersBelow f t)
    (hc : c ∈ t.children) (hvc : v ∈ c.nodes) (hf : f v = true) (huv : u ∈ v.nodes) : u = v := by
  induction t using induction generalizing c with
  | node t ih =>
    obtain ⟨d, hd, hplace⟩ := mem_ownersBelow.mp hu
    have hud : u ∈ d.nodes := by
      rcases hplace with ⟨-, rfl⟩ | ⟨-, hud⟩
      · exact mem_nodes_self u
      · exact mem_nodes_of_mem_ownersBelow hud
    obtain rfl := h.eq_of_mem_nodes hc hd (mem_nodes_trans huv hvc) hud
    rcases hplace with ⟨-, rfl⟩ | ⟨hfc, hud⟩
    · exact mem_nodes_antisymm huv hvc
    · rcases mem_nodes.mp hvc with rfl | ⟨d, hd, hvd⟩
      · rw [hf] at hfc
        cases hfc
      · exact ih c hc (h.of_mem_children hc) hud hd hvd

end WellFormed

end CodeFormatter.Tree
