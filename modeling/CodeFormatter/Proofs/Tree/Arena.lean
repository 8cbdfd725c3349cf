import CodeFormatter.Proofs.Comment.Store
import CodeFormatter.Proofs.Tree.Kept

/-!
# Arenas of trees

A parser promises that the parts of a tree are ordered and nested (`Handed`). If there are numbers for all its
nodes, the arena of such a tree

* is *well formed* (`WellFormed`): children come after their parents, every node but the first has one parent,
  and siblings stand one after the other inside their parent;
* *holds* the tree (`Holds`): its entries are the nodes that are not below a leaf, each with the tokens right
  below it, and its comments are those that are not below a leaf or in another comment.

A leaf has no tokens, whatever is below it (`tokensOf`).
-/

namespace CodeFormatter

/-! ## Numbered trees -/

namespace Tree

variable {α : Type} {root t c : Tree α}

/-- Nodes are numbered in the order in which they start. -/
def Numbered (t : Tree α) : Prop := t.nodes.map (·.id) = List.range t.nodes.length

namespace Numbered

theorem id_eq (h : root.Numbered) {i : Nat} (ht : root.nodes[i]? = some t) : t.id = i := by
  have hid : (root.nodes.map (·.id))[i]? = some t.id := by rw [List.getElem?_map, ht, Option.map_some]
  rw [h, List.getElem?_eq_some_iff] at hid
  obtain ⟨hi, hid⟩ := hid
  rw [← hid, List.getElem_range]

theorem getElem?_id (h : root.Numbered) (ht : t ∈ root.nodes) : root.nodes[t.id]? = some t := by
  obtain ⟨i, hi⟩ := List.getElem?_of_mem ht
  rw [h.id_eq hi, hi]

theorem id_lt (h : root.Numbered) (ht : t ∈ root.nodes) : t.id < root.nodes.length :=
  (List.getElem?_eq_some_iff.mp (h.getElem?_id ht)).1

theorem id_root (h : root.Numbered) : root.id = 0 := h.id_eq (by rw [nodes_eq, List.getElem?_cons_zero])

theorem id_lt_of_mem_children (h : root.Numbered) (ht : t ∈ root.nodes) (hc : c ∈ t.children) :
    t.id < c.id := by
  have hincreasing : (t.nodes.map (·.id)).Pairwise (· < ·) := by
    refine List.Pairwise.sublist ((nodes_sublist_of_mem ht).map _) ?_
    rw [h]
    exact List.pairwise_lt_range
  rw [nodes_eq, List.map_cons, List.pairwise_cons] at hincreasing
  exact hincreasing.1 c.id (List.mem_map_of_mem (List.mem_flatMap.mpr ⟨c, hc, mem_nodes_self c⟩))

end Numbered

end Tree

open Concrete

namespace Arena

variable {kinds : Kinds} {text : String} {root : Concrete} {T t c : Tree Occurrence}

/-! ## What a parser promises -/

/-- What a parser promises of its trees. -/
structure Handed (kinds : Kinds) (text : String) (root : Concrete) : Prop where
  isNode : kinds.isNode root = true
  spanned : ∀ o ∈ root.occurrences, Spanned o.part
  /-- There is nothing below a token. -/
  tokens : ∀ o ∈ root.occurrences, kinds.isToken o.part = true → o.part.children = []
  /-- There are no nodes in a comment. -/
  comments : ∀ o ∈ root.occurrences, kinds.isNode o.part = true → ∀ a ∈ o.ancestors, kinds.isComment a = false
  /-- Comments are parts of the text. -/
  texts : ∀ o ∈ root.occurrences, kinds.isComment o.part = true →
    (slice? text o.part.start o.part.stop).isSome = true

/-! ## What an arena is to hold -/

/-- The entries of the children of a node. -/
def childrenOf (a : Arena) (e : Entry) : List Entry := e.children.filterMap fun id => a.nodes[id.toNat]?

/-- Is the node with number `i` a parent of the one with number `j`? -/
def IsParent (a : Arena) (i j : Nat) : Prop := ∃ e, a.nodes[i]? = some e ∧ ∃ id ∈ e.children, id.toNat = j

/-- The numbers of children make a tree, and siblings stand one after the other inside their parent. -/
structure WellFormed (a : Arena) : Prop where
  later : ∀ (i : Nat) (e : Entry), a.nodes[i]? = some e →
    ∀ id ∈ e.children, i < id.toNat ∧ id.toNat < a.nodes.length
  parent : ∀ j, 0 < j → j < a.nodes.length → ∃! i, a.IsParent i j
  once : ∀ e ∈ a.nodes, e.children.Nodup
  ordered : ∀ e ∈ a.nodes, (a.childrenOf e).Pairwise fun c d => c.stop ≤ d.start
  inside : ∀ e ∈ a.nodes, ∀ c ∈ a.childrenOf e, e.start ≤ c.start ∧ c.stop ≤ e.stop

/-- An entry is about a node. -/
structure Describes (kinds : Kinds) (o : Occurrence) (e : Entry) : Prop where
  kind : e.kind = o.part.kind
  start : e.start = o.part.start
  stop : e.stop = o.part.stop
  tokens : e.tokens = tokensOf kinds o.part
  operator : e.operator = operator? o.part.children

/-- An arena holds the nodes and comments of a tree. -/
structure Holds (kinds : Kinds) (text : String) (root : Concrete) (a : Arena) : Prop where
  nodes : List.Forall₂ (Describes kinds) (root.occurrences.filter (keepsNode kinds)) a.nodes
  first : (root.occurrences.filter (keepsNode kinds))[0]? = some ⟨root, []⟩
  /-- The children of a node are the nodes right below it, in order. -/
  children : ∀ (i : Nat) (o : Occurrence) (e : Entry),
    (root.occurrences.filter (keepsNode kinds))[i]? = some o → a.nodes[i]? = some e →
      e.children.map (fun id => (root.occurrences.filter (keepsNode kinds))[id.toNat]?) =
        (nodesIn kinds o).map some
  comments : a.comments =
    (root.occurrences.filter (keepsComment kinds)).map fun o => commentAt text o.part
  sorted : a.comments.Pairwise fun c d => c.start ≤ d.start

/-! ## Arenas of numbered trees -/

/-- The arena of a tree whose nodes are numbered. -/
def ofTree (kinds : Kinds) (T : Tree Occurrence) (comments : List Comment) : Arena :=
  ⟨T.nodes.map (entryOf kinds), comments⟩

section Numbered

variable {comments : List Comment}

theorem exists_of_getElem? {i : Nat} {e : Entry} (hT : T.Numbered)
    (h : (ofTree kinds T comments).nodes[i]? = some e) : ∃ t ∈ T.nodes, t.id = i ∧ entryOf kinds t = e := by
  rw [ofTree, List.getElem?_map, Option.map_eq_some_iff] at h
  obtain ⟨t, ht, he⟩ := h
  exact ⟨t, List.mem_of_getElem? ht, hT.id_eq ht, he⟩

theorem getElem?_entryOf (hT : T.Numbered) (ht : t ∈ T.nodes) :
    (ofTree kinds T comments).nodes[t.id]? = some (entryOf kinds t) := by
  rw [ofTree, List.getElem?_map, hT.getElem?_id ht, Option.map_some]

variable (hT : T.Numbered) (hsize : T.nodes.length < 2 ^ 32)
include hT hsize

theorem toNat_id (ht : t ∈ T.nodes) : t.id.toUInt32.toNat = t.id := by
  have hlt := hT.id_lt ht
  rw [Nat.toUInt32_eq, UInt32.toNat_ofNat']
  exact Nat.mod_eq_of_lt (by omega)

theorem map_toNat_children (ht : t ∈ T.nodes) :
    (entryOf kinds t).children.map (·.toNat) = t.children.map (·.id) := by
  rw [entryOf, List.map_map]
  exact List.map_congr_left fun c hc => toNat_id hT hsize (Tree.mem_nodes_child ht hc)

theorem exists_of_mem_children {id : UInt32} (ht : t ∈ T.nodes) (hid : id ∈ (entryOf kinds t).children) :
    ∃ c ∈ t.children, c.id = id.toNat := by
  have hmem : id.toNat ∈ (entryOf kinds t).children.map (·.toNat) := List.mem_map_of_mem hid
  rw [map_toNat_children hT hsize ht] at hmem
  exact List.mem_map.mp hmem

theorem childrenOf_entryOf (ht : t ∈ T.nodes) :
    (ofTree kinds T comments).childrenOf (entryOf kinds t) = t.children.map (entryOf kinds) := by
  have hlookup : ∀ c ∈ t.children,
      (ofTree kinds T comments).nodes[c.id.toUInt32.toNat]? = some (entryOf kinds c) := by
    intro c hc
    have hcT := Tree.mem_nodes_child ht hc
    rw [toNat_id hT hsize hcT, getElem?_entryOf hT hcT]
  rw [childrenOf, entryOf, List.filterMap_map, ← List.filterMap_eq_map]
  exact List.filterMap_congr hlookup

/-- A node is a parent of those right below it. -/
theorem isParent_iff {i j : Nat} : (ofTree kinds T comments).IsParent i j ↔
    ∃ t ∈ T.nodes, t.id = i ∧ ∃ c ∈ t.children, c.id = j := by
  constructor
  · rintro ⟨e, he, id, hid, rfl⟩
    obtain ⟨t, ht, rfl, rfl⟩ := exists_of_getElem? hT he
    exact ⟨t, ht, rfl, exists_of_mem_children hT hsize ht hid⟩
  · rintro ⟨t, ht, rfl, c, hc, rfl⟩
    refine ⟨entryOf kinds t, getElem?_entryOf hT ht, c.id.toUInt32, List.mem_map_of_mem hc, ?_⟩
    exact toNat_id hT hsize (Tree.mem_nodes_child ht hc)

theorem wellFormed_ofTree (hwell : T.WellFormed) : (ofTree kinds T comments).WellFormed := by
  have hentry : ∀ e ∈ (ofTree kinds T comments).nodes, ∃ t ∈ T.nodes, entryOf kinds t = e := fun e he => by
    rw [ofTree] at he
    exact List.mem_map.mp he
  have hlength : (ofTree kinds T comments).nodes.length = T.nodes.length := by rw [ofTree, List.length_map]
  refine ⟨?later, ?parent, ?once, ?ordered, ?inside⟩
  case later =>
    intro i e he id hid
    obtain ⟨t, ht, rfl, rfl⟩ := exists_of_getElem? hT he
    obtain ⟨c, hc, hcid⟩ := exists_of_mem_children hT hsize ht hid
    rw [← hcid, hlength]
    exact ⟨hT.id_lt_of_mem_children ht hc, hT.id_lt (Tree.mem_nodes_child ht hc)⟩
  case parent =>
    intro j hpos hj
    rw [hlength] at hj
    have hid : (T.nodes[j]).id = j := hT.id_eq (List.getElem?_eq_getElem hj)
    have hne : T.nodes[j] ≠ T := by
      intro heq
      rw [heq, hT.id_root] at hid
      omega
    obtain ⟨t, ht, hchild⟩ := Tree.exists_mem_children (List.getElem_mem hj) hne
    refine ⟨t.id, (isParent_iff hT hsize).mpr ⟨t, ht, rfl, T.nodes[j], hchild, hid⟩, ?_⟩
    intro i hi
    obtain ⟨u, hu, rfl, c, hc, hcid⟩ := (isParent_iff hT hsize).mp hi
    have hcj : c = T.nodes[j] :=
      hwell.eq_of_id_eq (Tree.mem_nodes_child hu hc) (List.getElem_mem hj) (hcid.trans hid.symm)
    rw [hwell.eq_of_mem_children hu ht (hcj ▸ hc) hchild]
  case once =>
    intro e he
    obtain ⟨t, ht, rfl⟩ := hentry e he
    have hids : (t.children.map (·.id)).Nodup := by
      refine (hwell.of_mem ht).nodup_children.map_on fun c hc d hd hid => ?_
      exact hwell.eq_of_id_eq (Tree.mem_nodes_child ht hc) (Tree.mem_nodes_child ht hd) hid
    rw [← map_toNat_children hT hsize ht] at hids
    exact hids.of_map
  case ordered =>
    intro e he
    obtain ⟨t, ht, rfl⟩ := hentry e he
    rw [childrenOf_entryOf hT hsize ht, List.pairwise_map]
    exact hwell.ordered t ht
  case inside =>
    intro e he d hd
    obtain ⟨t, ht, rfl⟩ := hentry e he
    rw [childrenOf_entryOf hT hsize ht] at hd
    obtain ⟨c, hc, rfl⟩ := List.mem_map.mp hd
    exact hwell.inside t ht c hc

end Numbered

/-! ## Arenas of concrete trees -/

theorem sound_of_handed (h : Handed kinds text root) : ∀ o ∈ occurrencesFrom [] root, Sound kinds o :=
  fun o ho => ⟨h.tokens o ho, h.comments o ho⟩

theorem map_info_kept (h : Handed kinds text root) :
    (kept kinds [] 0 root).nodes.map (·.info) = root.occurrences.filter (keepsNode kinds) :=
  map_info_nodes h.isNode (fun _ ha => by cases ha) (sound_of_handed h)

theorem commentsOf_handed (h : Handed kinds text root) :
    commentsOf kinds root = (root.occurrences.filter (keepsComment kinds)).map (·.part) :=
  commentsOf_eq_filter h.isNode (fun _ ha => by cases ha) (sound_of_handed h)

theorem numbered_kept (kinds : Kinds) (root : Concrete) : (kept kinds [] 0 root).Numbered := by
  rw [Tree.Numbered, map_id_nodes, List.range_eq_range']

/-- What is kept of a tree is as ordered and nested as the tree. -/
theorem wellFormed_kept (h : Handed kinds text root) : (kept kinds [] 0 root).WellFormed := by
  have hspanned : ∀ t ∈ (kept kinds [] 0 root).nodes, Spanned t.info.part := by
    intro t ht
    have hinfo : t.info ∈ (kept kinds [] 0 root).nodes.map (·.info) := List.mem_map_of_mem ht
    rw [map_info_kept h] at hinfo
    exact h.spanned t.info (List.mem_filter.mp hinfo).1
  refine ⟨?distinct, fun t ht => ?start_le_stop, fun t ht c hc => ?inside, fun t ht => ?ordered⟩
  case distinct =>
    rw [numbered_kept]
    exact List.nodup_range
  case start_le_stop =>
    rw [(mirrors_of_mem ht).start, (mirrors_of_mem ht).stop]
    exact (hspanned t ht).1
  case inside =>
    have hself := mirrors_of_mem ht
    have hchild := mirrors_of_mem (Tree.mem_nodes_child ht hc)
    rw [hself.start, hself.stop, hchild.start, hchild.stop]
    exact (hspanned t ht).2.1 c.info.part (hself.sublist.subset (List.mem_map_of_mem hc))
  case ordered =>
    have hparts := (hspanned t ht).2.2.sublist (mirrors_of_mem ht).sublist
    refine (List.pairwise_map.mp hparts).imp_of_mem fun {c d} hc hd hcd => ?_
    rw [(mirrors_of_mem (Tree.mem_nodes_child ht hc)).stop, (mirrors_of_mem (Tree.mem_nodes_child ht hd)).start]
    exact hcd

/-- The comments of a tree are met in the order in which they start. -/
theorem pairwise_comments (h : Handed kinds text root) :
    ((commentsOf kinds root).map (commentAt text)).Pairwise fun c d => c.start ≤ d.start := by
  rw [commentsOf_handed h, List.map_map, List.pairwise_map]
  exact (pairwise_start h.spanned).filter _

theorem ofConcrete_eq (h : Handed kinds text root)
    (hsize : (root.occurrences.filter (keepsNode kinds)).length < 2 ^ 32) :
    ofConcrete kinds text root =
      .ok (ofTree kinds (kept kinds [] 0 root) ((commentsOf kinds root).map (commentAt text))) := by
  have htexts : ∀ c ∈ commentsOf kinds root, (slice? text c.start c.stop).isSome = true := by
    intro c hc
    rw [commentsOf_handed h] at hc
    obtain ⟨o, ho, rfl⟩ := List.mem_map.mp hc
    obtain ⟨ho, hkeeps⟩ := List.mem_filter.mp ho
    rw [keepsComment, Bool.and_eq_true] at hkeeps
    exact h.texts o ho hkeeps.1
  rw [← map_info_kept h, List.length_map] at hsize
  rw [ofConcrete_kept htexts (Nat.le_of_lt hsize), Comments.sortByStart_eq_self (pairwise_comments h), ofTree]

/-- **Lowering yields a well-formed arena and loses nothing.** -/
theorem ofConcrete_holds (h : Handed kinds text root)
    (hsize : (root.occurrences.filter (keepsNode kinds)).length < 2 ^ 32) :
    ∃ a, ofConcrete kinds text root = .ok a ∧ a.WellFormed ∧ Holds kinds text root a := by
  have hnumbered := numbered_kept kinds root
  have hinfo := map_info_kept h
  have hnodes : (kept kinds [] 0 root).nodes.length < 2 ^ 32 := by rwa [← hinfo, List.length_map] at hsize
  refine ⟨_, ofConcrete_eq h hsize, wellFormed_ofTree hnumbered hnodes (wellFormed_kept h), ?_⟩
  refine ⟨?nodes, ?first, ?children, ?comments, pairwise_comments h⟩
  case nodes =>
    rw [← hinfo, ofTree, List.forall₂_map_left_iff, List.forall₂_map_right_iff, List.forall₂_same]
    intro t ht
    exact ⟨rfl, (mirrors_of_mem ht).start, (mirrors_of_mem ht).stop, rfl, rfl⟩
  case first =>
    rw [← hinfo, kept_eq, Tree.nodes_eq]
    rfl
  case children =>
    intro i o e ho he
    obtain ⟨t, ht, rfl, rfl⟩ := exists_of_getElem? hnumbered he
    rw [← hinfo, List.getElem?_map, hnumbered.getElem?_id ht, Option.map_some, Option.some_inj] at ho
    subst ho
    rw [← hinfo, entryOf, ← (mirrors_of_mem ht).children, List.map_map, List.map_map]
    refine List.map_congr_left fun c hc => ?_
    have hcT := Tree.mem_nodes_child ht hc
    rw [Function.comp_apply, Function.comp_apply, toNat_id hnumbered hnodes hcT, List.getElem?_map,
      hnumbered.getElem?_id hcT, Option.map_some]
  case comments =>
    rw [ofTree, commentsOf_handed h, List.map_map]
    rfl

/-- The tree of `f(/x/g); // c`. -/
def call : Concrete :=
  let regex : Concrete := ⟨"regex", true, 2, 6, false,
    [⟨"/", false, 2, 3, false, []⟩, ⟨"regex_pattern", true, 3, 4, false, []⟩, ⟨"/", false, 4, 5, false, []⟩,
      ⟨"regex_flags", true, 5, 6, false, []⟩]⟩
  let arguments : Concrete := ⟨"arguments", true, 1, 7, false,
    [⟨"(", false, 1, 2, false, []⟩, regex, ⟨")", false, 6, 7, false, []⟩]⟩
  ⟨"program", true, 0, 13, false,
    [⟨"expression_statement", true, 0, 8, false,
      [⟨"call_expression", true, 0, 7, false, [⟨"identifier", true, 0, 1, false, []⟩, arguments]⟩,
        ⟨";", false, 7, 8, false, []⟩]⟩,
    ⟨"comment", true, 9, 13, false, []⟩]⟩

theorem handed_call : Handed .javaScript "f(/x/g); // c" call where
  isNode := by decide
  spanned := by decide
  tokens := by decide
  comments := by decide
  texts := by decide +kernel

theorem ofConcrete_holds_call : Handed .javaScript "f(/x/g); // c" call ∧
    (call.occurrences.filter (keepsNode .javaScript)).length < 2 ^ 32 ∧
    ∃ a, ofConcrete .javaScript "f(/x/g); // c" call = .ok a ∧ a.WellFormed ∧
      Holds .javaScript "f(/x/g); // c" call a :=
  ⟨handed_call, by decide, ofConcrete_holds handed_call (by decide)⟩

/-- The marks around a regular expression are not among its tokens. -/
theorem ofConcrete_drops_tokens : ¬ ∀ (text : String) (root : Concrete), Handed .javaScript text root →
    (root.occurrences.filter (keepsNode .javaScript)).length < 2 ^ 32 →
    ∃ a, ofConcrete .javaScript text root = .ok a ∧
      List.Forall₂ (fun o e => e.tokens = (o.part.children.filter Kinds.javaScript.isToken).map (·.kind))
        (root.occurrences.filter (keepsNode .javaScript)) a.nodes := by
  intro h
  obtain ⟨a, ha, htokens⟩ := h "f(/x/g); // c" call handed_call (by decide)
  rw [ofConcrete_eq handed_call (by decide), Except.ok.injEq] at ha
  subst ha
  exact absurd htokens (by decide)

end Arena

end CodeFormatter
