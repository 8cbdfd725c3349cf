import CodeFormatter.Proofs.Tree.Concrete
import CodeFormatter.Proofs.Tree.Nesting
import CodeFormatter.Proofs.Text.Slice

/-!
# What is kept of a concrete tree

**What lowering adds.** Lowering writes into an arena that grows, and numbers nodes by its length. What it adds
does not depend on what is there already, but for the first number: it is the tree of the nodes that are kept
(`kept`), in the order in which they start, and the comments that are kept (`commentsOf`). That a node is put
into the arena before those below it, and patched after them, is seen in one place (`lowers`).

**What is kept.** A part is kept or not because of what it is and what it is in (`keepsNode`, `keepsComment`), if
there is nothing below tokens and there are no nodes in comments (`Sound`). Nothing else is lost
(`map_info_nodes`, `commentsOf_eq_filter`).
-/

namespace CodeFormatter.Arena

open Concrete

variable {kinds : Kinds} {text : String} {n c root : Concrete} {ancestors : List Concrete}

/-! ## Sorts of parts -/

theorem isNode_iff : kinds.isNode c = true ↔ c.named = true ∧ kinds.isComment c = false := by
  rw [Kinds.isNode, Bool.and_eq_true, Bool.not_eq_true']

theorem isToken_iff : kinds.isToken c = true ↔ c.named = false ∧ kinds.isComment c = false := by
  rw [Kinds.isToken, Bool.and_eq_true, Bool.not_eq_true', Bool.not_eq_true']

/-- A part is a comment, a node or a token. -/
theorem cases_part (kinds : Kinds) (c : Concrete) :
    (kinds.isComment c = true ∧ kinds.isNode c = false ∧ kinds.isToken c = false) ∨
      (kinds.isComment c = false ∧ kinds.isNode c = true ∧ kinds.isToken c = false) ∨
      (kinds.isComment c = false ∧ kinds.isNode c = false ∧ kinds.isToken c = true) := by
  cases hcomment : kinds.isComment c <;> cases hnamed : c.named <;>
    simp [Kinds.isNode, Kinds.isToken, hcomment, hnamed]

/-! ## Nodes, tokens and comments -/

mutual

/-- The tree that is kept of a node, with its nodes numbered from `next` on. -/
def kept (kinds : Kinds) (ancestors : List Concrete) (next : Nat) : Concrete → Tree Occurrence
  | ⟨kind, named, start, stop, operator, children⟩ =>
    let n : Concrete := ⟨kind, named, start, stop, operator, children⟩
    ⟨next, start, stop, ⟨n, ancestors⟩,
      if kinds.isLeaf n then [] else keptAll kinds (n :: ancestors) (next + 1) children⟩

def keptAll (kinds : Kinds) (ancestors : List Concrete) (next : Nat) : List Concrete → List (Tree Occurrence)
  | [] => []
  | c :: rest =>
    if kinds.isNode c then
      let t := kept kinds ancestors next c
      t :: keptAll kinds ancestors (next + t.nodes.length) rest
    else keptAll kinds ancestors next rest

end

mutual

/-- The comments that are kept of a node. -/
def commentsOf (kinds : Kinds) : Concrete → List Concrete
  | ⟨kind, named, start, stop, operator, children⟩ =>
    if kinds.isLeaf ⟨kind, named, start, stop, operator, children⟩ then [] else commentsAmong kinds children

def commentsAmong (kinds : Kinds) : List Concrete → List Concrete
  | [] => []
  | c :: rest =>
    (if kinds.isComment c then [c] else if c.named then commentsOf kinds c else []) ++ commentsAmong kinds rest

end

/-- The kinds of the tokens that are kept of a node. -/
def tokensOf (kinds : Kinds) (n : Concrete) : List String :=
  if kinds.isLeaf n then [] else (n.children.filter kinds.isToken).map (·.kind)

/-- The entry of a node. -/
def entryOf (kinds : Kinds) (t : Tree Occurrence) : Entry :=
  { kind := t.info.part.kind
    start := t.start
    stop := t.stop
    children := t.children.map (·.id.toUInt32)
    tokens := tokensOf kinds t.info.part
    operator := operator? t.info.part.children }

/-- A comment with its text, if there is one. -/
def commentAt (text : String) (n : Concrete) : Comment :=
  let own := (slice? text n.start n.stop).getD ""
  { text := own, start := n.start, stop := n.stop, block := ['/', '*'].isPrefixOf own.toList }

theorem comment_eq (h : (slice? text n.start n.stop).isSome) : n.comment text = .ok (commentAt text n) := by
  obtain ⟨own, hown⟩ := Option.isSome_iff_exists.mp h
  rw [comment, sliceOrError_eq_ok_iff.mpr hown, commentAt, hown]
  rfl

theorem kept_eq (ancestors : List Concrete) (next : Nat) (n : Concrete) :
    kept kinds ancestors next n = ⟨next, n.start, n.stop, ⟨n, ancestors⟩,
      if kinds.isLeaf n then [] else keptAll kinds (n :: ancestors) (next + 1) n.children⟩ := by
  cases n
  rw [kept]

theorem keptAll_cons (kinds : Kinds) (ancestors : List Concrete) (next : Nat) (n : Concrete) (ns : List Concrete) :
    keptAll kinds ancestors next (n :: ns) = keptAll kinds ancestors next [n] ++
      keptAll kinds ancestors (next + ((keptAll kinds ancestors next [n]).flatMap Tree.nodes).length) ns := by
  dsimp only [keptAll]
  split
  · rw [List.flatMap_singleton, List.singleton_append]
  · rfl

theorem keptAll_singleton {next : Nat} (h : kinds.isNode n = true) :
    keptAll kinds ancestors next [n] = [kept kinds ancestors next n] := by
  simp only [keptAll, h, if_true]

theorem commentsOf_eq (n : Concrete) :
    commentsOf kinds n = if kinds.isLeaf n then [] else commentsAmong kinds n.children := by
  cases n
  rw [commentsOf]

/-! ### Lowering keeps it -/

theorem modify_append_cons {α : Type} (f : α → α) (front : List α) (a : α) (back : List α) :
    (front ++ a :: back).modify front.length f = front ++ f a :: back := by
  induction front with
  | nil => rfl
  | cons b front ih => simp [ih]

/-- What lowering adds to an arena. -/
def extended (kinds : Kinds) (text : String) (a : Arena) (trees : List (Tree Occurrence))
    (comments : List Concrete) : Arena :=
  { nodes := a.nodes ++ (trees.flatMap Tree.nodes).map (entryOf kinds)
    comments := a.comments ++ comments.map (commentAt text) }

theorem extended_extended (a : Arena) (trees trees' : List (Tree Occurrence))
    (comments comments' : List Concrete) :
    extended kinds text (extended kinds text a trees comments) trees' comments' =
      extended kinds text a (trees ++ trees') (comments ++ comments') := by
  simp [extended]

theorem length_extended (kinds : Kinds) (text : String) (a : Arena) (trees : List (Tree Occurrence))
    (comments : List Concrete) :
    (extended kinds text a trees comments).nodes.length = a.nodes.length + (trees.flatMap Tree.nodes).length := by
  simp [extended]

section Steps

variable {rest : List Concrete} {a a' a'' : Arena} {id : UInt32} {ids : List UInt32} {tokens : List String}

/-- The entry of a node that does not know what is below it. -/
def blank (n : Concrete) : Entry := ⟨n.kind, n.start, n.stop, [], [], operator? n.children⟩

theorem lower_leaf (h : kinds.isLeaf n = true) : lower kinds text n a = .ok (a.next, a.push (blank n)) := by
  cases n
  rw [lower, if_pos h]
  rfl

theorem lower_of_lowerAll (h : kinds.isLeaf n = false)
    (hbelow : lowerAll kinds text n.children (a.push (blank n)) = .ok (ids, tokens, a')) :
    lower kinds text n a = .ok (a.next, a'.patch a.next ids tokens) := by
  obtain ⟨kind, named, start, stop, operator, children⟩ := n
  have hbelow : lowerAll kinds text children (a.push ⟨kind, start, stop, [], [], operator? children⟩) =
      .ok (ids, tokens, a') := hbelow
  rw [lower, if_neg (by simp [h]), hbelow]
  rfl

theorem lowerAll_comment (h : kinds.isComment c = true) (hslice : (slice? text c.start c.stop).isSome) :
    lowerAll kinds text (c :: rest) a =
      lowerAll kinds text rest { a with comments := a.comments ++ [commentAt text c] } := by
  rw [lowerAll, if_pos h, comment_eq hslice]
  rfl

theorem lowerAll_node (h : kinds.isNode c = true) (hlower : lower kinds text c a = .ok (id, a'))
    (hrest : lowerAll kinds text rest a' = .ok (ids, tokens, a'')) :
    lowerAll kinds text (c :: rest) a = .ok (id :: ids, tokens, a'') := by
  obtain ⟨hnamed, hcomment⟩ := isNode_iff.mp h
  rw [lowerAll, if_neg (by simp [hcomment]), if_pos hnamed, hlower]
  simp only [bind, Except.bind, hrest]
  rfl

theorem lowerAll_token (h : kinds.isToken c = true)
    (hrest : lowerAll kinds text rest a = .ok (ids, tokens, a')) :
    lowerAll kinds text (c :: rest) a = .ok (ids, c.kind :: tokens, a') := by
  obtain ⟨hnamed, hcomment⟩ := isToken_iff.mp h
  rw [lowerAll, if_neg (by simp [hcomment]), if_neg (by simp [hnamed]), hrest]
  rfl

end Steps

/-- A node is lowered to what is kept of it, if its comments are parts of the text and there are numbers left. -/
def Lowers (kinds : Kinds) (text : String) (n : Concrete) : Prop :=
  ∀ (ancestors : List Concrete) (a : Arena),
    (∀ c ∈ commentsOf kinds n, (slice? text c.start c.stop).isSome) →
    a.nodes.length + (kept kinds ancestors a.nodes.length n).nodes.length ≤ UInt32.size →
    lower kinds text n a = .ok (a.next, extended kinds text a [kept kinds ancestors a.nodes.length n]
      (commentsOf kinds n))

theorem lowerAll_eq {cs : List Concrete} (hcs : ∀ c ∈ cs, Lowers kinds text c) (ancestors : List Concrete)
    (a : Arena) (htext : ∀ c ∈ commentsAmong kinds cs, (slice? text c.start c.stop).isSome)
    (hsize : a.nodes.length + ((keptAll kinds ancestors a.nodes.length cs).flatMap Tree.nodes).length ≤
      UInt32.size) :
    lowerAll kinds text cs a = .ok ((keptAll kinds ancestors a.nodes.length cs).map (·.id.toUInt32),
      (cs.filter kinds.isToken).map (·.kind),
      extended kinds text a (keptAll kinds ancestors a.nodes.length cs) (commentsAmong kinds cs)) := by
  induction cs generalizing a with
  | nil => simp [lowerAll, keptAll, commentsAmong, extended]; rfl
  | cons c rest ih =>
    obtain ⟨hc, hrest⟩ := List.forall_mem_cons.mp hcs
    rcases cases_part kinds c with
      ⟨hcomment, hnode, htoken⟩ | ⟨hcomment, hnode, htoken⟩ | ⟨hcomment, hnode, htoken⟩
    · -- A comment is lifted out.
      simp only [commentsAmong, hcomment, if_true, List.singleton_append, List.forall_mem_cons] at htext ⊢
      simp only [keptAll, hnode, Bool.false_eq_true, if_false] at hsize ⊢
      have hlowerAll := ih hrest { a with comments := a.comments ++ [commentAt text c] } htext.2 hsize
      rw [lowerAll_comment hcomment htext.1, hlowerAll, List.filter_cons_of_neg (by simp [htoken])]
      simp [extended]
    · -- The nodes after a node get the numbers after its own.
      have hnamed := (isNode_iff.mp hnode).1
      obtain ⟨t, ht⟩ : ∃ t, kept kinds ancestors a.nodes.length c = t := ⟨_, rfl⟩
      simp only [commentsAmong, hcomment, hnamed, Bool.false_eq_true, if_false, if_true,
        List.forall_mem_append] at htext ⊢
      simp only [keptAll, hnode, if_true, ht, List.flatMap_cons, List.length_append] at hsize ⊢
      have hlower := hc ancestors a htext.1
      rw [ht] at hlower
      have hlength := length_extended kinds text a [t] (commentsOf kinds c)
      rw [List.flatMap_singleton] at hlength
      have hlowerAll := ih hrest (extended kinds text a [t] (commentsOf kinds c)) htext.2
      rw [hlength, extended_extended] at hlowerAll
      rw [lowerAll_node hnode (hlower (by omega)) (hlowerAll (by omega)),
        List.filter_cons_of_neg (by simp [htoken]), List.map_cons, ← ht, kept_eq]
      rfl
    · have hnamed := (isToken_iff.mp htoken).1
      simp only [commentsAmong, hcomment, hnamed, Bool.false_eq_true, if_false, List.nil_append] at htext ⊢
      simp only [keptAll, hnode, Bool.false_eq_true, if_false] at hsize ⊢
      rw [lowerAll_token htoken (ih hrest a htext hsize), List.filter_cons_of_pos htoken, List.map_cons]

theorem toNat_next {a : Arena} (h : a.nodes.length < UInt32.size) : a.next.toNat = a.nodes.length := by
  rw [next, Nat.toUInt32_eq, UInt32.toNat_ofNat']
  exact Nat.mod_eq_of_lt h

/-- **A node is put into the arena before the nodes below it, and patched after them.** -/
theorem lowers (n : Concrete) : Lowers kinds text n := by
  induction n using Concrete.induction with
  | part n ih =>
    intro ancestors a htext hsize
    have hpushed : (a.push (blank n)).nodes.length = a.nodes.length + 1 := by simp [push]
    cases hleaf : kinds.isLeaf n with
    | true =>
      rw [lower_leaf hleaf, kept_eq, commentsOf_eq, if_pos hleaf, if_pos hleaf]
      simp [extended, push, entryOf, tokensOf, hleaf, Tree.nodes_eq, blank]
    | false =>
      have hkept : kept kinds ancestors a.nodes.length n = _ := kept_eq ancestors a.nodes.length n
      have hcomments : commentsOf kinds n = _ := commentsOf_eq n
      rw [hleaf] at hkept hcomments
      rw [hcomments] at htext ⊢
      rw [hkept, Tree.nodes_eq] at hsize
      have hbelow := lowerAll_eq ih (n :: ancestors) (a.push (blank n)) htext
        (by
          rw [hpushed]
          simp at hsize ⊢
          omega)
      have hid : a.next.toNat = a.nodes.length := toNat_next (by simp at hsize; omega)
      rw [lower_of_lowerAll hleaf hbelow, hkept, patch, hid]
      simp only [extended, push, List.append_assoc, List.singleton_append, modify_append_cons]
      simp [entryOf, tokensOf, hleaf, Tree.nodes_eq, blank]

theorem ofConcrete_kept (htexts : ∀ c ∈ commentsOf kinds root, (slice? text c.start c.stop).isSome)
    (hsize : (kept kinds [] 0 root).nodes.length ≤ UInt32.size) :
    ofConcrete kinds text root = .ok ⟨(kept kinds [] 0 root).nodes.map (entryOf kinds),
      Comments.sortByStart ((commentsOf kinds root).map (commentAt text))⟩ := by
  have hlower := lowers root [] empty htexts (by simpa [empty] using hsize)
  rw [ofConcrete, hlower]
  change Except.ok (Arena.mk ([] ++ _) (Comments.sortByStart ([] ++ _))) = _
  rw [List.nil_append, List.nil_append, List.flatMap_singleton]
  rfl

/-! ## The shape of what is kept -/

/-- **Nodes are numbered in the order in which they stand in the arena.** -/
theorem map_id_nodes (ancestors : List Concrete) (next : Nat) (n : Concrete) :
    (kept kinds ancestors next n).nodes.map (·.id) =
      List.range' next (kept kinds ancestors next n).nodes.length := by
  have hall : ∀ (cs : List Concrete),
      (∀ c ∈ cs, ∀ ancestors next, (kept kinds ancestors next c).nodes.map (·.id) =
        List.range' next (kept kinds ancestors next c).nodes.length) → ∀ ancestors next,
      ((keptAll kinds ancestors next cs).flatMap Tree.nodes).map (·.id) =
        List.range' next ((keptAll kinds ancestors next cs).flatMap Tree.nodes).length := by
    intro cs hcs
    induction cs with
    | nil => exact fun _ _ => rfl
    | cons c rest ih =>
      intro ancestors next
      obtain ⟨hc, hrest⟩ := List.forall_mem_cons.mp hcs
      rw [keptAll]
      split
      · rw [List.flatMap_cons, List.map_append, hc, ih hrest, List.length_append, List.range'_append_1]
      · exact ih hrest ancestors next
  induction n using Concrete.induction generalizing ancestors next with
  | part n ih =>
    rw [kept_eq, Tree.nodes_eq, List.map_cons, List.length_cons, List.range'_succ]
    dsimp only
    split
    · rfl
    · rw [hall n.children ih]

theorem map_info_keptAll (ancestors : List Concrete) (next : Nat) (cs : List Concrete) :
    (keptAll kinds ancestors next cs).map (·.info) = (cs.filter kinds.isNode).map (⟨·, ancestors⟩) := by
  induction cs generalizing next with
  | nil => rfl
  | cons c rest ih =>
    rw [keptAll]
    split
    · rename_i hc
      rw [List.filter_cons_of_pos hc, List.map_cons, List.map_cons, ih, kept_eq]
    · rename_i hc
      rw [List.filter_cons_of_neg hc, ih]

/-- The parts whose nodes are the children of a node, at their places. -/
def nodesIn (kinds : Kinds) (o : Occurrence) : List Occurrence :=
  if kinds.isLeaf o.part then []
  else (o.part.children.filter kinds.isNode).map (⟨·, o.part :: o.ancestors⟩)

/-- A node stands where its part does, and has the nodes of its part as children. -/
structure Mirrors (kinds : Kinds) (t : Tree Occurrence) : Prop where
  start : t.start = t.info.part.start
  stop : t.stop = t.info.part.stop
  children : t.children.map (·.info) = nodesIn kinds t.info

theorem Mirrors.sublist {t : Tree Occurrence} (h : Mirrors kinds t) :
    (t.children.map (·.info.part)).Sublist t.info.part.children := by
  have hparts : t.children.map (·.info.part) = (nodesIn kinds t.info).map (·.part) := by
    rw [← h.children, List.map_map]
    rfl
  rw [hparts, nodesIn]
  split
  · exact List.nil_sublist _
  · simp [List.map_map, Function.comp_def]

theorem exists_of_mem_keptAll {t : Tree Occurrence} {next : Nat} {cs : List Concrete}
    (h : t ∈ keptAll kinds ancestors next cs) : ∃ c ∈ cs, ∃ next, t = kept kinds ancestors next c := by
  induction cs generalizing next with
  | nil => cases h
  | cons c rest ih =>
    rw [keptAll] at h
    split at h
    · rcases List.mem_cons.mp h with rfl | h
      · exact ⟨c, List.mem_cons_self, next, rfl⟩
      · obtain ⟨d, hd, hdt⟩ := ih h
        exact ⟨d, List.mem_cons_of_mem c hd, hdt⟩
    · obtain ⟨d, hd, hdt⟩ := ih h
      exact ⟨d, List.mem_cons_of_mem c hd, hdt⟩

theorem mirrors_of_mem {t : Tree Occurrence} {next : Nat} (h : t ∈ (kept kinds ancestors next n).nodes) :
    Mirrors kinds t := by
  induction n using Concrete.induction generalizing ancestors next with
  | part n ih =>
    rw [kept_eq, Tree.nodes_eq, List.mem_cons] at h
    dsimp only at h
    rcases h with rfl | h
    · refine ⟨rfl, rfl, ?_⟩
      rw [nodesIn]
      dsimp only
      split
      · rfl
      · exact map_info_keptAll _ _ _
    · split at h
      · cases h
      · obtain ⟨u, hu, htu⟩ := List.mem_flatMap.mp h
        obtain ⟨c, hc, next, rfl⟩ := exists_of_mem_keptAll hu
        exact ih c hc htu

/-! ## Nothing is lost -/

/-- Is it a node that is kept: one that is not below a leaf? -/
def keepsNode (kinds : Kinds) (o : Occurrence) : Bool :=
  kinds.isNode o.part && o.ancestors.all fun a => !kinds.isLeaf a

/-- Is it a comment that is kept: one that is not below a leaf or in another comment? -/
def keepsComment (kinds : Kinds) (o : Occurrence) : Bool :=
  kinds.isComment o.part && o.ancestors.all fun a => !kinds.isLeaf a && !kinds.isComment a

/-- Tokens hold nothing, and comments hold no nodes. -/
def Sound (kinds : Kinds) (o : Occurrence) : Prop :=
  (kinds.isToken o.part = true → o.part.children = []) ∧
    (kinds.isNode o.part = true → ∀ a ∈ o.ancestors, kinds.isComment a = false)

variable {p : Occurrence → Bool}

theorem filter_occurrencesFrom (p : Occurrence → Bool) (ancestors : List Concrete) (n : Concrete) :
    (occurrencesFrom ancestors n).filter p = (if p ⟨n, ancestors⟩ then [⟨n, ancestors⟩] else []) ++
      n.children.flatMap fun c => (occurrencesFrom (n :: ancestors) c).filter p := by
  rw [occurrencesFrom_eq, List.filter_cons, List.filter_flatMap]
  split <;> rfl

/-- Below a part in which nothing passes the test. -/
theorem filter_below (hp : ∀ o ∈ occurrencesFrom ancestors n, n ∈ o.ancestors → p o = false) :
    (n.children.flatMap fun c => (occurrencesFrom (n :: ancestors) c).filter p) = [] := by
  refine List.flatMap_eq_nil_iff.mpr fun c hc => List.filter_eq_nil_iff.mpr fun o ho => ?_
  rw [hp o (mem_occurrencesFrom.mpr (.inr ⟨c, hc, ho⟩)) (mem_ancestors ho List.mem_cons_self)]
  decide

theorem keepsNode_of_leaf {o : Occurrence} (hn : n ∈ o.ancestors) (hleaf : kinds.isLeaf n = true) :
    keepsNode kinds o = false := by
  rw [keepsNode, Bool.and_eq_false_iff, List.all_eq_false]
  exact .inr ⟨n, hn, by simp [hleaf]⟩

theorem keepsComment_of_leaf {o : Occurrence} (hn : n ∈ o.ancestors)
    (h : kinds.isLeaf n = true ∨ kinds.isComment n = true) : keepsComment kinds o = false := by
  rw [keepsComment, Bool.and_eq_false_iff, List.all_eq_false]
  refine .inr ⟨n, hn, ?_⟩
  rcases h with h | h <;> simp [h]

section Inside

variable (hsound : ∀ o ∈ occurrencesFrom ancestors c, Sound kinds o)
include hsound

theorem filter_of_token (htoken : kinds.isToken c = true) (hself : p ⟨c, ancestors⟩ = false) :
    (occurrencesFrom ancestors c).filter p = [] := by
  have hnil : c.children = [] := (hsound _ (mem_occurrencesFrom.mpr (.inl rfl))).1 htoken
  rw [filter_occurrencesFrom, hself, hnil]
  rfl

/-- A comment or a token holds no nodes. -/
theorem filter_keepsNode_of_not_node (hc : kinds.isNode c = false) :
    (occurrencesFrom ancestors c).filter (keepsNode kinds) = [] := by
  have hself : keepsNode kinds ⟨c, ancestors⟩ = false := by simp [keepsNode, hc]
  rcases cases_part kinds c with ⟨hcomment, -, -⟩ | ⟨-, hnode, -⟩ | ⟨-, -, htoken⟩
  · rw [filter_occurrencesFrom, hself, if_neg Bool.false_ne_true, List.nil_append]
    refine filter_below fun o ho hmem => ?_
    cases hnode : kinds.isNode o.part with
    | true => simp [(hsound o ho).2 hnode c hmem] at hcomment
    | false => simp [keepsNode, hnode]
  · simp [hnode] at hc
  · exact filter_of_token hsound htoken hself

end Inside

/-- There are no comments in a comment. -/
theorem filter_keepsComment_of_comment (hc : kinds.isComment c = true)
    (hancestors : ∀ a ∈ ancestors, kinds.isLeaf a = false ∧ kinds.isComment a = false) :
    (occurrencesFrom ancestors c).filter (keepsComment kinds) = [⟨c, ancestors⟩] := by
  have hkept : keepsComment kinds ⟨c, ancestors⟩ = true := by simpa [keepsComment, hc] using hancestors
  rw [filter_occurrencesFrom, if_pos hkept, filter_below fun o _ ho => keepsComment_of_leaf ho (.inr hc),
    List.append_nil]

/-- The nodes that are kept are those that are not below a leaf. -/
theorem map_info_nodes {next : Nat} (hn : kinds.isNode n = true) (hleaf : ∀ a ∈ ancestors, kinds.isLeaf a = false)
    (hsound : ∀ o ∈ occurrencesFrom ancestors n, Sound kinds o) :
    (kept kinds ancestors next n).nodes.map (·.info) = (occurrencesFrom ancestors n).filter (keepsNode kinds) := by
  induction n using Concrete.induction generalizing ancestors next with
  | part n ih =>
    have hkeeps : keepsNode kinds ⟨n, ancestors⟩ = true := by simpa [keepsNode, hn] using hleaf
    rw [kept_eq, Tree.nodes_eq, List.map_cons, filter_occurrencesFrom, if_pos hkeeps, List.singleton_append]
    congr 1
    dsimp only
    cases hself : kinds.isLeaf n with
    | true => exact (filter_below fun o _ ho => keepsNode_of_leaf ho hself).symm
    | false =>
      have hall : ∀ cs : List Concrete, (∀ c ∈ cs, c ∈ n.children) → ∀ next,
          ((keptAll kinds (n :: ancestors) next cs).flatMap Tree.nodes).map (·.info) =
            cs.flatMap fun c => (occurrencesFrom (n :: ancestors) c).filter (keepsNode kinds) := by
        intro cs hcs
        induction cs with
        | nil => exact fun _ => rfl
        | cons c rest ihrest =>
          intro next
          obtain ⟨hc, hrest⟩ := List.forall_mem_cons.mp hcs
          have hsoundc : ∀ o ∈ occurrencesFrom (n :: ancestors) c, Sound kinds o := fun o ho =>
            hsound o (mem_occurrencesFrom.mpr (.inr ⟨c, hc, ho⟩))
          rw [keptAll, List.flatMap_cons]
          cases hnode : kinds.isNode c with
          | true =>
            rw [if_pos rfl, List.flatMap_cons, List.map_append, ihrest hrest,
              ih c hc hnode (List.forall_mem_cons.mpr ⟨hself, hleaf⟩) hsoundc]
          | false =>
            rw [if_neg (by decide), ihrest hrest, filter_keepsNode_of_not_node hsoundc hnode, List.nil_append]
      exact hall n.children (fun _ => id) _

/-- The comments that are kept are those that are not below a leaf or in another comment. -/
theorem commentsOf_eq_filter (hn : kinds.isNode n = true)
    (hancestors : ∀ a ∈ ancestors, kinds.isLeaf a = false ∧ kinds.isComment a = false)
    (hsound : ∀ o ∈ occurrencesFrom ancestors n, Sound kinds o) :
    commentsOf kinds n = ((occurrencesFrom ancestors n).filter (keepsComment kinds)).map (·.part) := by
  induction n using Concrete.induction generalizing ancestors with
  | part n ih =>
    have hcomment := (isNode_iff.mp hn).2
    have hkeeps : keepsComment kinds ⟨n, ancestors⟩ = false := by simp [keepsComment, hcomment]
    rw [commentsOf_eq, filter_occurrencesFrom, hkeeps, if_neg Bool.false_ne_true, List.nil_append]
    cases hself : kinds.isLeaf n with
    | true => rw [if_pos rfl, filter_below fun o _ ho => keepsComment_of_leaf ho (.inl hself), List.map_nil]
    | false =>
      rw [if_neg Bool.false_ne_true]
      have hall : ∀ cs : List Concrete, (∀ c ∈ cs, c ∈ n.children) →
          commentsAmong kinds cs = (cs.flatMap fun c =>
            (occurrencesFrom (n :: ancestors) c).filter (keepsComment kinds)).map (·.part) := by
        intro cs hcs
        induction cs with
        | nil => rfl
        | cons c rest ihrest =>
          obtain ⟨hc, hrest⟩ := List.forall_mem_cons.mp hcs
          have hsoundc : ∀ o ∈ occurrencesFrom (n :: ancestors) c, Sound kinds o := fun o ho =>
            hsound o (mem_occurrencesFrom.mpr (.inr ⟨c, hc, ho⟩))
          have hinside : ∀ a ∈ n :: ancestors, kinds.isLeaf a = false ∧ kinds.isComment a = false :=
            List.forall_mem_cons.mpr ⟨⟨hself, hcomment⟩, hancestors⟩
          rw [commentsAmong, ihrest hrest, List.flatMap_cons, List.map_append]
          congr 1
          rcases cases_part kinds c with ⟨hc', -, -⟩ | ⟨hc', hnode, -⟩ | ⟨hc', -, htoken⟩
          · rw [if_pos hc', filter_keepsComment_of_comment hc' hinside, List.map_singleton]
          · rw [hc', if_neg Bool.false_ne_true, if_pos (isNode_iff.mp hnode).1, ih c hc hnode hinside hsoundc]
          · rw [hc', (isToken_iff.mp htoken).1, filter_of_token hsoundc htoken (by simp [keepsComment, hc'])]
            rfl
      exact hall n.children fun _ => id

end CodeFormatter.Arena
