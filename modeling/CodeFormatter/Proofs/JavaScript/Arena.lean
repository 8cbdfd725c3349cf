import CodeFormatter.JavaScript.Lowered
import CodeFormatter.Proofs.Tree.Arena

/-!
# Arenas of JavaScript trees

A JavaScript tree is lowered to a tree and a list of comments. The arena of the same tree is another
representation of these: its entries are the nodes of the lowered tree (`entry`), and its comments are the same
in the order in which they start.

**Theorem (`ofConcrete_concrete`).** If there are numbers for all nodes and the comments are parts of the text,
then the arena of a concrete tree holds what the tree is lowered to.
-/

namespace CodeFormatter.JavaScript

open Arena Concrete

namespace Cst

@[elab_as_elim]
theorem induction {motive : Cst → Prop}
    (node : ∀ kind start stop children, (∀ c ∈ children, motive c) → motive (.node kind start stop children))
    (token : ∀ text start stop operator, motive (.token text start stop operator))
    (comment : ∀ text start stop, motive (.comment text start stop)) (c : Cst) : motive c :=
  @Cst.rec motive (fun cs => ∀ c ∈ cs, motive c) node token comment
    (fun _ h => by cases h)
    (fun c cs hc hcs d hd => by
      rcases List.mem_cons.mp hd with rfl | hd
      · exact hc
      · exact hcs d hd)
    c

mutual

/-- A JavaScript tree, with the kinds of its parts as texts. -/
def concrete : Cst → Concrete
  | .node kind start stop children => ⟨kind.name, true, start, stop, false, concreteAll children⟩
  | .token text start stop operator => ⟨text, false, start, stop, operator, []⟩
  | .comment _ start stop => ⟨"comment", true, start, stop, false, []⟩

def concreteAll : List Cst → List Concrete
  | [] => []
  | c :: rest => concrete c :: concreteAll rest

end

theorem concreteAll_eq (cs : List Cst) : concreteAll cs = cs.map concrete := by
  induction cs with
  | nil => rfl
  | cons c rest ih => rw [concreteAll, ih, List.map_cons]

theorem concrete_node (kind : Kind) (start stop : Nat) (children : List Cst) :
    concrete (.node kind start stop children) = ⟨kind.name, true, start, stop, false, children.map concrete⟩ := by
  rw [concrete, concreteAll_eq]

mutual

/-- The texts of the tokens that are kept. -/
def tokens : Cst → List String
  | .node kind _ _ children => if isLeafKind kind then [] else tokensAll children
  | .token text .. => [text]
  | .comment .. => []

def tokensAll : List Cst → List String
  | [] => []
  | c :: rest => tokens c ++ tokensAll rest

end

end Cst

/-! ## Kinds -/

/-- Texts that are not the name of a kind of comments. -/
def Plain (texts : List String) : Prop := ∀ text ∈ texts, text ∉ Kinds.javaScript.comments

variable {text : String} {c : Cst} {cs : List Cst} {kind : Kind} {start stop : Nat}

theorem name_notMem (kind : Kind) : kind.name ∉ Kinds.javaScript.comments := by
  cases kind <;> decide

theorem isLeaf_name (kind : Kind) : Kinds.javaScript.leaves.contains kind.name = Cst.isLeafKind kind := by
  cases kind <;> decide

theorem isLeaf_concrete (kind : Kind) (start stop : Nat) (children : List Cst) :
    Kinds.javaScript.isLeaf (Cst.concrete (.node kind start stop children)) = Cst.isLeafKind kind := by
  rw [Cst.concrete_node]
  exact isLeaf_name kind

theorem isNode_concrete (kind : Kind) (start stop : Nat) (children : List Cst) :
    Kinds.javaScript.isNode (Cst.concrete (.node kind start stop children)) = true := by
  have hname := name_notMem kind
  simp [Cst.concrete_node, Kinds.isNode, Kinds.isComment, hname]

theorem map_kind_tokens (h : Plain (Cst.tokensAll cs)) :
    ((cs.map Cst.concrete).filter Kinds.javaScript.isToken).map (·.kind) = Cst.tokenTexts cs := by
  induction cs with
  | nil => rfl
  | cons c rest ih =>
    rw [Cst.tokensAll, Plain, List.forall_mem_append] at h
    have hrest := ih h.2
    cases c with
    | node =>
      rw [List.map_cons, Cst.concrete_node, List.filter_cons_of_neg (by simp [Kinds.isToken]), hrest]
      rfl
    | comment =>
      rw [List.map_cons, Cst.concrete, List.filter_cons_of_neg (by simp [Kinds.isToken]), hrest]
      rfl
    | token text =>
      have hplain : text ∉ Kinds.javaScript.comments := h.1 text List.mem_cons_self
      rw [List.map_cons, Cst.concrete, List.filter_cons_of_pos (by simp [Kinds.isToken, Kinds.isComment, hplain]),
        List.map_cons, hrest]
      rfl

/-- An operator, as an arena has it. -/
def operatorToken (o : OperatorToken) : Arena.Token := ⟨o.text, o.start⟩

theorem operator?_concrete (cs : List Cst) :
    Concrete.operator? (cs.map Cst.concrete) = (Cst.operator? cs).map operatorToken := by
  induction cs with
  | nil => rfl
  | cons c rest ih =>
    rw [Concrete.operator?, Cst.operator?] at ih ⊢
    cases c with
    | node => simpa [Cst.concrete_node] using ih
    | comment => simpa [Cst.concrete] using ih
    | token text start stop operator =>
      cases operator with
      | true => rfl
      | false => simpa [Cst.concrete] using ih

/-! ## Nodes -/

/-- The entry of a node. -/
def entry (t : Node) : Entry :=
  { kind := t.info.kind.name
    start := t.start
    stop := t.stop
    children := t.children.map (·.id.toUInt32)
    tokens := t.info.tokens
    operator := t.info.operator.map operatorToken }

/-- Two trees with the same entries. -/
structure SameEntries (t : Node) (u : Tree Occurrence) : Prop where
  id : t.id = u.id
  entries : t.nodes.map entry = u.nodes.map (entryOf .javaScript)

namespace SameEntries

variable {ts : List Node} {us : List (Tree Occurrence)}

theorem map_id (h : List.Forall₂ SameEntries ts us) : ts.map (·.id) = us.map (·.id) := by
  induction h with
  | nil => rfl
  | cons h _ ih => rw [List.map_cons, List.map_cons, h.id, ih]

theorem map_entry (h : List.Forall₂ SameEntries ts us) :
    (ts.flatMap Tree.nodes).map entry = (us.flatMap Tree.nodes).map (entryOf .javaScript) := by
  induction h with
  | nil => rfl
  | cons h _ ih => rw [List.flatMap_cons, List.flatMap_cons, List.map_append, List.map_append, h.entries, ih]

theorem length_nodes (h : List.Forall₂ SameEntries ts us) :
    (ts.flatMap Tree.nodes).length = (us.flatMap Tree.nodes).length := by
  simpa using congrArg List.length (map_entry h)

end SameEntries

/-- What a tree is lowered to has the entries of what is kept of it. -/
def LowersAlike (c : Cst) : Prop := ∀ (ancestors : List Concrete) (next : Nat), Plain c.tokens →
  List.Forall₂ SameEntries (c.lower next).1 (keptAll .javaScript ancestors next [c.concrete]) ∧
    (c.lower next).2 = next + ((c.lower next).1.flatMap Tree.nodes).length

theorem lowerAll_alike (hcs : ∀ c ∈ cs, LowersAlike c) (ancestors : List Concrete) (next : Nat)
    (hplain : Plain (Cst.tokensAll cs)) :
    List.Forall₂ SameEntries (Cst.lowerAll next cs).1 (keptAll .javaScript ancestors next (cs.map Cst.concrete)) ∧
      (Cst.lowerAll next cs).2 = next + ((Cst.lowerAll next cs).1.flatMap Tree.nodes).length := by
  induction cs generalizing next with
  | nil => exact ⟨.nil, rfl⟩
  | cons c rest ih =>
    rw [Cst.tokensAll, Plain, List.forall_mem_append] at hplain
    obtain ⟨hc, hrest⟩ := List.forall_mem_cons.mp hcs
    obtain ⟨hfirst, hnext⟩ := hc ancestors next hplain.1
    obtain ⟨hothers, hafter⟩ := ih hrest (c.lower next).2 hplain.2
    rw [List.map_cons, keptAll_cons, ← SameEntries.length_nodes hfirst, ← hnext, Cst.lowerAll]
    refine ⟨List.rel_append hfirst hothers, ?_⟩
    dsimp only
    rw [hafter, hnext, List.flatMap_append, List.length_append, Nat.add_assoc]

theorem kept_concrete (kind : Kind) (start stop : Nat) (children : List Cst) (ancestors : List Concrete)
    (next : Nat) : kept .javaScript ancestors next (Cst.concrete (.node kind start stop children)) =
      ⟨next, start, stop, ⟨Cst.concrete (.node kind start stop children), ancestors⟩,
        if Cst.isLeafKind kind then []
        else keptAll .javaScript (Cst.concrete (.node kind start stop children) :: ancestors) (next + 1)
          (children.map Cst.concrete)⟩ := by
  rw [kept_eq, isLeaf_concrete, Cst.concrete_node]

/-- What is below a node, unless it is a leaf. -/
theorem below_alike {children : List Cst} (hcs : ∀ c ∈ children, LowersAlike c) (ancestors : List Concrete)
    (next : Nat) (hplain : Plain (Cst.tokens (.node kind start stop children))) :
    let below := if Cst.isLeafKind kind then ([], next) else Cst.lowerAll next children
    List.Forall₂ SameEntries below.1 (if Cst.isLeafKind kind then []
        else keptAll .javaScript ancestors next (children.map Cst.concrete)) ∧
      below.2 = next + (below.1.flatMap Tree.nodes).length := by
  rw [Cst.tokens] at hplain
  cases hleaf : Cst.isLeafKind kind with
  | true => exact ⟨.nil, rfl⟩
  | false =>
    rw [hleaf] at hplain
    exact lowerAll_alike hcs ancestors next hplain

theorem tokensOf_concrete {children : List Cst} (h : Plain (Cst.tokens (.node kind start stop children))) :
    tokensOf .javaScript (Cst.concrete (.node kind start stop children)) = (Cst.infoOf kind children).tokens := by
  rw [Cst.tokens] at h
  rw [tokensOf, isLeaf_concrete, Cst.infoOf, Cst.concrete_node]
  cases hleaf : Cst.isLeafKind kind with
  | true => rfl
  | false =>
    rw [hleaf] at h
    exact map_kind_tokens h

theorem entry_concrete {children : List Cst} {next : Nat} {ancestors : List Concrete} {ts : List Node}
    {us : List (Tree Occurrence)} (hplain : Plain (Cst.tokens (.node kind start stop children)))
    (hids : ts.map (·.id) = us.map (·.id)) :
    entry ⟨next, start, stop, Cst.infoOf kind children, ts⟩ = entryOf .javaScript
      ⟨next, start, stop, ⟨Cst.concrete (.node kind start stop children), ancestors⟩, us⟩ := by
  have hchildren := congrArg (List.map Nat.toUInt32) hids
  rw [List.map_map, List.map_map] at hchildren
  rw [entryOf, tokensOf_concrete hplain, Cst.concrete_node, operator?_concrete]
  exact congrArg (fun ids => Entry.mk _ _ _ ids _ _) hchildren

/-- **A tree is lowered to what its arena holds.** -/
theorem lower_alike (c : Cst) : LowersAlike c := by
  induction c using Cst.induction with
  | token | comment =>
    intro ancestors next _
    exact ⟨.nil, rfl⟩
  | node kind start stop children ih =>
    intro ancestors next hplain
    obtain ⟨hsame, hafter⟩ :=
      below_alike ih (Cst.concrete (.node kind start stop children) :: ancestors) (next + 1) hplain
    rw [keptAll_singleton (isNode_concrete kind start stop children), kept_concrete, Cst.lower]
    refine ⟨.cons ⟨rfl, ?_⟩ .nil, ?_⟩
    · rw [Tree.nodes_eq, Tree.nodes_eq, List.map_cons, List.map_cons, SameEntries.map_entry hsame,
        entry_concrete hplain (SameEntries.map_id hsame)]
    · rw [List.flatMap_singleton, Tree.nodes_eq, List.length_cons]
      dsimp only
      omega

/-! ## Comments -/

theorem commentsAmong_singleton {kinds : Kinds} {n : Concrete} (h : kinds.isNode n = true) :
    commentsAmong kinds [n] = commentsOf kinds n := by
  obtain ⟨hnamed, hcomment⟩ := isNode_iff.mp h
  rw [commentsAmong, hcomment, hnamed, if_neg Bool.false_ne_true, if_pos rfl, commentsAmong, List.append_nil]

theorem commentsAmong_cons (kinds : Kinds) (n : Concrete) (ns : List Concrete) :
    commentsAmong kinds (n :: ns) = commentsAmong kinds [n] ++ commentsAmong kinds ns := by
  simp [commentsAmong]

/-- The comments of a tree are parts of the text, and the same as those of its arena. -/
def CommentsAlike (text : String) (c : Cst) : Prop := Plain c.tokens →
  (∀ d ∈ c.comments, slice? text d.start d.stop = some d.text) →
    (commentsAmong .javaScript [c.concrete]).map (commentAt text) = c.comments ∧
      ∀ n ∈ commentsAmong .javaScript [c.concrete], (slice? text n.start n.stop).isSome = true

theorem commentsAll_alike (hcs : ∀ c ∈ cs, CommentsAlike text c) (hplain : Plain (Cst.tokensAll cs))
    (htexts : ∀ d ∈ Cst.commentsAll cs, slice? text d.start d.stop = some d.text) :
    (commentsAmong .javaScript (cs.map Cst.concrete)).map (commentAt text) = Cst.commentsAll cs ∧
      ∀ n ∈ commentsAmong .javaScript (cs.map Cst.concrete), (slice? text n.start n.stop).isSome = true := by
  induction cs with
  | nil => exact ⟨rfl, fun _ h => by cases h⟩
  | cons c rest ih =>
    rw [Cst.tokensAll, Plain, List.forall_mem_append] at hplain
    rw [Cst.commentsAll, List.forall_mem_append] at htexts
    obtain ⟨hc, hrest⟩ := List.forall_mem_cons.mp hcs
    obtain ⟨hfirst, hslices⟩ := hc hplain.1 htexts.1
    obtain ⟨hothers, hslices'⟩ := ih hrest hplain.2 htexts.2
    rw [List.map_cons, commentsAmong_cons, List.map_append, hfirst, hothers, List.forall_mem_append]
    exact ⟨rfl, hslices, hslices'⟩

theorem comments_alike (text : String) (c : Cst) : CommentsAlike text c := by
  induction c using Cst.induction with
  | token token start stop operator =>
    intro hplain _
    have htoken : token ∉ Kinds.javaScript.comments := hplain token List.mem_cons_self
    simp [commentsAmong, Cst.concrete, Kinds.isComment, htoken, Cst.comments]
  | comment own start stop =>
    intro _ htexts
    have hslice : slice? text start stop = some own := htexts _ List.mem_cons_self
    have hself : commentsAmong .javaScript [Cst.concrete (.comment own start stop)] =
        [⟨"comment", true, start, stop, false, []⟩] := rfl
    rw [hself, List.map_singleton, List.forall_mem_singleton, commentAt]
    dsimp only
    rw [hslice]
    exact ⟨rfl, rfl⟩
  | node kind start stop children ih =>
    intro hplain htexts
    rw [Cst.tokens] at hplain
    rw [Cst.comments] at htexts ⊢
    rw [commentsAmong_singleton (isNode_concrete kind start stop children), commentsOf_eq, isLeaf_concrete,
      Cst.concrete_node]
    split
    · exact ⟨rfl, fun _ h => by cases h⟩
    · rename_i hleaf
      rw [if_neg hleaf] at hplain htexts
      exact commentsAll_alike ih hplain htexts

/-- **The arena of a concrete tree holds what the tree is lowered to.** -/
theorem ofConcrete_concrete {parsed : Parsed Info} (hlowered : c.lowered? = some parsed) (hplain : Plain c.tokens)
    (htexts : ∀ d ∈ parsed.comments, slice? text d.start d.stop = some d.text)
    (hsize : parsed.tree.nodes.length ≤ UInt32.size) :
    Arena.ofConcrete .javaScript text c.concrete =
      .ok ⟨parsed.tree.nodes.map entry, Comments.sortByStart parsed.comments⟩ := by
  cases c with
  | token | comment => cases hlowered
  | node kind start stop children =>
    obtain rfl := Option.some_inj.mp hlowered
    have hnode := isNode_concrete kind start stop children
    have halike := (lower_alike (.node kind start stop children) [] 0 hplain).1
    obtain ⟨hcomments, hslices⟩ := comments_alike text (.node kind start stop children) hplain htexts
    rw [keptAll_singleton hnode] at halike
    rw [commentsAmong_singleton hnode] at hcomments hslices
    obtain ⟨-, hentries⟩ := (List.forall₂_cons.mp halike).1
    have hlength := congrArg List.length hentries
    rw [List.length_map, List.length_map] at hlength
    rw [Arena.ofConcrete_kept hslices (hlength ▸ hsize), ← hentries, hcomments]

end CodeFormatter.JavaScript
