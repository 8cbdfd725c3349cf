import CodeFormatter.Proofs.Doc.Pieces
import CodeFormatter.Proofs.Text.Slice
import CodeFormatter.Proofs.Walk.Coverage
import CodeFormatter.Proofs.Walk.Scenes

/-!
# Two walks side by side

Two actions run in *parallel* if from the same state they fail alike, or end in the same state with answers that
are related. Printers are compared in this way when the documents of the children differ: *twins* are documents
with the same pieces. A printer that puts documents together without looking at them makes twins of twins. Some
look whether a document is empty, so twins may be *firm*: neither of them is.

**Theorem (`Language.MakesTwins.ofTree`).** In a language whose printers make twins of twins, a tree has twin
documents whether a cursor is asked for or not.
-/

namespace CodeFormatter

/-! ## Twins -/

namespace Doc

/-- Documents with the same pieces. If they are firm, neither is empty. -/
structure Twins (firm : Prop) (d d' : Doc) : Prop where
  pieces : d.pieces = d'.pieces
  firm : firm → d.isEmpty = false ∧ d'.isEmpty = false

/-- One by one, the documents are firm twins. -/
abbrev TwinLists : List Doc → List Doc → Prop := List.Forall₂ (Twins True)

section Twins

variable {firm : Prop} {d d' : Doc} {parts parts' : List Doc}

theorem Twins.left (h : Twins True d d') : d.isEmpty = false := (h.firm trivial).1

theorem Twins.right (h : Twins True d d') : d'.isEmpty = false := (h.firm trivial).2

theorem Twins.of_firm (h : Twins True d d') : Twins firm d d' := ⟨h.pieces, fun _ => h.firm trivial⟩

theorem twins_self (h : d.isEmpty = false) : Twins firm d d := ⟨rfl, fun _ => ⟨h, h⟩⟩

theorem twins_of_pieces_eq (h : d.pieces = d'.pieces) (hd : d.isEmpty = false) (hd' : d'.isEmpty = false) :
    Twins firm d d' := ⟨h, fun _ => ⟨hd, hd'⟩⟩

theorem isEmpty_concat_eq_false (hd : d ∈ parts) (h : d.isEmpty = false) :
    (concat parts).isEmpty = false :=
  Bool.eq_false_iff.mpr fun hparts => Bool.false_ne_true (h.symm.trans (isEmpty_of_mem hparts hd))

theorem TwinLists.map_pieces (h : TwinLists parts parts') : parts.map pieces = parts'.map pieces := by
  induction h with
  | nil => rfl
  | cons hd _ ih => rw [List.map_cons, List.map_cons, hd.pieces, ih]

theorem TwinLists.flatMap_pieces (h : TwinLists parts parts') :
    parts.flatMap pieces = parts'.flatMap pieces := by
  rw [List.flatMap_def, List.flatMap_def, h.map_pieces]

theorem TwinLists.isEmpty (h : TwinLists parts parts') :
    (concat parts).isEmpty = parts.isEmpty ∧ (concat parts').isEmpty = parts.isEmpty := by
  cases h with
  | nil => exact ⟨rfl, rfl⟩
  | cons hd _ =>
    exact ⟨isEmpty_concat_eq_false List.mem_cons_self hd.left,
      isEmpty_concat_eq_false List.mem_cons_self hd.right⟩

theorem TwinLists.dropLast (h : TwinLists parts parts') : TwinLists parts.dropLast parts'.dropLast := by
  rw [List.dropLast_eq_take, List.dropLast_eq_take, h.length_eq]
  exact List.forall₂_take _ h

/-- The same before and after each of the twins. -/
theorem TwinLists.flatMap_pieces_between (h : TwinLists parts parts') (before after : List Doc) :
    (parts.flatMap fun d => before ++ d :: after).flatMap pieces =
      (parts'.flatMap fun d => before ++ d :: after).flatMap pieces := by
  induction h with
  | nil => rfl
  | cons hd _ ih =>
    simp only [List.flatMap_cons, List.flatMap_append, hd.pieces] at ih ⊢
    rw [ih]

/-- The same separator between twins. -/
theorem TwinLists.flatMap_pieces_intersperse (h : TwinLists parts parts') (separator : Doc) :
    (parts.intersperse separator).flatMap pieces = (parts'.intersperse separator).flatMap pieces := by
  induction h with
  | nil => rfl
  | cons hd hrest ih =>
    cases hrest with
    | nil => simp [hd.pieces]
    | cons _ _ =>
      simp only [List.intersperse_cons_cons, List.flatMap_cons, hd.pieces] at ih ⊢
      rw [ih]

/-- Documents that must break make twins of them break. -/
theorem TwinLists.anyWillBreak (h : TwinLists parts parts') : anyWillBreak parts = anyWillBreak parts' := by
  rw [anyWillBreak_eq, anyWillBreak_eq]
  induction h with
  | nil => rfl
  | cons hd _ ih => rw [List.any_cons, List.any_cons, ih, ← any_willBreak_pieces, hd.pieces, any_willBreak_pieces]

/-- Cursors around a document make no difference. -/
theorem Twins.around (h : Twins firm d d') : Twins firm d (.concat [.cursor, d', .cursor]) := by
  refine ⟨by simp [h.pieces], fun hf => ⟨(h.firm hf).1, ?_⟩⟩
  exact isEmpty_concat_eq_false (by simp) (h.firm hf).2

/-- What stands around a document makes no difference either. -/
theorem Twins.between (h : Twins firm d d') (before after : List Doc) :
    Twins firm (.concat (before ++ d :: after)) (.concat (before ++ d' :: after)) := by
  refine ⟨by simp [h.pieces], fun hf => ⟨?_, ?_⟩⟩
  · exact isEmpty_concat_eq_false (by simp) (h.firm hf).1
  · exact isEmpty_concat_eq_false (by simp) (h.firm hf).2

end Twins

end Doc

/-! ## Related answers -/

namespace Walk

section Answers

variable {β γ δ ε : Type} {R : β → γ → Prop} {S : δ → ε → Prop}

theorem rel_bind {x : Option β} {y : Option γ} {f : β → Option δ} {g : γ → Option ε}
    (h : Option.Rel R x y) (hf : ∀ b c, R b c → Option.Rel S (f b) (g c)) :
    Option.Rel S (x >>= f) (y >>= g) := by
  cases h with
  | none => exact .none
  | some hbc => exact hf _ _ hbc

theorem rel_bind_left {x : Option β} {f : β → Option δ} {g : β → Option ε}
    (h : ∀ b, Option.Rel S (f b) (g b)) : Option.Rel S (x >>= f) (x >>= g) := by
  cases x with
  | none => exact .none
  | some b => exact h b

theorem rel_getLast? {bs : List β} {cs : List γ} (h : List.Forall₂ R bs cs) :
    Option.Rel R bs.getLast? cs.getLast? := by
  have hreverse := List.rel_reverse h
  rw [List.getLast?_eq_head?_reverse, List.getLast?_eq_head?_reverse]
  generalize bs.reverse = backwards at hreverse ⊢
  generalize cs.reverse = backwards' at hreverse ⊢
  cases hreverse with
  | nil => exact .none
  | cons hc _ => exact .some hc

end Answers

/-! ## Parallel actions -/

/-- The same error, or the same state and answers as `R` says. -/
inductive Tally {β γ : Type} (R : β → γ → Prop) :
    Except Error (β × WalkState) → Except Error (γ × WalkState) → Prop
  | ok {b : β} {c : γ} (st : WalkState) : R b c → Tally R (.ok (b, st)) (.ok (c, st))
  | error (e : Error) : Tally R (.error e) (.error e)

/-- From each state both fail alike, or end in the same state with answers as `R` says. -/
def Parallel {β γ : Type} (x : Walk β) (y : Walk γ) (R : β → γ → Prop) : Prop := ∀ st, Tally R (x st) (y st)

section Rules

variable {β γ δ ε : Type} {x : Walk β} {y : Walk γ} {R S : β → γ → Prop} {Q : δ → ε → Prop}

theorem Tally.mono {a : Except Error (β × WalkState)} {b : Except Error (γ × WalkState)} (h : Tally R a b)
    (hsub : ∀ b c, R b c → S b c) : Tally S a b := by
  cases h with
  | ok st hbc => exact .ok st (hsub _ _ hbc)
  | error e => exact .error e

theorem Parallel.mono (h : Parallel x y R) (hsub : ∀ b c, R b c → S b c) : Parallel x y S :=
  fun st => (h st).mono hsub

/-- An action runs in parallel to itself. -/
theorem parallel_self {R : β → β → Prop} (h : ∀ b, R b b) : Parallel x x R := by
  intro st
  cases x st with
  | ok r => exact .ok r.2 (h r.1)
  | error e => exact .error e

theorem parallel_pure {b : β} {c : γ} (h : R b c) : Parallel (pure b) (pure c) R := fun st => .ok st h

theorem Tally.bind {a : Except Error (β × WalkState)} {b : Except Error (γ × WalkState)} {f : β → Walk δ}
    {g : γ → Walk ε} (h : Tally R a b) (hf : ∀ b c, R b c → Parallel (f b) (g c) Q) :
    Tally Q (a >>= fun r => f r.1 r.2) (b >>= fun r => g r.1 r.2) := by
  cases h with
  | ok st hbc => exact hf _ _ hbc st
  | error e => exact .error e

/-- What is made of both results is the same, if it is the same for answers as `R` says. -/
theorem Tally.bind_eq {a : Except Error (β × WalkState)} {b : Except Error (γ × WalkState)}
    {f : β × WalkState → Except Error δ} {g : γ × WalkState → Except Error δ} (h : Tally R a b)
    (hf : ∀ b c st, R b c → f (b, st) = g (c, st)) : a >>= f = b >>= g := by
  cases h with
  | ok st hbc => exact hf _ _ st hbc
  | error e => rfl

theorem Parallel.bind {f : β → Walk δ} {g : γ → Walk ε} (h : Parallel x y R)
    (hf : ∀ b c, R b c → Parallel (f b) (g c) Q) : Parallel (x >>= f) (y >>= g) Q :=
  fun st => (h st).bind hf

theorem Parallel.map {f : β → δ} {g : γ → ε} (h : Parallel x y R) (hf : ∀ b c, R b c → Q (f b) (g c)) :
    Parallel (f <$> x) (g <$> y) Q := by
  rw [← bind_pure_comp, ← bind_pure_comp]
  exact h.bind fun b c hbc => parallel_pure (hf b c hbc)

/-- The same action first, and then two that depend on its answer. -/
theorem parallel_bind_left {f : β → Walk δ} {g : β → Walk ε} (h : ∀ b, Parallel (f b) (g b) Q) :
    Parallel (x >>= f) (x >>= g) Q :=
  (parallel_self (R := Eq) fun _ => rfl).bind fun b _ hbc => hbc ▸ h b

/-- Both ways from the same question. -/
theorem parallel_ite {p : Prop} [Decidable p] {x' : Walk β} {y' : Walk γ} (hx : Parallel x y R)
    (hy : Parallel x' y' R) : Parallel (if p then x else x') (if p then y else y') R := by
  split
  · exact hx
  · exact hy

theorem parallel_lift (e : Except Error β) :
    Parallel (liftM e : Walk β) (liftM e) fun b c => b = c ∧ e = .ok b := by
  intro st
  cases e with
  | error e => exact .error e
  | ok b => exact .ok st ⟨rfl, rfl⟩

end Rules

section Nodes

variable {α : Type} {a b scene : Scene} {t : Tree α} {l : Language α} {firm : Prop} {d d' : Doc}

/-- The source of a node that is not empty. -/
theorem isEmpty_of_sliceOrError {text s : String} {start stop : Nat} (hlt : start < stop)
    (h : sliceOrError text start stop = .ok s) : s.isEmpty = false := by
  obtain ⟨before, after, -, hstart, hstop⟩ := slice?_eq_some_iff.mp (sliceOrError_eq_ok_iff.mp h)
  refine Bool.eq_false_iff.mpr fun hempty => ?_
  rw [String.isEmpty_iff.mp hempty, String.toList_empty, byteLength_nil] at hstop
  omega

/-- The copy of a node is not empty, if the node is not. -/
theorem parallel_verbatim (hfirm : firm → t.start < t.stop) :
    Parallel (verbatim scene t) (verbatim scene t) (Doc.Twins firm) := by
  refine parallel_bind_left fun _ => ?_
  refine (parallel_lift (sliceOrError scene.text t.start t.stop)).bind fun s s' hs => ?_
  obtain ⟨rfl, hs⟩ := hs
  exact parallel_pure ⟨rfl, fun hf => ⟨isEmpty_of_sliceOrError (hfirm hf) hs,
    isEmpty_of_sliceOrError (hfirm hf) hs⟩⟩

/-- Comments stand around twins. -/
theorem parallel_withComments (hbytes : a.bytes = b.bytes) (h : Doc.Twins firm d d') :
    Parallel (withComments l a t d) (withComments l b t d') (Doc.Twins firm) := by
  rw [withComments_congr hbytes]
  refine parallel_bind_left fun cs => ?_
  dsimp only
  split
  · exact parallel_pure h
  · exact parallel_bind_left fun around => parallel_pure (h.between around.1 around.2)

end Nodes

end Walk

/-! ## Nodes -/

/-- Two of the same node, whose documents are firm twins, and so are those of the nodes below it. -/
inductive Printable.Twins {α : Type} : Printable α → Printable α → Prop
  | intro {p p' : Printable α} (path : p.path = p'.path)
      (print : Walk.Parallel p.print p'.print (Doc.Twins True))
      (below : List.Forall₂ Printable.Twins p.children p'.children) : Printable.Twins p p'

namespace Printable.Twins

variable {α : Type} {p p' : Printable α} {ps ps' : List (Printable α)}

theorem path (h : Twins p p') : p.path = p'.path := by
  cases h
  assumption

theorem node (h : Twins p p') : p.node = p'.node := by rw [Printable.node, h.path, Printable.node]

theorem print (h : Twins p p') : Walk.Parallel p.print p'.print (Doc.Twins True) := by
  cases h
  assumption

theorem children (h : Twins p p') : List.Forall₂ Twins p.children p'.children := by
  cases h
  assumption

theorem map_node (h : List.Forall₂ Twins ps ps') : ps.map (·.node) = ps'.map (·.node) := by
  induction h with
  | nil => rfl
  | cons hp _ ih => rw [List.map_cons, List.map_cons, hp.node, ih]

end Printable.Twins

/-- The scene with a cursor at a node. -/
def Scene.pointing (scene : Scene) (node offset : Option Nat) : Scene :=
  { scene with cursorNode := node, options := { scene.options with cursorOffset := offset } }

/-- The printers of a language make twins of twins, and do not look for a cursor. The twins for solid nodes are
firm. -/
structure Language.MakesTwins {α : Type} (l : Language α) (Solid : Tree α → Prop) : Prop where
  span : ∀ t, Solid t → t.start < t.stop
  print : ∀ scene node offset path children children', List.Forall₂ Printable.Twins children children' →
    Walk.Parallel (l.print scene path children) (l.print (scene.pointing node offset) path children')
      (Doc.Twins (Solid path.node))
  embed : ∀ scene node offset path children children', List.Forall₂ Printable.Twins children children' →
    Walk.Parallel (l.embed scene path children) (l.embed (scene.pointing node offset) path children')
      (Option.Rel (Doc.Twins (Solid path.node)))

namespace Language.MakesTwins

open Walk

variable {α : Type} {l : Language α} {Solid : Tree α → Prop} {scene : Scene} {node offset : Option Nat}
  {path : Tree.Path α} {children children' : List (Printable α)} {t : Tree α}

variable (h : l.MakesTwins Solid)

include h

theorem printNode (hchildren : List.Forall₂ Printable.Twins children children') :
    Parallel (printNode l scene path children) (printNode l (scene.pointing node offset) path children')
      (Doc.Twins (Solid path.node)) := by
  have hcopy : Parallel (verbatim scene path.node) (verbatim (scene.pointing node offset) path.node)
      (Doc.Twins (Solid path.node)) := parallel_verbatim (h.span path.node)
  refine parallel_bind_left fun ignored => ?_
  split
  · exact hcopy
  · refine (h.embed scene node offset path _ _ hchildren).bind fun answer answer' hanswer => ?_
    cases hanswer with
    | some hd => exact parallel_pure hd
    | none => exact h.print scene node offset path _ _ hchildren

/-- A node and the same node with a cursor somewhere. -/
theorem visit (hcursor : scene.cursorNode = none)
    (hchildren : List.Forall₂ Printable.Twins children children') :
    Parallel (visit l scene path children) (visit l (scene.pointing node offset) path children')
      (Doc.Twins (Solid path.node)) := by
  refine (h.printNode hchildren).bind fun d d' hd => parallel_withComments rfl ?_
  rw [if_neg (by simp [hcursor])]
  split
  · exact hd.around
  · exact hd

/-- **A tree has twin documents**, with and without a cursor. -/
theorem ofTree (hcursor : scene.cursorNode = none) (hsolid : ∀ u ∈ t.nodes, ∀ c ∈ u.children, Solid c)
    (ancestors : List (Tree α)) :
    Parallel (Printable.ofTree l scene ancestors t).print
        (Printable.ofTree l (scene.pointing node offset) ancestors t).print (Doc.Twins (Solid t)) ∧
      List.Forall₂ Printable.Twins (Printable.ofTree l scene ancestors t).children
        (Printable.ofTree l (scene.pointing node offset) ancestors t).children := by
  induction t using Tree.induction generalizing ancestors with
  | node t ih =>
    have hbelow : List.Forall₂ Printable.Twins (Printable.ofTrees l scene (t :: ancestors) t.children)
        (Printable.ofTrees l (scene.pointing node offset) (t :: ancestors) t.children) := by
      rw [ofTrees_eq, ofTrees_eq, List.forall₂_map_left_iff, List.forall₂_map_right_iff, List.forall₂_same]
      intro c hc
      have hfirm : Solid c := hsolid t (Tree.mem_nodes_self t) c hc
      obtain ⟨hprint, hchildren⟩ := ih c hc
        (fun u hu => hsolid u (Tree.mem_nodes_of_mem_children hc hu)) (t :: ancestors)
      refine .intro ?_ (hprint.mono fun d d' hd => ⟨hd.pieces, fun _ => hd.firm hfirm⟩) hchildren
      cases c
      rfl
    rw [print_ofTree, print_ofTree]
    refine ⟨h.visit hcursor hbelow, ?_⟩
    cases t
    exact hbelow

end Language.MakesTwins

end CodeFormatter
