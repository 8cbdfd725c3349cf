import CodeFormatter.Proofs.Walk.Marks
import Mathlib.Data.List.Forall2

/-!
# Walks over two texts

The same program may stand in two texts in different layouts: its nodes have other spans, and its
comments stand elsewhere. A walk over one of the texts *follows* a walk over the other if it has the
same answer wherever that one has an answer. On the way the comments of the two stay *in step*: the
same comments count as printed.

What is printed around a node depends on the comments that the node owns, and on the lines at their
ends. If these agree (`SameComments`), the comments around corresponding nodes are printed alike
(`follows_withComments`), and so are those inside them (`follows_danglingComments`).
-/

namespace CodeFormatter

variable {α β γ : Type} {a b : Scene} {left right : Comments}

/-- What a language writes for a comment, and whether it lets the comment ask for the next node to be left
alone, depends on nothing but the text of the comment. -/
structure Language.ReadsTexts (l : Language α) : Prop where
  print : ∀ c e : Comment, c.text = e.text → c.block = e.block →
    l.printComment c = l.printComment e
  ignore : ∀ c e : Comment, c.text = e.text → l.isIgnoreComment c = l.isIgnoreComment e

namespace Walk

/-! ## The same comment in two texts -/

/-- Does a comment go on to the line after it, and is a blank line there? -/
def linesAhead (scene : Scene) (c : Comment) : Bool × Bool :=
  let lineEnd := Scan.skipSpaces scene.bytes c.stop
  let after := Scan.skipNewline scene.bytes lineEnd
  (c.block && !Scan.hasNewline scene.bytes c.stop,
    after != lineEnd && Scan.hasNewline scene.bytes after)

/-- Does a comment stand on a line of its own, and behind a blank one? -/
def linesBehind (scene : Scene) (c : Comment) : Bool × Bool :=
  (Scan.hasNewlineBackward scene.bytes c.start,
    Scan.hasNewlineBackward scene.bytes c.start && Scan.isPreviousLineEmpty scene.bytes c.start)

/-- A comment of one text and a comment of the other are printed alike. -/
structure SameComment (a b : Scene) (c e : Comment) : Prop where
  text : c.text = e.text
  block : c.block = e.block
  placement : c.placement = e.placement
  ahead : c.placement = some .leading → linesAhead a c = linesAhead b e
  behind : c.placement = some .trailing → linesBehind a c = linesBehind b e

/-- One by one, the comments of both texts are printed alike, and the same of them are marked. -/
structure SameComments (a b : Scene) (left right : Comments) : Prop where
  comment : ∀ i, Option.Rel (SameComment a b) (left.get? i) (right.get? i)
  printed : ∀ i, (left.get? i).map (·.printed) = (right.get? i).map (·.printed)

/-- Marks do not matter. -/
theorem SameComment.of_unprinted {c c' e e' : Comment} (h : SameComment a b c' e')
    (hc : { c with printed := false } = { c' with printed := false })
    (he : { e with printed := false } = { e' with printed := false }) : SameComment a b c e := by
  obtain ⟨text, start, stop, block, attached, placement, printed⟩ := c
  obtain ⟨text', start', stop', block', attached', placement', printed'⟩ := e
  obtain ⟨_, _, _, _, _, _, _⟩ := c'
  obtain ⟨_, _, _, _, _, _, _⟩ := e'
  simp only [Comment.mk.injEq] at hc he
  obtain ⟨rfl, rfl, rfl, rfl, rfl, rfl, -⟩ := hc
  obtain ⟨rfl, rfl, rfl, rfl, rfl, rfl, -⟩ := he
  exact ⟨h.text, h.block, h.placement, h.ahead, h.behind⟩

/-- The comments of both texts during the walk. -/
theorem SameComments.rel_get? (h : SameComments a b left right) {cs cs' : Comments}
    (hleft : cs.unmarked = left.unmarked) (hright : cs'.unmarked = right.unmarked) (i : Nat) :
    Option.Rel (SameComment a b) (cs.get? i) (cs'.get? i) := by
  have hsame := h.comment i
  have hc := congrArg (·.get? i) hleft
  have he := congrArg (·.get? i) hright
  simp only [Comments.get?_unmarked] at hc he
  generalize cs.get? i = c at hc ⊢
  generalize cs'.get? i = e at he ⊢
  generalize left.get? i = c' at hc hsame
  generalize right.get? i = e' at he hsame
  cases hsame with
  | none =>
    rw [Option.map_none, Option.map_eq_none_iff] at hc he
    rw [hc, he]
    exact .none
  | some hsame =>
    rw [Option.map_some, Option.map_eq_some_iff] at hc he
    obtain ⟨c, rfl, hc⟩ := hc
    obtain ⟨e, rfl, he⟩ := he
    exact .some (hsame.of_unprinted hc he)

/-! ## In step -/

/-- In both walks the same comments are marked, and the same group ids are in use. -/
structure InStep (left right : Comments) (st st' : WalkState) : Prop where
  left : st.comments.unmarked = left.unmarked
  right : st'.comments.unmarked = right.unmarked
  printed : ∀ i,
    (st.comments.get? i).map (·.printed) = (st'.comments.get? i).map (·.printed)
  lastGroup : st.lastGroup = st'.lastGroup

theorem SameComments.inStep (h : SameComments a b left right) (group : GroupId) :
    InStep left right ⟨left, group⟩ ⟨right, group⟩ := ⟨rfl, rfl, h.printed, rfl⟩

/-- No comment is missing in the one text if none is in the other. -/
theorem InStep.firstUnprinted?_eq_none {st st' : WalkState} (h : InStep left right st st')
    (hnone : st.comments.firstUnprinted? = none) : st'.comments.firstUnprinted? = none := by
  rw [Comments.firstUnprinted?, List.find?_eq_none] at hnone ⊢
  intro e he
  obtain ⟨i, hi⟩ := List.mem_iff_getElem?.mp he
  have hprinted := h.printed i
  rw [Comments.get?, Comments.get?, hi, Option.map_some, Option.map_eq_some_iff] at hprinted
  obtain ⟨c, hc, heq⟩ := hprinted
  rw [← heq]
  exact hnone c (List.mem_of_getElem? hc)

/-- Where `x` has an answer, `y` has the same one, and they stay in step. -/
def Follows (left right : Comments) (x y : Walk β) : Prop :=
  ∀ st st', InStep left right st st' → ∀ r st₁, x st = .ok (r, st₁) →
    ∃ st₂, y st' = .ok (r, st₂) ∧ InStep left right st₁ st₂

section Rules

variable {x y : Walk β} {f g : β → Walk γ}

theorem follows_pure (r : β) : Follows left right (pure r) (pure r) := by
  rintro st st' hstep r st₁ ⟨⟩
  exact ⟨st', rfl, hstep⟩

/-- What comes next may rely on the answer being one that `x` has. -/
theorem Follows.bind_of (h : Follows left right x y)
    (hf : ∀ r st st₁, st.comments.unmarked = left.unmarked → x st = .ok (r, st₁) →
      Follows left right (f r) (g r)) : Follows left right (x >>= f) (y >>= g) := by
  intro st st' hstep r st₁ hrun
  obtain ⟨s, st₂, hx, hrun⟩ := bind_eq_ok.mp hrun
  obtain ⟨st₃, hy, hstep'⟩ := h st st' hstep s st₂ hx
  obtain ⟨st₄, hrun, hstep'⟩ := hf s st st₂ hstep.left hx st₂ st₃ hstep' r st₁ hrun
  exact ⟨st₄, bind_eq_ok.mpr ⟨s, st₃, hy, hrun⟩, hstep'⟩

/-- What comes next may rely on an answer that is known. -/
theorem Follows.bind_reads {r : β} (h : Follows left right x y) (hx : Reads left x r)
    (hf : Follows left right (f r) (g r)) : Follows left right (x >>= f) (y >>= g) :=
  h.bind_of fun s st st₁ hst hrun => by
    obtain ⟨-, rfl⟩ := hx st s st₁ hst hrun
    exact hf

theorem Follows.bind (h : Follows left right x y) (hf : ∀ r, Follows left right (f r) (g r)) :
    Follows left right (x >>= f) (y >>= g) :=
  h.bind_of fun r _ _ _ _ => hf r

theorem Follows.map (h : Follows left right x y) (f : β → γ) :
    Follows left right (f <$> x) (f <$> y) := by
  rw [← bind_pure_comp, ← bind_pure_comp]
  exact h.bind fun r => follows_pure (f r)

theorem follows_ite {p : Prop} [Decidable p] {x' y' : Walk β} (h : Follows left right x y)
    (h' : Follows left right x' y') :
    Follows left right (if p then x else x') (if p then y else y') := by
  split
  · exact h
  · exact h'

/-- One action after the other. -/
theorem follows_mapM {ι κ : Type} {xs : List ι} {ys : List κ} {f : ι → Walk β} {g : κ → Walk β}
    (h : List.Forall₂ (fun x y => Follows left right (f x) (g y)) xs ys) :
    Follows left right (xs.mapM f) (ys.mapM g) := by
  induction h with
  | nil => exact follows_pure _
  | cons hx _ ih =>
    rw [List.mapM_cons, List.mapM_cons]
    exact hx.bind fun r => ih.bind fun rs => follows_pure _

theorem follows_lift (e : Except Error β) :
    Follows left right (liftM e : Walk β) (liftM e) := by
  intro st st' hstep r st₁ hrun
  cases e with
  | error e => cases hrun
  | ok r =>
    cases hrun
    exact ⟨st', rfl, hstep⟩

/-- A question about the comments. -/
theorem follows_comments {f g : Comments → Walk β}
    (h : ∀ cs cs', cs.unmarked = left.unmarked → cs'.unmarked = right.unmarked →
      Follows left right (f cs) (g cs')) :
    Follows left right (comments >>= f) (comments >>= g) := by
  intro st st' hstep r st₁ hrun
  exact h st.comments st'.comments hstep.left hstep.right st st' hstep r st₁ hrun

/-- Both texts have the comment, and it gets into the output of both or of neither. -/
theorem follows_mark (h : SameComments a b left right) (e e' : Emission)
    (hcovers : ∀ i c d, left.get? i = some c → right.get? i = some d →
      e.covers i c = e'.covers i d) (hxy : Follows left right x y) :
    Follows left right
      ((modify fun st => { st with comments := e.mark st.comments }) >>= fun _ => x)
      ((modify fun st => { st with comments := e'.mark st.comments }) >>= fun _ => y) := by
  intro st st' hstep r st₁ hrun
  refine hxy { st with comments := e.mark st.comments } { st' with comments := e'.mark st'.comments }
    ⟨?_, ?_, fun i => ?_, hstep.lastGroup⟩ r st₁ hrun
  · rw [Emission.unmarked_mark, hstep.left]
  · rw [Emission.unmarked_mark, hstep.right]
  · have hprinted := hstep.printed i
    have hsame := h.rel_get? hstep.left hstep.right i
    rw [Emission.get?_mark, Emission.get?_mark]
    cases hc : st.comments.get? i with
    | none =>
      rw [hc] at hsame
      cases hd : st'.comments.get? i with
      | none => rfl
      | some d =>
        rw [hd] at hsame
        cases hsame
    | some c =>
      rw [hc] at hsame hprinted
      cases hd : st'.comments.get? i with
      | none =>
        rw [hd] at hsame
        cases hsame
      | some d =>
        rw [hd, Option.map_some, Option.map_some, Option.some.injEq] at hprinted
        obtain ⟨c₀, hc₀, hstart, hstop⟩ :=
          Comments.get?_of_bare_eq (Comments.bare_eq_of_unmarked hstep.left.symm) hc
        obtain ⟨d₀, hd₀, hstart', hstop'⟩ :=
          Comments.get?_of_bare_eq (Comments.bare_eq_of_unmarked hstep.right.symm) hd
        have hcover : e.covers i c = e'.covers i d := by
          rw [← Emission.covers_congr hstart hstop, ← Emission.covers_congr hstart' hstop']
          exact hcovers i c₀ d₀ hc₀ hd₀
        simp only [Option.map_some, hprinted, hcover]

end Rules

/-! ## Questions -/

/-- A comment is in both texts or in neither, and what is asked of it has the same answer. -/
theorem SameComments.any_eq (h : SameComments a b left right) {cs cs' : Comments}
    (hleft : cs.unmarked = left.unmarked) (hright : cs'.unmarked = right.unmarked)
    (p p' : Comment → Bool) (hp : ∀ c e, SameComment a b c e → p c = p' e) (i : Nat) :
    (cs.get? i).any p = (cs'.get? i).any p' := by
  have hsame := h.rel_get? hleft hright i
  generalize cs.get? i = c at hsame ⊢
  generalize cs'.get? i = e at hsame ⊢
  cases hsame with
  | none => rfl
  | some hsame => exact hp _ _ hsame

/-- What is picked out of comments by what is the same of them. -/
theorem SameComments.rel_filterMap (h : SameComments a b left right) {cs cs' : Comments}
    (hleft : cs.unmarked = left.unmarked) (hright : cs'.unmarked = right.unmarked)
    {R : β → γ → Prop} {f : Nat → Comment → Option β} {g : Nat → Comment → Option γ}
    (hfg : ∀ i c e, SameComment a b c e → Option.Rel R (f i c) (g i e)) (indices : List Nat) :
    List.Forall₂ R (indices.filterMap fun i => (cs.get? i).bind (f i))
      (indices.filterMap fun i => (cs'.get? i).bind (g i)) := by
  refine List.rel_filterMap (R := Eq) (fun i j hij => ?_) (List.forall₂_eq_eq_eq ▸ rfl)
  subst hij
  have hsame := h.rel_get? hleft hright i
  generalize cs.get? i = c at hsame ⊢
  generalize cs'.get? i = e at hsame ⊢
  cases hsame with
  | none => exact .none
  | some hsame => exact hfg i _ _ hsame

section Nodes

variable {l : Language α} {t u : Tree α}

/-- Do any comments of a node, which the other node owns as well, have this property? -/
theorem follows_any (h : SameComments a b left right) (hof : left.of t.id = right.of u.id)
    {p p' : Comment → Bool} (hp : ∀ c e, SameComment a b c e → p c = p' e) :
    Follows left right
      (comments >>= fun cs => pure ((cs.of t.id).any fun i => (cs.get? i).any p))
      (comments >>= fun cs => pure ((cs.of u.id).any fun i => (cs.get? i).any p')) := by
  refine follows_comments fun cs cs' hleft hright => ?_
  rw [Comments.of_eq_of_unmarked hleft, Comments.of_eq_of_unmarked hright, hof,
    funext (h.any_eq hleft hright p p' hp)]
  exact follows_pure _

theorem follows_hasDanglingComments (h : SameComments a b left right)
    (hof : left.of t.id = right.of u.id) :
    Follows left right (hasDanglingComments t) (hasDanglingComments u) :=
  follows_any h hof fun c e hsame => by rw [hsame.placement]

theorem follows_hasTrailingLineComment (h : SameComments a b left right)
    (hof : left.of t.id = right.of u.id) :
    Follows left right (hasTrailingLineComment t) (hasTrailingLineComment u) :=
  follows_any h hof fun c e hsame => by rw [hsame.placement, hsame.block]

theorem follows_isIgnored (hl : l.ReadsTexts) (h : SameComments a b left right)
    (hof : left.of t.id = right.of u.id) : Follows left right (isIgnored l t) (isIgnored l u) :=
  follows_any h hof fun c e hsame => by rw [hsame.placement, hl.ignore c e hsame.text]

theorem follows_hasComments (hof : left.of t.id = right.of u.id) :
    Follows left right (hasComments t) (hasComments u) := by
  refine follows_comments fun cs cs' hleft hright => ?_
  rw [Comments.of_eq_of_unmarked hleft, Comments.of_eq_of_unmarked hright, hof]
  exact follows_pure _

/-! ## Copies -/

/-- What comes next may rely on the text being that of the node. -/
theorem follows_source_bind {f g : String → Walk β}
    (hsource : sliceOrError a.text t.start t.stop = sliceOrError b.text u.start u.stop)
    (hfg : ∀ s, sliceOrError a.text t.start t.stop = .ok s → Follows left right (f s) (g s)) :
    Follows left right (source a t >>= f) (source b u >>= g) := by
  rw [source, source, ← hsource]
  refine (follows_lift _).bind_of fun s st st₁ _ hrun => hfg s ?_
  cases hs : sliceOrError a.text t.start t.stop with
  | error e =>
    rw [hs] at hrun
    cases hrun
  | ok s =>
    rw [hs] at hrun
    cases hrun
    rfl

/-- **What is copied** is the same, and has the same comments in it. -/
theorem follows_verbatim (h : SameComments a b left right)
    (hsource : sliceOrError a.text t.start t.stop = sliceOrError b.text u.start u.stop)
    (hinside : ∀ i c d, left.get? i = some c → right.get? i = some d →
      (t.Holds c.start c.stop ↔ u.Holds d.start d.stop)) :
    Follows left right (verbatim a t) (verbatim b u) := by
  refine follows_mark h (.slice t.start t.stop) (.slice u.start u.stop)
    (fun i c d hc hd => ?_) ?_
  · rw [Bool.eq_iff_iff]
    simpa [Emission.covers, Tree.Holds] using hinside i c d hc hd
  · exact follows_source_bind hsource fun s _ => follows_pure _

/-! ## Comments around a node and inside it -/

theorem follows_printComment (hl : l.ReadsTexts) (h : SameComments a b left right) (i : Nat)
    {c e : Comment} (hsame : SameComment a b c e) :
    Follows left right (printComment l i c) (printComment l i e) := by
  refine follows_mark h (.comment i) (.comment i) (fun _ _ _ _ _ => rfl) ?_
  rw [hl.print c e hsame.text hsame.block]
  exact follows_lift _

theorem follows_leadingComment (hl : l.ReadsTexts) (h : SameComments a b left right) (i : Nat)
    {c e : Comment} (hsame : SameComment a b c e) (hc : c.placement = some .leading) :
    Follows left right (leadingComment l a i c) (leadingComment l b i e) := by
  have hdoc : ∀ (scene : Scene) (c : Comment), leadingComment l scene i c =
      printComment l i c >>= fun contents => pure (.concat
        ([contents, if (linesAhead scene c).1 then .text " " else Doc.hardline] ++
          if (linesAhead scene c).2 then [Doc.hardline] else [])) := fun _ _ => rfl
  rw [hdoc, hdoc, hsame.ahead hc]
  exact (follows_printComment hl h i hsame).bind fun contents => follows_pure _

theorem follows_trailingComment (hl : l.ReadsTexts) (h : SameComments a b left right) (i : Nat)
    {c e : Comment} (hsame : SameComment a b c e) (hc : c.placement = some .trailing) :
    Follows left right (trailingComment l a i c) (trailingComment l b i e) := by
  have hdoc : ∀ (scene : Scene) (c : Comment), trailingComment l scene i c =
      printComment l i c >>= fun contents =>
        if (linesBehind scene c).1 then
          pure (.lineSuffix (.concat [Doc.hardline,
            if (linesBehind scene c).2 then Doc.hardline else Doc.nil, contents]))
        else if c.block then pure (.concat [.text " ", contents])
        else pure (.concat [.lineSuffix (.concat [.text " ", contents]), .breakParent]) := by
    intro scene c
    refine bind_congr fun contents => ?_
    by_cases hbehind : Scan.hasNewlineBackward scene.bytes c.start = true
    · simp only [linesBehind, hbehind, if_true, Bool.true_and]
    · simp only [linesBehind, hbehind, Bool.false_eq_true, if_false]
  rw [hdoc, hdoc, hsame.behind hc, hsame.block]
  refine (follows_printComment hl h i hsame).bind fun contents => ?_
  exact follows_ite (follows_pure _) (follows_ite (follows_pure _) (follows_pure _))

theorem follows_printAround (hl : l.ReadsTexts) (h : SameComments a b left right)
    (indices : List Nat) :
    Follows left right (printAround l a indices) (printAround l b indices) := by
  induction indices with
  | nil => exact follows_pure _
  | cons i rest ih =>
    rw [printAround, printAround]
    refine follows_comments fun cs cs' hleft hright => ?_
    have hsame := h.rel_get? hleft hright i
    generalize cs.get? i = c at hsame ⊢
    generalize cs'.get? i = e at hsame ⊢
    cases hsame with
    | none => exact ih
    | @some c e hsame =>
      dsimp only
      cases hc : c.placement with
      | none =>
        rw [← hsame.placement, hc]
        exact ih
      | some placement =>
        rw [← hsame.placement, hc]
        cases placement with
        | leading =>
          exact (follows_leadingComment hl h i hsame hc).bind fun _ => ih.bind fun _ =>
            follows_pure _
        | trailing =>
          exact (follows_trailingComment hl h i hsame hc).bind fun _ => ih.bind fun _ =>
            follows_pure _
        | dangling => exact ih

/-- **The comments around a node** are printed alike. -/
theorem follows_withComments (hl : l.ReadsTexts) (h : SameComments a b left right)
    (hof : left.of t.id = right.of u.id) (printed : Doc) :
    Follows left right (withComments l a t printed) (withComments l b u printed) := by
  refine follows_comments fun cs cs' hleft hright => ?_
  rw [Comments.of_eq_of_unmarked hleft, Comments.of_eq_of_unmarked hright, hof]
  exact follows_ite (follows_pure _)
    ((follows_printAround hl h _).bind fun around => follows_pure _)

/-- **The comments inside a node** are printed alike. -/
theorem follows_danglingComments (hl : l.ReadsTexts) (h : SameComments a b left right)
    (hof : left.of t.id = right.of u.id) (sameIndent : Bool) :
    Follows left right (danglingComments l.printComment t sameIndent)
      (danglingComments l.printComment u sameIndent) := by
  refine follows_comments fun cs cs' hleft hright => ?_
  have hall := h.rel_filterMap hleft hright
    (R := fun x y : Nat × Comment => x.1 = y.1 ∧ SameComment a b x.2 y.2)
    (f := fun i c => if c.placement == some .dangling then some (i, c) else none)
    (g := fun i c => if c.placement == some .dangling then some (i, c) else none)
    (fun i c e hsame => by
      rw [hsame.placement]
      split
      · exact .some ⟨rfl, hsame⟩
      · exact .none) (right.of u.id)
  dsimp only
  rw [Comments.of_eq_of_unmarked hleft, Comments.of_eq_of_unmarked hright, hof]
  generalize (right.of u.id).filterMap _ = own at hall ⊢
  generalize (right.of u.id).filterMap _ = own' at hall ⊢
  have hempty : own.isEmpty = own'.isEmpty := by
    cases hall <;> rfl
  rw [hempty]
  refine follows_ite (follows_pure _) ((follows_mapM (hall.imp ?_)).bind fun parts => follows_pure _)
  rintro ⟨i, c⟩ ⟨j, e⟩ ⟨hij, hsame⟩
  obtain rfl : i = j := hij
  have hsame : SameComment a b c e := hsame
  dsimp only
  rw [hl.print c e hsame.text hsame.block, hsame.block]
  exact follows_mark h (.comment i) (.comment i) (fun _ _ _ _ _ => rfl)
    ((follows_lift _).bind fun contents => follows_pure _)

end Nodes

end Walk

end CodeFormatter
