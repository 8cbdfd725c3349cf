import CodeFormatter.Proofs.Comment.Surroundings
import CodeFormatter.Proofs.Walk.Emission

/-!
# What a walk leaves marked

A walk only ever adds marks to comments. `Marks` says which comments are marked after a run of an
action, at least: a set that may depend on the answer. The sets add up along a run, so that what a
printer marks can be read off its calls, one lemma per call.

**Answers.** The questions that printers ask about comments do not look at marks, so that the answer
is the same at any time of the walk (`Reads`).

**Visits.** Most printers print some of the nodes below them, one after the other. What these mark
together is the set `Visits`.
-/

namespace CodeFormatter.Walk

variable {α β γ : Type} {done : Comments} {scene : Scene} {t : Tree α}

/-! ## Marks -/

/-- Is the comment marked? -/
def IsPrinted (cs : Comments) (i : Nat) : Prop := ∃ c, cs.get? i = some c ∧ c.printed = true

/-- A run among the comments of `done` keeps all marks, and leaves marked what `S` has for its
answer. -/
def Marks (done : Comments) (x : Walk β) (S : β → Nat → Prop) : Prop :=
  ∀ st b st', st.comments.unmarked = done.unmarked → x st = .ok (b, st') →
    st'.comments.unmarked = done.unmarked ∧
      ∀ i, IsPrinted st.comments i ∨ S b i → IsPrinted st'.comments i

/-- A run among the comments of `done` leaves them as they are, and has the answer `b`. -/
def Reads (done : Comments) (x : Walk β) (b : β) : Prop :=
  ∀ st b' st', st.comments.unmarked = done.unmarked → x st = .ok (b', st') →
    st'.comments = st.comments ∧ b' = b

section Rules

variable {x : Walk β} {f : β → Walk γ} {b : β} {S S' : β → Nat → Prop} {T : β → γ → Nat → Prop}
  {U : γ → Nat → Prop} {A B : Nat → Prop}

theorem Marks.mono (h : Marks done x S) (hsub : ∀ b i, S' b i → S b i) : Marks done x S' := by
  intro st b st' hst hrun
  obtain ⟨hunmarked, hmarks⟩ := h st b st' hst hrun
  exact ⟨hunmarked, fun i hi => hmarks i (hi.imp_right (hsub b i))⟩

/-- What does not touch the comments marks nothing. -/
theorem Quiet.marks (hx : Quiet x) (hS : ∀ b i, ¬ S b i) : Marks done x S := by
  intro st b st' hst hrun
  rw [hx st b st' hrun]
  exact ⟨hst, fun i hi => hi.resolve_right (hS b i)⟩

/-- An action without an answer promises nothing. -/
theorem marks_none : Marks done (pure none : Walk (Option β)) fun answer i =>
    answer.isSome = true ∧ A i := by
  rintro st b st' hst ⟨⟩
  exact ⟨hst, fun i hi => hi.resolve_right fun h => by simpa using h.1⟩

theorem Marks.bind (hx : Marks done x S) (hf : ∀ b, Marks done (f b) (T b))
    (hU : ∀ b c i, U c i → S b i ∨ T b c i) : Marks done (x >>= f) U := by
  intro st c st'' hst hrun
  obtain ⟨b, st', hb, hc⟩ := bind_eq_ok.mp hrun
  obtain ⟨hst', hfirst⟩ := hx st b st' hst hb
  obtain ⟨hst'', hsecond⟩ := hf b st' c st'' hst' hc
  refine ⟨hst'', fun i hi => hsecond i ?_⟩
  rcases hi with hi | hi
  · exact .inl (hfirst i (.inl hi))
  · exact (hU b c i hi).imp_left fun hS => hfirst i (.inr hS)

/-- What an action promises for an answer, another one can do in its place. -/
theorem Marks.bind_option {x : Walk (Option β)} {f : Option β → Walk γ}
    (hx : Marks done x fun answer i => answer.isSome = true ∧ A i)
    (hsome : ∀ b, Quiet (f (some b))) (hnone : Marks done (f none) fun _ => A) :
    Marks done (x >>= f) fun _ => A := by
  refine hx.bind (T := fun answer _ i => answer = none ∧ A i) (fun answer => ?_)
    fun answer _ i hi => ?_
  · cases answer with
    | none => exact hnone.mono fun _ _ => And.right
    | some b => exact (hsome b).marks fun _ _ h => by simpa using h.1
  · cases answer with
    | none => exact .inr ⟨rfl, hi⟩
    | some b => exact .inl ⟨rfl, hi⟩

theorem Marks.seq (hx : Marks done x fun _ => A) (hf : ∀ b, Marks done (f b) fun _ => B) :
    Marks done (x >>= f) fun _ i => A i ∨ B i :=
  hx.bind hf fun _ _ _ => id

theorem Marks.bind_quiet (hx : Marks done x fun _ => A) (hf : ∀ b, Quiet (f b)) :
    Marks done (x >>= f) fun _ => A :=
  hx.bind (fun b => (hf b).marks fun _ _ => id) fun _ _ _ => .inl

theorem Marks.map (hx : Marks done x fun _ => A) (g : β → γ) : Marks done (g <$> x) fun _ => A := by
  rw [← bind_pure_comp]
  exact hx.bind_quiet fun _ => quiet_pure _

theorem Quiet.bind_marks (hx : Quiet x) (hf : ∀ b, Marks done (f b) U) :
    Marks done (x >>= f) U :=
  (hx.marks fun _ _ => id).bind hf fun _ _ _ => .inr

theorem Reads.bind_marks (hx : Reads done x b) (hf : Marks done (f b) U) :
    Marks done (x >>= f) U := by
  intro st c st'' hst hrun
  obtain ⟨b', st', hb, hc⟩ := bind_eq_ok.mp hrun
  obtain ⟨hst', rfl⟩ := hx st b' st' hst hb
  rw [← hst'] at hst ⊢
  exact hf st' c st'' hst hc

/-- What can fail goes on with its answer. -/
theorem marks_lift_bind {e : Except Error β} (hf : ∀ b, e = .ok b → Marks done (f b) U) :
    Marks done ((liftM e : Walk β) >>= f) U := by
  intro st c st'' hst hrun
  obtain ⟨b, st', hb, hc⟩ := bind_eq_ok.mp hrun
  cases e with
  | error e => cases hb
  | ok b =>
    cases hb
    exact hf b rfl st c st'' hst hc

/-- A question about the comments that does not look at marks. -/
theorem reads_comments {g : Comments → β}
    (hg : ∀ cs cs' : Comments, cs.unmarked = cs'.unmarked → g cs = g cs') :
    Reads done (do return g (← comments)) (g done) := by
  intro st b st' hst hrun
  obtain ⟨cs, st₁, hcs, hrun⟩ := bind_eq_ok.mp hrun
  cases hcs
  cases hrun
  exact ⟨rfl, hg _ _ hst⟩

end Rules

/-! ## Comments -/

section Comments

variable {language : Language α}

variable {x : Walk β} {st st' : WalkState} {es : List Emission} {b : β} {i : Nat}

/-- What a run writes is marked after it. -/
theorem Writes.isPrinted (h : Writes x st es b st')
    (hst : st.comments.unmarked = done.unmarked) (hi : IsPrinted st.comments i ∨
      ∃ c, done.get? i = some c ∧ ∃ e ∈ es, e.covers i c = true) : IsPrinted st'.comments i := by
  rcases hi with ⟨c, hc, hprinted⟩ | ⟨c, hc, e, he, hcovers⟩
  · exact h.printed hc (.inl hprinted)
  · obtain ⟨c', hc', hstart, hstop⟩ :=
      Comments.get?_of_bare_eq (Comments.bare_eq_of_unmarked hst) hc
    exact h.printed hc' (.inr ⟨e, he, (Emission.covers_congr hstart hstop e).trans hcovers⟩)

/-- A copy of the source marks the comments in it. -/
theorem marks_verbatim (scene : Scene) (t : Tree α) :
    Marks done (verbatim scene t) fun _ i =>
      ∃ c, done.get? i = some c ∧ t.Holds c.start c.stop := by
  intro st d st' hst hrun
  have hwrites : Writes (verbatim scene t) st [.slice t.start t.stop] d st' :=
    .slice hrun
  refine ⟨hwrites.unmarked_eq.trans hst, fun i hi => hwrites.isPrinted hst (hi.imp_right ?_)⟩
  rintro ⟨c, hc, hstart, hstop⟩
  exact ⟨c, hc, _, List.mem_singleton_self _, by simp [Emission.covers, hstart, hstop]⟩

/-- The calls for some of the comments of a node mark these. -/
theorem Writes.isPrinted_comments {l : List Nat} {p : Nat → Bool}
    (h : Writes x st ((l.filter p).map .comment) b st')
    (hst : st.comments.unmarked = done.unmarked)
    (hp : ∀ i, p i = true → (done.placement? i).isSome = true)
    (hi : IsPrinted st.comments i ∨ i ∈ l ∧ p i = true) : IsPrinted st'.comments i := by
  refine h.isPrinted hst (hi.imp_right ?_)
  rintro ⟨hmem, hpi⟩
  obtain ⟨placement, hplacement⟩ := Option.isSome_iff_exists.mp (hp i hpi)
  obtain ⟨c, hc, -⟩ := Option.bind_eq_some_iff.mp hplacement
  exact ⟨c, hc, _, List.mem_map_of_mem (List.mem_filter.mpr ⟨hmem, hpi⟩), by
    simp [Emission.covers]⟩

theorem marks_withComments (language : Language α) (scene : Scene) (t : Tree α) (printed : Doc) :
    Marks done (withComments language scene t printed) fun _ i =>
      i ∈ done.of t.id ∧ isBeside done i = true := by
  intro st d st' hst hrun
  have hwrites := writes_withComments hrun hst
  refine ⟨hwrites.unmarked_eq.trans hst, fun i hi =>
    hwrites.isPrinted_comments hst (fun i hi => ?_) hi⟩
  rw [isBeside, Bool.or_eq_true, beq_iff_eq, beq_iff_eq] at hi
  rcases hi with hi | hi <;> rw [hi] <;> rfl

theorem marks_danglingComments (language : Language α) (t : Tree α) (sameIndent : Bool) :
    Marks done (danglingComments language.printComment t sameIndent) fun _ i =>
      i ∈ done.of t.id ∧ isInside done i = true := by
  intro st d st' hst hrun
  have hwrites : Writes _ st _ d st' := writes_danglingComments hrun hst
  refine ⟨hwrites.unmarked_eq.trans hst, fun i hi =>
    hwrites.isPrinted_comments hst (fun i hi => ?_) hi⟩
  rw [isInside, beq_iff_eq] at hi
  rw [hi]
  rfl

theorem reads_hasDanglingComments (t : Tree α) :
    Reads done (hasDanglingComments t) (done.hasPlacement t.id .dangling) := by
  refine reads_comments fun cs cs' h => Bool.eq_iff_iff.mpr ?_
  rw [Comments.hasPlacement_iff, Comments.hasPlacement_iff, Comments.of_eq_of_unmarked h]
  simp only [Comments.placement?_eq_of_unmarked h]

theorem reads_hasComments (t : Tree α) :
    Reads done (hasComments t) (!(done.of t.id).isEmpty) :=
  reads_comments fun cs cs' h => by rw [Comments.of_eq_of_unmarked h]

end Comments

/-! ## Visits -/

section Visits

variable {M : Tree α → Nat → Prop} {p : Printable α} {ps : List (Printable α)}

/-- What the nodes mark when each of them is printed. -/
def Visits (M : Tree α → Nat → Prop) (ps : List (Printable α)) (i : Nat) : Prop :=
  ∃ p ∈ ps, M p.node i

theorem Visits.of_subset {qs : List (Printable α)} {i : Nat} (h : Visits M ps i) (hsub : ps ⊆ qs) :
    Visits M qs i :=
  h.imp fun _ hp => hp.imp_left (hsub ·)

theorem Quiet.visits_nil {x : Walk β} (hx : Quiet x) : Marks done x fun _ => Visits M [] :=
  hx.marks fun _ _ h => by simp [Visits] at h

theorem visits_append {qs : List (Printable α)} {i : Nat} :
    Visits M (ps ++ qs) i ↔ Visits M ps i ∨ Visits M qs i := by
  simp only [Visits, List.mem_append, or_and_right, exists_or]

theorem Marks.visits_append {qs : List (Printable α)} {x : Walk β} {f : β → Walk γ}
    (hx : Marks done x fun _ => Visits M ps) (hf : ∀ b, Marks done (f b) fun _ => Visits M qs) :
    Marks done (x >>= f) fun _ => Visits M (ps ++ qs) :=
  (hx.seq hf).mono fun _ _ => Walk.visits_append.mp

theorem Marks.visits_self (hp : Marks done p.print fun _ => M p.node) :
    Marks done p.print fun _ => Visits M [p] :=
  hp.mono fun _ _ h => by simpa [Visits] using h

theorem Marks.visits_cons {f : Doc → Walk β} (hp : Marks done p.print fun _ => M p.node)
    (hf : ∀ d, Marks done (f d) fun _ => Visits M ps) :
    Marks done (p.print >>= f) fun _ => Visits M (p :: ps) :=
  hp.visits_self.visits_append hf

theorem visits_mapM (hps : ∀ p ∈ ps, Marks done p.print fun _ => M p.node) :
    Marks done (ps.mapM (·.print)) fun _ => Visits M ps := by
  induction ps with
  | nil =>
    rw [List.mapM_nil]
    exact (quiet_pure _).visits_nil
  | cons p rest ih =>
    rw [List.mapM_cons]
    exact (hps p List.mem_cons_self).visits_cons fun _ =>
      (ih fun q hq => hps q (List.mem_cons_of_mem p hq)).bind_quiet fun _ => quiet_pure _

end Visits

end CodeFormatter.Walk
