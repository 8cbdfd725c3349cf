import CodeFormatter.Proofs.Walk.Marks

/-!
# What a walk answers

`Gives` says of the answer of an action what holds whenever there is one. The comments of the walk are
those of `done`, up to marks: what a printer answers may depend on which comments a node has, but not
on which of them have been printed.
-/

namespace CodeFormatter.Walk

variable {α β γ : Type} {done : Comments} {scene : Scene}

/-- A run among the comments of `done` stays among them, and its answer is as `Q` says. -/
def Gives (done : Comments) (x : Walk β) (Q : β → Prop) : Prop :=
  ∀ st b st', st.comments.unmarked = done.unmarked → x st = .ok (b, st') →
    st'.comments.unmarked = done.unmarked ∧ Q b

section Rules

variable {x : Walk β} {f : β → Walk γ} {b : β} {Q Q' : β → Prop} {R : γ → Prop}

theorem Gives.mono (h : Gives done x Q) (hsub : ∀ b, Q b → Q' b) : Gives done x Q' :=
  fun st b st' hst hrun => ⟨(h st b st' hst hrun).1, hsub b (h st b st' hst hrun).2⟩

theorem gives_pure (h : Q b) : Gives done (pure b) Q := by
  rintro st b st' hst ⟨⟩
  exact ⟨hst, h⟩

theorem Gives.bind (hx : Gives done x Q) (hf : ∀ b, Q b → Gives done (f b) R) :
    Gives done (x >>= f) R := by
  intro st c st'' hst hrun
  obtain ⟨b, st', hb, hc⟩ := bind_eq_ok.mp hrun
  obtain ⟨hst', hQ⟩ := hx st b st' hst hb
  exact hf b hQ st' c st'' hst' hc

theorem Gives.map {g : β → γ} (hx : Gives done x fun b => R (g b)) : Gives done (g <$> x) R := by
  rw [← bind_pure_comp]
  exact hx.bind fun _ hb => gives_pure hb

/-- An action that may answer nothing. -/
theorem Gives.bind_option {x : Walk (Option β)} {f : Option β → Walk γ}
    (hx : Gives done x fun answer => ∀ b ∈ answer, Q b)
    (hsome : ∀ b, Q b → Gives done (f (some b)) R) (hnone : Gives done (f none) R) :
    Gives done (x >>= f) R := by
  refine hx.bind fun answer h => ?_
  cases answer with
  | none => exact hnone
  | some b => exact hsome b (h b rfl)

/-- What does not touch the comments may answer anything. -/
theorem Quiet.bind_gives (hx : Quiet x) (hf : ∀ b, Gives done (f b) R) :
    Gives done (x >>= f) R := by
  intro st c st'' hst hrun
  obtain ⟨b, st', hb, hc⟩ := bind_eq_ok.mp hrun
  rw [← hx st b st' hb] at hst
  exact hf b st' c st'' hst hc

theorem Reads.bind_gives (hx : Reads done x b) (hf : Gives done (f b) R) :
    Gives done (x >>= f) R := by
  intro st c st'' hst hrun
  obtain ⟨b', st', hb, hc⟩ := bind_eq_ok.mp hrun
  obtain ⟨hst', rfl⟩ := hx st b' st' hst hb
  rw [← hst'] at hst
  exact hf st' c st'' hst hc

theorem gives_lift {e : Except Error β} (h : ∀ b, e = .ok b → Q b) :
    Gives done (liftM e) Q := by
  intro st b st' hst hrun
  cases e with
  | error e => cases hrun
  | ok b =>
    cases hrun
    exact ⟨hst, h b rfl⟩

end Rules

/-! ## Nodes and comments -/

section Nodes

variable {language : Language α} {t : Tree α}

theorem gives_source (t : Tree α) :
    Gives done (source scene t) fun s => sliceOrError scene.text t.start t.stop = .ok s :=
  gives_lift fun _ h => h

/-- A copy of a node is its text. -/
theorem gives_verbatim (scene : Scene) (t : Tree α) :
    Gives done (verbatim scene t) fun d =>
      ∃ s, sliceOrError scene.text t.start t.stop = .ok s ∧ d = .text s := by
  intro st d st' hst hrun
  refine ⟨(marks_verbatim scene t st d st' hst hrun).1, ?_⟩
  obtain ⟨_, st₁, -, hrun⟩ := bind_eq_ok.mp hrun
  obtain ⟨s, st₂, hs, hrun⟩ := bind_eq_ok.mp hrun
  cases hrun
  refine ⟨s, ?_, rfl⟩
  cases hslice : sliceOrError scene.text t.start t.stop with
  | error e =>
    rw [source, hslice] at hs
    cases hs
  | ok s' =>
    rw [source, hslice] at hs
    cases hs
    rfl

/-- The document of a node stands among its comments. -/
theorem gives_withComments (language : Language α) (scene : Scene) (t : Tree α) (printed : Doc) :
    Gives done (withComments language scene t printed) fun d =>
      d = printed ∨ done.of t.id ≠ [] ∧
        ∃ before after, d = .concat (before ++ printed :: after) := by
  intro st d st' hst hrun
  refine ⟨(marks_withComments language scene t printed st d st' hst hrun).1, ?_⟩
  obtain ⟨cs, st₁, hcs, hrun⟩ := bind_eq_ok.mp hrun
  cases hcs
  dsimp only at hrun
  split at hrun
  · cases hrun
    exact .inl rfl
  · rename_i hne
    obtain ⟨⟨leading, trailing⟩, st₂, -, hrun⟩ := bind_eq_ok.mp hrun
    cases hrun
    refine .inr ⟨?_, leading, trailing, rfl⟩
    rw [← Comments.of_eq_of_unmarked hst]
    simpa using hne

theorem gives_danglingComments (language : Language α) (t : Tree α)
    (sameIndent : Bool) :
    Gives done (danglingComments language.printComment t sameIndent) fun _ => True :=
  fun st d st' hst hrun =>
    ⟨(marks_danglingComments language t sameIndent st d st' hst hrun).1, trivial⟩

/-- Without comments nothing is printed for them. -/
theorem gives_danglingComments_nil (printComment : Comment → Except Error Doc) (t : Tree α)
    (sameIndent : Bool) (hnone : done.of t.id = []) :
    Gives done (danglingComments printComment t sameIndent) fun d => d = Doc.nil := by
  intro st d st' hst hrun
  obtain ⟨cs, st₁, hcs, hrun⟩ := bind_eq_ok.mp hrun
  cases hcs
  rw [← Comments.of_eq_of_unmarked hst] at hnone
  dsimp only at hrun
  rw [hnone] at hrun
  cases hrun
  exact ⟨hst, rfl⟩

theorem gives_mapM {P : Tree α → Doc → Prop} {ps : List (Printable α)}
    (hps : ∀ p ∈ ps, Gives done p.print (P p.node)) :
    Gives done (ps.mapM (·.print)) fun ds => List.Forall₂ (fun p d => P p.node d) ps ds := by
  induction ps with
  | nil =>
    rw [List.mapM_nil]
    exact gives_pure .nil
  | cons p rest ih =>
    rw [List.mapM_cons]
    refine (hps p List.mem_cons_self).bind fun d hd => ?_
    refine (ih fun q hq => hps q (List.mem_cons_of_mem p hq)).bind fun ds hds => ?_
    exact gives_pure (.cons hd hds)

end Nodes

end CodeFormatter.Walk
