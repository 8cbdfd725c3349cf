import CodeFormatter.Proofs.Walk.Emission

/-!
# Walks without comments

Where a text has no comments, an action can only fail because of the text itself: it asks for a slice
that is none, or for a place inside a character. `Succeeds` says that an action has a result, if there
are no comments when it starts, and that there are none afterwards. Copies of the source may be logged.
-/

namespace CodeFormatter.Walk

variable {α β γ : Type} {scene : Scene} {t : Tree α}

/-- A state without comments. -/
def bareState (log : List Emission) (group : GroupId) : WalkState :=
  ⟨{ Comments.ofList [] with emitted := log }, group⟩

/-- The action has a result where there are no comments, and there are none afterwards. -/
def Succeeds (x : Walk β) : Prop :=
  ∀ log group, ∃ b log' last, x (bareState log group) = .ok (b, bareState log' last)

section Rules

variable {x : Walk β} {f : β → Walk γ} {b : β}

theorem succeeds_pure (b : β) : Succeeds (pure b : Walk β) := fun log group => ⟨b, log, group, rfl⟩

theorem Succeeds.bind (hx : Succeeds x) (hf : ∀ b, Succeeds (f b)) : Succeeds (x >>= f) := by
  intro log group
  obtain ⟨b, log', group', hb⟩ := hx log group
  obtain ⟨c, log'', last, hc⟩ := hf b log' group'
  exact ⟨c, log'', last, bind_eq_ok.mpr ⟨b, _, hb, hc⟩⟩

theorem Succeeds.map {g : β → γ} (hx : Succeeds x) : Succeeds (g <$> x) := by
  rw [← bind_pure_comp]
  exact hx.bind fun _ => succeeds_pure _

/-- An action that only makes a document of the answer of another one. -/
theorem Succeeds.bind_pure {g : β → γ} (hx : Succeeds x) :
    Succeeds (x >>= fun b => pure (g b)) := hx.bind fun _ => succeeds_pure _

theorem succeeds_comments : Succeeds comments := fun log group => ⟨_, log, group, rfl⟩

/-- No comment dangles in a node. -/
theorem Succeeds.bind_hasDanglingComments {f : Bool → Walk γ} (hf : Succeeds (f false)) :
    Succeeds (hasDanglingComments t >>= f) := fun log group => hf log group

theorem succeeds_lift {e : Except Error β} (h : e = .ok b) : Succeeds (liftM e) := by
  subst h
  exact succeeds_pure b

theorem succeeds_mapM {f : γ → Walk β} {l : List γ} (hf : ∀ a ∈ l, Succeeds (f a)) :
    Succeeds (l.mapM f) := by
  induction l with
  | nil =>
    rw [List.mapM_nil]
    exact succeeds_pure _
  | cons a rest ih =>
    rw [List.mapM_cons]
    exact (hf a List.mem_cons_self).bind fun _ =>
      (ih fun b hb => hf b (List.mem_cons_of_mem a hb)).bind fun _ => succeeds_pure _

end Rules

/-! ## Nodes -/

theorem succeeds_source {s : String} (h : sliceOrError scene.text t.start t.stop = .ok s) :
    Succeeds (source scene t) := succeeds_lift h

theorem succeeds_verbatim {s : String} (h : sliceOrError scene.text t.start t.stop = .ok s) :
    Succeeds (verbatim scene t) :=
  Succeeds.bind (fun _ group => ⟨_, _, group, rfl⟩) fun _ => (succeeds_source h).bind_pure

theorem succeeds_withComments (language : Language α) (scene : Scene) (t : Tree α) (printed : Doc) :
    Succeeds (withComments language scene t printed) := fun log group =>
  ⟨printed, log, group, rfl⟩

end CodeFormatter.Walk
