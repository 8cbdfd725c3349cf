import CodeFormatter.Walk
import CodeFormatter.Proofs.Comment.Emission
import Mathlib.Data.List.Basic

/-!
# What a walk writes

`Writes` says which emissions a run adds to the log, in order: those of its calls `printComment` and `verbatim`. An
action that never touches the comments, in whatever state it starts, writes nothing.

**Marks.** The emissions of a run determine its marks, and nothing else changes in the store: what belongs to which
node stays as it is (`Writes.unmarked_eq`), and what an emission covers is marked (`Writes.printed`).
-/

namespace CodeFormatter

variable {α β γ : Type}

namespace Walk

/-! ## Runs -/

theorem bind_eq_ok {x : Walk β} {f : β → Walk γ} {st st'' : WalkState} {c : γ} :
    (x >>= f) st = .ok (c, st'') ↔ ∃ b st', x st = .ok (b, st') ∧ f b st' = .ok (c, st'') := by
  show (x st >>= fun r => f r.1 r.2) = _ ↔ _
  cases x st with
  | error e => simp [bind, Except.bind]
  | ok r =>
    obtain ⟨b, st'⟩ := r
    simp [bind, Except.bind]

theorem map_eq_ok {x : Walk β} {g : β → γ} {st st' : WalkState} {c : γ} :
    (g <$> x) st = .ok (c, st') ↔ ∃ b, x st = .ok (b, st') ∧ g b = c := by
  rw [← bind_pure_comp, bind_eq_ok]
  constructor
  · rintro ⟨b, st₁, hb, h⟩
    cases h
    exact ⟨b, hb, rfl⟩
  · rintro ⟨b, hb, rfl⟩
    exact ⟨b, st', hb, rfl⟩

theorem get_bind (f : WalkState → Walk γ) (st : WalkState) : (get >>= f) st = f st st := rfl

/-- The action never touches the comments. -/
def Quiet (x : Walk β) : Prop := ∀ st b st', x st = .ok (b, st') → st'.comments = st.comments

theorem quiet_pure (b : β) : Quiet (pure b : Walk β) := by
  rintro st b st' ⟨⟩
  rfl

theorem quiet_comments : Quiet comments := by
  rintro st b st' ⟨⟩
  rfl

theorem quiet_lift (e : Except Error β) : Quiet (liftM e : Walk β) := by
  intro st b st' h
  cases e with
  | error e => cases h
  | ok b => cases h; rfl

theorem Quiet.bind {x : Walk β} {f : β → Walk γ} (hx : Quiet x) (hf : ∀ b, Quiet (f b)) :
    Quiet (x >>= f) := by
  intro st c st'' h
  obtain ⟨b, st', hb, hc⟩ := bind_eq_ok.mp h
  rw [hf b _ _ _ hc, hx _ _ _ hb]

theorem comments_verbatim {scene : Scene} {t : Tree α} {st st' : WalkState} {d : Doc}
    (h : verbatim scene t st = .ok (d, st')) :
    st'.comments = st.comments.markPrintedWithin t.start t.stop := by
  obtain ⟨⟨⟩, st₁, hmodify, h⟩ := bind_eq_ok.mp h
  cases hmodify
  exact Quiet.bind (quiet_lift _) (fun _ => quiet_pure _) _ _ _ h

theorem comments_printComment {language : Language α} {i : Nat} {c : Comment}
    {st st' : WalkState} {d : Doc} (h : printComment language i c st = .ok (d, st')) :
    st'.comments = st.comments.markPrinted i := by
  obtain ⟨⟨⟩, st₁, hmodify, h⟩ := bind_eq_ok.mp h
  cases hmodify
  exact quiet_lift _ _ _ _ h

/-- A run of an action, with its emissions in order: they are what it adds to the log, and all that it does to the
comments. -/
def Writes (x : Walk β) (st : WalkState) (es : List Emission) (b : β) (st' : WalkState) : Prop :=
  x st = .ok (b, st') ∧ st'.comments = st.comments.emit es

namespace Writes

variable {x : Walk β} {st st' : WalkState} {b : β} {es : List Emission}

theorem quiet (hx : Quiet x) (h : x st = .ok (b, st')) : Writes x st [] b st' :=
  ⟨h, hx _ _ _ h⟩

theorem comment {language : Language α} {i : Nat} {c : Comment} {d : Doc}
    (h : printComment language i c st = .ok (d, st')) :
    Writes (printComment language i c) st [.comment i] d st' :=
  ⟨h, comments_printComment h⟩

theorem slice {scene : Scene} {t : Tree α} {d : Doc} (h : verbatim scene t st = .ok (d, st')) :
    Writes (verbatim scene t) st [.slice t.start t.stop] d st' :=
  ⟨h, comments_verbatim h⟩

theorem bind {f : β → Walk γ} {c : γ} {st'' : WalkState} {es' : List Emission}
    (hx : Writes x st es b st') (hf : Writes (f b) st' es' c st'') :
    Writes (x >>= f) st (es ++ es') c st'' := by
  refine ⟨bind_eq_ok.mpr ⟨b, st', hx.1, hf.1⟩, ?_⟩
  rw [hf.2, hx.2, Comments.emit_append]

/-- What is done quietly before or after adds nothing. -/
theorem quiet_bind {f : γ → Walk β} {y : Walk γ} {c : γ} {st₁ : WalkState} (hy : Quiet y)
    (hrun : y st = .ok (c, st₁)) (h : Writes (f c) st₁ es b st') : Writes (y >>= f) st es b st' :=
  bind (quiet hy hrun) h

theorem bind_quiet {f : β → Walk γ} {c : γ} {st'' : WalkState} (h : Writes x st es b st')
    (hf : Quiet (f b)) (hrun : f b st' = .ok (c, st'')) : Writes (x >>= f) st es c st'' := by
  have hbind := h.bind (quiet hf hrun)
  rwa [List.append_nil] at hbind

theorem emitted_eq (h : Writes x st es b st') :
    st'.comments.emitted = st.comments.emitted ++ es := by
  rw [h.2, Comments.emitted_emit]

theorem unmarked_eq (h : Writes x st es b st') : st'.comments.unmarked = st.comments.unmarked := by
  rw [h.2, Comments.unmarked_emit]

/-- What was marked, or is covered by an emission, is marked at the end. -/
theorem printed (h : Writes x st es b st') {i : Nat} {c : Comment}
    (hc : st.comments.get? i = some c)
    (hprinted : c.printed = true ∨ ∃ e ∈ es, e.covers i c = true) :
    ∃ c', st'.comments.get? i = some c' ∧ c'.printed = true := by
  rw [h.2, Comments.get?_emit, hc]
  refine ⟨_, rfl, ?_⟩
  rwa [Bool.or_eq_true, List.any_eq_true]

end Writes

/-! ## The comments of a node -/

section Comments

variable {language : Language α} {scene : Scene} {st st' : WalkState} {done : Comments} {t : Tree α}

/-- Is the comment printed next to its node, by the formatter? -/
def isBeside (cs : Comments) (i : Nat) : Bool :=
  cs.placement? i == some .leading || cs.placement? i == some .trailing

/-- Is the comment printed inside its node, by the printer of the node? -/
def isInside (cs : Comments) (i : Nat) : Bool := cs.placement? i == some .dangling

theorem writes_leadingComment {i : Nat} {c : Comment} {d : Doc}
    (h : leadingComment language scene i c st = .ok (d, st')) :
    Writes (leadingComment language scene i c) st [.comment i] d st' := by
  obtain ⟨contents, st₁, hprint, h⟩ := bind_eq_ok.mp h
  exact .bind (.comment hprint) (.quiet (quiet_pure _) h)

theorem writes_trailingComment {i : Nat} {c : Comment} {d : Doc}
    (h : trailingComment language scene i c st = .ok (d, st')) :
    Writes (trailingComment language scene i c) st [.comment i] d st' := by
  obtain ⟨contents, st₁, hprint, h⟩ := bind_eq_ok.mp h
  refine .bind (.comment hprint) (.quiet ?_ h)
  split
  · exact quiet_pure _
  · split <;> exact quiet_pure _

theorem writes_printAround {indices : List Nat} {r : List Doc × List Doc}
    (h : printAround language scene indices st = .ok (r, st'))
    (hst : st.comments.unmarked = done.unmarked) :
    Writes (printAround language scene indices) st
      ((indices.filter (isBeside done)).map .comment) r st' := by
  induction indices generalizing st st' r with
  | nil => exact .quiet (quiet_pure _) h
  | cons i rest ih =>
    rw [printAround] at h ⊢
    obtain ⟨cs, st₁, hcs, h⟩ := bind_eq_ok.mp h
    cases hcs
    refine .quiet_bind quiet_comments rfl ?_
    have hplacement := Comments.placement?_eq_of_unmarked hst i
    rw [Comments.placement?] at hplacement
    cases hc : st.comments.get? i with
    | none =>
      rw [hc] at hplacement h
      rw [List.filter_cons_of_neg (by simp [isBeside, ← hplacement])]
      exact ih h hst
    | some c =>
      rw [hc, Option.bind_some] at hplacement
      simp only [hc] at h ⊢
      cases hp : c.placement with
      | none =>
        rw [hp] at hplacement
        simp only [hp] at h ⊢
        rw [List.filter_cons_of_neg (by simp [isBeside, ← hplacement])]
        exact ih h hst
      | some placement =>
        rw [hp] at hplacement
        cases placement <;> simp only [hp] at h ⊢
        case leading =>
          obtain ⟨d, st₁, hd, h⟩ := bind_eq_ok.mp h
          obtain ⟨r, st₂, hrest, h⟩ := bind_eq_ok.mp h
          have hd := writes_leadingComment hd
          rw [List.filter_cons_of_pos (by simp [isBeside, ← hplacement])]
          exact .bind hd (.bind_quiet (ih hrest (hd.unmarked_eq.trans hst)) (quiet_pure _) h)
        case trailing =>
          obtain ⟨d, st₁, hd, h⟩ := bind_eq_ok.mp h
          obtain ⟨r, st₂, hrest, h⟩ := bind_eq_ok.mp h
          have hd := writes_trailingComment hd
          rw [List.filter_cons_of_pos (by simp [isBeside, ← hplacement])]
          exact .bind hd (.bind_quiet (ih hrest (hd.unmarked_eq.trans hst)) (quiet_pure _) h)
        case dangling =>
          rw [List.filter_cons_of_neg (by simp [isBeside, ← hplacement])]
          exact ih h hst

/-- The comments next to a node, in the order of the source. -/
theorem writes_withComments {printed d : Doc}
    (h : withComments language scene t printed st = .ok (d, st'))
    (hst : st.comments.unmarked = done.unmarked) :
    Writes (withComments language scene t printed) st
      (((done.of t.id).filter (isBeside done)).map .comment) d st' := by
  rw [withComments] at h ⊢
  obtain ⟨cs, st₁, hcs, h⟩ := bind_eq_ok.mp h
  cases hcs
  refine .quiet_bind quiet_comments rfl ?_
  rw [← Comments.of_eq_of_unmarked hst]
  split at h
  · rename_i hempty
    rw [List.isEmpty_iff] at hempty
    simp only [hempty] at h ⊢
    exact .quiet (quiet_pure _) h
  · rename_i hempty
    rw [if_neg hempty]
    obtain ⟨r, st₁, haround, h⟩ := bind_eq_ok.mp h
    exact .bind_quiet (writes_printAround haround hst) (quiet_pure _) h

theorem map_fst_filterMap_dangling (cs : Comments) (l : List Nat) :
    (l.filterMap fun i => (cs.get? i).bind fun c =>
      if c.placement == some .dangling then some (i, c) else none).map Prod.fst =
      l.filter (isInside cs) := by
  induction l with
  | nil => rfl
  | cons i rest ih =>
    rw [List.filterMap_cons, List.filter_cons, isInside, Comments.placement?]
    cases cs.get? i with
    | none => simpa using ih
    | some c =>
      rw [Option.bind_some, Option.bind_some]
      by_cases hc : (c.placement == some .dangling) = true
      · rw [if_pos hc, if_pos hc, List.map_cons, ih]
      · rw [if_neg hc, if_neg hc, ih]

theorem writes_mapM {f : γ → Walk β} {g : γ → Emission}
    (hf : ∀ a st b st', f a st = .ok (b, st') → Writes (f a) st [g a] b st')
    {l : List γ} {bs : List β} (h : l.mapM f st = .ok (bs, st')) :
    Writes (l.mapM f) st (l.map g) bs st' := by
  induction l generalizing st st' bs with
  | nil =>
    rw [List.mapM_nil] at h ⊢
    exact .quiet (quiet_pure _) h
  | cons a rest ih =>
    rw [List.mapM_cons] at h ⊢
    obtain ⟨b, st₁, hb, h⟩ := bind_eq_ok.mp h
    obtain ⟨bs, st₂, hbs, h⟩ := bind_eq_ok.mp h
    exact .bind (hf a _ _ _ hb) (.bind_quiet (ih hbs) (quiet_pure _) h)

/-- The comments inside a node, in the order of the source. -/
theorem writes_danglingComments {sameIndent : Bool} {d : Doc}
    (h : danglingComments language.printComment t sameIndent st = .ok (d, st'))
    (hst : st.comments.unmarked = done.unmarked) :
    Writes (danglingComments language.printComment t sameIndent) st
      (((done.of t.id).filter (isInside done)).map .comment) d st' := by
  have hown : (done.of t.id).filter (isInside done) =
      (st.comments.of t.id).filter (isInside st.comments) := by
    rw [Comments.of_eq_of_unmarked hst]
    refine List.filter_congr fun i _ => ?_
    rw [isInside, isInside, Comments.placement?_eq_of_unmarked hst]
  rw [hown, ← map_fst_filterMap_dangling, List.map_map]
  rw [danglingComments] at h ⊢
  obtain ⟨cs, st₁, hcs, h⟩ := bind_eq_ok.mp h
  cases hcs
  refine .quiet_bind quiet_comments rfl ?_
  simp only at h ⊢
  generalize List.filterMap _ (st.comments.of t.id) = own at h ⊢
  split at h
  case isTrue hempty =>
    rw [List.isEmpty_iff] at hempty
    subst hempty
    exact .quiet (quiet_pure _) h
  case isFalse hempty =>
    rw [if_neg hempty]
    obtain ⟨parts, st₁, hparts, h⟩ := bind_eq_ok.mp h
    refine .bind_quiet (writes_mapM ?_ hparts) (quiet_pure _) h
    rintro ⟨i, c⟩ st b st' h
    rw [← bind_assoc] at h ⊢
    obtain ⟨contents, st₁, hprint, h⟩ := bind_eq_ok.mp h
    exact .bind_quiet (.comment hprint) (quiet_pure _) h

end Comments

/-! ## Runs that end -/

/-- The action has a result, in whatever state it starts. -/
def Total (x : Walk β) : Prop := ∀ st, ∃ b st', x st = .ok (b, st')

theorem total_pure (b : β) : Total (pure b : Walk β) := fun st => ⟨b, st, rfl⟩

theorem Total.bind {x : Walk β} {f : β → Walk γ} (hx : Total x) (hf : ∀ b, Total (f b)) :
    Total (x >>= f) := by
  intro st
  obtain ⟨b, st', hb⟩ := hx st
  obtain ⟨c, st'', hc⟩ := hf b st'
  exact ⟨c, st'', bind_eq_ok.mpr ⟨b, st', hb, hc⟩⟩

theorem total_comments : Total comments := fun st => ⟨st.comments, st, rfl⟩

theorem total_mapM {f : γ → Walk β} {l : List γ} (hf : ∀ a ∈ l, Total (f a)) :
    Total (l.mapM f) := by
  induction l with
  | nil =>
    rw [List.mapM_nil]
    exact total_pure _
  | cons a rest ih =>
    rw [List.mapM_cons]
    exact (hf a List.mem_cons_self).bind fun _ =>
      (ih fun b hb => hf b (List.mem_cons_of_mem _ hb)).bind fun _ => total_pure _

theorem total_danglingComments {printComment : Comment → Except Error Doc}
    (h : ∀ c, ∃ d, printComment c = .ok d) (t : Tree α) (sameIndent : Bool) :
    Total (danglingComments printComment t sameIndent) := by
  refine total_comments.bind fun cs => ?_
  dsimp only
  split
  · exact total_pure _
  · refine (total_mapM fun ⟨i, c⟩ _ => ?_).bind fun _ => total_pure _
    obtain ⟨d, hd⟩ := h c
    intro st
    dsimp only
    rw [hd]
    exact ⟨_, _, rfl⟩

end Walk

end CodeFormatter
