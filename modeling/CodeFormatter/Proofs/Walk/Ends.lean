import CodeFormatter.Proofs.Doc.Basic
import CodeFormatter.Proofs.Walk.Gives

/-!
# How a walk ends

A walk ends with an answer or with an error. `Gives` says what holds of the answer and leaves errors
open. `Ends` says something of both: the answer is as `Q` says, and the error as `E` says. The errors
of a printer are those of the actions it calls, so that each rule here passes `E` on as it is.
-/

namespace CodeFormatter

/-- An answer is as `Q` says, an error as `E` says. -/
def Yields {β : Type} (E : Error → Prop) (Q : β → Prop) : Except Error β → Prop
  | .ok b => Q b
  | .error e => E e

section Results

variable {β γ : Type} {E : Error → Prop} {Q : β → Prop} {R : γ → Prop} {x : Except Error β}

theorem Yields.bind {f : β → Except Error γ} (hx : Yields E Q x) (hf : ∀ b, Q b → Yields E R (f b)) :
    Yields E R (x >>= f) := by
  cases x with
  | error e => exact hx
  | ok b => exact hf b hx

theorem Yields.map {g : β → γ} (hx : Yields E Q x) (hg : ∀ b, Q b → R (g b)) :
    Yields E R (g <$> x) := by
  cases x with
  | error e => exact hx
  | ok b => exact hg b hx

theorem Yields.mono {E' : Error → Prop} {Q' : β → Prop} (h : Yields E Q x) (herror : ∀ e, E e → E' e)
    (hsub : ∀ b, Q b → Q' b) : Yields E' Q' x := by
  cases x with
  | error e => exact herror e h
  | ok b => exact hsub b h

theorem yields_sliceOrError (hspan : E .invalidSpan) (text : String) (start stop : Nat) :
    Yields E (fun s => sliceOrError text start stop = .ok s) (sliceOrError text start stop) := by
  unfold sliceOrError
  split
  · rfl
  · exact hspan

end Results

namespace Walk

variable {α β γ : Type} {done : Comments} {E : Error → Prop} {scene : Scene}

/-- Among the comments of `done`, a run ends with an answer as `Q` says, and stays among them, or with
an error as `E` says. -/
def Ends (done : Comments) (E : Error → Prop) (x : Walk β) (Q : β → Prop) : Prop :=
  ∀ st, st.comments.unmarked = done.unmarked →
    Yields E (fun r => r.2.comments.unmarked = done.unmarked ∧ Q r.1) (x st)

section Rules

variable {x : Walk β} {f : β → Walk γ} {b : β} {Q Q' : β → Prop} {R : γ → Prop}

theorem Ends.gives (h : Ends done E x Q) : Gives done x Q := by
  intro st b st' hst hrun
  have hends := h st hst
  rwa [hrun] at hends

theorem Ends.error (h : Ends done E x Q) {st : WalkState} {e : Error}
    (hst : st.comments.unmarked = done.unmarked) (hrun : x st = .error e) : E e := by
  have hends := h st hst
  rwa [hrun] at hends

theorem ends_of_gives (h : Gives done x Q)
    (herror : ∀ st e, st.comments.unmarked = done.unmarked → x st = .error e → E e) :
    Ends done E x Q := by
  intro st hst
  cases hrun : x st with
  | ok r => exact h st r.1 r.2 hst hrun
  | error e => exact herror st e hst hrun

theorem Ends.mono (h : Ends done E x Q) (hsub : ∀ b, Q b → Q' b) : Ends done E x Q' :=
  ends_of_gives (h.gives.mono hsub) fun _ _ hst hrun => h.error hst hrun

theorem ends_pure (h : Q b) : Ends done E (pure b) Q := fun _ hst => ⟨hst, h⟩

theorem Ends.bind (hx : Ends done E x Q) (hf : ∀ b, Q b → Ends done E (f b) R) :
    Ends done E (x >>= f) R := by
  intro st hst
  have hfirst := hx st hst
  show Yields E _ (x st >>= fun r => f r.1 r.2)
  cases hrun : x st with
  | error e =>
    rw [hrun] at hfirst
    exact hfirst
  | ok r =>
    rw [hrun] at hfirst
    exact hf r.1 hfirst.2 r.2 hfirst.1

/-- An action that only makes something of the answer of another one. -/
theorem Ends.bind_pure {g : β → γ} (hx : Ends done E x Q) (hg : ∀ b, Q b → R (g b)) :
    Ends done E (x >>= fun b => pure (g b)) R := hx.bind fun b hb => ends_pure (hg b hb)

theorem Ends.map {g : β → γ} (hx : Ends done E x Q) (hg : ∀ b, Q b → R (g b)) :
    Ends done E (g <$> x) R := by
  rw [← bind_pure_comp]
  exact hx.bind_pure hg

/-- An action that may answer nothing. -/
theorem Ends.bind_option {x : Walk (Option β)} {f : Option β → Walk γ}
    (hx : Ends done E x fun answer => ∀ b ∈ answer, Q b)
    (hsome : ∀ b, Q b → Ends done E (f (some b)) R) (hnone : Ends done E (f none) R) :
    Ends done E (x >>= f) R := by
  refine hx.bind fun answer h => ?_
  cases answer with
  | none => exact hnone
  | some b => exact hsome b (h b rfl)

/-- Both ways from a question, where its answer counts. -/
theorem ends_cases {p : Prop} [Decidable p] {x y : Walk β} (hx : p → Ends done E x Q)
    (hy : ¬ p → Ends done E y Q) : Ends done E (if p then x else y) Q := by
  split
  · exact hx ‹_›
  · exact hy ‹_›

theorem ends_ite {p : Prop} [Decidable p] {x y : Walk β} (hx : Ends done E x Q)
    (hy : Ends done E y Q) : Ends done E (if p then x else y) Q :=
  ends_cases (fun _ => hx) fun _ => hy

theorem ends_lift {e : Except Error β} (h : Yields E Q e) : Ends done E (liftM e) Q := by
  intro st hst
  cases e with
  | error e => exact h
  | ok b => exact ⟨hst, h⟩

theorem ends_throw {e : Error} (h : E e) : Ends done E (throw e : Walk β) Q := fun _ _ => h

theorem ends_mapM {ι : Type} {g : ι → Walk β} {l : List ι} (hg : ∀ a ∈ l, Ends done E (g a) Q) :
    Ends done E (l.mapM g) fun bs => ∀ b ∈ bs, Q b := by
  induction l with
  | nil =>
    rw [List.mapM_nil]
    exact ends_pure (by simp)
  | cons a rest ih =>
    rw [List.mapM_cons]
    refine (hg a List.mem_cons_self).bind fun b hb => ?_
    refine (ih fun c hc => hg c (List.mem_cons_of_mem a hc)).bind_pure fun bs hbs => ?_
    exact List.forall_mem_cons.mpr ⟨hb, hbs⟩

end Rules

/-! ## Comments -/

/-- The comments as they are now are those of `done`, but for marks. -/
theorem ends_comments : Ends done E comments fun cs => cs.unmarked = done.unmarked :=
  fun _ hst => ⟨hst, hst⟩

/-- A question about the comments. -/
theorem ends_ask {g : Comments → β} :
    Ends done E (do return g (← comments)) fun _ => True :=
  ends_comments.bind_pure fun _ _ => trivial

/-- A comment that is found is one of those of `done`, but for its marks. -/
theorem bare_mem_of_get? {cs : Comments} {i : Nat} {c : Comment}
    (h : cs.unmarked = done.unmarked) (hc : cs.get? i = some c) : c.bare ∈ done.bare := by
  rw [← Comments.bare_eq_of_unmarked h]
  exact List.mem_map_of_mem (List.mem_of_getElem? hc)

/-- Marking comments leaves them where they are. -/
theorem ends_modify {g : Comments → Comments} (hg : ∀ cs, (g cs).unmarked = cs.unmarked) :
    Ends done E (modify fun st => { st with comments := g st.comments }) fun _ => True :=
  fun st hst => ⟨(hg st.comments).trans hst, trivial⟩

theorem ends_markPrinted (i : Nat) :
    Ends done E (modify fun st => { st with comments := st.comments.markPrinted i })
      fun _ => True :=
  ends_modify fun cs => Emission.unmarked_mark cs (.comment i)

section Nodes

variable {language : Language α} {t : Tree α} {Q : Doc → Prop}

theorem ends_source (hspan : E .invalidSpan) (t : Tree α) :
    Ends done E (source scene t) fun s => sliceOrError scene.text t.start t.stop = .ok s :=
  ends_lift (yields_sliceOrError hspan _ _ _)

theorem ends_verbatim (hspan : E .invalidSpan)
    (hcopy : ∀ s, sliceOrError scene.text t.start t.stop = .ok s → Q (.text s)) :
    Ends done E (verbatim scene t) Q :=
  (ends_modify fun cs => Emission.unmarked_mark cs (.slice t.start t.stop)).bind fun _ _ =>
    (ends_source hspan t).bind_pure hcopy

theorem ends_hasComments (t : Tree α) : Ends done E (hasComments t) fun _ => True := ends_ask

theorem ends_hasDanglingComments (t : Tree α) :
    Ends done E (hasDanglingComments t) fun _ => True := ends_ask

theorem ends_hasTrailingLineComment (t : Tree α) :
    Ends done E (hasTrailingLineComment t) fun _ => True := ends_ask

theorem ends_isIgnored (language : Language α) (t : Tree α) :
    Ends done E (isIgnored language t) fun _ => True := ends_ask

end Nodes

/-! ## Closed properties of documents -/

/-- A property that documents inherit from their parts. Texts have it if they are as `Own` says. -/
structure Closed (Own : String → Prop) (Q : Doc → Prop) : Prop where
  text : ∀ s, Own s → Q (.text s)
  line : ∀ kind, kind ≠ .literal → Q (.line kind)
  breakParent : Q .breakParent
  concat : ∀ parts, (∀ d ∈ parts, Q d) → Q (.concat parts)
  group : ∀ d shouldBreak, Q d → Q (.group d shouldBreak none)
  conditional : ∀ states, states ≠ [] → (∀ d ∈ states, Q d) → Q (Doc.conditional states)
  indent : ∀ d, Q d → Q (.indent d)
  choose : ∀ d e, Q d → Q e → Q (Doc.choose d e)
  lineSuffix : ∀ d, Q d → Q (.lineSuffix d)

/-- Is the document of a kind that printers make? Alignments and cursors are put around what they make,
and their newlines are followed by the indentation. -/
def isPrinted : Doc → Bool
  | .align _ _ | .cursor | .trim | .line .literal => false
  | _ => true

/-- A property that is about a document and all documents in it. -/
theorem closed_of_children {Own : String → Prop} {Q : Doc → Prop}
    (hnode : ∀ d : Doc, (∀ s, d = .text s → Own s) → isPrinted d = true → (∀ e ∈ d.children, Q e) →
      Q d) : Closed Own Q where
  text s hs := hnode _ (fun _ heq => Doc.text.inj heq ▸ hs) rfl nofun
  line kind hkind := hnode _ nofun (by cases kind <;> simp_all [isPrinted]) nofun
  breakParent := hnode _ nofun rfl nofun
  concat _ h := hnode _ nofun rfl h
  group _ _ h := hnode _ nofun rfl (List.forall_mem_singleton.mpr h)
  conditional states hne h := by
    refine hnode _ nofun rfl fun e he => ?_
    rcases List.mem_cons.mp he with rfl | he
    · obtain ⟨d, rest, rfl⟩ := List.exists_cons_of_ne_nil hne
      exact h d List.mem_cons_self
    · exact h e he
  indent _ h := hnode _ nofun rfl (List.forall_mem_singleton.mpr h)
  choose _ _ hd he := hnode _ nofun rfl
    (List.forall_mem_cons.mpr ⟨hd, List.forall_mem_singleton.mpr he⟩)
  lineSuffix _ h := hnode _ nofun rfl (List.forall_mem_singleton.mpr h)

namespace Closed

variable {Own : String → Prop} {Q : Doc → Prop}

theorem nil (h : Closed Own Q) : Q Doc.nil := h.concat [] (by simp)

theorem hardline (h : Closed Own Q) : Q Doc.hardline :=
  h.concat _ (by simp [h.line, h.breakParent])

theorem space (h : Closed Own Q) : Q Doc.space := h.line .normal nofun

theorem softline (h : Closed Own Q) : Q Doc.softline := h.line .soft nofun

theorem groupOf (h : Closed Own Q) {d : Doc} (hd : Q d) : Q (Doc.groupOf d) := h.group d false hd

theorem ite (p : Prop) [Decidable p] {d e : Doc} (hd : Q d) (he : Q e) :
    Q (if p then d else e) := by
  split
  · exact hd
  · exact he

theorem join (h : Closed Own Q) {separator : Doc} {docs : List Doc} (hseparator : Q separator)
    (hdocs : ∀ d ∈ docs, Q d) : Q (Doc.join separator docs) := by
  refine h.concat _ ?_
  induction docs with
  | nil => simp
  | cons d rest ih =>
    rw [List.forall_mem_cons] at hdocs
    cases rest with
    | nil => simpa using hdocs.1
    | cons e rest =>
      rw [List.intersperse_cons_cons, List.forall_mem_cons, List.forall_mem_cons]
      exact ⟨hdocs.1, hseparator, ih hdocs.2⟩

end Closed

section Comments

variable {language : Language α} {t : Tree α} {Own : String → Prop} {Q : Doc → Prop}

/-- What is printed for the comments of a walk is as `Q` says. -/
def PrintsComments (E : Error → Prop) (Q : Doc → Prop) (done : Comments)
    (print : Comment → Except Error Doc) : Prop :=
  ∀ c : Comment, c.bare ∈ done.bare → Yields E Q (print c)

theorem ends_printComment (hcomments : PrintsComments E Q done language.printComment) {i : Nat}
    {c : Comment} (hc : c.bare ∈ done.bare) : Ends done E (printComment language i c) Q :=
  (ends_markPrinted i).bind fun _ _ => ends_lift (hcomments c hc)

theorem ends_leadingComment (hQ : Closed Own Q) (hspace : Own " ")
    (hcomments : PrintsComments E Q done language.printComment) {i : Nat} {c : Comment}
    (hc : c.bare ∈ done.bare) : Ends done E (leadingComment language scene i c) Q := by
  refine (ends_printComment hcomments hc).bind_pure fun contents hcontents => ?_
  refine hQ.concat _ fun d hd => ?_
  rcases List.mem_append.mp hd with hd | hd
  · rcases List.mem_pair.mp hd with rfl | rfl
    · exact hcontents
    · exact Closed.ite _ (hQ.text _ hspace) hQ.hardline
  · split at hd
    · rw [List.mem_singleton.mp hd]
      exact hQ.hardline
    · cases hd

theorem ends_trailingComment (hQ : Closed Own Q) (hspace : Own " ")
    (hcomments : PrintsComments E Q done language.printComment) {i : Nat} {c : Comment}
    (hc : c.bare ∈ done.bare) : Ends done E (trailingComment language scene i c) Q := by
  refine (ends_printComment hcomments hc).bind fun contents hcontents => ?_
  have hspaced : Q (.concat [.text " ", contents]) :=
    hQ.concat _ (by simp [hQ.text _ hspace, hcontents])
  refine ends_ite (ends_pure (hQ.lineSuffix _ (hQ.concat _ ?_)))
    (ends_ite (ends_pure hspaced) (ends_pure (hQ.concat _ ?_)))
  · have hblank := Closed.ite (Q := Q) (Scan.isPreviousLineEmpty scene.bytes c.start = true)
      hQ.hardline hQ.nil
    simp [hQ.hardline, hblank, hcontents]
  · simp [hQ.lineSuffix _ hspaced, hQ.breakParent]

theorem ends_printAround (hQ : Closed Own Q) (hspace : Own " ")
    (hcomments : PrintsComments E Q done language.printComment) (indices : List Nat) :
    Ends done E (printAround language scene indices) fun r =>
      (∀ d ∈ r.1, Q d) ∧ ∀ d ∈ r.2, Q d := by
  induction indices with
  | nil => exact ends_pure (by simp)
  | cons i rest ih =>
    rw [printAround]
    refine ends_comments.bind fun cs hcs => ?_
    cases hget : cs.get? i with
    | none => exact ih
    | some c =>
      have hc := bare_mem_of_get? hcs hget
      dsimp only
      split
      · refine (ends_leadingComment hQ hspace hcomments hc).bind fun doc hdoc => ?_
        exact ih.bind_pure fun r hr => ⟨List.forall_mem_cons.mpr ⟨hdoc, hr.1⟩, hr.2⟩
      · refine (ends_trailingComment hQ hspace hcomments hc).bind fun doc hdoc => ?_
        exact ih.bind_pure fun r hr => ⟨hr.1, List.forall_mem_cons.mpr ⟨hdoc, hr.2⟩⟩
      · exact ih

theorem ends_withComments (hQ : Closed Own Q) (hspace : Own " ")
    (hcomments : PrintsComments E Q done language.printComment) (t : Tree α) {printed : Doc}
    (hprinted : Q printed) : Ends done E (withComments language scene t printed) Q := by
  refine ends_comments.bind fun cs _ => ?_
  refine ends_ite (ends_pure hprinted) ?_
  refine (ends_printAround hQ hspace hcomments _).bind_pure fun r hr => hQ.concat _ fun d hd => ?_
  rcases List.mem_append.mp hd with hd | hd
  · exact hr.1 d hd
  · exact List.forall_mem_cons.mpr ⟨hprinted, hr.2⟩ d hd

theorem ends_danglingComments (hQ : Closed Own Q) {print : Comment → Except Error Doc}
    (hcomments : PrintsComments E Q done print) (t : Tree α) (sameIndent : Bool) :
    Ends done E (danglingComments print t sameIndent) Q := by
  refine ends_comments.bind fun cs hcs => ?_
  refine ends_ite (ends_pure hQ.nil) ?_
  refine Ends.bind_pure (Q := fun parts => ∀ d ∈ parts, Q d) (ends_mapM ?_) fun parts hparts => ?_
  · rintro ⟨i, c⟩ hmem
    obtain ⟨j, -, hj⟩ := List.mem_filterMap.mp hmem
    obtain ⟨c', hget, hc'⟩ := Option.bind_eq_some_iff.mp hj
    have hc : c.bare ∈ done.bare := by
      split at hc'
      · cases hc'
        exact bare_mem_of_get? hcs hget
      · cases hc'
    refine (ends_markPrinted i).bind fun _ _ => (ends_lift (hcomments c hc)).bind_pure ?_
    intro contents hcontents
    exact Closed.ite _ hcontents (hQ.concat _ (by simp [hcontents, hQ.breakParent]))
  · have hjoined := hQ.join hQ.hardline hparts
    exact Closed.ite _ hjoined (hQ.indent _ (hQ.concat _ (by simp [hQ.hardline, hjoined])))

end Comments

end Walk

end CodeFormatter
