import CodeFormatter.Proofs.Layout.Indentation
import CodeFormatter.Proofs.Layout.Progress

/-!
# What holds of all commands

A step takes a command and puts others in its place. A condition that passes from a command to these
(`Passes`) holds of everything that is on the stack or waits, as long as the run goes on. For a condition
on the indentation and on the documents of a command (`Command.Made`) it is enough that it passes to the
parts of a document, and to the scope inside it (`passes_made`).
-/

namespace CodeFormatter.Layout

/-! ## What an item opens into -/

namespace Item

/-- What a document opens into are documents that it holds. Only the boundary of the suffixes opens
into something else. -/
theorem mem_children_of_mem_openings {e d : Doc} {docs : List Doc} (h : docs ∈ (doc e).openings)
    (hd : d ∈ docs) : (e = .lineSuffixBoundary ∧ d = .line .hard) ∨ d ∈ e.children := by
  cases e with
  | conditionalGroup contents states _ _ =>
    obtain ⟨state, hstate, rfl⟩ := List.mem_map.mp h
    rw [List.mem_singleton.mp hd]
    exact .inr hstate
  | ifBreak broken flat _ =>
    rcases List.mem_pair.mp h with rfl | rfl <;> rw [List.mem_singleton.mp hd] <;>
      simp [Doc.children]
  | lineSuffixBoundary =>
    rcases List.mem_pair.mp h with rfl | rfl
    · cases hd
    · exact .inl ⟨rfl, List.mem_singleton.mp hd⟩
  | lineSuffix => cases h
  | text | line | breakParent | trim | cursor =>
    rw [List.mem_singleton.mp h] at hd
    cases hd
  | concat | fill | group | indent | align =>
    rw [List.mem_singleton.mp h] at hd
    exact .inr hd

/-- What an item opens into are documents that it has or that those hold, or a hard line. -/
theorem mem_of_mem_openings {item : Item} {docs : List Doc} (h : docs ∈ item.openings) {d : Doc}
    (hd : d ∈ docs) : d = .line .hard ∨ d ∈ item.docs ∨ ∃ e ∈ item.docs, d ∈ e.children := by
  cases item with
  | fillRest parts =>
    rw [List.mem_singleton.mp h] at hd
    exact .inr (.inl hd)
  | doc e =>
    exact (mem_children_of_mem_openings h hd).imp (·.2) fun h =>
      .inr ⟨e, List.mem_singleton.mpr rfl, h⟩

end Item

/-! ## Conditions on commands -/

variable {settings : Settings} {C : Command → Prop}

/-- The condition passes to what takes the place of a command, and to a suffix that comes back. -/
structure Passes (settings : Settings) (C : Command → Prop) : Prop where
  opened : ∀ {c c' : Command} {docs : List Doc}, C c → docs ∈ c.item.openings →
    (∀ d ∈ c'.item.docs, d ∈ docs) → c'.indentation = c.scope settings → C c'
  deferred : ∀ {i : Indentation} {m : Mode} {d : Doc},
    C ⟨i, m, .doc (.lineSuffix d)⟩ → C ⟨i, m, .doc d⟩

/-- Inside a command the indentation is built of what it was built of before, of a level, of spaces and
of the text that the command aligns to. -/
theorem Command.built_scope {ok : IndentPart → Prop} {c : Command}
    (hi : c.indentation.Built settings ok) (hlevel : ok .level) (hspaces : ∀ n, ok (.spaces n))
    (htext : ∀ s contents, c.item = .doc (.align (.text s) contents) → ok (.text s)) :
    (c.scope settings).Built settings ok := by
  obtain ⟨i, m, item⟩ := c
  unfold Command.scope
  split
  · exact hi.indent hlevel
  · rename_i alignment contents hitem
    refine hi.align fun p hp => ?_
    cases alignment with
    | text s =>
      cases hp
      exact htext s contents hitem
    | spaces n =>
      cases hp
      exact hspaces _
    | dedent | dedentToRoot | root => cases hp
  · exact hi

/-- The indentation of a command is as `I` says, and its documents are as `Q` says. -/
structure Command.Made (I : Indentation → Prop) (Q : Doc → Prop) (c : Command) : Prop where
  indentation : I c.indentation
  docs : ∀ d ∈ c.item.docs, Q d

/-- A condition that passes to the parts of a document and to its scope. -/
theorem passes_made {I : Indentation → Prop} {Q : Doc → Prop} (hline : Q (.line .hard))
    (hchildren : ∀ {d e : Doc}, Q d → e ∈ d.children → Q e)
    (hscope : ∀ {c : Command}, c.Made I Q → I (c.scope settings)) :
    Passes settings (Command.Made I Q) where
  opened hc hopen hdocs hi := by
    refine ⟨hi ▸ hscope hc, fun d hd => ?_⟩
    rcases Item.mem_of_mem_openings hopen (hdocs d hd) with rfl | hd | ⟨e, he, hd⟩
    · exact hline
    · exact hc.docs d hd
    · exact hchildren (hc.docs e he) hd
  deferred hc := by
    refine ⟨hc.indentation, fun e he => ?_⟩
    rw [List.mem_singleton.mp he]
    exact hchildren (hc.docs _ (List.mem_singleton_self _)) (List.mem_singleton_self _)

namespace State

variable {st st' : State} {c : Command}

/-- All commands are as `C` says, also those that wait. -/
structure Holds (C : Command → Prop) (st : State) : Prop where
  commands : ∀ c ∈ st.commands, C c
  suffixes : ∀ c ∈ st.suffixes, C c

theorem Performs.holds (hp : Performs settings st c st') (hC : Passes settings C) (hc : C c)
    (h : st.Holds C) : st'.Holds C := by
  cases hp with
  | opened new hcommands hsuffixes hopen hi _ =>
    refine ⟨fun c' hmem => ?_, hsuffixes ▸ h.suffixes⟩
    rw [hcommands] at hmem
    rcases List.mem_append.mp hmem with hmem | hmem
    · exact hC.opened hc hopen (fun d hd => List.mem_flatMap.mpr ⟨c', hmem, hd⟩) (hi c' hmem)
    · exact h.commands c' hmem
  | deferred d hitem hcommands hsuffixes =>
    refine ⟨hcommands ▸ h.commands, fun c' hmem => ?_⟩
    rw [hsuffixes] at hmem
    rcases List.mem_append.mp hmem with hmem | hmem
    · exact h.suffixes c' hmem
    · rw [List.mem_singleton.mp hmem]
      obtain ⟨i, m, item⟩ := c
      cases hitem
      exact hC.deferred hc
  | released kind hitem _ hcommands hsuffixes =>
    refine ⟨fun c' hmem => ?_, by simp [hsuffixes]⟩
    rw [hcommands] at hmem
    rcases List.mem_append.mp hmem with hmem | hmem
    · exact h.suffixes c' hmem
    · rcases List.mem_cons.mp hmem with rfl | hmem
      · exact hc
      · exact h.commands c' hmem

theorem Holds.settle (h : st.Holds C) : st.settle.Holds C := by
  unfold State.settle
  split
  · refine ⟨fun c hc => ?_, by simp [release]⟩
    rcases List.mem_append.mp hc with hc | hc
    · exact h.suffixes c hc
    · exact h.commands c hc
  · exact h

/-- **A step keeps what holds of all commands.** -/
theorem Holds.step (h : st.Holds C) (hC : Passes settings C) (fuel : Nat) :
    (st.step settings fuel).Holds C := by
  cases hc : st.commands with
  | nil => simpa [State.step, hc] using h
  | cons c rest =>
    rw [step_eq hc]
    have hrest : Holds C { st with commands := rest } :=
      ⟨fun c' hc' => h.commands c' (by simp [hc, hc']), h.suffixes⟩
    exact ((performs_perform settings fuel _ c).holds hC (h.commands c (by simp [hc])) hrest).settle

/-- At the start there is one command, for the document. -/
theorem holds_start {I : Indentation → Prop} {Q : Doc → Prop} {d : Doc} (hi : I .none) (hd : Q d) :
    (start d).Holds (Command.Made I Q) := by
  refine ⟨fun c hc => ?_, by simp [start]⟩
  rw [List.mem_singleton.mp hc]
  refine ⟨hi, fun e he => ?_⟩
  rwa [List.mem_singleton.mp he]

end State

end CodeFormatter.Layout
