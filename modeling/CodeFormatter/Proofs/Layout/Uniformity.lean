import CodeFormatter.Proofs.Layout.Selection
import CodeFormatter.Proofs.Text.LineEnding

/-!
# Uniform layouts

The layout of a document writes newlines of two sources: its own, and those in the texts of the
document. If all of these are of one kind, then all newlines of the layout are.

**Theorem (`uniform_formatted`).** The layout of a document with uniform texts is uniform.

Everything on the stack comes from the document. Each piece of the trace is a text of it or starts a
line, and a line starts with blanks, so that the text that is written stays uniform piece by piece.
-/

namespace CodeFormatter.Layout

variable {kind : LineEnding} {settings : Settings}

/-! ## Documents -/

/-- The own texts of a document are uniform, and its alignment is blank. -/
structure UniformTexts (kind : LineEnding) (d : Doc) : Prop where
  texts : ∀ s ∈ d.ownTexts, Uniform kind s.toList
  alignment : ∀ al contents, d = .align al contents → al.isBlank = true

theorem uniformTexts_text {s : String} (h : Uniform kind s.toList) : UniformTexts kind (.text s) :=
  ⟨by simpa [Doc.ownTexts] using h, nofun⟩

theorem uniformTexts_of_ownTexts {d : Doc} (htexts : d.ownTexts = [])
    (halign : ∀ al contents, d ≠ .align al contents) : UniformTexts kind d :=
  ⟨by simp [htexts], fun al contents h => absurd h (halign al contents)⟩

theorem UniformTexts.propagateBreaks {d : Doc} (h : UniformTexts kind d) :
    UniformTexts kind d.propagateBreaks := by
  cases d with
  | text s => exact h
  | align al contents => exact ⟨by simp [Doc.ownTexts], fun _ _ heq => by cases heq; exact h.2 _ _ rfl⟩
  | _ => exact ⟨by simp [Doc.ownTexts], by simp⟩

/-! ## Commands -/

/-- The documents of a command have uniform texts, and it is indented with blanks. -/
abbrev Command.UniformTexts (settings : Settings) (kind : LineEnding) : Command → Prop :=
  Command.Made (Indentation.Built settings IndentPart.Blank) (Doc.Every (Layout.UniformTexts kind))

theorem Command.UniformTexts.scope {c : Command} (h : c.UniformTexts settings kind) :
    (c.scope settings).Built settings IndentPart.Blank := by
  obtain ⟨hi, hdocs⟩ := h
  refine Command.built_scope hi trivial (fun _ => trivial) fun s contents hitem => ?_
  have hdoc := (hdocs (.align (.text s) contents) (by simp [hitem, Item.docs])).self
  exact List.all_eq_true.mp (hdoc.alignment _ _ rfl)

theorem Command.passes_uniformTexts : Passes settings (Command.UniformTexts settings kind) :=
  passes_made (.intro (uniformTexts_of_ownTexts rfl (by simp)) (by simp [Doc.children])) (·.of_mem_children)
    Command.UniformTexts.scope

/-- What a command writes itself is uniform. -/
theorem Command.UniformTexts.ownTexts {c : Command} (h : c.UniformTexts settings kind) :
    ∀ s ∈ c.item.ownTexts, Uniform kind s.toList := by
  obtain ⟨i, m, item⟩ := c
  cases item with
  | fillRest parts => exact List.forall_mem_nil _
  | doc d => exact (h.docs d (List.mem_singleton_self d)).self.texts

/-! ## Pieces -/

/-- The texts of the piece are uniform, and if it starts a line, the line starts with a blank. -/
structure Piece.KeepsUniform (kind : LineEnding) (p : Piece) : Prop where
  faint : p.Faint
  texts : ∀ s ∈ textsOf [p], Uniform kind s.toList

/-- **Every piece that a run writes keeps the text uniform.** -/
theorem State.Holds.keepsUniform_of_mem_trace {st : State}
    (h : st.Holds (Command.UniformTexts settings kind)) (fuel : Nat) :
    ∀ p ∈ st.trace settings fuel, p.KeepsUniform kind := by
  refine State.forall_mem_trace (fun _ fuel _ h => h.step Command.passes_uniformTexts fuel) ?_ fuel h
  intro st fuel hne h p hp
  obtain ⟨c, rest, hc⟩ := List.exists_cons_of_ne_nil hne
  refine ⟨State.faint_writes (fun c hc => (h.commands c hc).indentation) fuel p hp, fun s hs => ?_⟩
  have hown : s ∈ c.item.ownTexts :=
    State.textsOf_writes settings fuel hc ▸ textsOf_subset (List.cons_subset.mpr ⟨hp, List.nil_subset _⟩) hs
  exact (h.commands c (by simp [hc])).ownTexts s hown

/-- A piece more leaves the text uniform. -/
theorem uniform_write {out : List Char} {p : Piece} (hout : Uniform kind out)
    (hp : p.KeepsUniform kind) : Uniform kind (p.write kind.text.toList out) := by
  cases p with
  | text cs =>
    have hcs := hp.texts (String.ofList cs) (by simp [textsOf])
    rw [String.toList_ofList] at hcs
    exact hout.append hcs
  | flatLine k =>
    refine hout.append (uniform_of_not_mem ?_ fun _ => ?_) <;> cases k <;> decide
  | fitted => exact hout
  | newline trims indentation =>
    have hindentation : Uniform kind indentation := by
      refine uniform_of_not_mem (fun hc => ?_) fun _ hc => ?_ <;>
        exact absurd (hp.faint _ hc) (by decide)
    have htrimmed : Uniform kind (if trims then trimEnd out else out) := by
      split
      · exact hout.of_isPrefix (isPrefix_trimEnd out)
      · exact hout
    exact (htrimmed.append (uniform_text kind)).append hindentation
  | trim => exact hout.of_isPrefix (isPrefix_trimEnd out)

theorem uniform_writeAll {out : List Char} {pieces : List Piece} (hout : Uniform kind out)
    (hp : ∀ p ∈ pieces, p.KeepsUniform kind) :
    Uniform kind (writeAll kind.text.toList out pieces) := by
  induction pieces generalizing out with
  | nil => exact hout
  | cons p rest ih =>
    obtain ⟨hp, hrest⟩ := List.forall_mem_cons.mp hp
    exact ih (uniform_write hout hp) hrest

/-- **The layout of a document with uniform texts is uniform**, on a page with newlines of the same
kind. -/
theorem uniform_formatted {d : Doc} (hd : d.Every (UniformTexts kind))
    (hnewline : settings.newline = kind.text) :
    Uniform kind (print settings d).formatted.toList := by
  have hstart : (State.start d.propagateBreaks).Holds (Command.UniformTexts settings kind) :=
    State.holds_start Indentation.built_none (hd.propagateBreaks fun _ => UniformTexts.propagateBreaks)
  rw [formatted_eq_assemble, String.toList_ofList, assemble, hnewline]
  exact (uniform_writeAll (uniform_nil kind) (hstart.keepsUniform_of_mem_trace _)).of_isPrefix
    (isPrefix_trimEnd _)

end CodeFormatter.Layout
