import CodeFormatter.Proofs.Formatter
import CodeFormatter.Proofs.Layout.CursorNeutrality
import CodeFormatter.Proofs.Walk.Twins

/-!
# Where the cursor is does not matter

The cursor of a text is in a node, whose document is printed between two cursors. Nothing else in the document
changes, as long as the printers of the language put documents together without looking into them
(`Language.MakesTwins`), and cursors never change a layout. So the formatted text is the same wherever the
cursor is, and also when none is followed.

**Theorem (`formatText_withCursor`).** In such a language the formatted text does not depend on the cursor.
-/

namespace CodeFormatter

open Pipeline Walk

/-- The options with another cursor. -/
def Options.withCursor (o : Options) (c : Option Nat) : Options := { o with cursorOffset := c }

/-- A language that leaves it to the formatter to follow the cursor. Nodes below others are solid. -/
structure Language.OverlooksCursor {α : Type} (l : Language α) (Solid : Tree α → Prop) : Prop extends
    l.MakesTwins Solid where
  preprocess : ∀ o c text, l.preprocess (o.withCursor c) text = l.preprocess o text
  parse : ∀ o c text, l.parse (o.withCursor c) text = l.parse o text
  below : ∀ o text parsed, l.parse o text = .ok parsed →
    ∀ t ∈ parsed.tree.nodes, ∀ u ∈ t.children, Solid u

section

variable {α : Type} {l : Language α} {Solid : Tree α → Prop} {embedding : Embedding} {o : Options}
  {c : Option Nat} {text : String}

/-- The job with another cursor. -/
def Pipeline.Job.withCursor (job : Job) (c : Option Nat) : Job :=
  { job with options := job.options.withCursor c }

theorem printTree_pointing (h : l.MakesTwins Solid) (scene : Scene) (hcursor : scene.cursorNode = none)
    {tree : Tree α} (hsolid : ∀ t ∈ tree.nodes, ∀ u ∈ t.children, Solid u) (node offset : Option Nat) :
    Parallel (printTree l scene tree 0) (printTree l (scene.pointing node offset) tree 0)
      fun d d' => d.pieces = d'.pieces := by
  refine (h.ofTree hcursor hsolid []).1.bind fun d d' hd => parallel_pure ?_
  rw [if_neg (Nat.lt_irrefl 0), if_neg (Nat.lt_irrefl 0), Doc.pieces_propagateBreaks,
    Doc.pieces_propagateBreaks, hd.pieces]

/-- **A parsed text has the same layout** with a cursor and without one. -/
theorem printParsed_withCursor (h : l.OverlooksCursor Solid) (job : Job) {parsed : Parsed α}
    (hparsed : l.parse job.options job.text = .ok parsed) :
    (·.formatted) <$> printParsed l embedding (job.withCursor c) parsed 0 =
      (·.formatted) <$> printParsed l embedding (job.withCursor none) parsed 0 := by
  have hrun := printTree_pointing h.toMakesTwins (sceneFor l embedding (job.withCursor none) parsed.tree)
    rfl (h.below _ _ _ hparsed) ((cursorTarget (job.withCursor c).options parsed.tree).map (·.1)) c
    ⟨attached l job.text parsed, 0⟩
  rw [printParsed_zero, printParsed_zero, map_bind, map_bind]
  refine (hrun.bind_eq fun d d' st hd => ?_).symm
  rw [map_bind, map_bind]
  refine bind_congr fun _ => congrArg Except.ok ?_
  simp only [outcomeOf, Layout.formatted_eq_of_pieces_eq hd]
  rfl

/-- A pragma may move the cursor, and nothing else depends on it. -/
theorem exists_addPragma_withCursor (l : Language α) (job : Job) :
    ∃ move : Option Nat → Option Nat, ∀ c,
      addPragma l (job.withCursor c) = (fun job => job.withCursor (move c)) <$> addPragma l job := by
  have hsame : ∀ c, ((job.withCursor c).options.insertPragma && !l.hasPragma (job.withCursor c).text &&
      (job.withCursor c).options.formatsWholeFile) =
        (job.options.insertPragma && !l.hasPragma job.text && job.options.formatsWholeFile) := fun _ => rfl
  by_cases hinsert : (job.options.insertPragma && !l.hasPragma job.text &&
      job.options.formatsWholeFile) = true
  · cases htext : l.insertPragma job.text with
    | error e =>
      refine ⟨id, fun c => ?_⟩
      rw [addPragma, addPragma, hsame, if_pos hinsert, if_pos hinsert, htext]
      exact congrArg (· >>= _) htext
    | ok text =>
      refine ⟨fun c => c.map (· + (text.utf8ByteSize - job.text.utf8ByteSize)), fun c => ?_⟩
      rw [addPragma, addPragma, hsame, if_pos hinsert, if_pos hinsert, htext]
      exact congrArg (· >>= _) htext
  · refine ⟨id, fun c => ?_⟩
    rw [addPragma, addPragma, hsame, if_neg hinsert, if_neg hinsert]
    rfl

theorem exists_prepare_withCursor (h : l.OverlooksCursor Solid) (o : Options) (text : String) :
    ∃ move : Option Nat → Option Nat, ∀ c, prepare l (o.withCursor c) text =
      (fun job => job.withCursor (move c)) <$> prepare l o text := by
  have hunmark : ∀ c, unmark (o.withCursor c) text =
      (unmark o text).withCursor (if startsWithMark text then c.map (· - 3) else c) := by
    intro c
    unfold unmark
    split <;> rfl
  obtain ⟨move, hmove⟩ := exists_addPragma_withCursor l (unmark o text)
  refine ⟨fun c => move (if startsWithMark text then c.map (· - 3) else c), fun c => ?_⟩
  rw [prepare, prepare, hunmark, hmove, bind_map_left, map_bind]
  refine bind_congr fun job => congrArg Except.ok ?_
  rw [Job.withCursor, h.preprocess]
  rfl

/-- **The formatted text does not depend on the cursor.** -/
theorem formatText_withCursor (h : l.OverlooksCursor Solid) (o : Options) (c : Option Nat) (text : String) :
    (·.formatted) <$> formatText l embedding (o.withCursor c) text =
      (·.formatted) <$> formatText l embedding (o.withCursor none) text := by
  obtain ⟨move, hmove⟩ := exists_prepare_withCursor h o text
  have hsame : ∀ c, (o.withCursor c).requirePragma = o.requirePragma := fun _ => rfl
  unfold formatText
  rw [hsame, hsame]
  by_cases hskips : (o.requirePragma && !l.hasPragma (stripMark text)) = true
  · rw [if_pos hskips, if_pos hskips]
  · rw [if_neg hskips, if_neg hskips, hmove, hmove, bind_map_left, bind_map_left, map_bind, map_bind]
    refine bind_congr fun job => ?_
    have hparse : ∀ c, l.parse (job.withCursor c).options (job.withCursor c).text =
        l.parse job.options job.text := fun c => h.parse job.options c job.text
    rw [hparse, hparse]
    cases hparsed : l.parse job.options job.text with
    | error e => rfl
    | ok parsed =>
      -- A range is formatted without a cursor, and without a range the text is printed.
      change Formatted.formatted <$> (formatRange l embedding job parsed.tree >>= _) =
        Formatted.formatted <$> (formatRange l embedding job parsed.tree >>= _)
      cases formatRange l embedding job parsed.tree with
      | error e => rfl
      | ok formatted =>
        cases formatted with
        | some formatted => rfl
        | none => exact (printParsed_withCursor h job hparsed).trans (printParsed_withCursor h job hparsed).symm

/-! ## The formatter -/

theorem select_withCursor (languages : List Registered) (o : Options) (c : Option Nat) :
    (Formatter.ofLanguages languages).select (o.withCursor c) =
      (fun r => (r.1.withCursor c, r.2)) <$> (Formatter.ofLanguages languages).select o := by
  have hresolve : (Formatter.ofLanguages languages).resolve (o.withCursor c) =
      (fun n => n.withCursor c) <$> (Formatter.ofLanguages languages).resolve o := by
    have hvalid : (o.withCursor c).validate = o.validate := rfl
    rw [Formatter.resolve_ofLanguages, Formatter.resolve_ofLanguages, Formatter.computeNormalized,
      Formatter.computeNormalized, hvalid]
    cases o.validate <;> rfl
  rw [Formatter.select, Formatter.select, hresolve, bind_map_left, map_bind]
  refine bind_congr fun n => ?_
  have hlanguage : (Formatter.ofLanguages languages).languageFor (n.withCursor c) =
      (Formatter.ofLanguages languages).languageFor n := rfl
  rw [hlanguage, map_bind]
  rfl

/-- **Where the cursor is** makes no difference to the formatted text. -/
theorem format_withCursor {languages : List Registered}
    (hlanguages : ∀ r ∈ languages, ∃ (β : Type) (l : Language β) (Solid : Tree β → Prop),
      r = .ofLanguage l ∧ l.OverlooksCursor Solid) (text : String) (o : Options) (c : Option Nat) :
    (Formatter.ofLanguages languages).format text (o.withCursor c) =
      (Formatter.ofLanguages languages).format text (o.withCursor none) := by
  cases hselect : (Formatter.ofLanguages languages).select o with
  | error e =>
    have hnone : ∀ c, (Formatter.ofLanguages languages).select (o.withCursor c) = .error e := fun c => by
      rw [select_withCursor, hselect]
      rfl
    rw [Formatter.format_of_select_error (hnone c), Formatter.format_of_select_error (hnone none)]
  | ok r =>
    obtain ⟨n, registered⟩ := r
    have hsome : ∀ c, (Formatter.ofLanguages languages).select (o.withCursor c) =
        .ok (n.withCursor c, registered) := fun c => by
      rw [select_withCursor, hselect]
      rfl
    obtain ⟨-, hlanguage⟩ := Formatter.resolve_of_select hselect
    obtain ⟨β, l, Solid, rfl, hl⟩ := hlanguages registered (Formatter.mem_of_languageFor hlanguage)
    rw [Formatter.format_of_select (hsome c), Formatter.format_of_select (hsome none)]
    exact formatText_withCursor hl n c text

end

end CodeFormatter
