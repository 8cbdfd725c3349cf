import CodeFormatter.Proofs.Layout.Fits
import CodeFormatter.Proofs.Layout.Invariants
import CodeFormatter.Proofs.Layout.Reference
import CodeFormatter.Proofs.Layout.Selection

/-!
# Layouts at a column

A document that is aligned to a column is laid out as it would be at the start of a line, with a *margin*
in front of its lines, on a page that is narrower by the column. The page gets no narrower by the
alignment itself: what is left of a line is counted from the column at which it starts.

**Theorem (`formatted_alignTo`).** Let no text of a document have a newline, and let nothing in it change
the indentation but whole levels. Aligned to column `n` on a page of width `w + n`, it has the layout that
it has on a page of width `w`, behind a margin of `n` columns.

The proof runs both layouts step by step. The states differ in the indentation of their commands and in
the column, by the margin, and so every test whether something fits has the same answer.
-/

namespace CodeFormatter.Layout

/-! ## Margins -/

/-- Does the character end a line? -/
def isLineEnd (c : Char) : Bool := c == '\n' || c == '\r'

/-- The text with a margin in front of its lines. Empty lines get none. `fresh` tells whether the text
starts a line. -/
def indentedFrom (margin : List Char) : Bool → List Char → List Char
  | _, [] => []
  | fresh, c :: cs =>
    (if fresh && !isLineEnd c then margin else []) ++ c :: indentedFrom margin (isLineEnd c) cs

/-- The text with a margin in front of its lines. -/
def indented (margin : List Char) (s : String) : String :=
  String.ofList (indentedFrom margin true s.toList)

/-- Does a line start after `cs`? -/
def freshAfter (fresh : Bool) (cs : List Char) : Bool := cs.foldl (fun _ c => isLineEnd c) fresh

section Margins

variable {margin newline cs ds out wide : List Char} {fresh : Bool}

@[simp] theorem freshAfter_nil (fresh : Bool) : freshAfter fresh [] = fresh := rfl

@[simp] theorem freshAfter_cons (fresh : Bool) (c : Char) (cs : List Char) :
    freshAfter fresh (c :: cs) = freshAfter (isLineEnd c) cs := rfl

@[simp] theorem freshAfter_append (fresh : Bool) (cs ds : List Char) :
    freshAfter fresh (cs ++ ds) = freshAfter (freshAfter fresh cs) ds := List.foldl_append

theorem indentedFrom_append (margin : List Char) (fresh : Bool) (cs ds : List Char) :
    indentedFrom margin fresh (cs ++ ds) =
      indentedFrom margin fresh cs ++ indentedFrom margin (freshAfter fresh cs) ds := by
  induction cs generalizing fresh with
  | nil => rfl
  | cons c cs ih => simp [indentedFrom, ih]

/-- The first line, or what follows of it. -/
theorem indentedFrom_line (h : ∀ c ∈ cs, isLineEnd c = false) :
    indentedFrom margin fresh cs = if fresh = true ∧ cs ≠ [] then margin ++ cs else cs := by
  induction cs generalizing fresh with
  | nil => simp [indentedFrom]
  | cons c cs ih =>
    obtain ⟨hc, hcs⟩ := List.forall_mem_cons.mp h
    rw [indentedFrom, hc, ih hcs]
    cases fresh <;> simp

/-- Newlines are written as they are. -/
theorem indentedFrom_newline (h : ∀ c ∈ cs, isLineEnd c = true) :
    indentedFrom margin fresh cs = cs := by
  induction cs generalizing fresh with
  | nil => rfl
  | cons c cs ih =>
    obtain ⟨hc, hcs⟩ := List.forall_mem_cons.mp h
    simp [indentedFrom, hc, ih hcs]

theorem freshAfter_newline (h : ∀ c ∈ cs, isLineEnd c = true) (hfresh : fresh = true ∨ cs ≠ []) :
    freshAfter fresh cs = true := by
  induction cs generalizing fresh with
  | nil => simpa using hfresh
  | cons c cs ih =>
    obtain ⟨hc, hcs⟩ := List.forall_mem_cons.mp h
    exact ih hcs (.inl hc)

/-- A line starts behind a margin where it starts without. -/
theorem freshAfter_indentedFrom (margin : List Char) {cs : List Char} {a b : Bool}
    (h : a = b ∨ cs ≠ []) : freshAfter a (indentedFrom margin b cs) = freshAfter b cs := by
  induction cs generalizing a b with
  | nil => simpa [indentedFrom] using h
  | cons c cs ih => simp [indentedFrom, ih (.inl rfl)]

/-- Blanks are removed from the last line only. -/
theorem trimEnd_append_of_fresh (h : freshAfter true cs = true) (ds : List Char) :
    trimEnd (cs ++ ds) = cs ++ trimEnd ds := by
  have hself : trimEnd cs = cs := by
    refine List.rdropWhile_eq_self_iff.mpr fun hne hpadding => ?_
    obtain ⟨front, c, rfl⟩ := (List.eq_nil_or_concat cs).resolve_left hne
    have hc : isLineEnd c = true := by simpa using h
    rw [isLineEnd, Bool.or_eq_true, beq_iff_eq, beq_iff_eq] at hc
    rcases hc with rfl | rfl <;> exact absurd hpadding (by simp [isPadding])
  rw [trimEnd_append]
  split
  · rename_i hds
    rw [hself, hds, List.append_nil]
  · rfl

/-- How far a text has been written: `line` is its last line, and behind a margin this line has the
margin, even when it is empty. -/
inductive Written (newline margin : List Char) : List Char → List Char → Prop
  | intro {done line : List Char} (fresh : freshAfter true done = true)
      (inline : ∀ c ∈ line, isLineEnd c = false) :
      Written newline margin (done ++ line)
        (newline ++ indentedFrom margin true done ++ (margin ++ line))

/-- A newline as the layout writes it. -/
structure IsNewline (newline : List Char) : Prop where
  ne_nil : newline ≠ []
  ends : ∀ c ∈ newline, isLineEnd c = true

/-- A piece with text on one line, or that ends a line and starts the next one with blanks. -/
def Piece.Inline : Piece → Prop
  | .text cs => ∀ c ∈ cs, isLineEnd c = false
  | .newline trims indentation => trims = true ∧ ∀ c ∈ indentation, isPadding c = true
  | .flatLine _ | .fitted => True
  | .trim => False

/-- The piece behind a margin. -/
def Piece.behind (margin : List Char) : Piece → Piece
  | .newline trims indentation => .newline trims (margin ++ indentation)
  | p => p

theorem isLineEnd_of_isPadding {c : Char} (h : isPadding c = true) : isLineEnd c = false := by
  rw [isPadding, Bool.or_eq_true, beq_iff_eq, beq_iff_eq] at h
  rcases h with rfl | rfl <;> rfl

namespace Written

variable {p : Piece}

theorem append (h : Written newline margin out wide) (hcs : ∀ c ∈ cs, isLineEnd c = false) :
    Written newline margin (out ++ cs) (wide ++ cs) := by
  obtain ⟨hfresh, hline⟩ := h
  rw [List.append_assoc, List.append_assoc _ (margin ++ _), List.append_assoc margin]
  exact .intro hfresh fun c hc => (List.mem_append.mp hc).elim (hline c) (hcs c)

/-- Without the blanks at its end, an empty line has no margin. -/
theorem trimEnd_eq (h : Written newline margin out wide) (hnewline : IsNewline newline)
    (hmargin : ∀ c ∈ margin, isPadding c = true) :
    trimEnd wide = newline ++ indentedFrom margin true (trimEnd out) := by
  obtain @⟨done, line, hfresh, hline⟩ := h
  have hwide : freshAfter true (newline ++ indentedFrom margin true done) = true := by
    rw [freshAfter_append, freshAfter_newline hnewline.ends (.inl rfl),
      freshAfter_indentedFrom margin (.inl rfl), hfresh]
  have hblank : trimEnd margin = [] := List.rdropWhile_eq_nil_iff.mpr hmargin
  have hinline : ∀ c ∈ trimEnd line, isLineEnd c = false := fun c hc =>
    hline c ((isPrefix_trimEnd line).subset hc)
  rw [trimEnd_append_of_fresh hwide, trimEnd_append_of_fresh hfresh, indentedFrom_append, hfresh,
    indentedFrom_line hinline, trimEnd_append, hblank, List.append_assoc]
  by_cases hnil : trimEnd line = [] <;> simp [hnil]

/-- **A piece more**, behind the margin. -/
theorem write (h : Written newline margin out wide) (hp : p.Inline) (hnewline : IsNewline newline)
    (hmargin : ∀ c ∈ margin, isPadding c = true) :
    Written newline margin (p.write newline out) ((p.behind margin).write newline wide) := by
  cases p with
  | text cs => exact h.append hp
  | flatLine kind =>
    refine h.append fun c hc => ?_
    cases kind with
    | normal => rw [List.mem_singleton.mp hc]; rfl
    | soft | hard | literal => cases hc
  | fitted => exact h
  | trim => cases hp
  | newline trims indentation =>
    obtain ⟨rfl, hindentation⟩ := hp
    have hends : freshAfter true (trimEnd out ++ newline) = true := by
      rw [freshAfter_append]
      exact freshAfter_newline hnewline.ends (.inr hnewline.ne_nil)
    have hnext : Written newline margin (trimEnd out ++ newline ++ indentation) _ :=
      .intro hends fun c hc => isLineEnd_of_isPadding (hindentation c hc)
    rw [indentedFrom_append, indentedFrom_newline hnewline.ends] at hnext
    rw [Piece.behind, Piece.write, Piece.write, if_pos rfl, if_pos rfl,
      h.trimEnd_eq hnewline hmargin]
    simpa [List.append_assoc] using hnext

theorem writeAll {pieces : List Piece} (h : Written newline margin out wide)
    (hp : ∀ p ∈ pieces, p.Inline) (hnewline : IsNewline newline)
    (hmargin : ∀ c ∈ margin, isPadding c = true) :
    Written newline margin (writeAll newline out pieces)
      (Layout.writeAll newline wide (pieces.map (Piece.behind margin))) := by
  induction pieces generalizing out wide with
  | nil => exact h
  | cons p rest ih =>
    obtain ⟨hp, hrest⟩ := List.forall_mem_cons.mp hp
    exact ih (h.write hp hnewline hmargin) hrest

end Written

end Margins

/-! ## Indentations behind a margin -/

namespace Indentation

/-- The indentation is made of whole levels, and no root is marked. -/
structure Levelled (settings : Settings) (i : Indentation) : Prop where
  eq : i = ofQueue settings i.queue Option.none
  levels : ∀ part ∈ i.queue, part = .level

namespace Levelled

variable {settings : Settings} {i : Indentation}

theorem none (settings : Settings) : Levelled settings none := ⟨rfl, nofun⟩

theorem indent (h : Levelled settings i) : Levelled settings (i.indent settings) := by
  have hroot : i.root = Option.none := by rw [h.eq]; rfl
  refine ⟨?_, fun part hpart => ?_⟩
  · rw [Indentation.indent, push, hroot]
    rfl
  · exact (List.mem_append.mp hpart).elim (h.levels part) List.mem_singleton.mp

theorem isPadding_of_mem (h : Levelled settings i) : ∀ c ∈ i.value, isPadding c = true := by
  have hbuilt : Built settings (· = .level) i := by
    rw [h.eq]
    exact .intro h.levels nofun
  exact hbuilt.isPadding_of_mem nofun

end Levelled

/-- The indentation after the changes of `lead`. -/
def within (settings : Settings) (lead : List IndentPart) (i : Indentation) : Indentation :=
  ofQueue settings (lead ++ i.queue) Option.none

/-- The changes of `lead` put a margin of `n` columns in front of every indentation. -/
structure Leads (settings : Settings) (lead : List IndentPart) (margin : List Char) (n : Nat) :
    Prop where
  value : ∀ queue, (ofQueue settings (lead ++ queue) Option.none).value =
    margin ++ (ofQueue settings queue Option.none).value
  width : ∀ queue, (ofQueue settings (lead ++ queue) Option.none).width =
    .ofNat n + (ofQueue settings queue Option.none).width
  blank : ∀ c ∈ margin, isPadding c = true

variable {settings : Settings} {lead : List IndentPart} {margin : List Char} {n : Nat}
  {i : Indentation}

theorem Leads.value_within (h : Leads settings lead margin n) (hi : Levelled settings i) :
    (i.within settings lead).value = margin ++ i.value := by
  conv_rhs => rw [hi.eq]
  exact h.value i.queue

theorem Leads.width_within (h : Leads settings lead margin n) (hi : Levelled settings i) :
    (i.within settings lead).width = .ofNat n + i.width := by
  conv_rhs => rw [hi.eq]
  exact h.width i.queue

theorem indent_within (settings : Settings) (lead : List IndentPart) (i : Indentation) :
    (i.indent settings).within settings lead = (i.within settings lead).indent settings := by
  simp [within, indent, push, ofQueue]

end Indentation

/-! ## Two layouts side by side -/

/-- A wider page. -/
def Settings.widened (settings : Settings) (n : Nat) : Settings :=
  { settings with width := settings.width + n }

/-- The document is laid out alike at every column: its text is on one line, and it does not change the
indentation or the end of a line. -/
def Movable : Doc → Prop
  | .text s => ∀ c ∈ s.toList, isLineEnd c = false
  | .line kind => kind ≠ .literal
  | .align _ _ | .trim => False
  | _ => True

/-- The command behind the changes of `lead`. -/
def Command.within (settings : Settings) (lead : List IndentPart) (c : Command) : Command :=
  { c with indentation := c.indentation.within settings lead }

/-- The documents of a command are movable, and it is indented by whole levels. -/
abbrev Command.Movable (settings : Settings) : Command → Prop :=
  Command.Made (Indentation.Levelled settings) (Doc.Every Layout.Movable)

variable {settings : Settings} {lead : List IndentPart} {margin : List Char} {n : Nat}

theorem Command.passes_movable : Passes settings (Command.Movable settings) := by
  refine passes_made (.intro (show LineKind.hard ≠ .literal by decide) (by simp [Doc.children]))
    (·.of_mem_children) fun {c} hc => ?_
  obtain ⟨i, m, item⟩ := c
  unfold Command.scope
  split
  · exact hc.indentation.indent
  · rename_i al contents hitem
    have hmem : Doc.align al contents ∈ item.docs := by simp [show item = _ from hitem, Item.docs]
    exact absurd (hc.docs _ hmem).self id
  · exact hc.indentation

namespace State

variable {st wide : State} {fuel : Nat} {i : Indentation} {m : Mode}

/-- The state of a layout behind the changes of `lead`, which are `n` columns wide. -/
structure Within (settings : Settings) (lead : List IndentPart) (n : Nat) (st wide : State) :
    Prop where
  commands : wide.commands = st.commands.map (Command.within settings lead)
  suffixes : wide.suffixes = st.suffixes.map (Command.within settings lead)
  modes : wide.modes = st.modes
  remeasure : wide.remeasure = st.remeasure
  column : wide.column = .ofNat n + st.column

namespace Within

theorem remaining_eq (h : Within settings lead n st wide) :
    wide.remaining (settings.widened n) = st.remaining settings := by
  have hwidth : (settings.widened n).width = settings.width + n := rfl
  have hremainder : ((settings.width + n : Nat) - ((n % 2 ^ 64 + st.column.toNat) % 2 ^ 64 : Nat) : Int) %
      UInt64.size = (settings.width - st.column.toNat : Int) % UInt64.size := by
    rw [show (UInt64.size : Int) = 2 ^ 64 from rfl]
    omega
  rw [remaining, remaining, h.column, hwidth, UInt64.toNat_add, UInt64.toNat_ofNat', Int.bmod_def,
    Int.bmod_def, hremainder]

theorem itemsOf_eq (h : Within settings lead n st wide) (stack : List (Mode × Item)) :
    itemsOf stack wide.commands = itemsOf stack st.commands := by
  rw [itemsOf, itemsOf, h.commands, List.map_map]
  rfl

/-- Every test has the same answer. -/
theorem fitsFlat_eq (h : Within settings lead n st wide) (fuel : Nat) :
    wide.fitsFlat (settings.widened n) fuel = st.fitsFlat settings fuel := by
  funext d
  rw [fitsFlat, fitsFlat, fits_itemsOf, h.itemsOf_eq, h.modes, h.remaining_eq, ← fits_itemsOf]

theorem fitsAlone_eq (h : Within settings lead n st wide) (fuel : Nat) :
    wide.fitsAlone (settings.widened n) fuel = st.fitsAlone settings fuel := by
  funext docs
  rw [fitsAlone, fitsAlone, h.modes, h.remaining_eq]

theorem chooseLayout_eq (h : Within settings lead n st wide) (fuel : Nat) (contents : Doc)
    (states : Option (List Doc)) (shouldBreak : Bool) :
    wide.chooseLayout (settings.widened n) fuel contents states shouldBreak =
      st.chooseLayout settings fuel contents states shouldBreak := by
  unfold chooseLayout chooseState
  rw [h.fitsFlat_eq]

/-! ### One command -/

theorem setModes (h : Within settings lead n st wide) (modes : GroupModes) (remeasure : Bool) :
    Within settings lead n { st with modes, remeasure } { wide with modes, remeasure } :=
  ⟨h.commands, h.suffixes, rfl, rfl, h.column⟩

theorem push (h : Within settings lead n st wide) (i : Indentation) (m : Mode) (d : Doc) :
    Within settings lead n (st.push i m d) (wide.push (i.within settings lead) m d) :=
  ⟨congrArg (_ :: ·) h.commands, h.suffixes, h.modes, h.remeasure, h.column⟩

theorem release (h : Within settings lead n st wide) :
    Within settings lead n st.release wide.release :=
  ⟨by simp [State.release, h.commands, h.suffixes], rfl, h.modes, h.remeasure, h.column⟩

theorem isEmpty_suffixes (h : Within settings lead n st wide) :
    wide.suffixes.isEmpty = st.suffixes.isEmpty := by
  rw [h.suffixes, List.isEmpty_map]

theorem printGroup (h : Within settings lead n st wide) (fuel : Nat) (i : Indentation) (m : Mode)
    (contents : Doc) (states : Option (List Doc)) (shouldBreak : Bool) (id : Option GroupId) :
    Within settings lead n (st.printGroup settings fuel i m contents states shouldBreak id)
      (wide.printGroup (settings.widened n) fuel (i.within settings lead) m contents states
        shouldBreak id) := by
  have hremeasure : (decide (m = .broken) || wide.remeasure) =
      (decide (m = .broken) || st.remeasure) := by rw [h.remeasure]
  cases hm : decide (m = .broken) || st.remeasure with
  | true =>
    have h' : Within settings lead n { st with remeasure := false } { wide with remeasure := false } :=
      ⟨h.commands, h.suffixes, h.modes, rfl, h.column⟩
    rw [printGroup_of_measured settings fuel hm i contents states shouldBreak id rfl,
      printGroup_of_measured _ fuel (hremeasure.trans hm) _ contents states shouldBreak id
        (h'.chooseLayout_eq fuel contents states shouldBreak), h.modes]
    exact (h.setModes _ _).push _ _ _
  | false =>
    rw [printGroup_of_not_measured settings fuel hm,
      printGroup_of_not_measured _ fuel (hremeasure.trans hm), h.modes, h.remeasure]
    exact (h.setModes _ _).push _ _ _

theorem printFill (h : Within settings lead n st wide) (fuel : Nat) (i : Indentation) (m : Mode)
    (parts : List Doc) : Within settings lead n (st.printFill settings fuel i m parts)
      (wide.printFill (settings.widened n) fuel (i.within settings lead) m parts) := by
  unfold State.printFill
  rw [h.fitsAlone_eq]
  match parts with
  | [] => exact h
  | [content] => exact h.push _ _ _
  | [content, separator] => exact (h.push _ _ _).push _ _ _
  | content :: separator :: second :: others =>
    have htail : Within settings lead n
        { st with commands := ⟨i, m, .fillRest (second :: others)⟩ :: st.commands }
        { wide with
          commands := ⟨i.within settings lead, m, .fillRest (second :: others)⟩ :: wide.commands } :=
      ⟨congrArg (_ :: ·) h.commands, h.suffixes, h.modes, h.remeasure, h.column⟩
    exact (htail.push _ _ _).push _ _ _

theorem breakLine (h : Within settings lead n st wide)
    (hlead : Indentation.Leads settings lead margin n) (hi : Indentation.Levelled settings i) (m : Mode)
    {kind : LineKind} (hkind : kind ≠ .literal) :
    Within settings lead n (st.breakLine settings i m kind)
      (wide.breakLine (settings.widened n) (i.within settings lead) m kind) := by
  unfold State.breakLine
  rw [h.isEmpty_suffixes]
  split
  · cases kind with
    | literal => exact absurd rfl hkind
    | soft | normal | hard =>
      exact ⟨h.commands, h.suffixes, h.modes, h.remeasure, hlead.width_within hi⟩
  · exact (h.push i m _).release

theorem printLine (h : Within settings lead n st wide)
    (hlead : Indentation.Leads settings lead margin n) (hi : Indentation.Levelled settings i) (m : Mode)
    {kind : LineKind} (hkind : kind ≠ .literal) :
    Within settings lead n (st.printLine settings i m kind)
      (wide.printLine (settings.widened n) (i.within settings lead) m kind) := by
  cases m with
  | broken => exact h.breakLine hlead hi _ hkind
  | flat =>
    cases kind with
    | normal =>
      refine ⟨h.commands, h.suffixes, h.modes, h.remeasure, ?_⟩
      show wide.column + 1 = .ofNat n + (st.column + 1)
      rw [h.column, UInt64.add_assoc]
    | soft => exact h
    | literal => exact absurd rfl hkind
    | hard =>
      have hnext : Within settings lead n { st with remeasure := true } { wide with remeasure := true } :=
        ⟨h.commands, h.suffixes, h.modes, rfl, h.column⟩
      exact hnext.breakLine hlead hi _ hkind

theorem write (h : Within settings lead n st wide) {cs : List Char}
    (hcs : ∀ c ∈ cs, isLineEnd c = false) : Within settings lead n (st.write cs) (wide.write cs) := by
  have hnewline : '\n' ∉ cs := fun hmem => absurd (hcs _ hmem) (by decide)
  refine ⟨h.commands, h.suffixes, h.modes, h.remeasure, ?_⟩
  simp only [State.write, columnAfterText_of_notMem _ hnewline, h.column, UInt64.add_assoc]

/-- **Both states print the command.** -/
theorem perform (h : Within settings lead n st wide)
    (hlead : Indentation.Leads settings lead margin n) {c : Command} (hc : c.Movable settings)
    (fuel : Nat) : Within settings lead n (st.perform settings fuel c)
      (wide.perform (settings.widened n) fuel (c.within settings lead)) := by
  obtain ⟨i, m, item⟩ := c
  cases item with
  | fillRest parts => exact h.printFill fuel i m parts
  | doc d =>
    have hd := (hc.docs d (List.mem_singleton_self d)).self
    cases d with
    | text s => exact h.write hd
    | concat parts =>
      refine ⟨?_, h.suffixes, h.modes, h.remeasure, h.column⟩
      simp only [State.perform, printDoc, h.commands, List.map_append, List.map_map]
      rfl
    | line kind => exact h.printLine hlead hc.indentation m hd
    | group contents b id => exact h.printGroup fuel i m contents none b id
    | conditionalGroup contents states b id => exact h.printGroup fuel i m contents (some states) b id
    | indent contents =>
      have hpush := h.push (i.indent settings) m contents
      rwa [Indentation.indent_within] at hpush
    | align | trim => exact hd.elim
    | fill parts => exact h.printFill fuel i m parts
    | ifBreak broken flat id =>
      simp only [State.perform, printDoc, Command.within, h.modes]
      cases choiceMode st.modes m id with
      | broken => exact h.push i m broken
      | flat => exact h.push i m flat
    | lineSuffix contents =>
      refine ⟨h.commands, ?_, h.modes, h.remeasure, h.column⟩
      simp only [State.perform, printDoc, h.suffixes, List.map_append]
      rfl
    | lineSuffixBoundary =>
      simp only [State.perform, printDoc, Command.within, h.isEmpty_suffixes]
      split
      · exact h
      · exact h.push i m _
    | breakParent => exact h
    | cursor => exact ⟨h.commands, h.suffixes, h.modes, h.remeasure, h.column⟩

theorem settle (h : Within settings lead n st wide) : Within settings lead n st.settle wide.settle := by
  unfold State.settle
  rw [h.commands, List.isEmpty_map]
  split
  · exact h.release
  · exact h

/-! ### Runs -/

theorem step (h : Within settings lead n st wide)
    (hlead : Indentation.Leads settings lead margin n) (hst : st.Holds (Command.Movable settings))
    (fuel : Nat) : Within settings lead n (st.step settings fuel)
      (wide.step (settings.widened n) fuel) := by
  cases hc : st.commands with
  | nil =>
    have hc' : wide.commands = [] := by rw [h.commands, hc]; rfl
    simpa [State.step, hc, hc'] using h
  | cons c rest =>
    have hc' : wide.commands = c.within settings lead :: rest.map (Command.within settings lead) := by
      rw [h.commands, hc]
      rfl
    have hrest : Within settings lead n { st with commands := rest }
        { wide with commands := rest.map (Command.within settings lead) } :=
      ⟨rfl, h.suffixes, h.modes, h.remeasure, h.column⟩
    rw [step_eq hc, step_eq hc']
    exact (hrest.perform hlead (hst.commands c (by simp [hc])) fuel).settle

/-- A line writes the same piece in both, in the one behind the margin. -/
theorem linePiece_within (hlead : Indentation.Leads settings lead margin n)
    (hi : Indentation.Levelled settings i) (m : Mode) {kind : LineKind} (hkind : kind ≠ .literal) :
    linePiece (i.within settings lead) m kind = (linePiece i m kind).behind margin ∧
      (linePiece i m kind).Inline := by
  have hbreak : breakPiece (i.within settings lead) kind = (breakPiece i kind).behind margin ∧
      (breakPiece i kind).Inline := by
    cases kind with
    | literal => exact absurd rfl hkind
    | soft | normal | hard =>
      exact ⟨congrArg (Piece.newline true) (hlead.value_within hi), rfl, hi.isPadding_of_mem⟩
  cases m with
  | broken => exact hbreak
  | flat =>
    cases kind with
    | soft | normal => exact ⟨rfl, trivial⟩
    | hard | literal => exact hbreak

/-- Both states write the same pieces, the one behind the margin. -/
theorem writes_eq (h : Within settings lead n st wide)
    (hlead : Indentation.Leads settings lead margin n) (hst : st.Holds (Command.Movable settings))
    (fuel : Nat) : wide.writes (settings.widened n) fuel =
      (st.writes settings fuel).map (Piece.behind margin) ∧
        ∀ p ∈ st.writes settings fuel, p.Inline := by
  cases hc : st.commands with
  | nil =>
    have hc' : wide.commands = [] := by rw [h.commands, hc]; rfl
    simp [writes, hc, hc']
  | cons c rest =>
    have hcommand := hst.commands c (by simp [hc])
    obtain ⟨i, m, item⟩ := c
    have hc' : wide.commands = ⟨i.within settings lead, m, item⟩ ::
        rest.map (Command.within settings lead) := by rw [h.commands, hc]; rfl
    rw [writes, writes, hc, hc']
    cases item with
    | fillRest parts => simp
    | doc d =>
      have hd := (hcommand.docs d (List.mem_singleton_self d)).self
      cases d with
      | text s =>
        have hinline : (Piece.text s.toList).Inline := hd
        simpa [Piece.behind] using hinline
      | line kind =>
        obtain ⟨hpiece, hinline⟩ := linePiece_within hlead hcommand.indentation m hd
        dsimp only
        rw [h.isEmpty_suffixes, hpiece]
        split <;> simp [hinline]
      | group contents shouldBreak id =>
        cases m with
        | flat => simp
        | broken =>
          have hrest : Within settings lead n { st with commands := rest, remeasure := false }
              { wide with commands := rest.map (Command.within settings lead), remeasure := false } :=
            ⟨rfl, h.suffixes, h.modes, rfl, h.column⟩
          dsimp only
          rw [hrest.fitsFlat_eq]
          split <;> simp [Piece.behind, Piece.Inline]
      | align | trim => exact hd.elim
      | concat | conditionalGroup | indent | fill | ifBreak | lineSuffix | lineSuffixBoundary
      | breakParent | cursor => simp

/-- **Both runs write the same pieces**, the one behind the margin. -/
theorem trace_eq (h : Within settings lead n st wide)
    (hlead : Indentation.Leads settings lead margin n) (hst : st.Holds (Command.Movable settings))
    (fuel : Nat) : wide.trace (settings.widened n) fuel =
      (st.trace settings fuel).map (Piece.behind margin) ∧
        ∀ p ∈ st.trace settings fuel, p.Inline := by
  induction fuel generalizing st wide with
  | zero => simp [trace]
  | succ fuel ih =>
    rw [trace, trace, h.commands, List.isEmpty_map]
    split
    · simp
    · obtain ⟨hwrites, hinline⟩ := h.writes_eq hlead hst (fuel + 2)
      obtain ⟨htrace, hinline'⟩ := ih (h.step hlead hst (fuel + 2))
        (hst.step Command.passes_movable (fuel + 2))
      refine ⟨by rw [hwrites, htrace, List.map_append], fun p hp => ?_⟩
      exact (List.mem_append.mp hp).elim (hinline p) (hinline' p)

end Within

/-! ### The way to the margin -/

/-- A layout that starts with this indentation. -/
def opening (i : Indentation) (d : Doc) : State :=
  { start d with commands := [⟨i, .broken, .doc d⟩] }

theorem run_align (settings : Settings) (al : Alignment) (d : Doc) (i : Indentation) (fuel : Nat) :
    (opening i (.align al d)).run settings (fuel + 1) =
      (opening (i.align settings al) d).run settings fuel :=
  run_succ rfl rfl rfl

theorem run_levels (settings : Settings) (k : Nat) (d : Doc) (queue : List IndentPart) (fuel : Nat) :
    (opening (.ofQueue settings queue none) (Nat.repeat Doc.indent k d)).run settings (fuel + k) =
      (opening (.ofQueue settings (queue ++ List.replicate k .level) none) d).run settings fuel := by
  induction k generalizing queue with
  | zero => simp [Nat.repeat]
  | succ k ih =>
    have hstep := ih (queue ++ [.level])
    rw [List.append_assoc, List.singleton_append, ← List.replicate_succ] at hstep
    rw [← hstep]
    exact run_succ rfl rfl rfl

/-- The first line has been started. -/
def started (settings : Settings) (i : Indentation) (d : Doc) : State :=
  { opening i d with
    out := Output.empty.append (settings.newline.toList ++ i.value)
    column := i.width }

theorem run_hardline (settings : Settings) (d : Doc) (i : Indentation) (fuel : Nat) :
    (opening i (.concat [Doc.hardline, d])).run settings (fuel + 4) =
      (started settings i d).run settings fuel := rfl

end State

/-- The changes that an alignment to column `n` makes. -/
def leadOf (tabWidth n : Nat) : List IndentPart :=
  (if n % tabWidth = 0 then [] else [.spaces (n % tabWidth)]) ++ List.replicate (n / tabWidth) .level

/-- The margin of `n` columns: whole tabs, or spaces. -/
def marginOf (settings : Settings) (n : Nat) : List Char :=
  if settings.useTabs then List.replicate (n / settings.tabWidth) '\t' else List.replicate n ' '

theorem Indentation.align_spaces_none (settings : Settings) (k : Nat) :
    Indentation.none.align settings (.spaces k) =
      .ofQueue settings (if k = 0 then [] else [.spaces k]) Option.none := by
  cases k <;> rfl

/-- An aligned document starts with its margin. -/
theorem State.run_alignTo (settings : Settings) {tabWidth : Nat} (htabWidth : 0 < tabWidth) (hn : 0 < n)
    (d : Doc) (fuel : Nat) :
    (State.start (Doc.alignTo (.concat [Doc.hardline, d]) n tabWidth)).run settings
        (fuel + n / tabWidth + 6) =
      (State.started settings (.ofQueue settings (leadOf tabWidth n) none) d).run settings fuel := by
  have hspaces := Indentation.align_spaces_none settings (n % tabWidth)
  rw [Doc.alignTo, if_neg hn.ne', max_eq_left (show 1 ≤ tabWidth from htabWidth)]
  calc (State.start _).run settings (fuel + n / tabWidth + 6)
      = (State.opening .none _).run settings (fuel + 4 + n / tabWidth + 1 + 1) := by
        rw [State.opening]
        congr 1
        omega
    _ = _ := by
        rw [State.run_align, State.run_align,
          show Indentation.none.align settings .dedentToRoot = .none from rfl, hspaces,
          State.run_levels, State.run_hardline]
        rfl

/-! ## Margins of alignments -/

namespace Indentation

theorem ofQueue_widened (queue : List IndentPart) (root : Option Indentation) :
    ofQueue (settings.widened n) queue root = ofQueue settings queue root := rfl

/-- The text of one change, without tabs. -/
def partText (settings : Settings) : IndentPart → List Char
  | .level => List.replicate settings.tabWidth ' '
  | .spaces n => List.replicate n ' '
  | .text s => s.toList

/-- Without tabs, an indentation is the texts of its changes, one after the other. -/
theorem value_ofQueue (htabs : settings.useTabs = false) (queue : List IndentPart)
    (root : Option Indentation) :
    (ofQueue settings queue root).value = queue.flatMap (partText settings) := by
  have hpart : IndentPart.written settings false = partText settings := by
    funext p
    cases p with
    | level => exact if_neg (by simp [htabs])
    | spaces n | text s => rfl
  rw [value_ofQueue_eq, htabs, ← List.flatMap_append, List.rdropWhile_append_rtakeWhile, hpart]

/-- What has been written before stays in front. -/
theorem foldl_add_shift (settings : Settings) (before : List Char) (columns : UInt64)
    (queue : List IndentPart) (d : Draft) :
    let e := queue.foldl (Draft.add settings) d
    queue.foldl (Draft.add settings)
        ⟨before ++ d.value, columns + d.width, d.pending, d.pendingSpaces⟩ =
      ⟨before ++ e.value, columns + e.width, e.pending, e.pendingSpaces⟩ := by
  induction queue generalizing d with
  | nil => rfl
  | cons part rest ih =>
    rw [List.foldl_cons, List.foldl_cons]
    refine Eq.trans ?_ (ih _)
    congr 1
    cases part with
    | spaces n => rfl
    | level | text s =>
      simp only [Draft.add, Draft.flush]
      split <;> simp [UInt64.add_assoc]

/-- The text of `k` levels: tabs, or spaces. -/
def levels (settings : Settings) (k : Nat) : List Char :=
  if settings.useTabs then List.replicate k '\t' else List.replicate (k * settings.tabWidth) ' '

theorem foldl_add_levels (settings : Settings) (k : Nat) :
    (List.replicate k IndentPart.level).foldl (Draft.add settings) Draft.empty =
      ⟨levels settings k, .ofNat (k * settings.tabWidth), 0, 0⟩ := by
  induction k with
  | zero => simp [Draft.empty, levels]
  | succ k ih =>
    rw [List.replicate_succ', List.foldl_append, ih]
    cases htabs : settings.useTabs with
    | true => simp [Draft.add, Draft.flush, levels, htabs, List.replicate_succ', Nat.succ_mul]
    | false => simp [Draft.add, Draft.flush, levels, htabs, Nat.succ_mul]

/-- Without tabs, the width of an indentation is the length of these texts. -/
theorem width_ofQueue (htabs : settings.useTabs = false) (queue : List IndentPart) :
    (ofQueue settings queue Option.none).width =
      .ofNat (queue.flatMap (partText settings)).length := by
  have hbuilt : Built settings (fun _ => True) (ofQueue settings queue Option.none) :=
    .intro (fun _ _ => trivial) nofun
  rw [← hbuilt.length_value htabs, value_ofQueue htabs]

theorem flatMap_leadOf (settings : Settings) (n : Nat) :
    (leadOf settings.tabWidth n).flatMap (partText settings) = List.replicate n ' ' := by
  have hlevels : (List.replicate (n / settings.tabWidth) IndentPart.level).flatMap
      (partText settings) = List.replicate (n / settings.tabWidth * settings.tabWidth) ' ' := by
    simp [List.flatMap_replicate, partText]
  have hspaces : (if n % settings.tabWidth = 0 then [] else
      [IndentPart.spaces (n % settings.tabWidth)]).flatMap (partText settings) =
        List.replicate (n % settings.tabWidth) ' ' := by
    split
    · rename_i hzero
      rw [hzero]
      rfl
    · simp [partText]
  rw [leadOf, List.flatMap_append, hspaces, hlevels, List.replicate_append_replicate,
    Nat.mod_add_div']

/-- **An alignment to a column is a margin**, if its tabs are whole. -/
theorem leads_leadOf (htabs : settings.useTabs = false ∨ settings.tabWidth ∣ n) :
    Leads settings (leadOf settings.tabWidth n) (marginOf settings n) n := by
  rw [marginOf]
  cases huses : settings.useTabs with
  | false =>
    refine ⟨fun queue => ?_, fun queue => ?_, fun c hc => ?_⟩
    · rw [value_ofQueue huses, value_ofQueue huses, List.flatMap_append, flatMap_leadOf]
      rfl
    · rw [width_ofQueue huses, width_ofQueue huses, List.flatMap_append, flatMap_leadOf,
        List.length_append, List.length_replicate, UInt64.ofNat_add]
    · rw [List.eq_of_mem_replicate hc]
      rfl
  | true =>
    have hdvd : settings.tabWidth ∣ n := htabs.resolve_left (by simp [huses])
    have hlead : leadOf settings.tabWidth n = List.replicate (n / settings.tabWidth) .level := by
      rw [leadOf, if_pos (Nat.mod_eq_zero_of_dvd hdvd), List.nil_append]
    have hfold : ∀ queue, let e := queue.foldl (Draft.add settings) Draft.empty
        (leadOf settings.tabWidth n ++ queue).foldl (Draft.add settings) Draft.empty =
          ⟨List.replicate (n / settings.tabWidth) '	' ++ e.value, .ofNat n + e.width, e.pending,
            e.pendingSpaces⟩ := by
      intro queue
      have hshift := foldl_add_shift settings (List.replicate (n / settings.tabWidth) '	') (.ofNat n) queue
        Draft.empty
      rw [List.foldl_append, hlead, foldl_add_levels, levels, if_pos huses, Nat.div_mul_cancel hdvd]
      simpa [Draft.empty] using hshift
    refine ⟨fun queue => ?_, fun queue => ?_, fun c hc => ?_⟩
    · simp only [ofQueue, hfold queue, if_true, List.append_assoc]
    · simp only [ofQueue, hfold queue, UInt64.add_assoc]
    · rw [List.eq_of_mem_replicate hc]
      rfl

end Indentation

/-! ## Aligned documents -/

theorem Movable.propagateBreaks {d : Doc} (h : Movable d) : Movable d.propagateBreaks := by
  cases d with
  | align | trim => exact h.elim
  | text | line => exact h
  | _ => simp [Movable]

theorem propagateBreaks_levels (k : Nat) (d : Doc) :
    (Nat.repeat Doc.indent k d).propagateBreaks = Nat.repeat Doc.indent k d.propagateBreaks := by
  induction k with
  | zero => rfl
  | succ k ih => simp [Nat.repeat, ih]

theorem work_levels (k : Nat) (d : Doc) : (Nat.repeat Doc.indent k d).work = d.work + k := by
  induction k with
  | zero => rfl
  | succ k ih =>
    rw [Nat.repeat, Doc.work, ih]
    omega

theorem propagateBreaks_alignTo {tabWidth : Nat} (hn : 0 < n) (d : Doc) :
    (Doc.alignTo (.concat [Doc.hardline, d]) n tabWidth).propagateBreaks =
      Doc.alignTo (.concat [Doc.hardline, d.propagateBreaks]) n tabWidth := by
  simp [Doc.alignTo, hn.ne', propagateBreaks_levels, Doc.hardline]

theorem work_alignTo {tabWidth : Nat} (htabWidth : 0 < tabWidth) (hn : 0 < n) (d : Doc) :
    (Doc.alignTo (.concat [Doc.hardline, d]) n tabWidth).work = d.work + n / tabWidth + 6 := by
  have hcontents : (Doc.concat [Doc.hardline, d]).work = d.work + 4 := by
    simp only [Doc.hardline, Doc.work, Doc.workAll]
    omega
  rw [Doc.alignTo, if_neg hn.ne', max_eq_left (show 1 ≤ tabWidth from htabWidth), Doc.work, Doc.work,
    work_levels, hcontents]
  omega

/-- After its first newline, the layout is behind the margin of the one that starts without. -/
theorem State.within_started (hlead : Indentation.Leads settings lead margin n) (d : Doc) :
    let wide := State.started (settings.widened n) (.ofQueue settings lead none) d
    State.Within settings lead n (State.start d) wide ∧
      wide.out.text = settings.newline.toList ++ margin := by
  have hnone : (Indentation.ofQueue settings [] none).value = [] := rfl
  have hvalue := hlead.value []
  have hwidth := hlead.width []
  rw [List.append_nil] at hvalue hwidth
  rw [hnone, List.append_nil] at hvalue
  refine ⟨⟨?_, rfl, rfl, rfl, hwidth⟩, ?_⟩
  · simp [State.started, State.opening, State.start, Command.within, Indentation.within,
      Indentation.none]
  · rw [State.started, Output.text_append, hvalue]
    rfl

/-- **A document at a column** has the layout that it has at the start of a line, behind a margin, on a
page that is narrower by the column. -/
theorem formatted_alignTo {d : Doc} (hd : d.Every Movable) (hn : 0 < n)
    (htabWidth : 0 < settings.tabWidth) (htabs : settings.useTabs = false ∨ settings.tabWidth ∣ n)
    (hnewline : IsNewline settings.newline.toList) :
    (print (settings.widened n)
        (Doc.alignTo (.concat [Doc.hardline, d]) n settings.tabWidth)).formatted =
      settings.newline ++ indented (marginOf settings n) (print settings d).formatted := by
  set e := d.propagateBreaks with he
  have hlead := Indentation.leads_leadOf htabs
  have hholds : (State.start e).Holds (Command.Movable settings) :=
    State.holds_start (Indentation.Levelled.none settings) (hd.propagateBreaks fun _ => (·.propagateBreaks))
  obtain ⟨hwithin, hstart⟩ := State.within_started hlead e
  obtain ⟨htrace, hinline⟩ := hwithin.trace_eq hlead hholds e.work
  have hwritten : Written settings.newline.toList (marginOf settings n) []
      (settings.newline.toList ++ marginOf settings n) := by
    have hempty : Written settings.newline.toList (marginOf settings n) ([] ++ []) _ := .intro rfl nofun
    simpa [indentedFrom] using hempty
  have hend := (hwritten.writeAll hinline hnewline hlead.blank).trimEnd_eq hnewline hlead.blank
  have hrun := State.run_alignTo (settings.widened n) htabWidth hn e e.work
  rw [← work_alignTo htabWidth hn, he, ← propagateBreaks_alignTo hn, ← he,
    Indentation.ofQueue_widened] at hrun
  rw [print, hrun, State.formatted_finish, State.text_run, htrace, hstart, formatted_eq_assemble]
  refine (congrArg String.ofList hend).trans ?_
  rw [String.ofList_append, String.ofList_toList, indented, String.toList_ofList]
  rfl

end CodeFormatter.Layout
