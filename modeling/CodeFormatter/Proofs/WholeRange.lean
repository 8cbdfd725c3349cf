import CodeFormatter.Proofs.ByteOrderMark
import CodeFormatter.Proofs.JavaScript.FormattedRanges
import CodeFormatter.Proofs.Walk.Scenes

/-!
# Ranges that cover the text

A range from the start of a text to its end, or beyond, asks for the whole of it, and `formatRange` sees
this: the text is formatted as a whole. Whether a pragma is put in is decided before, and there only the
absence of an end counts as the whole text. So a range that covers the text is no range, but for the pragma
(`not_no_range`).

**Theorem (`format_covering`).** A range that covers the text is the same as no range at all and no wish for
a pragma; and the same as no range if there is no such wish, or the text has a pragma already. The language
must not look at the range itself, and its `preprocess` must not make the text longer than the range.
-/

namespace CodeFormatter

open Pipeline Walk

/-- The options with another end of the range, and another wish for a pragma. -/
def Options.ranged (o : Options) (stop : Option Nat) (insert : Bool) : Options :=
  { o with rangeEnd := stop, insertPragma := insert }

def Scene.ranged (scene : Scene) (stop : Option Nat) (insert : Bool) : Scene :=
  { scene with options := scene.options.ranged stop insert }

/-- A language that leaves it to the formatter where a range ends and whether a pragma is put in. -/
structure Language.IgnoresRange {α : Type} (l : Language α) : Prop where
  preprocess : ∀ o stop insert text, l.preprocess (o.ranged stop insert) text = l.preprocess o text
  parse : ∀ o stop insert text, l.parse (o.ranged stop insert) text = l.parse o text
  print : ∀ scene stop insert path children,
    l.print (scene.ranged stop insert) path children = l.print scene path children
  embed : ∀ scene stop insert path children,
    l.embed (scene.ranged stop insert) path children = l.embed scene path children
  /-- The text does not grow before it is parsed. -/
  shrinks : ∀ o text, (l.preprocess o text).utf8ByteSize ≤ text.utf8ByteSize

section

variable {α : Type} {language : Language α} {embedding : Embedding} {o : Options} {stop : Option Nat}
  {insert : Bool} {scene : Scene} {text : String}

/-! ## Documents -/

theorem visit_ranged (h : language.IgnoresRange) (path : Tree.Path α) (children : List (Printable α)) :
    visit language (scene.ranged stop insert) path children = visit language scene path children := by
  rw [visit, visit, printNode, printNode, h.embed, h.print,
    verbatim_congr (a := scene.ranged stop insert) (b := scene) rfl,
    withComments_congr (a := scene.ranged stop insert) (b := scene) rfl]
  rfl

mutual

theorem ofTree_ranged (h : language.IgnoresRange) (ancestors : List (Tree α)) : ∀ t : Tree α,
    Printable.ofTree language (scene.ranged stop insert) ancestors t =
      Printable.ofTree language scene ancestors t
  | ⟨id, start, stop, info, children⟩ => by
    rw [Printable.ofTree, Printable.ofTree, ofTrees_ranged h _ children, visit_ranged h]

theorem ofTrees_ranged (h : language.IgnoresRange) (ancestors : List (Tree α)) : ∀ ts : List (Tree α),
    Printable.ofTrees language (scene.ranged stop insert) ancestors ts =
      Printable.ofTrees language scene ancestors ts
  | [] => rfl
  | t :: rest => by
    rw [Printable.ofTrees, Printable.ofTrees, ofTree_ranged h ancestors t, ofTrees_ranged h ancestors rest]

end

theorem printTree_ranged (h : language.IgnoresRange) (tree : Tree α) (column : Nat) :
    printTree language (scene.ranged stop insert) tree column = printTree language scene tree column := by
  rw [printTree, printTree, ofTree_ranged h]
  rfl

/-! ## Texts -/

/-- The job with another end of the range, and another wish for a pragma. -/
def Pipeline.Job.ranged (job : Job) (stop : Option Nat) (insert : Bool) : Job :=
  { job with options := job.options.ranged stop insert }

theorem printParsed_ranged (h : language.IgnoresRange) (job : Job) (parsed : Parsed α) :
    printParsed language embedding (job.ranged stop insert) parsed 0 =
      printParsed language embedding job parsed 0 := by
  rw [printParsed_zero, printParsed_zero]
  change printTree language ((sceneFor language embedding job parsed.tree).ranged stop insert) _ _ _ >>=
    _ = _
  rw [printTree_ranged h]
  rfl

theorem unmark_ranged (o : Options) (stop : Option Nat) (insert : Bool) (text : String) :
    unmark (o.ranged stop insert) text =
      (unmark o text).ranged (if startsWithMark text then stop.map (· - 3) else stop) insert := by
  unfold unmark
  split <;> rfl

/-- The end of the range is where the text ends, or behind it. -/
def Covers (o : Options) (text : String) : Prop :=
  o.rangeStart = 0 ∧ ∀ stop ∈ o.rangeEnd, text.utf8ByteSize ≤ stop

/-- **A range that covers the text** is not formatted as a range. -/
theorem formatRange_of_covers {job : Job} (h : Covers job.options job.text) (tree : Tree α) :
    formatRange language embedding job tree = .ok none := by
  obtain ⟨hstart, hstop⟩ := h
  have hend : min (job.options.rangeEnd.getD job.text.utf8ByteSize) job.text.utf8ByteSize =
      job.text.utf8ByteSize := by
    cases hrange : job.options.rangeEnd with
    | none => simp
    | some stop => exact Nat.min_eq_right (hstop stop hrange)
  unfold formatRange
  simp only [hstart, hend, decide_true, Bool.and_self, if_true]
  rfl

/-- It still covers the text when a mark is set aside. -/
theorem covers_unmark (h : Covers o text) : Covers (unmark o text).options (stripMark text) := by
  have hsize := congrArg String.utf8ByteSize (JavaScript.restoreMark_unmark o text)
  unfold unmark at hsize ⊢
  split at hsize <;> rename_i hmark
  · rw [size_restoreMark] at hsize
    rw [if_pos hmark]
    refine ⟨show o.rangeStart - 3 = 0 by rw [h.1], fun stop hstop => ?_⟩
    obtain ⟨e, he, rfl⟩ := Option.map_eq_some_iff.mp hstop
    have hle := h.2 e he
    omega
  · rw [if_neg hmark]
    have hstrip : stripMark text = text := by rw [stripMark, if_neg hmark]
    rw [hstrip]
    exact h

/-- No pragma is put into the text. -/
def KeepsText (language : Language α) (o : Options) (text : String) : Prop :=
  (o.insertPragma && !language.hasPragma (stripMark text) && o.formatsWholeFile) = false

/-- The text without a mark, as it is parsed when no pragma is put in. -/
def keptJob (language : Language α) (o : Options) (text : String) : Job :=
  { unmark o text with text := language.preprocess (unmark o text).options (stripMark text) }

theorem prepare_of_keepsText (hcovers : Covers o text) (h : KeepsText language o text) :
    prepare language o text = .ok (keptJob language o text) := by
  have hkeeps : ((unmark o text).options.insertPragma && !language.hasPragma (unmark o text).text &&
      (unmark o text).options.formatsWholeFile) = false := by
    rw [JavaScript.unmark_text, ← h]
    unfold unmark
    split
    · simp [Options.formatsWholeFile, hcovers.1]
    · rfl
  have hready : addPragma language (unmark o text) = .ok (unmark o text) := by
    rw [addPragma, if_neg (Bool.eq_false_iff.mp hkeeps)]
    rfl
  rw [prepare, hready, keptJob, ← JavaScript.unmark_text o text]
  rfl

/-- It still covers the text that is parsed. -/
theorem covers_keptJob (h : language.IgnoresRange) (hcovers : Covers o text) :
    Covers (keptJob language o text).options (keptJob language o text).text :=
  ⟨(covers_unmark hcovers).1, fun stop hstop =>
    (h.shrinks _ _).trans ((covers_unmark hcovers).2 stop hstop)⟩

/-- **A text whose range covers it** is formatted as a whole, if no pragma is put in. -/
theorem formatText_of_covers (hcovers : Covers o text) (hkeeps : KeepsText language o text)
    (hkept : Covers (keptJob language o text).options (keptJob language o text).text) :
    formatText language embedding o text =
      if o.requirePragma && !language.hasPragma (stripMark text) then .ok ⟨text, none⟩
      else
        let job := keptJob language o text
        language.parse job.options job.text >>= fun parsed =>
          printParsed language embedding job parsed 0 := by
  rw [formatText, prepare_of_keepsText hcovers hkeeps]
  split
  · rfl
  · change language.parse (keptJob language o text).options (keptJob language o text).text >>= _ = _
    refine bind_congr fun parsed => ?_
    rw [formatRange_of_covers hkept]
    rfl

/-- **Where a range ends** does not matter if it covers the text, and neither does a wish for a pragma that
is not put in. -/
theorem formatText_ranged (h : language.IgnoresRange) (hcovers : Covers o text)
    (hkeeps : KeepsText language o text) (hcovers' : Covers (o.ranged stop insert) text)
    (hkeeps' : KeepsText language (o.ranged stop insert) text) :
    formatText language embedding (o.ranged stop insert) text = formatText language embedding o text := by
  rw [formatText_of_covers hcovers hkeeps (covers_keptJob h hcovers),
    formatText_of_covers hcovers' hkeeps' (covers_keptJob h hcovers')]
  have hjob : keptJob language (o.ranged stop insert) text =
      (keptJob language o text).ranged (if startsWithMark text then stop.map (· - 3) else stop) insert := by
    rw [keptJob, unmark_ranged]
    simp only [Job.ranged, h.preprocess]
    rfl
  dsimp only
  rw [hjob]
  simp only [printParsed_ranged h]
  simp only [Job.ranged, h.parse]
  rfl

/-! ## The formatter -/

theorem keepsText_of_rangeEnd {e : Nat} (h : o.rangeEnd = some e) : KeepsText language o text := by
  simp [KeepsText, Options.formatsWholeFile, h]

/-- **A range that covers the text is no range**, but for the pragma: a pragma is put in only if there is no
end of the range. -/
theorem format_covering {languages : List Registered}
    (hlanguages : ∀ r ∈ languages, ∃ (β : Type) (l : Language β), r = .ofLanguage l ∧ l.IgnoresRange)
    {e : Nat} (hvalid : o.validate = .ok ()) (hstart : o.rangeStart = 0) (hstop : text.utf8ByteSize ≤ e) :
    let f := Formatter.ofLanguages languages
    f.formatWithCursor text { o with rangeEnd := some e } =
        f.formatWithCursor text { o with rangeEnd := none, insertPragma := false } ∧
      ((o.insertPragma = false ∨ ∀ (β : Type) (l : Language β),
          f.languageFor (f.named o) = .ok (.ofLanguage l) → l.hasPragma (stripMark text) = true) →
        f.formatWithCursor text { o with rangeEnd := some e } =
          f.formatWithCursor text { o with rangeEnd := none }) := by
  intro f
  obtain ⟨hwidth, htab, -⟩ := JavaScript.validate_eq_ok_iff.mp hvalid
  have hranged : ({ o with rangeEnd := some e } : Options).validate = .ok () :=
    JavaScript.validate_eq_ok_iff.mpr ⟨hwidth, htab, fun stop _ => by simp [hstart]⟩
  -- Both halves compare the range with no range, for some wish for a pragma that has no effect.
  have hmain : ∀ insert, (∀ (β : Type) (l : Language β),
      f.languageFor (f.named o) = .ok (.ofLanguage l) →
        KeepsText l ((f.named o).ranged none insert) text) →
      f.formatWithCursor text { o with rangeEnd := some e } =
        f.formatWithCursor text { o with rangeEnd := none, insertPragma := insert } := by
    intro insert hkeeps
    have hvalid' : ({ o with rangeEnd := none, insertPragma := insert } : Options).validate = .ok () :=
      JavaScript.validate_eq_ok_iff.mpr ⟨hwidth, htab, nofun⟩
    let n := (f.named o).ranged none insert
    have hnone : Covers n text := ⟨hstart, nofun⟩
    have hsome : Covers (n.ranged (some e) o.insertPragma) text :=
      ⟨hstart, fun stop hs => Option.some.inj hs ▸ hstop⟩
    refine (Formatter.formatNested_congr (g := id) hvalid' hranged rfl rfl fun r hr => ?_).trans
      (id_map _)
    obtain ⟨β, l, rfl, hl⟩ := hlanguages r (Formatter.mem_of_languageFor hr)
    rw [id_map]
    have hsame : formatText l (f.embedding (f.nesting text)) (n.ranged (some e) o.insertPragma) text =
        formatText l (f.embedding (f.nesting text)) n text :=
      formatText_ranged hl hnone (hkeeps β l hr) hsome (keepsText_of_rangeEnd rfl)
    exact hsame
  refine ⟨hmain false fun β l _ => rfl, fun hpragma => hmain o.insertPragma fun β l hl => ?_⟩
  rcases hpragma with hinsert | hpragma
  · simp [KeepsText, Options.ranged, hinsert]
  · simp [KeepsText, hpragma β l hl]

end

/-! ## JavaScript -/

namespace JavaScript

/-- Printers look at other options than these, and code in templates is formatted as a whole. -/
theorem ignoresRange_parsing (p : TextParser) : (parsing p).IgnoresRange where
  preprocess _ _ _ _ := rfl
  parse _ _ _ _ := rfl
  print scene stop insert path children := by
    have halike : Alike (scene.ranged stop insert) scene :=
      ⟨rfl, rfl, rfl, rfl, rfl, rfl, rfl, fun _ _ _ => rfl⟩
    exact halike.print path
  embed scene stop insert path children := by
    have halike : Alike (scene.ranged stop insert) scene :=
      ⟨rfl, rfl, rfl, rfl, rfl, rfl, rfl, fun _ _ _ => rfl⟩
    exact halike.embed path
  shrinks _ _ := le_rfl

/-- A name with a pragma that is asked for, but not put in. -/
theorem format_covering_name :
    formatter.formatWithCursor "a" { parser := some "javascript", insertPragma := true, rangeEnd := some 1 } =
        .ok ⟨"a;\n", none⟩ ∧
      formatter.formatWithCursor "a" { parser := some "javascript", cursorOffset := some 1, rangeEnd := some 9 } =
        .ok ⟨"a;\n", some 1⟩ := by
  have hlanguages : ∀ r ∈ [Registered.ofLanguage (parsing parse)],
      ∃ (β : Type) (l : Language β), r = .ofLanguage l ∧ l.IgnoresRange :=
    fun r hr => ⟨Info, parsing parse, List.mem_singleton.mp hr, ignoresRange_parsing parse⟩
  have hone : "a".utf8ByteSize ≤ 1 := by decide
  have hnine : "a".utf8ByteSize ≤ 9 := by decide
  constructor
  · obtain ⟨hsame, -⟩ := format_covering hlanguages
      (o := { parser := some "javascript", insertPragma := true }) rfl rfl hone
    exact hsame.trans (by decide +kernel)
  · obtain ⟨-, hsame⟩ := format_covering hlanguages
      (o := { parser := some "javascript", cursorOffset := some 1 }) rfl rfl hnine
    exact (hsame (.inl rfl)).trans (by decide +kernel)

/-- A pragma is put in, unless the end of the text is given as the end of the range. -/
theorem not_no_range :
    ¬ ∀ (text : String) (o : Options) (e : Nat), o.validate = .ok () → o.rangeStart = 0 →
      text.utf8ByteSize ≤ e →
        formatter.formatWithCursor text { o with rangeEnd := some e } =
          formatter.formatWithCursor text { o with rangeEnd := none } := by
  intro h
  have hrange : formatter.formatWithCursor "a"
      { parser := some "javascript", insertPragma := true, rangeEnd := some 1 } = .ok ⟨"a;\n", none⟩ := by
    decide +kernel
  have hwhole : formatter.formatWithCursor "a" { parser := some "javascript", insertPragma := true } =
      .ok ⟨"/** @format */\n\na;\n", none⟩ := by
    decide +kernel
  have hsame := h "a" { parser := some "javascript", insertPragma := true } 1 rfl rfl (by decide)
  exact absurd ((hrange.symm.trans hsame).trans hwhole) (by decide)

end JavaScript

end CodeFormatter
