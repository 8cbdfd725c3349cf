import CodeFormatter.Proofs.JavaScript.LineEndings
import CodeFormatter.Proofs.JavaScript.Docblock
import CodeFormatter.Proofs.Layout.TrailingBlanks
import CodeFormatter.Proofs.Layout.WordWrap

/-!
# Comments that are written again

A comment whose lines all start with an asterisk is taken apart and laid out anew, each line behind the
indentation of the place where it is written. Any other comment is copied.

**Theorem (`print_formatted`).** What is written is a single comment again, and taking it apart again gives
the same document, at any depth, with tabs or spaces and with newlines of both kinds.

- *The lines come back.* What is put in front of a line is the indentation, and behind it there may be a
  carriage return. Both are blank, and blanks around a line are what is taken away from it.
- *No line ends the comment early.* Lines are parts of the comment, and between them there is no asterisk and
  no slash.
-/

namespace CodeFormatter

open Layout

variable {cs ds first last indentation mark : List Char} {middle rest : List (List Char)}
  {settings : Settings}

/-! ## Blanks around a line -/

theorem trimLeft_eq_self (h : ∀ c ∈ cs.head?, isBlank c = false) : trimLeft cs = cs := by
  cases cs with
  | nil => rfl
  | cons c cs => rw [trimLeft, List.dropWhile_cons_of_neg (by simp [h c rfl])]

theorem trimLeft_trimLeft_append (cs ds : List Char) : trimLeft (trimLeft cs ++ ds) = trimLeft (cs ++ ds) := by
  conv_rhs => rw [← takeWhile_append_trimLeft cs, List.append_assoc]
  rw [trimLeft_append_of_blank fun _ => List.mem_takeWhile_imp]

/-- The first character that is not blank stays the first one. -/
theorem head?_trimBoth {c : Char} (h : (trimLeft cs).head? = some c) : (trimBoth cs).head? = some c := by
  obtain ⟨blanks, hblanks⟩ := isPrefix_trimRight (trimLeft cs)
  cases hboth : trimBoth cs with
  | nil =>
    -- All of what is left would be blank, but its first character is not.
    have hall := List.rdropWhile_eq_nil_iff.mp hboth
    have hblank : isBlank c = true := hall c (List.mem_of_mem_head? h)
    rw [head?_trimLeft h] at hblank
    cases hblank
  | cons d rest =>
    rw [trimBoth] at hboth
    rw [← hblanks, hboth] at h
    exact h

/-- Blanks around a line that was trimmed are taken away again. -/
theorem trimBoth_of_blank {c : Char} (h : (trimLeft cs).head? = some c)
    (hindentation : ∀ c ∈ indentation, isBlank c = true) (hmark : ∀ c ∈ mark, isBlank c = true) :
    trimLeft (indentation ++ trimBoth cs ++ mark) = trimBoth cs ++ mark ∧
      trimBoth (indentation ++ trimBoth cs ++ mark) = trimBoth cs := by
  have hleft : trimLeft (indentation ++ trimBoth cs ++ mark) = trimBoth cs ++ mark := by
    rw [List.append_assoc, trimLeft_append_of_blank hindentation]
    apply trimLeft_eq_self
    intro d hd
    rw [List.head?_append, head?_trimBoth h, Option.some_or] at hd
    obtain rfl := Option.mem_some_iff.mp hd
    exact head?_trimLeft h
  refine ⟨hleft, ?_⟩
  rw [trimBoth, hleft, trimRight_append_of_blank hmark]
  exact List.rdropWhile_idempotent isBlank (trimLeft cs)

/-! ## Lines -/

theorem pieces_of_not_mem (h : '\n' ∉ cs) : pieces cs = [cs] := by
  apply List.splitOnP_eq_singleton
  intro c hc
  rw [beq_eq_false_iff_ne]
  rintro rfl
  exact h hc

theorem pieces_append_newline (h : '\n' ∉ first) (cs : List Char) :
    pieces (first ++ '\n' :: cs) = first :: pieces cs := by
  apply List.splitOnP_append_cons_of_forall_mem
  · intro c hc
    rw [beq_eq_false_iff_ne]
    rintro rfl
    exact h hc
  · rfl

/-- Lines, with this between each two of them. -/
def joinLines (separator first : List Char) (rest : List (List Char)) : List Char :=
  first ++ rest.flatMap (separator ++ ·)

theorem joinLines_cons (separator first line : List Char) (rest : List (List Char)) :
    joinLines separator first (line :: rest) = first ++ separator ++ joinLines separator line rest := by
  simp [joinLines]

theorem joinLines_append (separator first : List Char) (rest rest' : List (List Char)) :
    joinLines separator first (rest ++ rest') = joinLines separator first rest ++ rest'.flatMap (separator ++ ·) := by
  simp [joinLines]

/-- **The lines of a text whose lines were joined**: each but the first is behind the indentation, and each
but the last is in front of the mark. -/
theorem pieces_joinLines (hmark : '\n' ∉ mark) (hindentation : '\n' ∉ indentation) (hfirst : '\n' ∉ first)
    (hmiddle : ∀ l ∈ middle, '\n' ∉ l) (hlast : '\n' ∉ last) :
    pieces (joinLines (mark ++ '\n' :: indentation) first (middle ++ [last])) =
      (first ++ mark) :: (middle.map (indentation ++ · ++ mark) ++ [indentation ++ last]) := by
  induction middle generalizing first with
  | nil =>
    have hend : pieces (indentation ++ last) = [indentation ++ last] :=
      pieces_of_not_mem (by simp [hindentation, hlast])
    have hjoin : joinLines (mark ++ '\n' :: indentation) first ([] ++ [last]) =
        (first ++ mark) ++ '\n' :: (indentation ++ last) := by
      simp [joinLines]
    rw [hjoin, pieces_append_newline (by simp [hfirst, hmark]), hend]
    rfl
  | cons line middle ih =>
    obtain ⟨hline, hmiddle⟩ := List.forall_mem_cons.mp hmiddle
    have hjoin : joinLines (mark ++ '\n' :: indentation) first (line :: middle ++ [last]) =
        (first ++ mark) ++ '\n' :: joinLines (mark ++ '\n' :: indentation) (indentation ++ line)
          (middle ++ [last]) := by
      simp [joinLines]
    rw [hjoin, pieces_append_newline (by simp [hfirst, hmark]),
      ih (by simp [hindentation, hline]) hmiddle]
    rfl

/-- A text is its lines, joined. -/
theorem joinLines_pieces (h : pieces cs = first :: rest) : joinLines ['\n'] first rest = cs := by
  have hall : ∀ first, joinLines ['\n'] first rest = ['\n'].intercalate (first :: rest) := by
    clear h
    induction rest with
    | nil => simp [joinLines]
    | cons line rest ih =>
      intro first
      rw [joinLines_cons, ih, List.intercalate_cons_of_ne_nil (List.cons_ne_nil _ _)]
  rw [hall, ← h, pieces, List.intercalate_splitOn]

/-! ## Layouts of lines -/

namespace Layout

/-- The layout of a document without choices, at any depth. -/
theorem formatted_levels {d : Doc} (h : Simulated settings .broken d.propagateBreaks) (depth : Nat) :
    ∃ a, (print settings (Nat.repeat Doc.indent depth d)).formatted =
      String.ofList (assemble settings.newline.toList (render settings d.propagateBreaks a
        (.ofQueue settings (List.replicate depth .level) none) .broken []).1) := by
  obtain ⟨a, st, left, -, hrun, -, hren⟩ :=
    h (State.opening (.ofQueue settings (List.replicate depth .level) none) d.propagateBreaks) _ []
      d.propagateBreaks.work rfl ⟨rfl, rfl⟩ le_rfl
  have hlevels := State.run_levels settings depth d.propagateBreaks [] d.propagateBreaks.work
  have hstart : State.start (Nat.repeat Doc.indent depth d.propagateBreaks) =
      State.opening (.ofQueue settings [] none) (Nat.repeat Doc.indent depth d.propagateBreaks) := rfl
  refine ⟨a, ?_⟩
  rw [print, propagateBreaks_levels, work_levels, hstart, hlevels, List.nil_append, hrun,
    State.run_of_commands_nil hren.commands, State.formatted_finish, hren.text]
  rfl

theorem value_levels (settings : Settings) (depth : Nat) :
    (Indentation.ofQueue settings (List.replicate depth .level) none).value =
      Indentation.levels settings depth := by
  rw [ofQueue_levels]

theorem trimEnd_eq_self (h : endsBlank cs = false) : trimEnd cs = cs := by
  apply List.rdropWhile_eq_self_iff.mpr
  intro hne
  rw [endsBlank, List.getLast?_eq_some_getLast hne, Option.any_some] at h
  simp [h]

/-- What ends in a line that does not end in a blank, does not end in a blank. -/
theorem endsBlank_append (hne : ds ≠ []) : endsBlank (cs ++ ds) = endsBlank ds := by
  rw [endsBlank, List.getLast?_append_of_ne_nil cs hne, endsBlank]

/-- Lines behind an indentation are written as they are, if no line but the last ends in a blank. -/
theorem writeAll_lines (newline : List Char) (hcs : endsBlank cs = false)
    (hmiddle : ∀ l ∈ middle, l ≠ [] ∧ endsBlank l = false) :
    writeAll newline cs ((middle ++ [last]).flatMap fun l => [.newline true indentation, .text l]) =
      joinLines (newline ++ indentation) cs (middle ++ [last]) := by
  induction middle generalizing cs with
  | nil => simp [joinLines, Piece.write, trimEnd_eq_self hcs]
  | cons line middle ih =>
    obtain ⟨⟨hne, hline⟩, hmiddle⟩ := List.forall_mem_cons.mp hmiddle
    have hwritten : endsBlank (cs ++ newline ++ indentation ++ line) = false := by
      rw [endsBlank_append hne, hline]
    rw [List.cons_append, List.flatMap_cons, writeAll_append, joinLines_cons]
    simp only [writeAll_cons, writeAll_nil, Piece.write, if_true, trimEnd_eq_self hcs]
    rw [ih hwritten hmiddle]
    simp [joinLines]

end Layout

/-! ## The lines of a comment -/

namespace JavaScript.CommentText

open Pragma

/-- A comment with these lines. -/
def linesDoc (lines : List (List Char)) : Doc :=
  .concat [.text "/*", Doc.join Doc.hardline (lines.map fun line => .text (String.ofList line)), .text "*/"]

/-- What is written of a line that is neither the first nor the last one. -/
def middleLine (line : List Char) : List Char := ' ' :: trimBoth line

/-- What is written of the last line. -/
def lastLine (line : List Char) : List Char := ' ' :: trimLeft line

theorem alignedLines_append (middle : List (List Char)) (last : List Char) :
    alignedLines (middle ++ [last]) = middle.map middleLine ++ [lastLine last] := by
  induction middle with
  | nil => rfl
  | cons line middle ih =>
    have hne : middle ++ [last] = [] → False := by simp
    rw [List.cons_append, alignedLines.eq_3 _ _ hne, ih]
    rfl

/-- Does the first character that is not blank be an asterisk? -/
def isStarred (line : List Char) : Bool := (trimLeft line).head? == some '*'

/-- The first line of a comment, the lines in the middle and the last one. Those in the middle start with an
asterisk, and the last one does or is blank. -/
structure Starred (body first : List Char) (middle : List (List Char)) (last : List Char) : Prop where
  pieces_eq : pieces body = first :: (middle ++ [last])
  middle : ∀ l ∈ middle, isStarred l = true
  last : isStarred (last ++ ['*']) = true

/-- What stands around the line feed between two lines: carriage returns and an indentation. -/
structure Separates (mark indentation : List Char) : Prop where
  mark : ∀ c ∈ mark, c = '\r'
  indentation : ∀ c ∈ indentation, isPadding c = true

namespace Separates

theorem isBlank_mark (h : Separates mark indentation) : ∀ c ∈ mark, isBlank c = true := by
  intro c hc
  rw [h.mark c hc]
  decide

theorem isBlank_indentation (h : Separates mark indentation) : ∀ c ∈ indentation, isBlank c = true := by
  intro c hc
  have hpadding := h.indentation c hc
  rw [isPadding, Bool.or_eq_true, beq_iff_eq, beq_iff_eq] at hpadding
  rcases hpadding with rfl | rfl <;> decide

theorem newline_notMem_mark (h : Separates mark indentation) : '\n' ∉ mark :=
  fun hc => absurd (h.mark _ hc) (by decide)

theorem newline_notMem_indentation (h : Separates mark indentation) : '\n' ∉ indentation :=
  fun hc => absurd (h.indentation _ hc) (by decide)

end Separates

theorem newline_notMem_of_pieces (h : pieces cs = first :: (middle ++ [last])) :
    '\n' ∉ first ∧ (∀ l ∈ middle, '\n' ∉ l) ∧ '\n' ∉ last := by
  have hfeed : ∀ line ∈ first :: (middle ++ [last]), '\n' ∉ line := by
    intro line hline hmem
    exact (mem_of_mem_pieces (h ▸ hline) hmem).2 rfl
  obtain ⟨hfirst, hrest⟩ := List.forall_mem_cons.mp hfeed
  obtain ⟨hmiddle, hlast⟩ := List.forall_mem_append.mp hrest
  exact ⟨hfirst, hmiddle, hlast last (List.mem_singleton_self last)⟩

namespace Starred

variable {body : List Char}

/-- The lines that are written. -/
theorem indentedLines_eq (h : Starred body first middle last) :
    indentedLines (pieces body) = trimRight first :: (middle.map middleLine ++ [lastLine last]) := by
  rw [h.pieces_eq, indentedLines, alignedLines_append]

end Starred

/-- A comment is looked at with an asterisk at both ends. -/
theorem isIndentable_iff_of_pieces (h : pieces cs = first :: (middle ++ [last])) :
    isIndentable cs = true ↔ (∀ l ∈ middle, isStarred l = true) ∧ isStarred (last ++ ['*']) = true := by
  obtain ⟨hfirst, hmiddle, hlast⟩ := newline_notMem_of_pieces h
  have hjoin : joinLines ['\n'] first (middle ++ [last]) = cs := joinLines_pieces h
  have hbody : '*' :: cs ++ ['*'] = joinLines ([] ++ '\n' :: []) ('*' :: first) (middle ++ [last ++ ['*']]) := by
    rw [← hjoin]
    simp [joinLines]
  have hpieces : pieces (joinLines ([] ++ '\n' :: []) ('*' :: first) (middle ++ [last ++ ['*']])) = _ :=
    pieces_joinLines (by simp) (by simp) (by simp [hfirst]) hmiddle (by simp [hlast])
  rw [isIndentable, hbody, hpieces]
  simp [isStarred, trimLeft, isBlank]

/-- **When a comment is indentable.** -/
theorem isIndentable_iff : isIndentable cs = true ↔ ∃ first middle last, Starred cs first middle last := by
  constructor
  · intro h
    cases hpieces : pieces cs with
    | nil => exact absurd hpieces (List.splitOnP_ne_nil _ cs)
    | cons first rest =>
      rcases List.eq_nil_or_concat rest with rfl | ⟨middle, last, rfl⟩
      · -- A comment of one line is not indentable.
        exfalso
        have hfirst : first = cs := by simpa [joinLines] using joinLines_pieces hpieces
        have hself : cs ∈ pieces cs := by simp [hpieces, hfirst]
        have hfeed : '\n' ∉ cs := fun hmem => (mem_of_mem_pieces hself hmem).2 rfl
        have hstars : pieces ('*' :: cs ++ ['*']) = ['*' :: cs ++ ['*']] :=
          pieces_of_not_mem (by simp [hfeed])
        rw [isIndentable, hstars] at h
        cases h
      · rw [List.concat_eq_append] at hpieces
        obtain ⟨hmiddle, hlast⟩ := (isIndentable_iff_of_pieces hpieces).mp h
        exact ⟨first, middle, last, hpieces, hmiddle, hlast⟩
  · rintro ⟨first, middle, last, h⟩
    exact (isIndentable_iff_of_pieces h.pieces_eq).mpr ⟨h.middle, h.last⟩

/-! ## Taking it apart again -/

/-- A line in the middle comes back, and it still starts with an asterisk. -/
theorem middleLine_middleLine (h : isStarred cs = true) (hseparates : Separates mark indentation) :
    middleLine (indentation ++ middleLine cs ++ mark) = middleLine cs ∧
      isStarred (indentation ++ middleLine cs ++ mark) = true := by
  have hstar : (trimLeft cs).head? = some '*' := beq_iff_eq.mp h
  have hspace : ∀ c ∈ indentation ++ [' '], isBlank c = true :=
    List.forall_mem_append.mpr ⟨hseparates.isBlank_indentation, List.forall_mem_singleton.mpr rfl⟩
  have hline : indentation ++ middleLine cs ++ mark = (indentation ++ [' ']) ++ trimBoth cs ++ mark := by
    simp [middleLine]
  obtain ⟨hleft, hboth⟩ := trimBoth_of_blank hstar hspace hseparates.isBlank_mark
  rw [hline, middleLine, middleLine, hboth, isStarred, hleft, List.head?_append, head?_trimBoth hstar]
  exact ⟨rfl, rfl⟩

/-- So does the last line. -/
theorem trimLeft_lastLine (hseparates : Separates mark indentation) (cs ds : List Char) :
    trimLeft (indentation ++ lastLine cs ++ ds) = trimLeft (cs ++ ds) := by
  have hspace : ∀ c ∈ indentation ++ [' '], isBlank c = true :=
    List.forall_mem_append.mpr ⟨hseparates.isBlank_indentation, List.forall_mem_singleton.mpr rfl⟩
  have hline : indentation ++ lastLine cs ++ ds = (indentation ++ [' ']) ++ (trimLeft cs ++ ds) := by
    simp [lastLine]
  rw [hline, trimLeft_append_of_blank hspace, trimLeft_trimLeft_append]

theorem lastLine_lastLine (hseparates : Separates mark indentation) (cs : List Char) :
    lastLine (indentation ++ lastLine cs) = lastLine cs := by
  have hline := trimLeft_lastLine hseparates cs []
  rw [List.append_nil, List.append_nil] at hline
  rw [lastLine, hline, lastLine]

/-- What is written of an indentable comment. -/
def reindented (mark indentation first : List Char) (middle : List (List Char)) (last : List Char) :
    List Char :=
  joinLines (mark ++ '\n' :: indentation) (trimRight first) (middle.map middleLine ++ [lastLine last])

namespace Starred

variable {body : List Char}

/-- No line that is written has a line feed in it. -/
theorem newline_notMem_lines (h : Starred body first middle last) :
    '\n' ∉ trimRight first ∧ (∀ l ∈ middle.map middleLine, '\n' ∉ l) ∧ '\n' ∉ lastLine last := by
  obtain ⟨hfirst, hmiddle, hlast⟩ := newline_notMem_of_pieces h.pieces_eq
  refine ⟨fun hc => hfirst ((isPrefix_trimRight first).subset hc), ?_, ?_⟩
  · intro line hline
    obtain ⟨l, hl, rfl⟩ := List.mem_map.mp hline
    rw [middleLine, List.mem_cons, not_or]
    exact ⟨by decide, fun hc => hmiddle l hl ((isInfix_trimBoth l).subset hc)⟩
  · rw [lastLine, List.mem_cons, not_or]
    exact ⟨by decide, fun hc => hlast ((List.dropWhile_suffix _).subset hc)⟩

/-- **It is indentable again.** -/
theorem starred_reindented (h : Starred body first middle last) (hseparates : Separates mark indentation) :
    Starred (reindented mark indentation first middle last) (trimRight first ++ mark)
      ((middle.map middleLine).map (indentation ++ · ++ mark)) (indentation ++ lastLine last) where
  pieces_eq := by
    obtain ⟨hfirst, hmiddle, hlast⟩ := h.newline_notMem_lines
    exact pieces_joinLines hseparates.newline_notMem_mark hseparates.newline_notMem_indentation hfirst
      hmiddle hlast
  middle l hl := by
    rw [List.map_map] at hl
    obtain ⟨line, hline, rfl⟩ := List.mem_map.mp hl
    exact (middleLine_middleLine (h.middle line hline) hseparates).2
  last := by
    rw [isStarred, trimLeft_lastLine hseparates]
    exact h.last

/-- **The lines come back.** -/
theorem indentedLines_reindented (h : Starred body first middle last)
    (hseparates : Separates mark indentation) :
    indentedLines (pieces (reindented mark indentation first middle last)) = indentedLines (pieces body) := by
  have hmiddle : ((middle.map middleLine).map (indentation ++ · ++ mark)).map middleLine =
      middle.map middleLine := by
    rw [List.map_map, List.map_map]
    apply List.map_congr_left
    intro l hl
    exact (middleLine_middleLine (h.middle l hl) hseparates).1
  have hfirst : trimRight (trimRight first ++ mark) = trimRight first := by
    rw [trimRight_append_of_blank hseparates.isBlank_mark]
    exact List.rdropWhile_idempotent isBlank first
  rw [(h.starred_reindented hseparates).indentedLines_eq, h.indentedLines_eq, hmiddle, hfirst,
    lastLine_lastLine hseparates]

end Starred

/-! ## Where it ends -/

/-- Lines in which no comment ends, with something between them that has no asterisk and no slash. -/
theorem unclosed_joinLines {separator : List Char} (hfirst : Unclosed first)
    (hrest : ∀ l ∈ rest, Unclosed l) (hseparator : ∀ c ∈ separator, c ≠ '*' ∧ c ≠ '/')
    (hne : separator ≠ []) : Unclosed (joinLines separator first rest) := by
  have hplain : Unclosed separator := by
    intro hpair
    exact (hseparator '*' (hpair.subset (by simp))).1 rfl
  induction rest generalizing first with
  | nil => simpa [joinLines] using hfirst
  | cons line rest ih =>
    obtain ⟨hline, hrest⟩ := List.forall_mem_cons.mp hrest
    have hseam : (first ++ separator).getLast? ≠ some '*' := by
      rw [List.getLast?_append_of_ne_nil _ hne]
      intro hstar
      exact (hseparator '*' (List.mem_of_getLast? hstar)).1 rfl
    have hslash : separator.head? ≠ some '/' := by
      intro hslash
      exact (hseparator '/' (List.mem_of_head? hslash)).2 rfl
    rw [joinLines_cons]
    exact (hfirst.append hplain (.inr hslash)).append (ih hline hrest) (.inl hseam)

/-- A line of a text is a part of it. -/
theorem isInfix_of_mem_joinLines {separator line : List Char} (h : line ∈ rest) :
    line <:+: joinLines separator first rest := by
  have hmem : separator ++ line ∈ rest.map (separator ++ ·) := List.mem_map_of_mem h
  have hpart : separator ++ line <:+: rest.flatMap (separator ++ ·) := List.infix_of_mem_flatten hmem
  exact (List.suffix_append separator line).isInfix.trans (hpart.trans (List.suffix_append first _).isInfix)

/-- **It ends where it did.** -/
theorem Starred.unclosed_reindented {body : List Char} (h : Starred body first middle last)
    (hbody : Unclosed (body ++ ['*'])) (hseparates : Separates mark indentation) :
    Unclosed (reindented mark indentation first middle last ++ ['*']) := by
  have hspaced : ∀ {line : List Char}, line <:+: body ++ ['*'] → Unclosed (' ' :: line) := by
    intro line hline
    have hspace : Unclosed [' '] := by
      rw [unclosed_iff_isChain]
      simp
    exact hspace.append (hbody.of_isInfix hline) (.inl (by decide))
  have hbefore : body <:+: body ++ ['*'] := (List.prefix_append _ _).isInfix
  have hlines : joinLines ['\n'] first (middle ++ [last]) = body := joinLines_pieces h.pieces_eq
  have hstar : reindented mark indentation first middle last ++ ['*'] = joinLines (mark ++ '\n' :: indentation)
      (trimRight first) (middle.map middleLine ++ [' ' :: (trimLeft last ++ ['*'])]) := by
    simp [reindented, joinLines, lastLine]
  rw [hstar]
  apply unclosed_joinLines
  · have hfirst : first <+: body := by
      rw [← hlines]
      exact List.prefix_append _ _
    exact hbody.of_isInfix (((isPrefix_trimRight first).trans hfirst).isInfix.trans hbefore)
  · rw [List.forall_mem_append, List.forall_mem_singleton]
    constructor
    · intro line hline
      obtain ⟨l, hl, rfl⟩ := List.mem_map.mp hline
      have hmem : l <:+: body := by
        rw [← hlines]
        exact isInfix_of_mem_joinLines (List.mem_append_left _ hl)
      exact hspaced ((isInfix_trimBoth l).trans (hmem.trans hbefore))
    · have hlast : last ++ ['*'] <:+ body ++ ['*'] := by
        rw [← hlines, joinLines_append]
        exact ⟨joinLines ['\n'] first middle ++ ['\n'], by simp⟩
      obtain ⟨blanks, hblanks⟩ := List.dropWhile_suffix isBlank (l := last)
      have hsuffix : trimLeft last ++ ['*'] <:+ last ++ ['*'] :=
        ⟨blanks, by rw [← List.append_assoc, trimLeft, hblanks]⟩
      exact hspaced (hsuffix.trans hlast).isInfix
  · rw [List.forall_mem_append, List.forall_mem_cons]
    refine ⟨fun c hc => ?_, by decide, fun c hc => ?_⟩
    · rw [hseparates.mark c hc]
      decide
    · have hpadding := hseparates.indentation c hc
      constructor <;> rintro rfl <;> cases hpadding
  · simp

/-! ## The layout of a comment -/

theorem forall_mem_intersperse {α : Type} {P : α → Prop} {separator : α} {l : List α}
    (hseparator : P separator) (h : ∀ a ∈ l, P a) : ∀ a ∈ l.intersperse separator, P a := by
  induction l with
  | nil => simp
  | cons a l ih =>
    obtain ⟨ha, hl⟩ := List.forall_mem_cons.mp h
    cases l with
    | nil => simpa using ha
    | cons b l =>
      rw [List.intersperse_cons_cons, List.forall_mem_cons, List.forall_mem_cons]
      exact ⟨ha, hseparator, ih hl⟩

theorem plain_linesDoc {lines : List (List Char)} (h : ∀ line ∈ lines, '\n' ∉ line) :
    (linesDoc lines).Plain fun _ => True := by
  apply Doc.Plain.concat
  simp only [List.forall_mem_cons]
  refine ⟨.text (by decide), .concat (forall_mem_intersperse .hardline fun d hd => ?_), .text (by decide),
    by simp⟩
  obtain ⟨line, hline, rfl⟩ := List.mem_map.mp hd
  exact .text (by simpa using h line hline)

/-- The lines are written one after another, with newlines between them. -/
theorem renderAll_lines (settings : Settings) (first : List Char) (rest : List (List Char))
    (a : Assignment) (i : Indentation) (modes : GroupModes) :
    renderAll settings ((((first :: rest).map fun line => Doc.text (String.ofList line)).intersperse
        Doc.hardline).map Doc.propagateBreaks) a i .broken modes =
      (.text first :: rest.flatMap fun line => [.newline true i.value, .text line], modes) := by
  have hbreak : ∀ a, render settings Doc.hardline.propagateBreaks a i .broken modes =
      ([.newline true i.value], modes) := by
    simp [render, renderAll, Doc.hardline, linePiece, breakPiece]
  have htext : ∀ line a, render settings (Doc.text (String.ofList line)).propagateBreaks a i .broken modes =
      ([.text line], modes) := by
    simp [render]
  induction rest generalizing first a with
  | nil => simp [renderAll, render]
  | cons line rest ih =>
    have hrest := ih line a.later.later
    rw [List.map_cons] at hrest
    rw [List.map_cons, List.map_cons, List.intersperse_cons_cons, List.map_cons, List.map_cons, renderAll,
      renderAll, htext, hbreak, hrest]
    rfl

theorem isBlank_of_isPadding {c : Char} (h : isPadding c = true) : isBlank c = true := by
  rw [isPadding, Bool.or_eq_true, beq_iff_eq, beq_iff_eq] at h
  rcases h with rfl | rfl <;> decide

theorem endsBlank_append_trimRight (h : endsBlank cs = false) (ds : List Char) :
    endsBlank (cs ++ trimRight ds) = false := by
  by_cases hds : trimRight ds = []
  · rwa [hds, List.append_nil]
  · rw [endsBlank_append hds, endsBlank, Option.any_eq_false]
    intro c hc
    rw [← Bool.not_eq_true]
    intro hpadding
    have hblank := isBlank_of_isPadding hpadding
    rw [getLast?_trimRight hc] at hblank
    cases hblank

/-- A line in the middle does not end in a blank. -/
theorem endsBlank_middleLine (h : isStarred cs = true) :
    middleLine cs ≠ [] ∧ endsBlank (middleLine cs) = false := by
  have hstar := head?_trimBoth (beq_iff_eq.mp h)
  have hne : trimBoth cs ≠ [] := by
    intro hnil
    rw [hnil] at hstar
    cases hstar
  have hline : middleLine cs = [' '] ++ trimBoth cs := rfl
  refine ⟨List.cons_ne_nil _ _, ?_⟩
  rw [hline, endsBlank_append hne]
  have hempty : endsBlank [] = false := rfl
  exact endsBlank_append_trimRight hempty (trimLeft cs)

theorem separates_levels (kind : LineEnding) (settings : Settings) (depth : Nat) :
    ∃ mark, kind.text.toList = mark ++ ['\n'] ∧
      Separates mark (Indentation.levels settings depth) := by
  have hlevels : ∀ c ∈ Indentation.levels settings depth, isPadding c = true := by
    intro c hc
    unfold Indentation.levels at hc
    split at hc <;> rw [List.eq_of_mem_replicate hc] <;> decide
  cases kind with
  | lf => exact ⟨[], by decide, by simp, hlevels⟩
  | crlf => exact ⟨['\r'], by decide, by simp, hlevels⟩

/-- **What is written of an indentable comment**: its lines, with newlines and the indentation between them. -/
theorem formatted_linesDoc {body : List Char} (h : Starred body first middle last)
    (hnewline : settings.newline.toList = mark ++ ['\n']) (depth : Nat) :
    (Layout.print settings (Nat.repeat Doc.indent depth (linesDoc (indentedLines (pieces body))))).formatted =
      String.ofList (['/', '*'] ++
        reindented mark (Indentation.levels settings depth) first middle last ++ ['*', '/']) := by
  have hlines : ∀ line ∈ indentedLines (pieces body), '\n' ∉ line := by
    obtain ⟨hfirst, hmiddle, hlast⟩ := h.newline_notMem_lines
    rw [h.indentedLines_eq, List.forall_mem_cons, List.forall_mem_append, List.forall_mem_singleton]
    exact ⟨hfirst, hmiddle, hlast⟩
  have hsimulated : Simulated settings .broken (linesDoc (indentedLines (pieces body))).propagateBreaks :=
    simulated_propagateBreaks (plain_linesDoc hlines) .broken nofun
  obtain ⟨a, hformatted⟩ := formatted_levels hsimulated depth
  rw [h.indentedLines_eq] at hformatted ⊢
  set rest := middle.map middleLine ++ [lastLine last] with hrest
  have hrender : (render settings (linesDoc (trimRight first :: rest)).propagateBreaks a
      (.ofQueue settings (List.replicate depth .level) none) .broken []).1 =
      .text ['/', '*'] :: .text (trimRight first) :: (rest.flatMap fun line =>
        [.newline true (Indentation.levels settings depth), .text line]) ++ [.text ['*', '/']] := by
    simp only [linesDoc, Doc.join, Doc.propagateBreaks_concat, List.map_cons (f := Doc.propagateBreaks),
      List.map_nil, render, renderAll, Doc.propagateBreaks_text, renderAll_lines, value_levels]
    simp
  have hwritten : writeAll settings.newline.toList (['/', '*'] ++ trimRight first)
      (rest.flatMap fun line => [.newline true (Indentation.levels settings depth), .text line]) =
      ['/', '*'] ++ reindented mark (Indentation.levels settings depth) first middle last := by
    have hmiddle : ∀ l ∈ middle.map middleLine, l ≠ [] ∧ endsBlank l = false := by
      intro line hline
      obtain ⟨l, hl, rfl⟩ := List.mem_map.mp hline
      exact endsBlank_middleLine (h.middle l hl)
    rw [hrest, writeAll_lines settings.newline.toList (endsBlank_append_trimRight (by decide) first) hmiddle,
      hnewline]
    simp [reindented, joinLines]
  have hend : endsBlank (['/', '*'] ++
      reindented mark (Indentation.levels settings depth) first middle last ++ ['*', '/']) = false := by
    rw [endsBlank_append (by decide)]
    decide
  rw [hformatted, hrender, assemble, writeAll_append, writeAll_cons, writeAll_cons]
  simp only [Piece.write, List.nil_append, hwritten, writeAll_cons, writeAll_nil, trimEnd_eq_self hend]

/-- A text that does not end in a blank is copied, at any depth. -/
theorem formatted_text (settings : Settings) (depth : Nat) {s : String}
    (h : endsBlank s.toList = false) :
    (Layout.print settings (Nat.repeat Doc.indent depth (.text s))).formatted = s := by
  have hsimulated : Simulated settings .broken (Doc.text s).propagateBreaks := simulated_text s
  obtain ⟨a, hformatted⟩ := formatted_levels hsimulated depth
  rw [hformatted]
  simp only [Doc.propagateBreaks_text, render, assemble, writeAll_cons, writeAll_nil, Piece.write,
    List.nil_append, trimEnd_eq_self h, String.ofList_toList]

/-! ## Comments -/

/-- A text is a single comment: it ends at the first closing mark behind its opening, or at the end of its
line. -/
inductive Single : Bool → List Char → Prop
  | block {cs body : List Char} (h : Opens cs body []) : Single true cs
  | line {cs : List Char} (hmark : ∃ mark ∈ ["//".toList, "<!--".toList, "-->".toList], mark <+: cs)
      (hline : ∀ c ∈ cs, Lexeme.isLineBreak c = false) : Single false cs

theorem print_line {c : Comment} (h : c.block = false) : print c = .ok (.text (trimEnd c.text)) := by
  rw [print, h]
  rfl

theorem print_block {c : Comment} {body : List Char} (hblock : c.block = true)
    (h : Opens c.text.toList body []) :
    print c = .ok (if isIndentable body then linesDoc (indentedLines (pieces body)) else .text c.text) := by
  have hopening : byteLength ['/', '*'] = 2 := by decide
  have hclosing : byteLength ['*', '/'] = 2 := by decide
  have hsize : c.text.utf8ByteSize = 2 + byteLength body + 2 := by
    rw [← byteLength_toList, h.eq]
    simp only [byteLength_append, hopening, hclosing, byteLength_nil]
  have hlies : Lies c.text.toList 2 (c.text.utf8ByteSize - 2) (String.ofList body).toList := by
    refine ⟨['/', '*'], ['*', '/'], ?_, hopening, ?_⟩
    · rw [h.eq, String.toList_ofList, List.append_nil]
    · rw [String.toList_ofList, hopening]
      omega
  have hslice : sliceOrError c.text 2 (c.text.utf8ByteSize - 2) = .ok (String.ofList body) :=
    sliceOrError_eq_ok_iff.mpr (slice?_eq_some_iff.mpr hlies)
  rw [print, hblock, hslice]
  change (if isIndentable (String.ofList body).toList then _ else _) = _
  rw [String.toList_ofList]
  split <;> rfl

/-- A mark stays in front of a comment when the blanks at its end are taken away. -/
theorem isPrefix_trimRight_of_isPrefix {mark : List Char} (hmark : ∀ c ∈ mark, isBlank c = false)
    (h : mark <+: cs) : mark <+: trimRight cs := by
  obtain ⟨rest, rfl⟩ := h
  rw [trimRight, List.reverse_append, List.dropWhile_append]
  split
  · have hkept : mark.reverse.dropWhile isBlank = mark.reverse := by
      refine List.dropWhile_eq_self_iff.mpr fun hlength hblank => ?_
      rw [hmark _ (List.mem_reverse.mp (List.getElem_mem hlength))] at hblank
      cases hblank
    have hback : (mark.reverse.dropWhile isBlank).reverse = mark := by rw [hkept, List.reverse_reverse]
    exact ⟨[], (List.append_nil _).trans hback.symm⟩
  · rw [List.reverse_append, List.reverse_reverse]
    exact List.prefix_append _ _

theorem trimRight_trimRight (cs : List Char) : trimRight (trimRight cs) = trimRight cs :=
  List.rdropWhile_idempotent isBlank cs

/-- Written at a depth, a comment is a single comment again, and is written alike. -/
def Reprints (settings : Settings) (depth : Nat) (c : Comment) : Prop :=
  ∃ d, print c = .ok d ∧
    let s := (Layout.print settings (Nat.repeat Doc.indent depth d)).formatted
    Single c.block s.toList ∧ ∀ c' : Comment, c'.text = s → c'.block = c.block → print c' = .ok d

section Reprints

variable {c : Comment} {body : List Char}

theorem reprints_indentable {kind : LineEnding} (hnewline : settings.newline = kind.text) (depth : Nat)
    (hblock : c.block = true) (hopens : Opens c.text.toList body []) (hindentable : isIndentable body = true) :
    Reprints settings depth c := by
  obtain ⟨first, middle, last, hstarred⟩ := isIndentable_iff.mp hindentable
  obtain ⟨mark, hmark, hseparates⟩ := separates_levels kind settings depth
  rw [← hnewline] at hmark
  refine ⟨_, print_block hblock hopens, ?_⟩
  dsimp only
  rw [hblock, if_pos hindentable, formatted_linesDoc hstarred hmark]
  have hopens' : Opens (String.ofList (['/', '*'] ++
      reindented mark (Indentation.levels settings depth) first middle last ++ ['*', '/'])).toList
      (reindented mark (Indentation.levels settings depth) first middle last) [] :=
    ⟨by simp, hstarred.unclosed_reindented hopens.unclosed hseparates⟩
  refine ⟨.block hopens', fun c' htext hblock' => ?_⟩
  have hindentable' := isIndentable_iff.mpr ⟨_, _, _, hstarred.starred_reindented hseparates⟩
  rw [← htext] at hopens'
  rw [print_block hblock' hopens', if_pos hindentable', hstarred.indentedLines_reindented hseparates]

/-- A comment that is not indentable is copied. -/
theorem reprints_copied (settings : Settings) (depth : Nat) (hblock : c.block = true)
    (hopens : Opens c.text.toList body []) (hindentable : isIndentable body ≠ true) :
    Reprints settings depth c := by
  have hend : endsBlank c.text.toList = false := by
    rw [hopens.eq, List.append_nil, endsBlank_append (by decide)]
    decide
  refine ⟨_, print_block hblock hopens, ?_⟩
  dsimp only
  rw [hblock, if_neg hindentable, formatted_text settings depth hend]
  refine ⟨.block hopens, fun c' htext hblock' => ?_⟩
  rw [← htext] at hopens
  rw [print_block hblock' hopens, if_neg hindentable, htext]

/-- A line comment loses the blanks at its end. -/
theorem reprints_line (settings : Settings) (depth : Nat) (hblock : c.block = false)
    (h : Single false c.text.toList) : Reprints settings depth c := by
  obtain - | ⟨⟨mark, hmark, hprefix⟩, hline⟩ := h
  have htrim : (trimEnd c.text).toList = trimRight c.text.toList := String.toList_ofList
  have hend : endsBlank (trimEnd c.text).toList = false := by
    have hempty : endsBlank [] = false := rfl
    rw [htrim]
    exact endsBlank_append_trimRight hempty c.text.toList
  refine ⟨_, print_line hblock, ?_⟩
  dsimp only
  rw [hblock, formatted_text settings depth hend]
  refine ⟨?_, fun c' htext hblock' => ?_⟩
  · have hblank : ∀ mark ∈ ["//".toList, "<!--".toList, "-->".toList], ∀ c ∈ mark, isBlank c = false := by
      simp [isBlank]
    rw [htrim]
    exact .line ⟨mark, hmark, isPrefix_trimRight_of_isPrefix (hblank mark hmark) hprefix⟩
      fun d hd => hline d ((isPrefix_trimRight _).subset hd)
  · rw [print_line hblock', htext, trimEnd, htrim, trimRight_trimRight, trimEnd]

end Reprints

/-- **A comment that is written is a single comment again**, and it is written alike: its document is the same,
whatever the depth, the width of a tab and the newlines of the page. -/
theorem print_formatted {kind : LineEnding} (hnewline : settings.newline = kind.text) (depth : Nat)
    {c : Comment} (h : Single c.block c.text.toList) :
    ∃ d, print c = .ok d ∧
      let s := (Layout.print settings (Nat.repeat Doc.indent depth d)).formatted
      Single c.block s.toList ∧ ∀ c' : Comment, c'.text = s → c'.block = c.block → print c' = .ok d := by
  cases hblock : c.block with
  | true =>
    rw [hblock] at h
    obtain ⟨hopens⟩ := h
    rename_i body
    rw [← hblock]
    by_cases hindentable : isIndentable body = true
    · exact reprints_indentable hnewline depth hblock hopens hindentable
    · exact reprints_copied settings depth hblock hopens hindentable
  | false =>
    rw [hblock] at h
    rw [← hblock]
    exact reprints_line settings depth hblock h

/-- Two levels deep, behind tabs and with carriage returns. -/
theorem print_formatted_docblock :
    let page : Settings := { width := 80, tabWidth := 4, useTabs := true, newline := "\r\n" }
    let c : Comment := { text := "/**\n     * a\n */", start := 0, stop := 17, block := true }
    page.newline = LineEnding.crlf.text ∧ Single c.block c.text.toList ∧
      ∃ d, print c = .ok d ∧
        let s := (Layout.print page (Nat.repeat Doc.indent 2 d)).formatted
        Single c.block s.toList ∧ ∀ c' : Comment, c'.text = s → c'.block = c.block → print c' = .ok d := by
  have hunclosed : Unclosed ("*\n     * a\n ".toList ++ ['*']) := unclosed_iff_isChain.mpr (by decide)
  have hsingle : Single true "/**\n     * a\n */".toList := .block ⟨by decide, hunclosed⟩
  have hnewline : "\r\n" = LineEnding.crlf.text := rfl
  exact ⟨hnewline, hsingle, print_formatted hnewline 2 hsingle⟩

end JavaScript.CommentText

end CodeFormatter
