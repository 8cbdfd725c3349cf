import CodeFormatter.Proofs.Text.Slice
import Mathlib.Data.List.TakeWhile

/-!
# Whether a blank line follows

The question is asked in bytes: scanners go from offset to offset, round after round, until none of them
moves. The answer can be read off the characters behind the offset.

**The grammar** (`BlankLineAhead`). Separators and comments `/* ... */` on one line come first, in any order,
then at most one comment `// ...`, then a newline, then spaces, then the start of another newline.

**Theorem (`isNextLineEmpty?_decides`).** At a place where the text can be cut, and past its end, the question
has an answer, which is that of the grammar.

- *From bytes to characters.* `Ahead` says which characters stand behind an offset. Every scanner stops between
  two of them (`Ahead.append`), so that the next one can cut the text there. The bytes that it looks for are
  characters of their own (`takeWhile_flatMap_utf8EncodeChar`, `closing?_of_closed`).
- *The rounds end.* Each one that moves passes a character, and they stop where nothing can be passed
  (`Ahead.exists_skipTrailers?`).
- *There is one way to read a text.* Where the rounds stop, no separator and no comment begins (`Bare`), and
  none does where the grammar goes on to the end of the line. There is one such place (`Trailers.unique`).
-/

namespace CodeFormatter.Scan

variable {cs ds body rest tail passed comment newline : List Char} {text : Bytes} {i n fuel : Nat}

/-! ## The grammar -/

/-- A space or a tab. -/
def isSpaceChar (c : Char) : Bool := c == ' ' || c == '\t'

/-- A line feed or a carriage return. -/
def isNewlineChar (c : Char) : Bool := c == '\n' || c == '\r'

/-- A comma, a semicolon, a space or a tab. -/
def isSeparatorChar (c : Char) : Bool := c == ',' || c == ';' || isSpaceChar c

/-- A comment `/* ... */`, which is closed at the first `*/` behind its opening and holds no line feed. -/
inductive InlineComment : List Char → Prop
  | intro {body : List Char} : ¬ ['*', '/'] <:+: body → '\n' ∉ body →
      InlineComment ('/' :: '*' :: (body ++ ['*', '/']))

/-- Separators and comments `/* ... */`, in any order. -/
inductive Trailers : List Char → Prop
  | nil : Trailers []
  | separator {c : Char} {cs : List Char} : isSeparatorChar c = true → Trailers cs → Trailers (c :: cs)
  | comment {comment cs : List Char} : InlineComment comment → Trailers cs → Trailers (comment ++ cs)

/-- A comment `// ...` without its newline, or nothing. -/
inductive LineComment : List Char → Prop
  | none : LineComment []
  | some {body : List Char} : (∀ c ∈ body, isNewlineChar c = false) → LineComment ('/' :: '/' :: body)

/-- The newline in front of `rest`. A line feed behind a carriage return is a part of it. -/
inductive Newline (rest : List Char) : List Char → Prop
  | lf : Newline rest ['\n']
  | crlf : Newline rest ['\r', '\n']
  | cr : rest.head? ≠ some '\n' → Newline rest ['\r']

/-- The text starts with spaces and a newline behind them. -/
inductive BlankLine : List Char → Prop
  | intro {spaces rest : List Char} {c : Char} : (∀ s ∈ spaces, isSpaceChar s = true) →
      isNewlineChar c = true → BlankLine (spaces ++ c :: rest)

/-- The text starts with the end of a line, which a blank line follows. -/
inductive BlankLineAhead : List Char → Prop
  | intro {trailers comment newline rest : List Char} : Trailers trailers → LineComment comment →
      Newline rest newline → BlankLine rest →
      BlankLineAhead (trailers ++ (comment ++ (newline ++ rest)))

/-! ## Characters in bytes -/

theorem exists_first_byte (c : Char) :
    ∃ b bytes, String.utf8EncodeChar c = b :: bytes ∧ b ∈ String.utf8EncodeChar c := by
  obtain ⟨b, bytes, hbytes⟩ := List.exists_cons_of_ne_nil (String.utf8EncodeChar_ne_nil (c := c))
  exact ⟨b, bytes, hbytes, hbytes ▸ List.mem_cons_self⟩

theorem utf8EncodeChar_of_lt {a : Char} (ha : a.toNat < 128) :
    String.utf8EncodeChar a = [UInt8.ofNat a.toNat] :=
  String.utf8EncodeChar_eq_singleton
    (Char.utf8Size_eq_one_iff.mpr (UInt32.le_iff_toNat_le.mpr (Nat.le_of_lt_succ ha)))

/-- The byte of a short character is found in no other one. -/
theorem eq_ofNat_iff_of_mem_utf8EncodeChar {a c : Char} {b : UInt8} (ha : a.toNat < 128)
    (hb : b ∈ String.utf8EncodeChar c) : b = UInt8.ofNat a.toNat ↔ c = a := by
  constructor
  · rintro rfl
    have hbyte : (UInt8.ofNat a.toNat).toNat = a.toNat := by
      rw [UInt8.toNat_ofNat']
      exact Nat.mod_eq_of_lt (by omega)
    have hcode := toNat_of_mem_utf8EncodeChar hb (by omega)
    exact Char.toNat_inj.mp (hcode.symm.trans hbyte)
  · rintro rfl
    rwa [utf8EncodeChar_of_lt ha, List.mem_singleton] at hb

/-- If a class of bytes picks the bytes of a class of characters, it is left at the same place. -/
theorem takeWhile_flatMap_utf8EncodeChar {p : UInt8 → Bool} {q : Char → Bool}
    (h : ∀ c, ∀ b ∈ String.utf8EncodeChar c, p b = q c) (cs : List Char) :
    (cs.flatMap String.utf8EncodeChar).takeWhile p = (cs.takeWhile q).flatMap String.utf8EncodeChar := by
  induction cs with
  | nil => rfl
  | cons c cs ih =>
    rw [List.flatMap_cons]
    by_cases hc : q c = true
    · have hall : ∀ b ∈ String.utf8EncodeChar c, p b = true := fun b hb => (h c b hb).trans hc
      rw [List.takeWhile_append_of_pos hall, ih, List.takeWhile_cons_of_pos hc, List.flatMap_cons]
    · rw [List.takeWhile_cons_of_neg hc]
      obtain ⟨b, bytes, hbytes, hb⟩ := exists_first_byte c
      have hp : ¬ p b = true := by
        rw [h c b hb]
        exact hc
      rw [hbytes, List.cons_append, List.takeWhile_cons_of_neg hp]
      rfl

/-- Looking for one byte is looking for its character. -/
theorem beq_eq_of_mem_utf8EncodeChar {a c : Char} {b : UInt8} (ha : a.toNat < 128)
    (hb : b ∈ String.utf8EncodeChar c) : (b == UInt8.ofNat a.toNat) = (c == a) := by
  rw [Bool.eq_iff_iff, beq_iff_eq, beq_iff_eq]
  exact eq_ofNat_iff_of_mem_utf8EncodeChar ha hb

theorem isSpace_of_mem {c : Char} {b : UInt8} (hb : b ∈ String.utf8EncodeChar c) :
    isSpace b = isSpaceChar c :=
  congrArg₂ or (beq_eq_of_mem_utf8EncodeChar (a := ' ') (by decide) hb)
    (beq_eq_of_mem_utf8EncodeChar (a := '\t') (by decide) hb)

theorem isNewline_of_mem {c : Char} {b : UInt8} (hb : b ∈ String.utf8EncodeChar c) :
    isNewline b = isNewlineChar c :=
  congrArg₂ or (beq_eq_of_mem_utf8EncodeChar (a := '\n') (by decide) hb)
    (beq_eq_of_mem_utf8EncodeChar (a := '\r') (by decide) hb)

theorem isSeparator_of_mem {c : Char} {b : UInt8} (hb : b ∈ String.utf8EncodeChar c) :
    isSeparator b = isSeparatorChar c :=
  congrArg₂ or
    (congrArg₂ or (beq_eq_of_mem_utf8EncodeChar (a := ',') (by decide) hb)
      (beq_eq_of_mem_utf8EncodeChar (a := ';') (by decide) hb))
    (isSpace_of_mem hb)

/-- If the bytes of a text start with that of a short character, the text starts with this character. -/
theorem exists_of_flatMap_utf8EncodeChar_eq_cons {a : Char} {bytes : Bytes} (ha : a.toNat < 128)
    (h : cs.flatMap String.utf8EncodeChar = UInt8.ofNat a.toNat :: bytes) :
    ∃ ds, cs = a :: ds ∧ bytes = ds.flatMap String.utf8EncodeChar := by
  cases cs with
  | nil => cases h
  | cons c ds =>
    have hmem : UInt8.ofNat a.toNat ∈ String.utf8EncodeChar c := by
      obtain ⟨b, others, hc, hb⟩ := exists_first_byte c
      rw [List.flatMap_cons, hc] at h
      rwa [← (List.cons.inj h).1]
    obtain rfl : c = a := (eq_ofNat_iff_of_mem_utf8EncodeChar ha hmem).mp rfl
    rw [List.flatMap_cons, utf8EncodeChar_of_lt ha] at h
    exact ⟨ds, rfl, (List.cons.inj h).2.symm⟩

/-! ## Where a comment is closed -/

theorem closing?_append {bytes : Bytes} (h : ∀ b ∈ bytes, b ≠ 42) (others : Bytes) :
    closing? (bytes ++ others) = (closing? others).map (· + bytes.length) := by
  induction bytes with
  | nil => simp
  | cons b bytes ih =>
    have hb : b ≠ 42 := h b List.mem_cons_self
    rw [List.cons_append, closing?.eq_2 _ _ fun _ heq _ => hb heq,
      ih fun b hb => h b (List.mem_cons_of_mem _ hb)]
    simp [Function.comp_def, Nat.add_assoc]

/-- A character is passed on the way to the end of a comment, unless the comment ends there. -/
theorem closing?_cons {c : Char} (h : c = '*' → cs.head? ≠ some '/') :
    closing? ((c :: cs).flatMap String.utf8EncodeChar) =
      (closing? (cs.flatMap String.utf8EncodeChar)).map (· + c.utf8Size) := by
  rw [List.flatMap_cons]
  by_cases hc : c = '*'
  · subst hc
    apply closing?.eq_2
    intro bytes _ hbytes
    obtain ⟨ds, rfl, -⟩ := exists_of_flatMap_utf8EncodeChar_eq_cons (a := '/') (by decide) hbytes
    exact h rfl rfl
  · rw [closing?_append, String.length_utf8EncodeChar]
    intro b hb
    exact fun heq => hc ((eq_ofNat_iff_of_mem_utf8EncodeChar (a := '*') (by decide) hb).mp heq)

theorem closes_cons_iff {c : Char} :
    ['*', '/'] <:+: c :: body ↔ (c = '*' ∧ body.head? = some '/') ∨ ['*', '/'] <:+: body := by
  rw [List.infix_cons_iff]
  refine or_congr_left ?_
  cases body <;> simp [eq_comm]

/-- A comment is closed at the first `*/` behind its opening. -/
theorem closing?_of_closed (hbody : ¬ ['*', '/'] <:+: body) (rest : List Char) :
    closing? ((body ++ '*' :: '/' :: rest).flatMap String.utf8EncodeChar) = some (byteLength body) := by
  induction body with
  | nil => exact closing?.eq_1 _
  | cons c body ih =>
    rw [closes_cons_iff, not_or] at hbody
    have hopen : c = '*' → (body ++ '*' :: '/' :: rest).head? ≠ some '/' := by
      intro hc hhead
      cases body with
      | nil => cases hhead
      | cons d body => exact hbody.1 ⟨hc, hhead⟩
    rw [List.cons_append, closing?_cons hopen, ih hbody.2, Option.map_some, byteLength_cons, Nat.add_comm]

/-- It is not closed anywhere else. -/
theorem exists_of_closing? (h : closing? (cs.flatMap String.utf8EncodeChar) = some n) :
    ∃ body rest, cs = body ++ '*' :: '/' :: rest ∧ ¬ ['*', '/'] <:+: body := by
  induction cs generalizing n with
  | nil => cases h
  | cons c cs ih =>
    by_cases hclosed : c = '*' ∧ cs.head? = some '/'
    · obtain ⟨rfl, hhead⟩ := hclosed
      obtain ⟨rest, rfl⟩ := List.head?_eq_some_iff.mp hhead
      exact ⟨[], rest, rfl, by simp⟩
    · rw [closing?_cons fun hc hhead => hclosed ⟨hc, hhead⟩, Option.map_eq_some_iff] at h
      obtain ⟨m, hm, -⟩ := h
      obtain ⟨body, rest, rfl, hbody⟩ := ih hm
      refine ⟨c :: body, rest, rfl, fun hcloses => ?_⟩
      rcases closes_cons_iff.mp hcloses with ⟨hc, hhead⟩ | hcloses
      · refine hclosed ⟨hc, ?_⟩
        rw [List.head?_append, hhead, Option.some_or]
      · exact hbody hcloses

theorem contains_lineFeed_iff :
    (cs.flatMap String.utf8EncodeChar).contains 10 = true ↔ '\n' ∈ cs := by
  rw [List.contains_iff_mem, List.mem_flatMap]
  constructor
  · rintro ⟨c, hc, hb⟩
    rwa [← (eq_ofNat_iff_of_mem_utf8EncodeChar (a := '\n') (by decide) hb).mp rfl]
  · exact fun hmem => ⟨'\n', hmem, List.mem_cons_self⟩

theorem inlineCommentLength_of_closed (hbody : ¬ ['*', '/'] <:+: body) (rest : List Char) :
    inlineCommentLength (('/' :: '*' :: (body ++ '*' :: '/' :: rest)).flatMap String.utf8EncodeChar) =
      if '\n' ∈ body then 0 else byteLength body + 4 := by
  have hclosing := closing?_of_closed hbody rest
  have htake : ((body ++ '*' :: '/' :: rest).flatMap String.utf8EncodeChar).take (byteLength body) =
      body.flatMap String.utf8EncodeChar := by
    rw [List.flatMap_append]
    exact List.take_left' (length_flatMap_utf8EncodeChar body)
  show inlineCommentLength (47 :: 42 :: (body ++ '*' :: '/' :: rest).flatMap _) = _
  rw [inlineCommentLength.eq_1, hclosing]
  simp only [htake, contains_lineFeed_iff]

theorem InlineComment.length_eq (h : InlineComment comment) (rest : List Char) :
    inlineCommentLength ((comment ++ rest).flatMap String.utf8EncodeChar) = byteLength comment := by
  cases h with
  | @intro body hbody hline =>
    have hlength := inlineCommentLength_of_closed hbody rest
    rw [if_neg hline] at hlength
    simp only [List.cons_append, List.append_assoc, List.nil_append, hlength]
    show _ = 1 + (1 + byteLength (body ++ ['*', '/']))
    rw [byteLength_append]
    show _ = 1 + (1 + (byteLength body + 2))
    omega

/-- Nothing else is taken for a comment. -/
theorem exists_of_inlineCommentLength_ne_zero
    (h : inlineCommentLength (cs.flatMap String.utf8EncodeChar) ≠ 0) :
    ∃ comment rest, cs = comment ++ rest ∧ InlineComment comment := by
  by_cases hopens : ∃ bytes, cs.flatMap String.utf8EncodeChar = 47 :: 42 :: bytes
  · obtain ⟨bytes, hbytes⟩ := hopens
    obtain ⟨ds, rfl, hds⟩ := exists_of_flatMap_utf8EncodeChar_eq_cons (a := '/') (by decide) hbytes
    obtain ⟨cs, rfl, rfl⟩ :=
      exists_of_flatMap_utf8EncodeChar_eq_cons (a := '*') (by decide) hds.symm
    cases hclosing : closing? (cs.flatMap String.utf8EncodeChar) with
    | none => simp [hbytes, inlineCommentLength, hclosing] at h
    | some n =>
      obtain ⟨body, rest, rfl, hbody⟩ := exists_of_closing? hclosing
      have hline : '\n' ∉ body := by
        intro hmem
        rw [inlineCommentLength_of_closed hbody, if_pos hmem] at h
        exact h rfl
      exact ⟨_, rest, by simp, .intro hbody hline⟩
  · exact absurd (inlineCommentLength.eq_2 _ fun bytes hbytes => hopens ⟨bytes, hbytes⟩) h

theorem InlineComment.unique {comment' rest' : List Char} (h : InlineComment comment)
    (h' : InlineComment comment') (heq : comment ++ rest = comment' ++ rest') :
    comment = comment' ∧ rest = rest' := by
  apply append_inj_of_byteLength_eq heq
  rw [← h.length_eq rest, heq, h'.length_eq]

theorem InlineComment.ne_nil (h : InlineComment comment) : comment ≠ [] := by
  cases h
  exact List.cons_ne_nil _ _

/-! ## Reading a line in one way -/

theorem Trailers.append (h : Trailers cs) (h' : Trailers ds) : Trailers (cs ++ ds) := by
  induction h with
  | nil => exact h'
  | separator hc _ ih => exact .separator hc ih
  | comment hcomment _ ih =>
    rw [List.append_assoc]
    exact .comment hcomment ih

theorem trailers_of_forall (h : ∀ c ∈ cs, isSeparatorChar c = true) : Trailers cs := by
  induction cs with
  | nil => exact .nil
  | cons c cs ih =>
    exact .separator (h c List.mem_cons_self) (ih fun d hd => h d (List.mem_cons_of_mem c hd))

/-- Nothing can be passed at the start of the text. -/
def Bare (cs : List Char) : Prop := ∀ passed rest, Trailers passed → cs = passed ++ rest → passed = []

/-- It is enough to look at the first thing that could be passed. -/
theorem bare_of (hseparator : ∀ c ∈ cs.head?, isSeparatorChar c = false)
    (hcomment : ∀ comment rest, InlineComment comment → cs ≠ comment ++ rest) : Bare cs := by
  intro passed rest hpassed heq
  cases hpassed with
  | nil => rfl
  | separator hc _ =>
    subst heq
    have hc' := hseparator _ rfl
    rw [hc] at hc'
    cases hc'
  | comment hfirst _ =>
    rw [List.append_assoc] at heq
    exact absurd heq (hcomment _ _ hfirst)

/-- There is one place up to which everything is passed. -/
theorem Trailers.unique {passed' rest' : List Char} (h : Trailers passed) (h' : Trailers passed')
    (heq : passed ++ rest = passed' ++ rest') (hbare : Bare rest) (hbare' : Bare rest') :
    passed = passed' ∧ rest = rest' := by
  induction h generalizing passed' with
  | nil =>
    obtain rfl := hbare _ _ h' heq
    exact ⟨rfl, heq⟩
  | @separator c cs hc hcs ih =>
    cases h' with
    | nil => exact absurd (hbare' _ _ (.separator hc hcs) heq.symm) (List.cons_ne_nil _ _)
    | separator hd hds =>
      obtain ⟨rfl, htail⟩ := List.cons.inj heq
      obtain ⟨rfl, hrest⟩ := ih hds htail
      exact ⟨rfl, hrest⟩
    | comment hcomment hds =>
      cases hcomment
      obtain ⟨rfl, -⟩ := List.cons.inj heq
      cases hc
  | @comment first cs hfirst hcs ih =>
    cases h' with
    | nil =>
      have hnil := hbare' _ _ (.comment hfirst hcs) heq.symm
      exact absurd (List.append_eq_nil_iff.mp hnil).1 hfirst.ne_nil
    | separator hd hds =>
      cases hfirst
      obtain ⟨rfl, -⟩ := List.cons.inj heq
      cases hd
    | comment hcomment hds =>
      rw [List.append_assoc, List.append_assoc] at heq
      obtain ⟨rfl, htail⟩ := hfirst.unique hcomment heq
      obtain ⟨rfl, hrest⟩ := ih hds htail
      exact ⟨rfl, hrest⟩

/-- What the grammar has behind the separators and comments. -/
theorem bare_of_lineComment (hcomment : LineComment comment) (hnewline : Newline rest newline) :
    Bare (comment ++ (newline ++ rest)) := by
  apply bare_of
  · intro c hc
    cases hcomment with
    | none => cases hnewline <;> cases hc <;> rfl
    | some _ =>
      cases hc
      rfl
  · intro inline tail hinline heq
    cases hinline
    cases hcomment with
    | none => cases hnewline <;> simp at heq
    | some _ => simp at heq

/-! ## What stands behind an offset -/

/-- The characters from an offset to the end of the text. -/
structure Ahead (text : Bytes) (i : Nat) (cs : List Char) : Prop where
  le : i ≤ text.length
  drop : text.drop i = cs.flatMap String.utf8EncodeChar

namespace Ahead

/-- Between two characters. -/
theorem append (h : Ahead text i (cs ++ ds)) : Ahead text (i + byteLength cs) ds where
  le := by
    have hlength := congrArg List.length h.drop
    rw [List.length_drop, length_flatMap_utf8EncodeChar, byteLength_append] at hlength
    have hle := h.le
    omega
  drop := by
    rw [← List.drop_drop, h.drop, List.flatMap_append]
    exact List.drop_left' (length_flatMap_utf8EncodeChar cs)

/-- The text can be cut there. -/
theorem canCut (h : Ahead text i cs) : canCut text i = true := by
  have hstart := canCut_of_isBoundary (isBoundary_zero (String.ofList cs))
  rwa [bytesOf_ofList, Scan.canCut, List.drop_zero, ← h.drop] at hstart

theorem length_takeWhile {p : UInt8 → Bool} {q : Char → Bool} (h : Ahead text i cs)
    (hpq : ∀ c, ∀ b ∈ String.utf8EncodeChar c, p b = q c) :
    ((text.drop i).takeWhile p).length = byteLength (cs.takeWhile q) := by
  rw [h.drop, takeWhile_flatMap_utf8EncodeChar hpq, length_flatMap_utf8EncodeChar]

theorem dropWhile (q : Char → Bool) (h : Ahead text i cs) :
    Ahead text (i + byteLength (cs.takeWhile q)) (cs.dropWhile q) := by
  apply append
  rwa [List.takeWhile_append_dropWhile]

theorem skipSeparators_eq (h : Ahead text i cs) :
    skipSeparators text i = i + byteLength (cs.takeWhile isSeparatorChar) := by
  rw [Scan.skipSeparators, h.length_takeWhile fun _ _ => isSeparator_of_mem]

theorem skipSpaces_eq (h : Ahead text i cs) :
    skipSpaces text i = i + byteLength (cs.takeWhile isSpaceChar) := by
  rw [Scan.skipSpaces, Nat.min_eq_left h.le, h.length_takeWhile fun _ _ => isSpace_of_mem]

theorem skipInlineComment?_eq (h : Ahead text i cs) : Scan.skipInlineComment? text i =
    some (i + inlineCommentLength (cs.flatMap String.utf8EncodeChar)) := by
  rw [Scan.skipInlineComment?, if_pos h.canCut, h.drop]

theorem skipLineComment?_eq (h : Ahead text i cs) : Scan.skipLineComment? text i =
    some (i + lineCommentLength (cs.flatMap String.utf8EncodeChar)) := by
  rw [Scan.skipLineComment?, if_pos h.canCut, h.drop]

theorem skipNewline_eq (h : Ahead text i cs) :
    skipNewline text i = i + newlineLength (cs.flatMap String.utf8EncodeChar) := by
  rw [Scan.skipNewline, h.drop]

/-! ## Rounds -/

/-- A comment on one line is passed if there is one. -/
theorem exists_inlineComment (h : Ahead text i cs) :
    ∃ comment rest, cs = comment ++ rest ∧
      Scan.skipInlineComment? text i = some (i + byteLength comment) ∧ Trailers comment ∧
      (comment = [] → ∀ comment rest, InlineComment comment → cs ≠ comment ++ rest) := by
  rw [h.skipInlineComment?_eq]
  by_cases hlength : inlineCommentLength (cs.flatMap String.utf8EncodeChar) = 0
  · refine ⟨[], cs, rfl, by rw [hlength]; rfl, .nil, fun _ comment rest hcomment heq => ?_⟩
    rw [heq, hcomment.length_eq, byteLength_eq_zero] at hlength
    exact hcomment.ne_nil hlength
  · obtain ⟨comment, rest, rfl, hcomment⟩ := exists_of_inlineCommentLength_ne_zero hlength
    refine ⟨comment, rest, rfl, by rw [hcomment.length_eq], ?_, fun hnil => ?_⟩
    · simpa using Trailers.comment hcomment .nil
    · exact absurd hnil hcomment.ne_nil

/-- A round passes some of what can be passed, and nothing only if there is nothing. -/
theorem exists_skipTrailer? (h : Ahead text i cs) :
    ∃ passed rest, cs = passed ++ rest ∧
      Scan.skipTrailer? text i = some (i + byteLength passed) ∧ Trailers passed ∧
      (passed = [] → Bare cs) := by
  obtain ⟨comment, rest, hrest, hskip, hcomment, hnone⟩ :=
    (h.dropWhile isSeparatorChar).exists_inlineComment
  have hspaces : Ahead text (i + byteLength (cs.takeWhile isSeparatorChar) + byteLength comment) rest :=
    (hrest ▸ h.dropWhile isSeparatorChar).append
  refine ⟨cs.takeWhile isSeparatorChar ++ (comment ++ rest.takeWhile isSpaceChar),
    rest.dropWhile isSpaceChar, ?_, ?_, ?_, fun hnil => ?_⟩
  · rw [List.append_assoc, List.append_assoc, List.takeWhile_append_dropWhile, ← hrest,
      List.takeWhile_append_dropWhile]
  · rw [Scan.skipTrailer?, h.skipSeparators_eq, hskip, Option.map_some, hspaces.skipSpaces_eq]
    simp only [byteLength_append, Nat.add_assoc]
  · refine (trailers_of_forall fun c hc => List.mem_takeWhile_imp hc).append
      (hcomment.append (trailers_of_forall fun c hc => ?_))
    have hspace : isSpaceChar c = true := List.mem_takeWhile_imp hc
    rw [isSeparatorChar, hspace, Bool.or_true]
  · rw [List.append_eq_nil_iff, List.append_eq_nil_iff] at hnil
    obtain ⟨hseparators, hcomment, -⟩ := hnil
    have hcs : cs.dropWhile isSeparatorChar = cs := by
      conv_rhs => rw [← List.takeWhile_append_dropWhile (p := isSeparatorChar) (l := cs), hseparators]
      rfl
    apply bare_of
    · intro c hc
      have hhead := List.head?_dropWhile_not isSeparatorChar cs
      rw [hcs, hc] at hhead
      exact hhead
    · exact hcs ▸ hnone hcomment

/-- **The rounds end** where everything is passed. -/
theorem exists_skipTrailers? (h : Ahead text i cs) (hfuel : cs.length < fuel) :
    ∃ passed rest, cs = passed ++ rest ∧
      Scan.skipTrailers? text fuel i = some (i + byteLength passed) ∧ Trailers passed ∧ Bare rest := by
  induction fuel generalizing i cs with
  | zero => exact absurd hfuel (Nat.not_lt_zero _)
  | succ fuel ih =>
    obtain ⟨passed, rest, rfl, hround, hpassed, hbare⟩ := h.exists_skipTrailer?
    rw [Scan.skipTrailers?, hround]
    by_cases hnil : passed = []
    · subst hnil
      exact ⟨[], rest, rfl, if_pos rfl, .nil, hbare rfl⟩
    · have hlength : (passed ++ rest).length = passed.length + rest.length := List.length_append
      have hpos : 0 < passed.length := List.length_pos_iff.mpr hnil
      obtain ⟨passed', rest', rfl, hrounds, hpassed', hbare'⟩ := ih h.append (by omega)
      have hmoves : i + byteLength passed ≠ i := by
        have hbytes := byteLength_eq_zero.not.mpr hnil
        omega
      refine ⟨passed ++ passed', rest', by rw [List.append_assoc], ?_, hpassed.append hpassed', hbare'⟩
      show (if i + byteLength passed = i then _ else _) = _
      rw [if_neg hmoves, hrounds, byteLength_append, Nat.add_assoc]

end Ahead

/-! ## The end of the line -/

theorem length_takeWhile_not_isNewline (cs : List Char) :
    ((cs.flatMap String.utf8EncodeChar).takeWhile (!isNewline ·)).length =
      byteLength (cs.takeWhile (!isNewlineChar ·)) := by
  have hpq : ∀ c, ∀ b ∈ String.utf8EncodeChar c, (!isNewline b) = !isNewlineChar c := by
    intro c b hb
    rw [isNewline_of_mem hb]
  rw [takeWhile_flatMap_utf8EncodeChar hpq, length_flatMap_utf8EncodeChar]

theorem LineComment.length_eq (h : LineComment comment) (hnewline : Newline rest newline) :
    lineCommentLength ((comment ++ (newline ++ rest)).flatMap String.utf8EncodeChar) =
      byteLength comment := by
  cases h with
  | none => cases hnewline <;> rfl
  | @some body hbody =>
    have htake : (body ++ (newline ++ rest)).takeWhile (!isNewlineChar ·) = body := by
      rw [List.takeWhile_append_of_pos (by simpa using hbody)]
      have hstop : (newline ++ rest).takeWhile (!isNewlineChar ·) = [] := by
        cases hnewline <;> rfl
      rw [hstop, List.append_nil]
    show 2 + (((body ++ (newline ++ rest)).flatMap _).takeWhile _).length = 1 + (1 + byteLength body)
    rw [length_takeWhile_not_isNewline, htake]
    omega

/-- A comment up to the end of the line is passed if there is one. -/
theorem exists_lineComment (cs : List Char) : ∃ comment rest, cs = comment ++ rest ∧
    LineComment comment ∧
    lineCommentLength (cs.flatMap String.utf8EncodeChar) = byteLength comment := by
  by_cases hopens : ∃ bytes, cs.flatMap String.utf8EncodeChar = 47 :: 47 :: bytes
  · obtain ⟨bytes, hbytes⟩ := hopens
    obtain ⟨ds, rfl, hds⟩ := exists_of_flatMap_utf8EncodeChar_eq_cons (a := '/') (by decide) hbytes
    obtain ⟨cs, rfl, rfl⟩ :=
      exists_of_flatMap_utf8EncodeChar_eq_cons (a := '/') (by decide) hds.symm
    refine ⟨'/' :: '/' :: cs.takeWhile (!isNewlineChar ·), cs.dropWhile (!isNewlineChar ·), ?_,
      .some fun c hc => by simpa using List.mem_takeWhile_imp hc, ?_⟩
    · rw [List.cons_append, List.cons_append, List.takeWhile_append_dropWhile]
    · show 2 + ((cs.flatMap _).takeWhile _).length = 1 + (1 + byteLength _)
      rw [length_takeWhile_not_isNewline]
      omega
  · refine ⟨[], cs, rfl, .none, ?_⟩
    exact lineCommentLength.eq_2 _ fun bytes hbytes => hopens ⟨bytes, hbytes⟩

theorem Newline.length_eq (h : Newline rest newline) :
    newlineLength ((newline ++ rest).flatMap String.utf8EncodeChar) = byteLength newline := by
  cases h with
  | lf => rfl
  | crlf => rfl
  | cr hrest =>
    show newlineLength (13 :: rest.flatMap String.utf8EncodeChar) = 1
    rw [newlineLength.eq_2 _ _ fun bytes _ hbytes => ?_]
    · rfl
    · obtain ⟨ds, rfl, -⟩ := exists_of_flatMap_utf8EncodeChar_eq_cons (a := '\n') (by decide) hbytes
      exact hrest rfl

/-- Nothing else is taken for a newline. -/
theorem exists_newline (h : newlineLength (cs.flatMap String.utf8EncodeChar) ≠ 0) :
    ∃ newline rest, cs = newline ++ rest ∧ Newline rest newline := by
  cases cs with
  | nil => exact absurd rfl h
  | cons c cs =>
    by_cases hreturn : c = '\r'
    · subst hreturn
      by_cases hhead : cs.head? = some '\n'
      · obtain ⟨rest, rfl⟩ := List.head?_eq_some_iff.mp hhead
        exact ⟨['\r', '\n'], rest, rfl, .crlf⟩
      · exact ⟨['\r'], cs, rfl, .cr hhead⟩
    · obtain ⟨b, bytes, hc, hb⟩ := exists_first_byte c
      have hb13 : b ≠ 13 := fun heq =>
        hreturn ((eq_ofNat_iff_of_mem_utf8EncodeChar (a := '\r') (by decide) hb).mp heq)
      rw [List.flatMap_cons, hc, List.cons_append, newlineLength.eq_2 _ _ fun _ heq _ => hb13 heq,
        isNewline_of_mem hb] at h
      have hnewline : isNewlineChar c = true := by
        by_contra hnot
        exact h (if_neg hnot)
      obtain rfl : c = '\n' := by simpa [isNewlineChar, hreturn] using hnewline
      exact ⟨['\n'], cs, rfl, .lf⟩

theorem Ahead.hasNewline_iff (h : Ahead text i cs) : hasNewline text i = true ↔ BlankLine cs := by
  have hspaces := h.dropWhile isSpaceChar
  rw [← h.skipSpaces_eq] at hspaces
  rw [hasNewline, hspaces.drop]
  constructor
  · intro hnewline
    cases hrest : cs.dropWhile isSpaceChar with
    | nil => simp [hrest] at hnewline
    | cons c rest =>
      obtain ⟨b, bytes, hc, hb⟩ := exists_first_byte c
      rw [hrest, List.flatMap_cons, hc] at hnewline
      have hnewline : isNewline b = true := hnewline
      rw [isNewline_of_mem hb] at hnewline
      rw [← List.takeWhile_append_dropWhile (p := isSpaceChar) (l := cs), hrest]
      exact .intro (fun s hs => List.mem_takeWhile_imp hs) hnewline
  · intro hline
    cases hline with
    | @intro spaces rest c hall hc =>
      obtain ⟨b, bytes, hbytes, hb⟩ := exists_first_byte c
      have hspace : ¬ isSpaceChar c = true := by
        simp only [isNewlineChar, Bool.or_eq_true, beq_iff_eq] at hc
        rcases hc with rfl | rfl <;> decide
      rw [List.dropWhile_append_of_pos hall, List.dropWhile_cons_of_neg hspace, List.flatMap_cons, hbytes]
      show isNewline b = true
      rw [isNewline_of_mem hb, hc]

/-! ## The answer -/

/-- **The scanners read the grammar**, wherever they start between two characters. -/
theorem Ahead.isNextLineEmpty?_iff {stop : Nat} (h : Ahead text (min stop text.length) cs) :
    ∃ answer, isNextLineEmpty? text stop = some answer ∧ (answer = true ↔ BlankLineAhead cs) := by
  have hfuel : cs.length < text.length + 1 := by
    have hlength := congrArg List.length h.drop
    rw [List.length_drop, length_flatMap_utf8EncodeChar] at hlength
    have hchars := length_le_byteLength cs
    omega
  obtain ⟨passed, rest, rfl, hrounds, hpassed, hbare⟩ := h.exists_skipTrailers? hfuel
  obtain ⟨comment, tail, rfl, hcomment, hlength⟩ := exists_lineComment rest
  have hskip := h.append.skipLineComment?_eq
  rw [hlength] at hskip
  have htail := h.append.append
  refine ⟨_, by rw [Scan.isNextLineEmpty?, hrounds, Option.bind_eq_bind, Option.bind_some, hskip]; rfl, ?_⟩
  rw [htail.skipNewline_eq, Bool.and_eq_true, bne_iff_ne]
  constructor
  · rintro ⟨hmoves, hline⟩
    obtain ⟨newline, rest, rfl, hnewline⟩ := exists_newline fun hzero => hmoves (by rw [hzero]; rfl)
    rw [hnewline.length_eq, htail.append.hasNewline_iff] at hline
    exact .intro hpassed hcomment hnewline hline
  · intro hblank
    generalize hcs : passed ++ (comment ++ tail) = cs at hblank
    cases hblank with
    | @intro trailers comment' newline rest htrailers hcomment' hnewline hline =>
      obtain ⟨-, hrest⟩ :=
        hpassed.unique htrailers hcs hbare (bare_of_lineComment hcomment' hnewline)
      rw [hrest, hcomment'.length_eq hnewline] at hlength
      obtain ⟨-, rfl⟩ := append_inj_of_byteLength_eq hrest hlength.symm
      rw [hnewline.length_eq, htail.append.hasNewline_iff]
      refine ⟨?_, hline⟩
      have hpos : byteLength newline ≠ 0 := by
        cases hnewline <;> decide
      omega

/-- Where a text can be cut, characters stand on both sides. -/
theorem exists_ahead {text : String} (h : isBoundary text i = true) :
    ∃ before after, text.toList = before ++ after ∧ byteLength before = i ∧
      Ahead (bytesOf text) i after := by
  obtain ⟨before, after, htext, rfl⟩ := isBoundary_iff.mp h
  have hbytes : bytesOf text = (before ++ after).flatMap String.utf8EncodeChar := by
    rw [← htext, ← bytesOf_ofList, String.ofList_toList]
  have hstart : Ahead (bytesOf text) 0 (before ++ after) := ⟨Nat.zero_le _, hbytes⟩
  have hahead := hstart.append
  rw [Nat.zero_add] at hahead
  exact ⟨before, after, htext, rfl, hahead⟩

/-- Where a text can be cut, the question has an answer. -/
theorem exists_isNextLineEmpty? {text : String} (h : isBoundary text i = true) :
    ∃ answer, isNextLineEmpty? (bytesOf text) i = some answer := by
  obtain ⟨before, after, -, -, hahead⟩ := exists_ahead h
  rw [← Nat.min_eq_left hahead.le] at hahead
  obtain ⟨answer, hanswer, -⟩ := hahead.isNextLineEmpty?_iff
  exact ⟨answer, hanswer⟩

/-- **A blank line is found if and only if the grammar has one.** The question is asked at a place where the
text can be cut, or past its end, and is answered there. -/
theorem isNextLineEmpty?_decides (text : String) (stop : Nat)
    (hstop : isBoundary text stop = true ∨ text.utf8ByteSize ≤ stop) :
    ∃ before after answer, text.toList = before ++ after ∧
      byteLength before = min stop text.utf8ByteSize ∧
      isNextLineEmpty? (bytesOf text) stop = some answer ∧ (answer = true ↔ BlankLineAhead after) := by
  have hcut : isBoundary text (min stop text.utf8ByteSize) = true := by
    rcases hstop with hstop | hpast
    · rwa [Nat.min_eq_left (le_size_of_isBoundary hstop)]
    · rw [Nat.min_eq_right hpast]
      exact isBoundary_size text
  obtain ⟨before, after, htext, hbefore, hahead⟩ := exists_ahead hcut
  rw [← length_bytesOf] at hahead
  obtain ⟨answer, hanswer, hiff⟩ := hahead.isNextLineEmpty?_iff
  exact ⟨before, after, answer, htext, hbefore, hanswer, hiff⟩

/-- Behind a longer character, the way to the blank line leads over a separator, both kinds of comments, and
two bytes of a newline. -/
theorem isNextLineEmpty?_decides_comments :
    isBoundary "é;/* ü */ // c\r\n\t\nb" 2 = true ∧
      isNextLineEmpty? (bytesOf "é;/* ü */ // c\r\n\t\nb") 2 = some true ∧
      BlankLineAhead ";/* ü */ // c\r\n\t\nb".toList := by
  have hcut : isBoundary "é;/* ü */ // c\r\n\t\nb" 2 = true := by decide
  have hfound : isNextLineEmpty? (bytesOf "é;/* ü */ // c\r\n\t\nb") 2 = some true := by
    decide +kernel
  obtain ⟨before, after, answer, htext, hbefore, hanswer, hiff⟩ :=
    isNextLineEmpty?_decides "é;/* ü */ // c\r\n\t\nb" 2 (.inl hcut)
  have hsplit : before ++ after = ['é'] ++ ";/* ü */ // c\r\n\t\nb".toList := htext.symm
  obtain ⟨-, rfl⟩ := append_inj_of_byteLength_eq hsplit hbefore
  exact ⟨hcut, hfound, hiff.mp (Option.some.inj (hanswer.symm.trans hfound))⟩

end CodeFormatter.Scan
