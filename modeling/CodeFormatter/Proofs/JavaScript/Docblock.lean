import CodeFormatter.JavaScript.Pragma
import CodeFormatter.Proofs.Text.Blank
import CodeFormatter.Proofs.Text.Slice
import Mathlib.Data.List.Chain

/-!
# The comment that a text starts with

A pragma goes into the comment at the start of a text, behind the line that names the interpreter. The
lines of the comment are taken apart, freed from blanks and asterisks, and written again, one asterisk in
front of each. A text without such a comment gets a new one.

**Theorem (`insert_eq`).** The code stays as it is, but for the blanks in front of it, and the comment keeps
its words: leaving out blanks and asterisks, the new one is the old one with `@format` at its end.

- *No line is lost.* Only blanks, line feeds, asterisks and empty lines are taken away, and only those are
  put in (`letters_contents`, `letters_extendedBody`).
- *No line can end the comment early.* A line that held `*/` would have ended it before, and in front of a
  line that starts with a slash there is now a blank (`unclosed_extended`).
-/

namespace CodeFormatter.JavaScript.Pragma

variable {cs shebang rest body after front back line : List Char} {lines : List (List Char)}
  {text : String} {n : Nat}

/-! ## The line that names the interpreter -/

/-- The parts of a text: the line that starts with `#!`, with its line feed, and what follows it. There may
be no such line, and it may be all of the text. -/
inductive Shebang : List Char → List Char → List Char → Prop
  | none {cs : List Char} (h : ¬ ['#', '!'] <+: cs) : Shebang cs [] cs
  | line {line rest : List Char} (h : ['#', '!'] <+: line) (hline : '\n' ∉ line) :
      Shebang (line ++ '\n' :: rest) (line ++ ['\n']) rest
  | whole {cs : List Char} (h : ['#', '!'] <+: cs) (hline : '\n' ∉ cs) : Shebang cs cs []

theorem Shebang.eq_append (h : Shebang cs shebang rest) : cs = shebang ++ rest := by
  cases h with
  | none h => rfl
  | line h hline => simp
  | whole h hline => simp

theorem splitShebang_of_not (h : ¬ ['#', '!'] <+: cs) : splitShebang cs = ([], cs) := by
  rw [splitShebang, if_neg (by rwa [List.isPrefixOf_iff_prefix])]

theorem takeWhile_of_not_mem (h : '\n' ∉ line) (tail : List Char) :
    (line ++ tail).takeWhile (· != '\n') = line ++ tail.takeWhile (· != '\n') := by
  apply List.takeWhile_append_of_pos
  intro c hc
  rw [bne_iff_ne]
  rintro rfl
  exact h hc

theorem splitShebang_of_line (h : ['#', '!'] <+: line) (hline : '\n' ∉ line) :
    splitShebang (line ++ '\n' :: rest) = (line ++ ['\n'], rest) := by
  have hprefix : ['#', '!'].isPrefixOf (line ++ '\n' :: rest) = true :=
    List.isPrefixOf_iff_prefix.mpr (h.trans (List.prefix_append _ _))
  have htake : (line ++ '\n' :: rest).takeWhile (· != '\n') = line := by
    simp [takeWhile_of_not_mem hline]
  rw [splitShebang, if_pos hprefix, htake]
  simp [List.take_append, List.drop_append, List.take_of_length_le]

theorem splitShebang_of_whole (h : ['#', '!'] <+: cs) (hline : '\n' ∉ cs) :
    splitShebang cs = (cs, []) := by
  have htake : cs.takeWhile (· != '\n') = cs := by simpa using takeWhile_of_not_mem hline []
  rw [splitShebang, if_pos (List.isPrefixOf_iff_prefix.mpr h), htake]
  simp [List.take_of_length_le]

theorem splitShebang_eq_iff : splitShebang cs = (shebang, rest) ↔ Shebang cs shebang rest := by
  constructor
  · intro h
    by_cases hprefix : ['#', '!'] <+: cs
    · by_cases hmem : '\n' ∈ cs
      · obtain ⟨line, tail, rfl, hline⟩ := List.eq_append_cons_of_mem hmem
        have hstart : ['#', '!'] <+: line := by
          -- The line feed is not one of the two characters.
          match line with
          | [] => simp at hprefix
          | [c] => simp at hprefix
          | c :: d :: line => simpa using hprefix
        rw [splitShebang_of_line hstart hline] at h
        cases h
        exact .line hstart hline
      · rw [splitShebang_of_whole hprefix hmem] at h
        cases h
        exact .whole hprefix hmem
    · rw [splitShebang_of_not hprefix] at h
      cases h
      exact .none hprefix
  · rintro (h | ⟨h, hline⟩ | ⟨h, hline⟩)
    · exact splitShebang_of_not h
    · exact splitShebang_of_line h hline
    · exact splitShebang_of_whole h hline

theorem Shebang.unique {shebang' rest' : List Char} (h : Shebang cs shebang rest)
    (h' : Shebang cs shebang' rest') : shebang = shebang' ∧ rest = rest' := by
  have heq := (splitShebang_eq_iff.mpr h).symm.trans (splitShebang_eq_iff.mpr h')
  exact Prod.mk.inj heq

theorem exists_shebang (cs : List Char) : ∃ shebang rest, Shebang cs shebang rest :=
  ⟨_, _, splitShebang_eq_iff.mp rfl⟩

/-- The line that names the interpreter is the same with another rest behind it, if it ends. -/
theorem Shebang.replace (h : Shebang cs shebang rest) (hended : ['#', '!'] <+: cs → '\n' ∈ cs)
    (hback : ¬ ['#', '!'] <+: back) : Shebang (shebang ++ back) shebang back := by
  cases h with
  | none h => exact .none hback
  | @line line rest h hline =>
    rw [List.append_assoc]
    exact .line h hline
  | whole h hline => exact absurd (hended h) hline

/-! ## Where comments end -/

/-- No comment ends in the text. -/
def Unclosed (cs : List Char) : Prop := ¬ ['*', '/'] <:+: cs

/-- It is enough to look at characters side by side. -/
theorem unclosed_iff_isChain : Unclosed cs ↔ cs.IsChain fun a b => ¬ (a = '*' ∧ b = '/') := by
  constructor
  · intro h
    rw [List.isChain_iff_forall_rel_of_append_cons_cons]
    rintro a b front back rfl ⟨rfl, rfl⟩
    exact h ⟨front, back, by simp⟩
  · intro h hstands
    have hpair := List.IsChain.infix h hstands
    simp at hpair

theorem Unclosed.of_isInfix (h : Unclosed cs) (hline : line <:+: cs) : Unclosed line :=
  fun hpair => h (hpair.trans hline)

theorem Unclosed.append (h : Unclosed front) (h' : Unclosed back)
    (hseam : front.getLast? ≠ some '*' ∨ back.head? ≠ some '/') : Unclosed (front ++ back) := by
  rw [unclosed_iff_isChain] at h h' ⊢
  refine List.isChain_append.mpr ⟨h, h', ?_⟩
  rintro a ha b hb ⟨rfl, rfl⟩
  rcases hseam with hne | hne
  · exact hne ha
  · exact hne hb

/-- A text starts with a comment that has this body, and this stands behind it. The first end of a comment
behind the opening is the end of this one. -/
structure Opens (cs body after : List Char) : Prop where
  eq : cs = ['/', '*'] ++ body ++ ['*', '/'] ++ after
  unclosed : Unclosed (body ++ ['*'])

theorem closing?_append (h : Unclosed (body ++ ['*'])) (after : List Char) :
    closing? (body ++ '*' :: '/' :: after) = some body.length := by
  induction body with
  | nil => rfl
  | cons c body ih =>
    have htail : Unclosed (body ++ ['*']) := h.of_isInfix (List.suffix_cons c _).isInfix
    have hopen : ∀ tail, c = '*' → body ++ '*' :: '/' :: after = '/' :: tail → False := by
      rintro tail rfl heq
      cases body with
      | nil => cases heq
      | cons d body =>
        cases heq
        exact h ⟨[], body ++ ['*'], rfl⟩
    rw [List.cons_append, closing?, ih htail]
    · rfl
    · exact hopen

theorem exists_of_closing? (h : closing? cs = some n) :
    ∃ body after, cs = body ++ '*' :: '/' :: after ∧ body.length = n ∧ Unclosed (body ++ ['*']) := by
  induction cs using closing?.induct generalizing n with
  | case1 after =>
    cases h
    refine ⟨[], after, rfl, rfl, ?_⟩
    rw [unclosed_iff_isChain]
    simp
  | case2 c rest hopen ih =>
    rw [closing?] at h
    · obtain ⟨m, hm, rfl⟩ := Option.map_eq_some_iff.mp h
      obtain ⟨body, after, rfl, hlength, hunclosed⟩ := ih hm
      refine ⟨c :: body, after, rfl, by simp [hlength], ?_⟩
      rw [unclosed_iff_isChain] at hunclosed ⊢
      refine List.isChain_cons.mpr ⟨?_, hunclosed⟩
      rintro d hd ⟨rfl, rfl⟩
      cases body with
      | nil => simp at hd
      | cons e body =>
        obtain rfl : e = '/' := by simpa using hd
        exact hopen _ rfl rfl
    · exact hopen
  | case3 => cases h

/-- **What the comment at the start of a text is.** -/
theorem blockComment?_eq_some_iff : blockComment? cs = some (body, after) ↔ Opens cs body after := by
  constructor
  · intro h
    unfold blockComment? at h
    split at h
    · rename_i rest
      obtain ⟨n, hn, heq⟩ := Option.map_eq_some_iff.mp h
      obtain ⟨body, after, rfl, rfl, hunclosed⟩ := exists_of_closing? hn
      have hbody : (body ++ '*' :: '/' :: after).take body.length = body := by simp
      have hafter : (body ++ '*' :: '/' :: after).drop (body.length + 2) = after := by
        rw [List.drop_append]
        simp
      rw [hbody, hafter] at heq
      cases heq
      exact ⟨by simp, hunclosed⟩
    · cases h
  · rintro ⟨rfl, hunclosed⟩
    have hclosing := closing?_append hunclosed after
    simp only [List.append_assoc, List.cons_append, List.nil_append, blockComment?, hclosing]
    simp [List.drop_append]

theorem Opens.unique {body' after' : List Char} (h : Opens cs body after) (h' : Opens cs body' after') :
    body = body' ∧ after = after' := by
  have heq := (blockComment?_eq_some_iff.mpr h).symm.trans (blockComment?_eq_some_iff.mpr h')
  exact Prod.mk.inj (Option.some.inj heq)

theorem docblock?_of_shebang (h : Shebang cs shebang rest) :
    docblock? cs = blockComment? (trimLeft rest) := by
  rw [docblock?, splitShebang_eq_iff.mpr h]

theorem docblock?_eq_some_iff (h : Shebang cs shebang rest) :
    docblock? cs = some (body, after) ↔ Opens (trimLeft rest) body after := by
  rw [docblock?_of_shebang h, blockComment?_eq_some_iff]

theorem docblock?_eq_none_iff (h : Shebang cs shebang rest) :
    docblock? cs = none ↔ ¬ ∃ body after, Opens (trimLeft rest) body after := by
  rw [Option.eq_none_iff_forall_ne_some]
  constructor
  · rintro hnone ⟨body, after, hopens⟩
    exact hnone (body, after) ((docblock?_eq_some_iff h).mpr hopens)
  · rintro hnone ⟨body, after⟩ hsome
    exact hnone ⟨body, after, (docblock?_eq_some_iff h).mp hsome⟩

/-- The body of the comment is a part of the text. -/
theorem isInfix_of_docblock? (h : docblock? cs = some (body, after)) : body <:+: cs := by
  obtain ⟨shebang, rest, hshebang⟩ := exists_shebang cs
  have hopens := (docblock?_eq_some_iff hshebang).mp h
  have hbody : body <:+: trimLeft rest := ⟨['/', '*'], ['*', '/'] ++ after, by simp [hopens.eq]⟩
  have hrest : rest <:+ cs := ⟨shebang, hshebang.eq_append.symm⟩
  exact hbody.trans ((List.dropWhile_suffix _).trans hrest).isInfix

/-! ## What follows the comment -/

/-- **A text can be cut** behind as many bytes as some of its characters have, and only there. -/
theorem dropBytes?_eq_some_iff :
    dropBytes? n cs = some back ↔ ∃ front, cs = front ++ back ∧ byteLength front = n := by
  induction n, cs using dropBytes?.induct with
  | case1 =>
    constructor
    · intro h
      cases h
      exact ⟨[], rfl, rfl⟩
    · rintro ⟨front, heq, -⟩
      obtain ⟨-, rfl⟩ := List.append_eq_nil_iff.mp heq.symm
      rfl
  | case2 n hn =>
    rw [dropBytes?, if_neg hn]
    constructor
    · exact nofun
    · rintro ⟨front, heq, rfl⟩
      obtain ⟨rfl, -⟩ := List.append_eq_nil_iff.mp heq.symm
      exact absurd rfl hn
  | case3 c cs =>
    constructor
    · intro h
      cases h
      exact ⟨[], rfl, rfl⟩
    · rintro ⟨front, heq, hlength⟩
      obtain rfl := byteLength_eq_zero.mp hlength
      cases heq
      rfl
  | case4 n c cs hn hlt =>
    rw [dropBytes?, if_neg hn, if_pos hlt]
    constructor
    · exact nofun
    · rintro ⟨front, heq, rfl⟩
      cases front with
      | nil => exact absurd rfl hn
      | cons d front =>
        cases heq
        rw [byteLength_cons] at hlt
        omega
  | case5 n c cs hn hle ih =>
    rw [dropBytes?, if_neg hn, if_neg hle, ih]
    constructor
    · rintro ⟨front, heq, hlength⟩
      refine ⟨c :: front, by rw [heq, List.cons_append], ?_⟩
      rw [byteLength_cons, hlength]
      omega
    · rintro ⟨front, heq, rfl⟩
      cases front with
      | nil => exact absurd rfl hn
      | cons d front =>
        cases heq
        refine ⟨front, rfl, ?_⟩
        rw [byteLength_cons]
        omega

/-! ## The words of a comment -/

/-- What is left of a text without blanks and asterisks. -/
def letters (cs : List Char) : List Char := cs.filter fun c => !isBlank c && c != '*'

theorem letters_append (front back : List Char) : letters (front ++ back) = letters front ++ letters back :=
  List.filter_append ..

/-- What is dropped in front of a list does not matter where it is left out. -/
theorem filter_dropWhile {α : Type} {drop keep : α → Bool} (h : ∀ a, drop a = true → keep a = false)
    (l : List α) : (l.dropWhile drop).filter keep = l.filter keep := by
  induction l with
  | nil => rfl
  | cons a l ih =>
    by_cases ha : drop a = true
    · rw [List.dropWhile_cons_of_pos ha, ih, List.filter_cons_of_neg (by simp [h a ha])]
    · rw [List.dropWhile_cons_of_neg ha]

theorem letters_strippedLine (line : List Char) : letters (strippedLine line) = letters line := by
  have hblank : ∀ c, isBlank c = true → (!isBlank c && c != '*') = false := by
    intro c hc
    simp [hc]
  have hstar : ∀ c : Char, (c == '*') = true → (!isBlank c && c != '*') = false := by
    intro c hc
    simp [beq_iff_eq.mp hc]
  rw [letters, strippedLine, filter_trimBoth hblank, filter_dropWhile hstar, filter_trimBoth hblank, letters]

theorem letters_flatten_map (ls : List (List Char)) :
    letters (ls.map strippedLine).flatten = letters ls.flatten := by
  induction ls with
  | nil => rfl
  | cons l ls ih =>
    rw [List.map_cons, List.flatten_cons, List.flatten_cons, letters_append, letters_append, ih,
      letters_strippedLine]

/-- Empty lines at the start and at the end do not count. -/
theorem flatten_contents (body : List Char) :
    (contents body).flatten = ((textLines body).map strippedLine).flatten := by
  have hempty : ∀ l : List Char, l.isEmpty = true → (!l.isEmpty) = false := by
    intro l hl
    simp [hl]
  rw [contents, ← List.flatten_filter_not_isEmpty, List.filter_reverse, filter_dropWhile hempty,
    ← List.filter_reverse, List.reverse_reverse, filter_dropWhile hempty, List.flatten_filter_not_isEmpty]

/-- **The lines of a comment have all its words.** -/
theorem letters_contents (body : List Char) : letters (contents body).flatten = letters body := by
  rw [flatten_contents, letters_flatten_map, letters, filter_textLines (by decide), letters]

theorem isInfix_of_mem_contents (h : line ∈ contents body) : line <:+: body := by
  have hstripped : line ∈ (textLines body).map strippedLine :=
    (List.dropWhile_suffix _).subset
      (List.mem_reverse.mp ((List.dropWhile_suffix _).subset (List.mem_reverse.mp h)))
  obtain ⟨l, hl, rfl⟩ := List.mem_map.mp hstripped
  have hdropped : (trimBoth l).dropWhile (· == '*') <:+: trimBoth l := (List.dropWhile_suffix _).isInfix
  have hline : strippedLine l <:+: l := (isInfix_trimBoth _).trans (hdropped.trans (isInfix_trimBoth l))
  exact hline.trans (isInfix_of_mem_textLines hl)

/-! ## The comment that is written -/

/-- The body of the comment with these lines and the pragma. -/
def extendedBody (lines : List (List Char)) : List Char :=
  "*\n".toList ++ lines.flatMap writtenLine ++ (if lines.isEmpty then [] else " *\n".toList)
    ++ " * @format\n ".toList

theorem extended_eq (lines : List (List Char)) :
    extended lines = ['/', '*'] ++ extendedBody lines ++ ['*', '/'] := by
  change "/**\n".toList ++ lines.flatMap writtenLine ++ (if lines.isEmpty then [] else " *\n".toList) ++
    " * @format\n */".toList = _
  simp [extendedBody]

theorem letters_writtenLine (line : List Char) : letters (writtenLine line) = letters line := by
  unfold writtenLine
  split
  · rename_i hempty
    rw [List.isEmpty_iff.mp hempty]
    decide
  · have hfront : letters " * ".toList = [] := by decide
    have hend : letters ['\n'] = [] := by decide
    rw [letters_append, letters_append, hfront, hend, List.nil_append, List.append_nil]

theorem letters_flatMap (lines : List (List Char)) :
    letters (lines.flatMap writtenLine) = letters lines.flatten := by
  induction lines with
  | nil => rfl
  | cons line lines ih =>
    rw [List.flatMap_cons, List.flatten_cons, letters_append, letters_append, letters_writtenLine, ih]

/-- **The words of the new comment** are those of its lines and the pragma. -/
theorem letters_extendedBody (lines : List (List Char)) :
    letters (extendedBody lines) = letters lines.flatten ++ "@format".toList := by
  have hfirst : letters "*\n".toList = [] := by decide
  have hblank : letters (if lines.isEmpty then [] else " *\n".toList) = [] := by
    split <;> decide
  have hpragma : letters " * @format\n ".toList = "@format".toList := by decide
  rw [extendedBody, letters_append, letters_append, letters_append, hfirst, hblank, hpragma,
    letters_flatMap, List.nil_append, List.append_nil]

theorem getLast?_writtenLine (line : List Char) : (writtenLine line).getLast? = some '\n' := by
  unfold writtenLine
  split
  · decide
  · rw [List.getLast?_append]
    rfl

theorem unclosed_writtenLine (h : Unclosed line) : Unclosed (writtenLine line) := by
  have hfront : Unclosed " * ".toList := by
    rw [unclosed_iff_isChain]
    decide
  have hend : Unclosed ['\n'] := by
    rw [unclosed_iff_isChain]
    decide
  unfold writtenLine
  split
  · rw [unclosed_iff_isChain]
    decide
  · apply Unclosed.append
    · exact hfront.append h (.inl (by decide))
    · exact hend
    · exact .inr (by decide)

theorem unclosed_flatMap (h : ∀ line ∈ lines, Unclosed line) :
    Unclosed (lines.flatMap writtenLine) := by
  induction lines with
  | nil =>
    rw [unclosed_iff_isChain]
    decide
  | cons line lines ih =>
    obtain ⟨hline, hlines⟩ := List.forall_mem_cons.mp h
    rw [List.flatMap_cons]
    refine (unclosed_writtenLine hline).append (ih hlines) (.inl ?_)
    rw [getLast?_writtenLine]
    decide

/-- **The new comment ends where it should**, if no comment ends in one of its lines. -/
theorem unclosed_extended (h : ∀ line ∈ lines, Unclosed line) :
    Unclosed (['/', '*'] ++ extendedBody lines ++ ['*']) := by
  have hopening : Unclosed "/**\n".toList := by
    rw [unclosed_iff_isChain]
    decide
  have hending : Unclosed ((if lines.isEmpty then [] else " *\n".toList) ++ " * @format\n *".toList) := by
    rw [unclosed_iff_isChain]
    split <;> decide
  have heq : ['/', '*'] ++ extendedBody lines ++ ['*'] = "/**\n".toList ++ (lines.flatMap writtenLine ++
      ((if lines.isEmpty then [] else " *\n".toList) ++ " * @format\n *".toList)) := by
    simp [extendedBody]
  have hhead : ((if lines.isEmpty then [] else " *\n".toList) ++ " * @format\n *".toList).head? ≠
      some '/' := by
    split <;> decide
  rw [heq]
  apply hopening.append
  · exact (unclosed_flatMap h).append hending (.inr hhead)
  · exact .inl (by decide)

theorem opens_extended (h : ∀ line ∈ lines, Unclosed line) (after : List Char) :
    Opens (extended lines ++ after) (extendedBody lines) after where
  eq := by rw [extended_eq]
  unclosed := (unclosed_extended h).of_isInfix ⟨['/', '*'], [], by simp⟩

/-! ## Putting the pragma in -/

/-- What stands behind the new comment. -/
def behind (after : List Char) : List Char :=
  if (trimLeft after).isEmpty then ['\n'] else ['\n', '\n'] ++ trimLeft after

theorem insertChars?_of_none (h : Shebang cs shebang rest) (hnone : docblock? rest = none) :
    insertChars? cs = some (shebang ++ "/** @format */".toList
      ++ (if rest.head? == some '\n' then ['\n'] else ['\n', '\n']) ++ rest) := by
  rw [insertChars?, splitShebang_eq_iff.mpr h]
  dsimp only
  rw [hnone]

theorem insertChars?_of_some (h : Shebang cs shebang rest) (hsome : docblock? rest = some (body, after)) :
    insertChars? cs =
      (dropBytes? (byteLength (rest.takeWhile isBlank) + byteLength body + 4) rest).map
        fun after => shebang ++ extended (contents body) ++ behind after := by
  rw [insertChars?, splitShebang_eq_iff.mpr h]
  simp only [hsome]
  cases dropBytes? (byteLength (rest.takeWhile isBlank) + byteLength body + 4) rest <;> rfl

/-- With one line at most that starts with `#!`, the text is cut where the comment ends. -/
theorem insertChars?_of_opens (h : Shebang cs shebang rest) (hrest : ¬ ['#', '!'] <+: rest)
    (hopens : Opens (trimLeft rest) body after) :
    insertChars? cs = some (shebang ++ extended (contents body) ++ behind after) := by
  have hcut : dropBytes? (byteLength (rest.takeWhile isBlank) + byteLength body + 4) rest = some after := by
    refine dropBytes?_eq_some_iff.mpr
      ⟨rest.takeWhile isBlank ++ (['/', '*'] ++ body ++ ['*', '/']), ?_, ?_⟩
    · rw [List.append_assoc, ← hopens.eq, takeWhile_append_trimLeft]
    · have hopening : byteLength ['/', '*'] = 2 := by decide
      have hclosing : byteLength ['*', '/'] = 2 := by decide
      rw [byteLength_append, byteLength_append, byteLength_append, hopening, hclosing]
      omega
  rw [insertChars?_of_some h ((docblock?_eq_some_iff (.none hrest)).mpr hopens), hcut]
  rfl

theorem unclosed_contents (h : Unclosed (body ++ ['*'])) : ∀ line ∈ contents body, Unclosed line :=
  fun _ hline => h.of_isInfix
    ((isInfix_of_mem_contents hline).trans (List.prefix_append _ _).isInfix)

/-- **What a pragma does to a text.** The comment that the text starts with is replaced by one with the same
words and the pragma, and behind it there is a blank line and the code. A text without a comment gets a new
one. -/
theorem insert_eq (hsplit : splitShebang text.toList = (shebang, rest)) (hrest : ¬ ['#', '!'] <+: rest) :
    (∀ body after, Opens (trimLeft rest) body after → ∃ body',
      insert text = .ok (String.ofList (shebang ++ (['/', '*'] ++ body' ++ ['*', '/']) ++
        if trimLeft after = [] then ['\n'] else ['\n', '\n'] ++ trimLeft after)) ∧
      ¬ ['*', '/'] <:+: ['/', '*'] ++ body' ++ ['*'] ∧
      letters body' = letters body ++ "@format".toList) ∧
    ((¬ ∃ body after, Opens (trimLeft rest) body after) →
      insert text = .ok (String.ofList (shebang ++ "/** @format */".toList ++
        (if rest.head? = some '\n' then ['\n'] else ['\n', '\n']) ++ rest))) := by
  have hshebang : Shebang text.toList shebang rest := splitShebang_eq_iff.mp hsplit
  constructor
  · intro body after hopens
    refine ⟨extendedBody (contents body), ?_, ?_, ?_⟩
    · rw [insert, insertChars?_of_opens hshebang hrest hopens, extended_eq, behind]
      simp only [List.isEmpty_iff]
    · exact unclosed_extended (unclosed_contents hopens.unclosed)
    · rw [letters_extendedBody, letters_contents]
  · intro hnone
    have hdocblock : docblock? rest = none := (docblock?_eq_none_iff (.none hrest)).mpr hnone
    rw [insert, insertChars?_of_none hshebang hdocblock]
    simp only [beq_iff_eq]

/-- A text with a comment behind the line that names the interpreter, and a text without one. -/
theorem insert_eq_letter :
    (∃ body', insert "#!n\n /* a */\nb" = .ok (String.ofList ("#!n\n".toList ++
        (['/', '*'] ++ body' ++ ['*', '/']) ++ ['\n', '\n', 'b'])) ∧
      ¬ ['*', '/'] <:+: ['/', '*'] ++ body' ++ ['*'] ∧ letters body' = "a@format".toList) ∧
    insert "b" = .ok "/** @format */\n\nb" := by
  have hopens : Opens (trimLeft " /* a */\nb".toList) " a ".toList "\nb".toList := by
    refine ⟨by decide, ?_⟩
    rw [unclosed_iff_isChain]
    decide
  have hnone : ¬ ∃ body after, Opens (trimLeft ['b']) body after := by
    rintro ⟨body, after, heq, -⟩
    cases heq
  constructor
  · have hsplit : splitShebang "#!n\n /* a */\nb".toList = ("#!n\n".toList, " /* a */\nb".toList) := by
      decide
    have hafter : trimLeft "\nb".toList = ['b'] := by decide
    have hletters : letters " a ".toList = ['a'] := by decide
    obtain ⟨h, -⟩ := insert_eq hsplit (by decide)
    obtain ⟨body', hinsert, hunclosed, hbody⟩ := h _ _ hopens
    rw [hafter, if_neg (by decide)] at hinsert
    rw [hletters] at hbody
    exact ⟨body', hinsert, hunclosed, hbody⟩
  · have hsplit : splitShebang "b".toList = ([], ['b']) := by decide
    obtain ⟨-, h⟩ := insert_eq hsplit (by decide)
    exact h hnone

end CodeFormatter.JavaScript.Pragma
