import CodeFormatter.Proofs.ByteOrderMark
import CodeFormatter.Proofs.JavaScript.Docblock

/-!
# Pragmas that are found again

A text has the pragma if one of the words of the comment that it starts with asks for it. What is put in is
such a comment: a pragma stands between two blanks in it (`exists_comment_of_insertChars?`).

**Theorem (`insert_isPresent_iff`).** What is put in is found again, unless the line that names the
interpreter is the whole text, and a pragma can be put in unless a character is cut. On a text with the
pragma, it makes no difference whether one is required or put in: the text is accepted, and it does not get
a second one.

- *Lines without an end.* The line that names the interpreter goes on to its line feed. A pragma behind a
  line that has none becomes a part of that line.
- *Cut characters.* Where two lines start with `#!`, the comment is looked for behind the second one, but its
  end is counted from the start of that line.
-/

namespace CodeFormatter.JavaScript

open Pipeline

namespace Pragma

variable {cs ds shebang rest body after : List Char} {text : String}

/-! ## Texts with the pragma -/

/-- **When a text has the pragma.** -/
theorem isPresent_iff (h : Shebang text.toList shebang rest) : isPresent text = true ↔
    ∃ body after, Opens (trimLeft rest) body after ∧
      ∃ word ∈ words (['/', '*'] ++ body ++ ['*', '/']), isRequest word = true := by
  rw [isPresent, docblock?_of_shebang h, Option.any_eq_true]
  constructor
  · rintro ⟨⟨body, after⟩, hsome, hword⟩
    exact ⟨body, after, blockComment?_eq_some_iff.mp hsome, List.any_eq_true.mp hword⟩
  · rintro ⟨body, after, hopens, hword⟩
    exact ⟨(body, after), blockComment?_eq_some_iff.mpr hopens, List.any_eq_true.mpr hword⟩

/-- A text that starts with a comment does not start with blanks, or with another line for the interpreter. -/
theorem Opens.trimLeft_eq (h : Opens cs body after) : trimLeft cs = cs := by
  rw [h.eq]
  rfl

theorem Opens.not_isPrefix (h : Opens cs body after) : ¬ ['#', '!'] <+: cs := by
  rw [h.eq]
  simp

/-! ## What is put in -/

theorem mem_words_extendedBody (lines : List (List Char)) :
    "@format".toList ∈ words (['/', '*'] ++ extendedBody lines ++ ['*', '/']) := by
  have heq : ['/', '*'] ++ extendedBody lines ++ ['*', '/'] =
      ("/**\n".toList ++ lines.flatMap writtenLine ++ (if lines.isEmpty then [] else " *\n".toList)
        ++ " *".toList) ++ ' ' :: ("@format".toList ++ '\n' :: " */".toList) := by
    simp [extendedBody]
  have hword : "@format".toList.all (fun c => !isBlank c) = true := by decide
  rw [heq]
  apply mem_words
  · decide
  · decide
  · decide
  · intro c hc
    simpa using List.all_eq_true.mp hword c hc

theorem opens_new (after : List Char) :
    Opens ("/** @format */".toList ++ after) "* @format ".toList after where
  eq := rfl
  unclosed := by
    rw [unclosed_iff_isChain]
    decide

/-- **A comment with the pragma** stands in front of the code. -/
theorem exists_comment_of_insertChars? (h : Shebang cs shebang rest) (hinsert : insertChars? cs = some ds) :
    ∃ comment body after, ds = shebang ++ comment ∧ Opens comment body after ∧
      "@format".toList ∈ words (['/', '*'] ++ body ++ ['*', '/']) := by
  cases hdocblock : docblock? rest with
  | none =>
    rw [insertChars?_of_none h hdocblock, List.append_assoc, List.append_assoc] at hinsert
    cases hinsert
    exact ⟨_, _, _, rfl, opens_new _, by decide⟩
  | some found =>
    obtain ⟨body, after⟩ := found
    rw [insertChars?_of_some h hdocblock] at hinsert
    obtain ⟨dropped, -, rfl⟩ := Option.map_eq_some_iff.mp hinsert
    obtain ⟨shebang', rest', hsecond⟩ := exists_shebang rest
    have hopens := (docblock?_eq_some_iff hsecond).mp hdocblock
    exact ⟨_, _, _, List.append_assoc _ _ _,
      opens_extended (unclosed_contents hopens.unclosed) (behind dropped), mem_words_extendedBody _⟩

/-- **The pragma is found again**, if the line that names the interpreter ends. -/
theorem isPresent_of_ended (hended : ['#', '!'] <+: cs → '\n' ∈ cs) (hinsert : insertChars? cs = some ds) :
    isPresent (String.ofList ds) = true := by
  obtain ⟨shebang, rest, h⟩ := exists_shebang cs
  obtain ⟨comment, body, after, rfl, hopens, hword⟩ := exists_comment_of_insertChars? h hinsert
  have hshebang : Shebang (String.ofList (shebang ++ comment)).toList shebang comment := by
    rw [String.toList_ofList]
    exact h.replace hended hopens.not_isPrefix
  refine (isPresent_iff hshebang).mpr ⟨body, after, ?_, _, hword, ?_⟩
  · rwa [hopens.trimLeft_eq]
  · decide

/-- Behind a line without an end, the pragma is a part of the line. -/
theorem not_isPresent_of_whole (hstart : ['#', '!'] <+: cs) (hline : '\n' ∉ cs)
    (hinsert : insertChars? cs = some ds) : isPresent (String.ofList ds) = false := by
  have hds : ds = (cs ++ "/** @format */".toList) ++ '\n' :: ['\n'] := by
    rw [insertChars?_of_none (.whole hstart hline) rfl] at hinsert
    cases hinsert
    simp
  have hshebang : Shebang (String.ofList ds).toList ((cs ++ "/** @format */".toList) ++ ['\n']) ['\n'] := by
    rw [String.toList_ofList, hds]
    refine .line (hstart.trans (List.prefix_append _ _)) ?_
    rw [List.mem_append, not_or]
    exact ⟨hline, by decide⟩
  rw [← Bool.not_eq_true, isPresent_iff hshebang]
  rintro ⟨body, after, hopens, -⟩
  cases hopens.eq

/-! ## Cut characters -/

/-- The comment is behind a second line that starts with `#!`. A comment of its length, at the start of that
line, would end inside a character. -/
def Miscut (cs : List Char) : Prop :=
  ∃ shebang rest shebang' rest' body after, Shebang cs shebang rest ∧ ['#', '!'] <+: rest ∧
    Shebang rest shebang' rest' ∧ Opens (trimLeft rest') body after ∧
    ¬ ∃ front back, rest = front ++ back ∧ byteLength front = byteLength body + 4

theorem miscut_iff {shebang' rest' : List Char} (h : Shebang cs shebang rest)
    (h' : Shebang rest shebang' rest') : Miscut cs ↔ ['#', '!'] <+: rest ∧
      ∃ body after, Opens (trimLeft rest') body after ∧
        ¬ ∃ front back, rest = front ++ back ∧ byteLength front = byteLength body + 4 := by
  constructor
  · rintro ⟨_, _, _, _, body, after, h₁, hsecond, h₂, hopens, hcut⟩
    obtain ⟨rfl, rfl⟩ := h.unique h₁
    obtain ⟨rfl, rfl⟩ := h'.unique h₂
    exact ⟨hsecond, body, after, hopens, hcut⟩
  · rintro ⟨hsecond, body, after, hopens, hcut⟩
    exact ⟨_, _, _, _, body, after, h, hsecond, h', hopens, hcut⟩

/-- **When a pragma can be put in.** -/
theorem exists_insertChars?_iff : (∃ ds, insertChars? cs = some ds) ↔ ¬ Miscut cs := by
  obtain ⟨shebang, rest, h⟩ := exists_shebang cs
  obtain ⟨shebang', rest', h'⟩ := exists_shebang rest
  rw [miscut_iff h h']
  cases hdocblock : docblock? rest with
  | none =>
    refine iff_of_true ⟨_, insertChars?_of_none h hdocblock⟩ ?_
    rintro ⟨-, body, after, hopens, -⟩
    exact (docblock?_eq_none_iff h').mp hdocblock ⟨body, after, hopens⟩
  | some found =>
    obtain ⟨body, after⟩ := found
    have hopens := (docblock?_eq_some_iff h').mp hdocblock
    by_cases hsecond : ['#', '!'] <+: rest
    · have hblanks : rest.takeWhile isBlank = [] := by
        obtain ⟨line, rfl⟩ := hsecond
        rfl
      rw [insertChars?_of_some h hdocblock, hblanks, byteLength_nil, Nat.zero_add]
      constructor
      · rintro ⟨ds, hds⟩ ⟨-, body', after', hopens', hcut⟩
        obtain ⟨rfl, rfl⟩ := hopens.unique hopens'
        obtain ⟨back, hback, -⟩ := Option.map_eq_some_iff.mp hds
        obtain ⟨front, hfront⟩ := dropBytes?_eq_some_iff.mp hback
        exact hcut ⟨front, back, hfront⟩
      · intro hcut
        have hfront : ∃ front back, rest = front ++ back ∧ byteLength front = byteLength body + 4 := by
          by_contra hnone
          exact hcut ⟨hsecond, body, after, hopens, hnone⟩
        obtain ⟨front, back, hfront⟩ := hfront
        rw [dropBytes?_eq_some_iff.mpr ⟨front, hfront⟩]
        exact ⟨_, rfl⟩
    · obtain ⟨-, rfl⟩ := h'.unique (.none hsecond)
      refine iff_of_true ⟨_, insertChars?_of_opens h hsecond hopens⟩ ?_
      rintro ⟨hsecond', -⟩
      exact hsecond hsecond'

end Pragma

/-! ## Formatting a text with the pragma -/

section

variable {embedding : Embedding} {o : Options} {require insert : Bool} {text : String}

/-- It does not start with a byte-order mark. -/
theorem startsWithMark_of_isPresent (h : Pragma.isPresent text = true) : startsWithMark text = false := by
  rw [← Bool.not_eq_true]
  intro hmark
  obtain ⟨tail, htext⟩ : ∃ tail, text.toList = byteOrderMark :: tail := by
    rw [startsWithMark, beq_iff_eq] at hmark
    exact List.head?_eq_some_iff.mp hmark
  have hshebang : Pragma.Shebang text.toList [] text.toList := by
    apply Pragma.Shebang.none
    rw [htext]
    simp [byteOrderMark]
  obtain ⟨body, after, hopens, -⟩ := (Pragma.isPresent_iff hshebang).mp h
  rw [htext] at hopens
  cases hopens.eq

/-- The options with other wishes about pragmas. -/
def wishing (o : Options) (require insert : Bool) : Options :=
  { o with requirePragma := require, insertPragma := insert }

/-- The job with other wishes about pragmas. -/
def wishingJob (job : Job) (require insert : Bool) : Job :=
  { job with options := wishing job.options require insert }

theorem unmark_wishing (o : Options) (text : String) :
    unmark (wishing o require insert) text = wishingJob (unmark o text) require insert := by
  unfold unmark
  split <;> rfl

/-- A text with the pragma does not get a second one. -/
theorem prepare_wishing (h : Pragma.isPresent (stripMark text) = true) :
    prepare language (wishing o require insert) text = .ok (wishingJob (unmark o text) require insert) := by
  have hputs : putsPragma (wishing o require insert) text = false := by
    rw [putsPragma, unmark_text, h]
    simp
  rw [prepare_of_not_putsPragma hputs, unmark_wishing]

theorem printParsed_wishing (job : Job) (parsed : Parsed Info) :
    printParsed language embedding (wishingJob job require insert) parsed 0 =
      printParsed language embedding job parsed 0 := by
  have halike : Alike (sceneFor language embedding (wishingJob job require insert) parsed.tree)
      (sceneFor language embedding job parsed.tree) :=
    ⟨rfl, rfl, rfl, rfl, rfl, rfl, rfl, fun _ _ _ => rfl⟩
  rw [printParsed_zero, printParsed_zero, halike.printTree]
  rfl

/-- **A text with the pragma** is formatted alike, whether or not one is required or put in. -/
theorem formatText_wishing (h : Pragma.isPresent (stripMark text) = true) :
    formatText language embedding (wishing o require insert) text =
      formatText language embedding (wishing o false false) text := by
  have haccepts : ∀ require insert, ¬ ((wishing o require insert).requirePragma &&
      !language.hasPragma (stripMark text)) = true := by
    intro require insert
    rw [hasPragma_language, h]
    simp
  rw [formatText, if_neg (haccepts _ _), prepare_wishing h, formatText, if_neg (haccepts _ _),
    prepare_wishing h]
  change language.parse _ _ >>= _ = language.parse _ _ >>= _
  rw [parse_language, parse_language]
  refine bind_congr fun parsed => ?_
  rw [printParsed_wishing, printParsed_wishing]
  rfl

/-- **A text with the pragma** is formatted alike by the formatter. -/
theorem formatWithCursor_wishing (h : Pragma.isPresent (stripMark text) = true) (o : Options) :
    formatter.formatWithCursor text (wishing o require insert) =
      formatter.formatWithCursor text (wishing o false false) := by
  have hvalidate : ∀ require insert, (wishing o require insert).validate = o.validate := fun _ _ => rfl
  rw [Formatter.formatWithCursor_eq, Formatter.formatWithCursor_eq, formatter]
  cases hvalid : o.validate with
  | error e =>
    have hinvalid : ∀ require insert, (Formatter.ofLanguages [Registered.ofLanguage language]).resolve
        (wishing o require insert) = .error (.config e) := by
      intro require insert
      rw [Formatter.resolve_ofLanguages, Formatter.computeNormalized, hvalidate, hvalid]
    rw [Formatter.formatNested, Formatter.formatNested, Formatter.select, Formatter.select, hinvalid,
      hinvalid]
  | ok =>
    have hvalid' : ∀ require insert, (wishing o require insert).validate = .ok () := fun _ _ => hvalid
    refine (Formatter.formatNested_congr (g := id) (hvalid' false false) (hvalid' require insert) rfl rfl
      fun l hl => ?_).trans (id_map _)
    obtain rfl := List.mem_singleton.mp (Formatter.mem_of_languageFor hl)
    rw [id_map]
    let f := Formatter.ofLanguages [Registered.ofLanguage language]
    have hsame : formatText language (f.embedding (f.nesting text)) (wishing (f.named o) require insert) text =
        formatText language (f.embedding (f.nesting text)) (wishing (f.named o) false false) text :=
      formatText_wishing h
    exact hsame

end

namespace Pragma

theorem insert_eq_ok_iff {text out : String} :
    insert text = .ok out ↔ ∃ cs, insertChars? text.toList = some cs ∧ String.ofList cs = out := by
  unfold insert
  cases insertChars? text.toList <;> simp

/-- **A pragma that is put in** is found again, if and only if the line that names the interpreter ends; it
can be put in if and only if no character is cut. A text with the pragma is formatted alike whether or not
one is required or put in, also behind a byte-order mark. -/
theorem insert_isPresent_iff (text : String) :
    ((∃ out, insert text = .ok out) ↔ ¬ Miscut text.toList) ∧
    (∀ out, insert text = .ok out →
      (isPresent out = true ↔ (['#', '!'] <+: text.toList → '\n' ∈ text.toList))) ∧
    ∀ out, isPresent out = true → ∀ (marked : Bool) (o : Options) (require insert : Bool),
      formatter.formatWithCursor (restoreMark marked out)
          { o with requirePragma := require, insertPragma := insert } =
        formatter.formatWithCursor (restoreMark marked out)
          { o with requirePragma := false, insertPragma := false } := by
  refine ⟨?_, ?_, ?_⟩
  · rw [← exists_insertChars?_iff]
    constructor
    · rintro ⟨out, hout⟩
      obtain ⟨cs, hcs, -⟩ := insert_eq_ok_iff.mp hout
      exact ⟨cs, hcs⟩
    · rintro ⟨cs, hcs⟩
      exact ⟨_, insert_eq_ok_iff.mpr ⟨cs, hcs, rfl⟩⟩
  · intro out hout
    obtain ⟨cs, hcs, rfl⟩ := insert_eq_ok_iff.mp hout
    constructor
    · intro hpresent hstart
      by_contra hline
      rw [not_isPresent_of_whole hstart hline hcs] at hpresent
      cases hpresent
    · intro hended
      exact isPresent_of_ended hended hcs
  · intro out hpresent marked o require insert
    have hstrip : stripMark (restoreMark marked out) = out := by
      cases marked with
      | false => rw [restoreMark, if_neg (by decide), stripMark, startsWithMark_of_isPresent hpresent]; rfl
      | true => exact stripMark_restoreMark out
    exact formatWithCursor_wishing (by rwa [hstrip]) o

/-- A letter gets a pragma, and formatting the outcome does not put in another one. -/
theorem insert_isPresent_iff_letter : ∃ out, insert "a" = .ok out ∧ isPresent out = true ∧
    ∀ o : Options, formatter.formatWithCursor (restoreMark false out)
        { o with requirePragma := true, insertPragma := true } =
      formatter.formatWithCursor (restoreMark false out)
        { o with requirePragma := false, insertPragma := false } := by
  have hinsert : insert "a" = .ok "/** @format */\n\na" := by decide
  obtain ⟨-, hpresent, hformat⟩ := insert_isPresent_iff "a"
  have hout : isPresent "/** @format */\n\na" = true := by
    apply (hpresent _ hinsert).mpr
    decide
  exact ⟨_, hinsert, hout, fun o => hformat _ hout false o true true⟩

/-- **Not every pragma is found again**, and not every text can get one: `#!a` is a line without an end, and
in the other text a character is cut. -/
theorem not_present : (¬ ∀ text out, insert text = .ok out → isPresent out = true) ∧
    ¬ ∀ text, ∃ out, insert text = .ok out := by
  constructor
  · intro h
    have hinsert : insert "#!a" = .ok "#!a/** @format */\n\n" := by decide
    have hpresent : isPresent "#!a/** @format */\n\n" = false := by decide
    have hfound := h _ _ hinsert
    rw [hpresent] at hfound
    cases hfound
  · intro h
    have hinsert : insert "#!\n#!aé\n/**/" = .error .invalidSpan := by decide
    obtain ⟨out, hout⟩ := h "#!\n#!aé\n/**/"
    rw [hinsert] at hout
    cases hout

end Pragma

end CodeFormatter.JavaScript
