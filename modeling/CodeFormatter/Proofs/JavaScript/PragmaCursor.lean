import CodeFormatter.Proofs.JavaScript.Pragma
import CodeFormatter.Proofs.Text.LineEnding

/-!
# The cursor when a pragma is put in

A cursor in the code has to stay where it is in the code, while the comment and the blanks in front of the
code are written anew. The code is the end of the text before and after that, so what stands behind the
cursor is known by its distance from the end (`drop_bytesOf_eq`).

**Theorem (`prepare_follows_iff`).** The cursor follows the code if and only if the text does not get
shorter. If it does, because a long comment or many blank lines were written anew, the cursor stays where it
was, which is as many bytes too far behind as the text has lost.
-/

namespace CodeFormatter.JavaScript

open Pipeline

namespace Pragma

variable {cs ds code rest body after : List Char} {c d : Nat}

/-! ## Texts with a common end -/

/-- What is behind an offset, if the text ends in `code` and the offset is in it. -/
theorem drop_bytesOf_of_suffix {text : String} (h : code <:+ text.toList)
    (hc : text.utf8ByteSize ≤ c + byteLength code) :
    (bytesOf text).drop c =
      (bytesOf (String.ofList code)).drop (c + byteLength code - text.utf8ByteSize) := by
  obtain ⟨front, hfront⟩ := h
  have hlength := length_flatMap_utf8EncodeChar front
  have hsize : text.utf8ByteSize = byteLength front + byteLength code := by
    rw [← byteLength_toList, ← hfront, byteLength_append]
  have hoffset : c + byteLength code - text.utf8ByteSize = c - byteLength front := by omega
  have hpast : (front.flatMap String.utf8EncodeChar).length ≤ c := by omega
  rw [← String.ofList_toList (s := text), ← hfront, bytesOf_ofList, bytesOf_ofList, List.flatMap_append,
    List.drop_append, List.drop_eq_nil_of_le hpast, List.nil_append, hlength, hfront,
    String.ofList_toList, hoffset]

/-- **Texts with a common end** have the same bytes at the same distance from their ends. -/
theorem drop_bytesOf_eq {text out : String} (htext : code <:+ text.toList) (hout : code <:+ out.toList)
    (hc : text.utf8ByteSize ≤ c + byteLength code)
    (hshift : d + text.utf8ByteSize = c + out.utf8ByteSize) :
    (bytesOf out).drop d = (bytesOf text).drop c := by
  have hd : out.utf8ByteSize ≤ d + byteLength code := by omega
  have hoffset : d + byteLength code - out.utf8ByteSize = c + byteLength code - text.utf8ByteSize := by
    omega
  rw [drop_bytesOf_of_suffix hout hd, drop_bytesOf_of_suffix htext hc, hoffset]

/-! ## The code -/

/-- What stands behind the line that names the interpreter, the comment and the blanks. -/
def codeOf (cs : List Char) : List Char :=
  let rest := (splitShebang cs).2
  match docblock? rest with
  | none => trimLeft rest
  | some (_, after) => trimLeft after

theorem trimLeft_suffix (cs : List Char) : trimLeft cs <:+ cs := List.dropWhile_suffix _

theorem trimLeft_suffix_of_suffix (h : cs <:+ ds) : trimLeft cs <:+ trimLeft ds := by
  obtain ⟨front, rfl⟩ := h
  rw [trimLeft, trimLeft, List.dropWhile_append]
  split
  · exact List.suffix_rfl
  · exact (trimLeft_suffix cs).trans (List.suffix_append _ _)

/-- The comment, and what stands in front of it, have at least as many bytes as are cut off. -/
theorem le_of_docblock? (h : docblock? rest = some (body, after)) : after <:+ rest ∧
    byteLength (rest.takeWhile isBlank) + byteLength body + 4 + byteLength after ≤ byteLength rest := by
  obtain ⟨shebang, rest', hshebang⟩ := exists_shebang rest
  have hopens := (docblock?_eq_some_iff hshebang).mp h
  have hmarks : byteLength ['/', '*'] = 2 ∧ byteLength ['*', '/'] = 2 := by decide
  have hparts : rest = shebang ++ (rest'.takeWhile isBlank ++ (['/', '*'] ++ body ++ ['*', '/'] ++ after)) := by
    rw [← hopens.eq, takeWhile_append_trimLeft]
    exact hshebang.eq_append
  have hlength : byteLength rest = byteLength shebang +
      (byteLength (rest'.takeWhile isBlank) + (byteLength body + 4 + byteLength after)) := by
    rw [hparts]
    simp only [byteLength_append, hmarks]
    omega
  refine ⟨⟨shebang ++ (rest'.takeWhile isBlank ++ (['/', '*'] ++ body ++ ['*', '/'])), ?_⟩, ?_⟩
  · simp only [hparts, List.append_assoc]
  · -- A text that starts with `#!` does not start with a blank.
    have hblanks : byteLength (rest.takeWhile isBlank) ≤ byteLength (rest'.takeWhile isBlank) := by
      by_cases hsecond : ['#', '!'] <+: rest
      · obtain ⟨line, rfl⟩ := hsecond
        exact Nat.zero_le _
      · obtain ⟨-, rfl⟩ := hshebang.unique (.none hsecond)
        exact le_rfl
    omega

theorem codeOf_suffix (cs : List Char) : codeOf cs <:+ cs := by
  obtain ⟨shebang, rest, h⟩ := exists_shebang cs
  have hrest : rest <:+ cs := ⟨shebang, h.eq_append.symm⟩
  rw [codeOf, splitShebang_eq_iff.mpr h]
  dsimp only
  split
  · exact (trimLeft_suffix rest).trans hrest
  · rename_i body after hdocblock
    exact (trimLeft_suffix after).trans ((le_of_docblock? hdocblock).1.trans hrest)

/-- **The code stays as it is** when a pragma is put in. -/
theorem codeOf_suffix_of_insertChars? (h : insertChars? cs = some ds) : codeOf cs <:+ ds := by
  obtain ⟨shebang, rest, hshebang⟩ := exists_shebang cs
  rw [codeOf, splitShebang_eq_iff.mpr hshebang]
  dsimp only
  split
  · rename_i hnone
    rw [insertChars?_of_none hshebang hnone] at h
    cases h
    exact (trimLeft_suffix rest).trans (List.suffix_append _ _)
  · rename_i body after hsome
    rw [insertChars?_of_some hshebang hsome] at h
    obtain ⟨back, hback, rfl⟩ := Option.map_eq_some_iff.mp h
    obtain ⟨front, hfront, hlength⟩ := dropBytes?_eq_some_iff.mp hback
    obtain ⟨⟨before, hbefore⟩, hle⟩ := le_of_docblock? hsome
    have hafter : after <:+ back := by
      have hrest : byteLength rest = byteLength before + byteLength after := by
        rw [← byteLength_append, hbefore]
      have hcut : byteLength front ≤ byteLength before := by omega
      obtain ⟨m, -, hm⟩ := exists_append_of_byteLength_le (hfront.symm.trans hbefore.symm) hcut
      exact ⟨m, hm.symm⟩
    have hbehind : trimLeft back <:+ behind back := by
      unfold behind
      split
      · rename_i hempty
        rw [List.isEmpty_iff.mp hempty]
        exact List.nil_suffix
      · exact List.suffix_append _ _
    exact (trimLeft_suffix_of_suffix hafter).trans (hbehind.trans (List.suffix_append _ _))

/-- A text without a comment gets longer. -/
theorem byteLength_le_of_insertChars? (hnone : docblock? (splitShebang cs).2 = none)
    (h : insertChars? cs = some ds) : byteLength cs ≤ byteLength ds := by
  obtain ⟨shebang, rest, hshebang⟩ := exists_shebang cs
  rw [splitShebang_eq_iff.mpr hshebang] at hnone
  rw [insertChars?_of_none hshebang hnone] at h
  cases h
  rw [hshebang.eq_append]
  simp only [byteLength_append]
  omega

/-! ## The cursor -/

/-- What is left to do for a text into which a pragma is put. -/
def followingJob (job : Job) (out : String) (cursor : Nat) : Job :=
  { job with options := { job.options with cursorOffset := some cursor }, text := out }

theorem prepare_of_putsPragma {o : Options} {text out : String} (hputs : putsPragma o text = true)
    (hinsert : insert (stripMark text) = .ok out)
    (hcursor : (unmark o text).options.cursorOffset = some c) :
    prepare language o text = .ok (followingJob (unmark o text) out
      (c + (out.utf8ByteSize - (stripMark text).utf8ByteSize))) := by
  rw [putsPragma] at hputs
  rw [prepare, addPragma, hasPragma_language, if_pos hputs, insertPragma_language, preprocess_language,
    unmark_text, hinsert]
  simp only [hcursor]
  rfl

/-- **The cursor follows the code** when a pragma is put in, if and only if the text does not get shorter.
It is moved on by what the text has grown, so in a text that gets shorter it is too far behind by what the
text has lost. A text without a comment gets longer. -/
theorem prepare_follows_iff {o : Options} {text : String} (hputs : putsPragma o text = true)
    (hcut : ¬ Miscut (stripMark text).toList)
    (hcursor : (unmark o text).options.cursorOffset = some c) (hc : c ≤ (stripMark text).utf8ByteSize)
    (hcode : (stripMark text).utf8ByteSize ≤ c + byteLength (codeOf (stripMark text).toList)) :
    ∃ out d, insert (stripMark text) = .ok out ∧
      prepare language o text = .ok (followingJob (unmark o text) out d) ∧
      (bytesOf out).drop (d - ((stripMark text).utf8ByteSize - out.utf8ByteSize)) =
        (bytesOf (stripMark text)).drop c ∧
      (d ≤ out.utf8ByteSize ∧ (bytesOf out).drop d = (bytesOf (stripMark text)).drop c ↔
        (stripMark text).utf8ByteSize ≤ out.utf8ByteSize) ∧
      (docblock? (splitShebang (stripMark text).toList).2 = none →
        (stripMark text).utf8ByteSize ≤ out.utf8ByteSize) := by
  obtain ⟨ds, hds⟩ := exists_insertChars?_iff.mpr hcut
  have hinsert : insert (stripMark text) = .ok (String.ofList ds) := insert_eq_ok_iff.mpr ⟨ds, hds, rfl⟩
  have hout : codeOf (stripMark text).toList <:+ (String.ofList ds).toList := by
    rw [String.toList_ofList]
    exact codeOf_suffix_of_insertChars? hds
  have hsize : byteLength (codeOf (stripMark text).toList) ≤ (String.ofList ds).utf8ByteSize := by
    obtain ⟨front, hfront⟩ := hout
    rw [← byteLength_toList, ← hfront, byteLength_append]
    exact Nat.le_add_left _ _
  refine ⟨_, _, hinsert, prepare_of_putsPragma hputs hinsert hcursor, ?_, ?_, ?_⟩
  · apply drop_bytesOf_eq (codeOf_suffix _) hout hcode
    omega
  · constructor
    · rintro ⟨hle, hdrop⟩
      have hlength := congrArg List.length hdrop
      rw [List.length_drop, List.length_drop, length_bytesOf, length_bytesOf] at hlength
      omega
    · intro hgrows
      refine ⟨by omega, drop_bytesOf_eq (codeOf_suffix _) hout hcode ?_⟩
      omega
  · intro hnone
    have hle := byteLength_le_of_insertChars? hnone hds
    rwa [byteLength_toList, ← String.toList_ofList (l := ds), byteLength_toList] at hle

/-- A cursor at the code behind a comment, and the comment is written on more lines. -/
theorem prepare_follows_iff_letter :
    let o : Options := { insertPragma := true, cursorOffset := some 8 }
    ∃ out d, insert "/* a */\nb" = .ok out ∧
      prepare language o "/* a */\nb" = .ok (followingJob (unmark o "/* a */\nb") out d) ∧
      (bytesOf out).drop d = (bytesOf "/* a */\nb").drop 8 := by
  intro o
  have hstrip : stripMark "/* a */\nb" = "/* a */\nb" := by decide
  have hputs : putsPragma o "/* a */\nb" = true := by decide
  have hinsert : insert "/* a */\nb" = .ok "/**\n * a\n *\n * @format\n */\n\nb" := by decide
  have hcut : ¬ Miscut (stripMark "/* a */\nb").toList := by
    obtain ⟨ds, hds, -⟩ := insert_eq_ok_iff.mp hinsert
    rw [hstrip]
    exact exists_insertChars?_iff.mp ⟨ds, hds⟩
  obtain ⟨out, d, hout, hprepare, -, hfollows, -⟩ :=
    prepare_follows_iff hputs hcut (c := 8) (by decide) (by decide) (by decide)
  rw [hstrip] at hout hfollows
  obtain rfl := Except.ok.inj (hout.symm.trans hinsert)
  exact ⟨_, d, hinsert, hprepare, (hfollows.mpr (by decide)).2⟩

/-- **Not every cursor follows the code**: behind an empty comment and many blanks, the code moves forward
and the cursor stays. -/
theorem not_follows : ¬ ∀ (o : Options) (text out : String) (c d : Nat), putsPragma o text = true →
    (unmark o text).options.cursorOffset = some c → c ≤ (stripMark text).utf8ByteSize →
    (stripMark text).utf8ByteSize ≤ c + byteLength (codeOf (stripMark text).toList) →
    prepare language o text = .ok (followingJob (unmark o text) out d) →
    (bytesOf out).drop d = (bytesOf (stripMark text)).drop c := by
  intro h
  let text := "/**/                    ab"
  have hstrip : stripMark text = text := by decide
  have hinsert : insert (stripMark text) = .ok "/**\n * @format\n */\n\nab" := by
    rw [hstrip]
    decide
  have hprepare := prepare_of_putsPragma (o := { insertPragma := true, cursorOffset := some 24 }) (c := 24)
    (by decide) hinsert (by decide)
  have hfollows := h _ text _ 24 _ (by decide) (by decide) (by decide) (by decide) hprepare
  have hlength := congrArg List.length hfollows
  rw [List.length_drop, List.length_drop, length_bytesOf, length_bytesOf] at hlength
  exact absurd hlength (by decide)

end Pragma

end CodeFormatter.JavaScript
