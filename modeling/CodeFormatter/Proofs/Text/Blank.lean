import CodeFormatter.Text.Blank
import Mathlib.Data.List.DropRight

/-!
# Blanks around a text

Trimming takes the blanks away at both ends of a text and nothing else (`trims_trimBoth`). A blank ends a
word (`words_append_blank`), and a line feed ends a line: what is not a line feed is in one of the lines
(`filter_textLines`).
-/

namespace CodeFormatter

variable {cs : List Char} {keep : Char → Bool}

/-- A text is `body` between blanks, and `body` does not start or end with one. If nothing is left, all
blanks stand before it. -/
structure Trims (cs lead body trail : List Char) : Prop where
  eq : cs = lead ++ body ++ trail
  lead_blank : ∀ c ∈ lead, isBlank c = true
  trail_blank : ∀ c ∈ trail, isBlank c = true
  head : ∀ c ∈ body.head?, isBlank c = false
  last : ∀ c ∈ body.getLast?, isBlank c = false
  trail_eq_nil : body = [] → trail = []

theorem trimLeft_append_of_blank {ds : List Char} (h : ∀ c ∈ cs, isBlank c = true) :
    trimLeft (cs ++ ds) = trimLeft ds := List.dropWhile_append_of_pos h

theorem trimRight_append_of_blank {ds : List Char} (h : ∀ c ∈ ds, isBlank c = true) :
    trimRight (cs ++ ds) = trimRight cs := by
  rw [trimRight, List.reverse_append, List.dropWhile_append_of_pos (by simpa using h), trimRight]

theorem takeWhile_append_trimLeft (cs : List Char) : cs.takeWhile isBlank ++ trimLeft cs = cs :=
  List.takeWhile_append_dropWhile

theorem head?_trimLeft {c : Char} (h : c ∈ (trimLeft cs).head?) : isBlank c = false := by
  have hnot := List.head?_dropWhile_not isBlank cs
  rw [trimLeft] at h
  rwa [Option.mem_def.mp h] at hnot

theorem trimRight_append_rtakeWhile (cs : List Char) : trimRight cs ++ cs.rtakeWhile isBlank = cs :=
  List.rdropWhile_append_rtakeWhile

theorem getLast?_trimRight {c : Char} (h : c ∈ (trimRight cs).getLast?) : isBlank c = false := by
  have hne : trimRight cs ≠ [] := by
    intro hnil
    simp [hnil] at h
  rw [List.getLast?_eq_some_getLast hne, Option.mem_some_iff] at h
  rw [← h, ← Bool.not_eq_true]
  exact List.rdropWhile_last_not isBlank cs hne

theorem isPrefix_trimRight (cs : List Char) : trimRight cs <+: cs := List.rdropWhile_prefix _ _

/-- **What trimming takes away.** -/
theorem trims_trimBoth (cs : List Char) :
    Trims cs (cs.takeWhile isBlank) (trimBoth cs) ((trimLeft cs).rtakeWhile isBlank) where
  eq := by rw [trimBoth, List.append_assoc, trimRight_append_rtakeWhile, takeWhile_append_trimLeft]
  lead_blank _ hc := List.mem_takeWhile_imp hc
  trail_blank _ hc := List.mem_rtakeWhile_imp hc
  head c hc := by
    apply head?_trimLeft
    obtain ⟨rest, hrest⟩ := isPrefix_trimRight (trimLeft cs)
    rw [trimBoth] at hc
    rw [← hrest, List.head?_append, Option.mem_def.mp hc]
    rfl
  last _ hc := getLast?_trimRight hc
  trail_eq_nil hnil := by
    -- All of what is left is blank, and its first character is not.
    have hblank := List.rdropWhile_eq_nil_iff.mp hnil
    have hleft : trimLeft cs = [] := by
      by_contra hne
      obtain ⟨c, rest, heq⟩ := List.exists_cons_of_ne_nil hne
      have hhead : c ∈ (trimLeft cs).head? := by simp [heq]
      have hfalse := head?_trimLeft hhead
      have htrue := hblank c (by simp [heq])
      rw [hfalse] at htrue
      cases htrue
    rw [hleft]
    rfl

theorem isInfix_trimBoth (cs : List Char) : trimBoth cs <:+: cs :=
  ⟨_, _, (trims_trimBoth cs).eq.symm⟩

/-- Trimming does not matter where blanks are left out. -/
theorem filter_trimBoth (hkeep : ∀ c, isBlank c = true → keep c = false) (cs : List Char) :
    (trimBoth cs).filter keep = cs.filter keep := by
  have htrims := trims_trimBoth cs
  have hblank : ∀ {ds : List Char}, (∀ c ∈ ds, isBlank c = true) → ds.filter keep = [] := by
    intro ds hds
    rw [List.filter_eq_nil_iff]
    intro c hc
    simp [hkeep c (hds c hc)]
  conv_rhs => rw [htrims.eq]
  rw [List.filter_append, List.filter_append, hblank htrims.lead_blank, hblank htrims.trail_blank]
  simp

/-! ## Words -/

/-- **A blank ends a word**, and belongs to none. -/
theorem words_append_blank {c : Char} (hc : isBlank c = true) (before after : List Char) :
    words (before ++ c :: after) = words before ++ words after := by
  have hgo : ∀ word, words.go (before ++ c :: after) word = words.go before word ++ words after := by
    induction before with
    | nil =>
      intro word
      simp only [List.nil_append, words.go, hc, if_true]
      cases word <;> rfl
    | cons d before ih =>
      intro word
      simp only [List.cons_append, words.go, ih]
      by_cases hd : isBlank d = true
      · rw [if_pos hd, if_pos hd]
        cases word <;> rfl
      · rw [if_neg hd, if_neg hd]
  exact hgo []

/-- Characters without blanks between them are a word. -/
theorem words_of_not_blank {word : List Char} (hne : word ≠ []) (h : ∀ c ∈ word, isBlank c = false) :
    words word = [word] := by
  have hgo : ∀ rest read, (∀ c ∈ rest, isBlank c = false) →
      words.go rest read = words.go [] (rest.reverse ++ read) := by
    intro rest
    induction rest with
    | nil => exact fun _ _ => rfl
    | cons c rest ih =>
      intro read hrest
      obtain ⟨hc, hrest⟩ := List.forall_mem_cons.mp hrest
      rw [List.reverse_cons, List.append_assoc, List.singleton_append, ← ih (c :: read) hrest]
      simp only [words.go, hc, Bool.false_eq_true, if_false]
  rw [words, hgo word [] h, words.go, if_neg (by simpa using hne)]
  simp

/-- What stands between two blanks, without blanks in it, is a word. -/
theorem mem_words {c d : Char} {word : List Char} (hc : isBlank c = true) (hd : isBlank d = true)
    (hne : word ≠ []) (h : ∀ c ∈ word, isBlank c = false) (before after : List Char) :
    word ∈ words (before ++ c :: (word ++ d :: after)) := by
  rw [words_append_blank hc, words_append_blank hd, words_of_not_blank hne h]
  simp

/-! ## Lines -/

theorem mem_pieces_of_mem_textLines {line : List Char} (h : line ∈ textLines cs) : line ∈ pieces cs := by
  unfold textLines at h
  split at h
  · rename_i before hreverse
    rw [← List.mem_reverse, hreverse]
    exact List.mem_cons_of_mem _ (List.mem_reverse.mp h)
  · exact h

/-- A line is a part of the text. -/
theorem isInfix_of_mem_textLines {line : List Char} (h : line ∈ textLines cs) : line <:+: cs := by
  have hall : ∀ ls : List (List Char), line ∈ ls → line <:+: ['\n'].intercalate ls := by
    intro ls hline
    induction ls with
    | nil => cases hline
    | cons l ls ih =>
      by_cases hls : ls = []
      · subst hls
        rw [List.mem_singleton.mp hline]
        simp
      · rw [List.intercalate_cons_of_ne_nil hls]
        rcases List.mem_cons.mp hline with rfl | hline
        · exact ⟨[], _, (List.append_assoc _ _ _).symm⟩
        · exact (ih hline).trans (List.suffix_append _ _).isInfix
  have hpieces := hall (pieces cs) (mem_pieces_of_mem_textLines h)
  rwa [pieces, List.intercalate_splitOn] at hpieces

/-- Between the lines of a text there are only line feeds. -/
theorem filter_textLines (hkeep : keep '\n' = false) (cs : List Char) :
    (textLines cs).flatten.filter keep = cs.filter keep := by
  have hlines : (textLines cs).flatten = (pieces cs).flatten := by
    unfold textLines
    split
    · rename_i before hreverse
      rw [← List.reverse_reverse (pieces cs), hreverse]
      simp
    · rfl
  have hall : ∀ ls : List (List Char), ls.flatten.filter keep = (['\n'].intercalate ls).filter keep := by
    intro ls
    induction ls with
    | nil => rfl
    | cons l ls ih =>
      by_cases hls : ls = []
      · simp [hls]
      · rw [List.intercalate_cons_of_ne_nil hls, List.flatten_cons, List.filter_append, ih]
        simp [hkeep]
  rw [hlines, hall, pieces, List.intercalate_splitOn]

end CodeFormatter
