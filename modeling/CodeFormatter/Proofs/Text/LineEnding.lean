import CodeFormatter.Proofs.Text.Blank
import CodeFormatter.Proofs.Text.Slice
import CodeFormatter.Text.Scan

/-!
# How lines end

A text ends its lines in line feeds, or in carriage returns with line feeds. `Uniform` says that it does
so everywhere. What is put together from uniform texts is uniform, and so are the parts of a uniform
text, unless a cut goes through a newline (`Splits`).

**Theorem (`lineEnding_bytesOf`).** The newline that is guessed for a uniform text is its own.
-/

namespace CodeFormatter

/-- The two ways in which lines end. -/
inductive LineEnding where
  | lf
  | crlf
  deriving DecidableEq, Repr

def LineEnding.text : LineEnding → String
  | .lf => "\n"
  | .crlf => "\r\n"

/-- All newlines in the text are of this kind. A carriage return by itself ends a line, too, so that a
text with line feeds has none. -/
def Uniform : LineEnding → List Char → Prop
  | .lf, cs => '\r' ∉ cs
  | .crlf, cs => ∀ before after, cs = before ++ '\n' :: after → before.getLast? = some '\r'

/-- A cut at this place goes through a newline. -/
def Splits (text : List Char) (i : Nat) : Prop :=
  ∃ before after, text = before ++ after ∧ byteLength before = i ∧
    before.getLast? = some '\r' ∧ after.head? = some '\n'

instance (text : List Char) (i : Nat) : Decidable (Splits text i) :=
  decidable_of_iff (∃ k, k < text.length + 1 ∧ byteLength (text.take k) = i ∧
      (text.take k).getLast? = some '\r' ∧ (text.drop k).head? = some '\n') <| by
    constructor
    · rintro ⟨k, -, h⟩
      exact ⟨text.take k, text.drop k, (List.take_append_drop k text).symm, h⟩
    · rintro ⟨before, after, rfl, h⟩
      refine ⟨before.length, ?_, by simpa using h⟩
      rw [List.length_append]
      omega

variable {kind : LineEnding} {cs ds text before after : List Char} {start stop : Nat}

/-! ## Putting texts together -/

theorem uniform_nil (kind : LineEnding) : Uniform kind [] := by
  cases kind with
  | lf => exact List.not_mem_nil
  | crlf => exact fun before after h => by simp at h

theorem Uniform.append (h : Uniform kind cs) (h' : Uniform kind ds) : Uniform kind (cs ++ ds) := by
  cases kind with
  | lf => exact fun hmem => (List.mem_append.mp hmem).elim h h'
  | crlf =>
    intro before after heq
    rcases List.append_eq_append_iff.mp heq with ⟨m, rfl, hds⟩ | ⟨m, hcs, hafter⟩
    · rw [List.getLast?_append, h' m after hds, Option.some_or]
    · cases m with
      | nil =>
        have hds := h' [] after (by simpa using hafter.symm)
        cases hds
      | cons c m =>
        cases hafter
        exact h before m hcs

/-- A text without line feeds, and without carriage returns where those are newlines. -/
theorem uniform_of_not_mem (hfeed : '\n' ∉ cs) (hreturn : kind = .lf → '\r' ∉ cs) :
    Uniform kind cs := by
  cases kind with
  | lf => exact hreturn rfl
  | crlf => exact fun before after heq => absurd (by simp [heq]) hfeed

theorem uniform_text (kind : LineEnding) : Uniform kind kind.text.toList := by
  cases kind with
  | lf => exact fun hmem => absurd hmem (by decide)
  | crlf =>
    intro before after heq
    have hcases := List.cons_eq_append_iff.mp (show '\r' :: ['\n'] = before ++ '\n' :: after from heq)
    rcases hcases with ⟨rfl, h⟩ | ⟨m, rfl, h⟩
    · cases h
    · cases m with
      | nil => rfl
      | cons c m => simp at h

/-! ## Taking texts apart -/

theorem Uniform.of_append_left (h : Uniform kind (cs ++ ds)) : Uniform kind cs := by
  cases kind with
  | lf => exact fun hmem => h (List.mem_append_left ds hmem)
  | crlf => exact fun before after heq => h before (after ++ ds) (by simp [heq])

theorem Uniform.of_append_right (h : Uniform kind (cs ++ ds))
    (hcut : cs.getLast? = some '\r' → ds.head? ≠ some '\n') : Uniform kind ds := by
  cases kind with
  | lf => exact fun hmem => h (List.mem_append_right cs hmem)
  | crlf =>
    intro before after heq
    have hlast := h (cs ++ before) after (by simp [heq])
    rw [List.getLast?_append] at hlast
    cases before with
    | nil => exact absurd (by simp [heq]) (hcut (by simpa using hlast))
    | cons c before => simpa using hlast

theorem Uniform.of_isPrefix (h : Uniform kind cs) (hds : ds <+: cs) : Uniform kind ds := by
  obtain ⟨rest, rfl⟩ := hds
  exact h.of_append_left

theorem Uniform.slice (h : Uniform kind text) (hcs : Lies text start stop cs)
    (hstart : ¬ Splits text start) : Uniform kind cs := by
  obtain ⟨before, after, rfl, hbefore, -⟩ := hcs
  rw [List.append_assoc] at h hstart
  refine (h.of_append_right fun hlast hhead => hstart ?_).of_append_left
  exact ⟨before, cs ++ after, rfl, hbefore, hlast, hhead⟩

/-- The first character of a text goes, and no newline is cut. -/
theorem Uniform.tail {c : Char} (h : Uniform kind (c :: cs)) (hc : c ≠ '\r') :
    Uniform kind cs := by
  rw [← List.singleton_append] at h
  exact h.of_append_right fun hlast => absurd (by simpa using hlast) hc

theorem Uniform.trimRight (h : Uniform kind cs) : Uniform kind (trimRight cs) :=
  h.of_isPrefix (isPrefix_trimRight cs)

/-- A line feed is blank, so that no cut before a character that is not goes through a newline. -/
theorem Uniform.trimLeft (h : Uniform kind cs) : Uniform kind (trimLeft cs) := by
  rw [← List.takeWhile_append_dropWhile (p := isBlank) (l := cs)] at h
  refine h.of_append_right fun _ hhead => ?_
  have hblank := List.head?_dropWhile_not isBlank cs
  rw [hhead] at hblank
  exact absurd hblank (by decide)

theorem Uniform.trimBoth (h : Uniform kind cs) : Uniform kind (trimBoth cs) := h.trimLeft.trimRight

/-- The pieces between newlines have no newlines, and no other characters than the text. -/
theorem mem_of_mem_pieces {line : List Char} {c : Char} (hline : line ∈ pieces cs) (hc : c ∈ line) :
    c ∈ cs ∧ c ≠ '\n' := by
  rw [pieces, List.splitOn] at hline
  induction cs generalizing line with
  | nil =>
    rw [List.splitOnP_nil, List.mem_singleton] at hline
    simp [hline] at hc
  | cons d cs ih =>
    rw [List.splitOnP_cons_eq_if_modifyHead] at hline
    split at hline
    · rcases List.mem_cons.mp hline with rfl | hline
      · cases hc
      · exact (ih hline hc).imp_left (List.mem_cons_of_mem d)
    · rename_i hd
      cases hsplit : cs.splitOnP (· == '\n') with
      | nil => exact absurd hsplit (List.splitOnP_ne_nil _ cs)
      | cons first rest =>
        rw [hsplit, List.modifyHead_cons] at hline
        rcases List.mem_cons.mp hline with rfl | hline
        · rcases List.mem_cons.mp hc with rfl | hc
          · exact ⟨List.mem_cons_self, by simpa using hd⟩
          · exact (ih (hsplit ▸ List.mem_cons_self) hc).imp_left (List.mem_cons_of_mem d)
        · exact (ih (hsplit ▸ List.mem_cons_of_mem first hline) hc).imp_left (List.mem_cons_of_mem d)

/-! ## Guessing the newline -/

/-- No byte of these is looked at. -/
theorem lineEnding_go_append {bytes : Bytes} (hne : bytes ≠ [])
    (h : ∀ b ∈ bytes, b ≠ 10 ∧ b ≠ 13) (afterReturn : Bool) (rest : Bytes) :
    Scan.lineEnding.go afterReturn (bytes ++ rest) = Scan.lineEnding.go false rest := by
  induction bytes generalizing afterReturn with
  | nil => exact absurd rfl hne
  | cons b bytes ih =>
    obtain ⟨hfeed, hreturn⟩ := h b List.mem_cons_self
    rw [List.cons_append, Scan.lineEnding.go, if_neg hfeed, decide_eq_false hreturn]
    cases bytes with
    | nil => rfl
    | cons b' bytes =>
      exact ih (List.cons_ne_nil _ _) (fun b hb => h b (List.mem_cons_of_mem _ hb)) false

/-- The first line feed decides, with the character before it. -/
theorem lineEnding_go_encode (hbefore : '\n' ∉ before) (afterReturn : Bool) :
    Scan.lineEnding.go afterReturn ((before ++ '\n' :: after).flatMap String.utf8EncodeChar) =
      if (before.getLast?.map (· == '\r')).getD afterReturn then "\r\n" else "\n" := by
  induction before generalizing afterReturn with
  | nil => cases afterReturn <;> rfl
  | cons c before ih =>
    rw [List.mem_cons, not_or] at hbefore
    obtain ⟨hc, hbefore⟩ := hbefore
    have hlast : ((c :: before).getLast?.map (· == '\r')).getD afterReturn =
        (before.getLast?.map (· == '\r')).getD (c == '\r') := by
      rw [List.getLast?_cons]
      cases before.getLast? <;> rfl
    rw [hlast, List.cons_append, List.flatMap_cons]
    by_cases hreturn : c = '\r'
    · subst hreturn
      exact ih hbefore true
    · rw [lineEnding_go_append, ih hbefore, beq_false_of_ne hreturn]
      · exact String.utf8EncodeChar_ne_nil
      · intro b hb
        constructor <;> rintro rfl <;> have hc' := toNat_of_mem_utf8EncodeChar hb (by decide)
        · exact hc (Char.toNat_inj.mp hc')
        · exact hreturn (Char.toNat_inj.mp hc'.symm)

theorem lineEnding_go_of_not_mem {bytes : Bytes} (h : 10 ∉ bytes) (afterReturn : Bool) :
    Scan.lineEnding.go afterReturn bytes = "\n" := by
  induction bytes generalizing afterReturn with
  | nil => rfl
  | cons b bytes ih =>
    rw [List.mem_cons, not_or] at h
    rw [Scan.lineEnding.go, if_neg (Ne.symm h.1)]
    exact ih h.2 _

/-- **The newline that is guessed for a uniform text is its own.** Without any newline it is a line
feed. -/
theorem lineEnding_bytesOf {text : String} (h : Uniform kind text.toList)
    (hnewline : kind = .lf ∨ '\n' ∈ text.toList) : Scan.lineEnding (bytesOf text) = kind.text := by
  rw [← String.ofList_toList (s := text), bytesOf_ofList, Scan.lineEnding]
  by_cases hfeed : '\n' ∈ text.toList
  · obtain ⟨before, after, htext, hbefore⟩ := List.eq_append_cons_of_mem hfeed
    rw [htext] at h ⊢
    rw [lineEnding_go_encode hbefore]
    cases kind with
    | crlf =>
      rw [h before after rfl]
      rfl
    | lf =>
      rw [if_neg]
      · rfl
      · intro hlast
        cases hlast' : before.getLast? with
        | none => simp [hlast'] at hlast
        | some c =>
          rw [hlast'] at hlast
          have hc : c = '\r' := by simpa using hlast
          exact h (List.mem_append_left _ (hc ▸ List.mem_of_getLast? hlast'))
  · obtain rfl := hnewline.resolve_right hfeed
    refine lineEnding_go_of_not_mem (fun hmem => ?_) false
    obtain ⟨c, hc, hbyte⟩ := List.mem_flatMap.mp hmem
    have hfeed' : '\n'.toNat = c.toNat := toNat_of_mem_utf8EncodeChar hbyte (by decide)
    exact hfeed (Char.toNat_inj.mp hfeed' ▸ hc)

end CodeFormatter
