import CodeFormatter.JavaScript

/-!
# The self-check

Formatting is meant to be idempotent: a text that has been formatted is not changed by formatting it
again. It is not, in general. A block comment on a line of its own leads the node after it, and is
printed in front of that node on the line where the node starts. Formatted again, the comment is the
last thing on its line and trails the node before it (`not_idempotent`).

`debugCheck` is the oracle for this: it formats a text, formats the outcome, and compares the texts
and the trees. `iterate` goes on: it formats each outcome in its turn, as long as the texts change and
no error occurs. So it ends at a fixed point, at an error or at its limit (`ends_iterate`), and after two
rounds at the latest if the first outcome is a fixed point (`iterate_of_fixed`).

**Theorem (`debugCheck_eq_ok_iff`).** For options that ask for the whole text and follow no cursor, the
self-check accepts exactly the texts on which formatting is idempotent and keeps the tree. If the
outcome of formatting is not a fixed point, the self-check reports it beside the text it changes to,
or fails with the error of formatting it.
-/

namespace CodeFormatter

/-! ## Comparing trees -/

namespace CleanTree

mutual

theorem beq_iff : ∀ t u : CleanTree, t.beq u = true ↔ t = u
  | .node a as, .node b bs => by
    rw [beq, Bool.and_eq_true, beq_iff_eq, beqAll_iff as bs, CleanTree.node.injEq]

theorem beqAll_iff : ∀ ts us : List CleanTree, beqAll ts us = true ↔ ts = us
  | [], [] => by simp [beqAll]
  | [], _ :: _ => by simp [beqAll]
  | _ :: _, [] => by simp [beqAll]
  | t :: ts, u :: us => by
    rw [beqAll, Bool.and_eq_true, beq_iff t u, beqAll_iff ts us, List.cons.injEq]

end

instance : LawfulBEq CleanTree where
  eq_of_beq h := (beq_iff _ _).mp h
  rfl := (beq_iff _ _).mpr rfl

end CleanTree

/-- The options for a whole text, with no cursor. -/
def Options.whole (o : Options) : Options :=
  { o with rangeStart := 0, rangeEnd := none, cursorOffset := none }

namespace Formatter

variable {languages : List Registered} {text first : String} {options : Options}

/-- Both texts have a tree, and it is the same. -/
def SameTree (f : Formatter) (options : Options) (text first : String) : Prop :=
  ∃ n l tree, f.select options = .ok (n, l) ∧ l.cleanTree n text = .ok tree ∧
    l.cleanTree n first = .ok tree

/-! ## Options for whole texts -/

/-- Normalized options are remembered, or computed. -/
theorem resolve_eq (f : Formatter) (options : Options) :
    f.resolve options =
      match f.normalized.get? options.key with
      | some n => .ok n
      | none => f.computeNormalized options := by
  rw [resolve, normalize, Cache.resolve]
  cases f.normalized.get? options.key with
  | some n => rfl
  | none => cases f.computeNormalized options <;> rfl

/-- A formatter that has not been used normalizes options by computing them. -/
theorem resolve_ofLanguages (languages : List Registered) (options : Options) :
    (ofLanguages languages).resolve options =
      (ofLanguages languages).computeNormalized options := by
  rw [resolve_eq]
  rfl

/-- Normalizing leaves the range and the cursor alone. -/
theorem whole_of_resolve {n : Options} (hr : options.rangeStart = 0)
    (he : options.rangeEnd = none) (hc : options.cursorOffset = none)
    (h : (ofLanguages languages).resolve options = .ok n) : n.whole = n := by
  rw [resolve_ofLanguages, computeNormalized] at h
  split at h
  · cases h
  · cases h
    simp [Options.whole, hr, he, hc]

/-! ## The self-check in terms of formatting -/

theorem exists_of_bind_eq_ok {ε α β : Type} {x : Except ε α} {g : α → Except ε β} {b : β}
    (h : x >>= g = .ok b) : ∃ a, x = .ok a ∧ g a = .ok b := by
  cases x with
  | error e => cases h
  | ok a => exact ⟨a, rfl, h⟩

/-- The part of the self-check that comes after formatting, in the language of the text. -/
def compareWith (l : Registered) (n : Options) (text first second : String) :
    Except Error String := do
  if first != second then throw (.notIdempotent first second)
  let before ← l.cleanTree n text
  let after ← l.cleanTree n first
  if before != after then throw (.treeChanged before.render after.render)
  return first

theorem compareWith_of_ne {l : Registered} {n : Options} {second : String} (h : second ≠ first) :
    compareWith l n text first second = .error (.notIdempotent first second) := by
  have hne : (first != second) = true := by simpa using h.symm
  simp only [compareWith, hne, if_true]
  rfl

/-- It accepts exactly a fixed point with the same tree. -/
theorem compareWith_eq_ok_iff {l : Registered} {n : Options} {second s : String} :
    compareWith l n text first second = .ok s ↔ s = first ∧ second = first ∧
      ∃ tree, l.cleanTree n text = .ok tree ∧ l.cleanTree n first = .ok tree := by
  by_cases hsame : second = first
  · subst hsame
    simp only [compareWith, bne_self_eq_false, Bool.false_eq_true, if_false, true_and]
    cases l.cleanTree n text with
    | error e => simp [bind, Except.bind]
    | ok before =>
      cases l.cleanTree n second with
      | error e => simp [bind, Except.bind]
      | ok after =>
        by_cases htree : before = after
        · subst htree
          simp [bind, Except.bind, pure, Except.pure, eq_comm]
        · have hne : (before != after) = true := bne_iff_ne.mpr htree
          simp only [bind, Except.bind, hne, if_true]
          constructor
          · intro h
            cases h
          · rintro ⟨-, tree, hbefore, hafter⟩
            cases hbefore
            cases hafter
            exact absurd rfl htree
  · rw [compareWith_of_ne hsame]
    simp [hsame]

theorem sameTree_of_select {f : Formatter} {n : Options} {l : Registered}
    (h : f.select options = .ok (n, l)) : f.SameTree options text first ↔
      ∃ tree, l.cleanTree n text = .ok tree ∧ l.cleanTree n first = .ok tree := by
  constructor
  · rintro ⟨n', l', tree, h', htext, hfirst⟩
    cases h.symm.trans h'
    exact ⟨tree, htext, hfirst⟩
  · rintro ⟨tree, htext, hfirst⟩
    exact ⟨n, l, tree, h, htext, hfirst⟩

theorem format_of_select_error {f : Formatter} {e : Error} (h : f.select options = .error e)
    (text : String) : f.format text options = .error e := by
  simp only [format, formatWithCursor, h]
  rfl

theorem format_of_select {f : Formatter} {n : Options} {l : Registered}
    (h : f.select options = .ok (n, l)) (text : String) :
    f.format text options = (·.formatted) <$> f.formatWith l n text := by
  simp only [format, formatWithCursor, h]
  rfl

theorem resolve_of_select {f : Formatter} {n : Options} {l : Registered}
    (h : f.select options = .ok (n, l)) : f.resolve options = .ok n ∧ f.languageFor n = .ok l := by
  obtain ⟨m, hm, h⟩ := exists_of_bind_eq_ok h
  obtain ⟨l', hl, h⟩ := exists_of_bind_eq_ok h
  cases h
  exact ⟨hm, hl⟩

/-- Texts are formatted as a whole and with no cursor. The name of the language does not change. -/
theorem debugCheck_eq {f : Formatter} {n : Options} {l : Registered}
    (h : f.select options = .ok (n, l)) (text : String) :
    f.debugCheck text options =
      f.formatWith l n.whole text >>= fun first =>
        f.formatWith l n.whole first.formatted >>= fun second =>
          compareWith l n.whole text first.formatted second.formatted := by
  obtain ⟨hn, hl⟩ := resolve_of_select h
  have hwhole : f.languageFor n.whole = .ok l := hl
  rw [debugCheck, hn]
  change (f.languageFor n.whole >>= fun l => _) = _
  rw [hwhole]
  rfl

theorem debugCheck_of_select {n : Options} {l : Registered} (hr : options.rangeStart = 0)
    (he : options.rangeEnd = none) (hc : options.cursorOffset = none)
    (h : (ofLanguages languages).select options = .ok (n, l)) (text : String) :
    (ofLanguages languages).debugCheck text options = (do
      let first ← (ofLanguages languages).format text options
      let second ← (ofLanguages languages).format first options
      compareWith l n text first second) := by
  have hwhole : n.whole = n := whole_of_resolve hr he hc (resolve_of_select h).1
  simp only [debugCheck_eq h, hwhole, format_of_select h, bind_map_left]

theorem debugCheck_of_select_error {f : Formatter} {e : Error} (h : f.select options = .error e)
    (text : String) : f.debugCheck text options = .error e := by
  rw [select] at h
  cases hn : f.resolve options with
  | error e' =>
    rw [hn] at h
    cases h
    rw [debugCheck, hn]
    rfl
  | ok m =>
    -- The language does not depend on the range or the cursor.
    have hlanguage : f.languageFor
        { m with rangeStart := 0, rangeEnd := none, cursorOffset := none } = f.languageFor m := rfl
    rw [hn] at h
    cases hl : f.languageFor m with
    | error e' =>
      simp only [bind, Except.bind, hl] at h
      cases h
      simp only [debugCheck, hn]
      simp only [bind, Except.bind, hlanguage, hl]
    | ok l =>
      simp only [bind, Except.bind, hl] at h
      cases h

/-- **What the self-check finds out.** It accepts exactly the texts on which formatting is idempotent
and keeps the tree, and it reports every outcome of formatting that is not a fixed point. -/
theorem debugCheck_eq_ok_iff {f : Formatter} (hf : f = ofLanguages languages)
    (hr : options.rangeStart = 0) (he : options.rangeEnd = none)
    (hc : options.cursorOffset = none) (text : String) :
    (∀ s, f.debugCheck text options = .ok s ↔
      f.format text options = .ok s ∧ f.format s options = .ok s ∧ f.SameTree options text s) ∧
    (∀ first second, f.format text options = .ok first → f.format first options = .ok second →
      second ≠ first → f.debugCheck text options = .error (.notIdempotent first second)) ∧
    ∀ first e, f.format text options = .ok first → f.format first options = .error e →
      f.debugCheck text options = .error e := by
  subst hf
  cases hselect : (ofLanguages languages).select options with
  | error e =>
    rw [debugCheck_of_select_error hselect, format_of_select_error hselect]
    refine ⟨fun s => ⟨fun h => ?_, fun h => ?_⟩, fun _ _ h => ?_, fun _ _ h => ?_⟩
    · cases h
    · cases h.1
    · cases h
    · cases h
  | ok selected =>
    obtain ⟨n, l⟩ := selected
    rw [debugCheck_of_select hr he hc hselect]
    refine ⟨fun s => ?_, fun first second hfirst hsecond hne => ?_, fun first e hfirst he => ?_⟩
    · rw [sameTree_of_select hselect]
      constructor
      · intro h
        obtain ⟨first, hfirst, h⟩ := exists_of_bind_eq_ok h
        obtain ⟨second, hsecond, h⟩ := exists_of_bind_eq_ok h
        obtain ⟨rfl, rfl, htree⟩ := compareWith_eq_ok_iff.mp h
        exact ⟨hfirst, hsecond, htree⟩
      · rintro ⟨hfirst, hsecond, htree⟩
        rw [hfirst]
        simp only [bind, Except.bind, hsecond]
        exact compareWith_eq_ok_iff.mpr ⟨rfl, rfl, htree⟩
    · rw [hfirst]
      simp only [bind, Except.bind, hsecond]
      exact compareWith_of_ne hne
    · rw [hfirst]
      simp only [bind, Except.bind, he]

/-! ## Formatting again and again -/

theorem iterate_succ {f : Formatter} (h : f.format text options = .ok first) (limit : Nat) :
    f.iterate options (limit + 1) text =
      .ok first :: if first = text then [] else f.iterate options limit first := by
  simp only [iterate, h, beq_iff_eq]

/-- What is fixed stays: every answer is the first one. -/
theorem iterate_of_fixed {f : Formatter} (h : f.format text options = .ok first)
    (hfixed : f.format first options = .ok first) (limit : Nat) :
    ∀ answer ∈ f.iterate options limit text, answer = .ok first := by
  have hstop : ∀ limit, ∀ answer ∈ f.iterate options limit first, answer = .ok first := by
    rintro (_ | limit) answer hanswer
    · cases hanswer
    · rw [iterate_succ hfixed, if_pos rfl] at hanswer
      exact List.mem_singleton.mp hanswer
  cases limit with
  | zero =>
    intro answer hanswer
    cases hanswer
  | succ limit =>
    rw [iterate_succ h]
    refine List.forall_mem_cons.mpr ⟨rfl, ?_⟩
    split
    · intro answer hanswer
      cases hanswer
    · exact hstop limit

/-- **Where the rounds end.** If the limit is not reached, the last answer is an error or a text that
does not change. -/
theorem ends_iterate {f : Formatter} {limit : Nat}
    (h : (f.iterate options limit text).length < limit) :
    (∃ e, (f.iterate options limit text).getLast? = some (.error e)) ∨
      ∃ s, (f.iterate options limit text).getLast? = some (.ok s) ∧
        f.format s options = .ok s := by
  induction limit generalizing text with
  | zero => cases h
  | succ limit ih =>
    cases hrun : f.format text options with
    | error e => exact .inl ⟨e, by simp [iterate, hrun]⟩
    | ok s =>
      rw [iterate_succ hrun] at h ⊢
      by_cases hsame : s = text
      · rw [if_pos hsame]
        exact .inr ⟨s, rfl, hsame ▸ hrun⟩
      · rw [if_neg hsame] at h ⊢
        have hlast : ∀ {answer : Except Error String},
            (f.iterate options limit s).getLast? = some answer →
            (.ok s :: f.iterate options limit s).getLast? = some answer := fun hanswer => by
          rw [List.getLast?_cons, hanswer, Option.getD_some]
        refine (ih (Nat.lt_of_succ_lt_succ h)).imp ?_ ?_
        · exact fun ⟨e, he⟩ => ⟨e, hlast he⟩
        · exact fun ⟨s', hs', hfixed⟩ => ⟨s', hlast hs', hfixed⟩

/-! ## A comment that moves -/

theorem eq_ok_of_toOption {ε α : Type} {x : Except ε α} {a : α} (h : x.toOption = some a) :
    x = .ok a := by
  cases x with
  | error e => cases h
  | ok b =>
    cases h
    rfl

theorem format_comment_on_own_line :
    JavaScript.formatter.format "x = \n/* c */\n1" { parser := some "javascript" } =
      .ok "x = /* c */\n1;\n" :=
  eq_ok_of_toOption (by decide +kernel)

theorem format_comment_at_end_of_line :
    JavaScript.formatter.format "x = /* c */\n1;\n" { parser := some "javascript" } =
      .ok "x /* c */ = 1;\n" :=
  eq_ok_of_toOption (by decide +kernel)

/-- Formatting is not idempotent. -/
theorem not_idempotent :
    ¬ ∀ (text formatted : String) (options : Options), options.validate = .ok () →
      options.parser = some "javascript" → options.rangeStart = 0 → options.rangeEnd = none →
      options.cursorOffset = none → JavaScript.formatter.format text options = .ok formatted →
      JavaScript.formatter.format formatted options = .ok formatted := by
  intro h
  have hfix := h _ _ { parser := some "javascript" } rfl rfl rfl rfl rfl format_comment_on_own_line
  exact absurd (Except.ok.inj (format_comment_at_end_of_line.symm.trans hfix)) (by decide)

end Formatter

end CodeFormatter
