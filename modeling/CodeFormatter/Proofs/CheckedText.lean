import CodeFormatter.Proofs.JavaScript.CursorNeutrality
import CodeFormatter.Proofs.Normalization

/-!
# What the self-check gives back

The self-check formats a text as a whole, whatever range the options ask for, and follows no cursor. It gives back
what it has formatted.

**Theorem (`format_of_debugCheck`).** The text that the self-check gives back is the outcome of formatting with
the normalized options, but for their range and their cursor. So it is what formatting gives for options without a
range, if they follow no cursor or the languages leave it to the formatter to follow one. For other options it is
not (`not_what_format_gives`).
-/

namespace CodeFormatter

theorem Options.withCursor_whole {o : Options} (h : o.formatsWholeFile = true) :
    o.whole.withCursor o.cursorOffset = o := by
  obtain ⟨hstart, hend⟩ := Options.formatsWholeFile_iff.mp h
  cases o
  simp_all [Options.whole, Options.withCursor]

namespace Formatter

variable {f : Formatter} {requests : List Request} {o n : Options} {l : Registered} {text s : String}

/-- **The text that is given back** is formatted as a whole, with no cursor. -/
theorem formatWith_of_debugCheck (h : f.debugCheck text o = .ok s) :
    ∃ n l, f.select o = .ok (n, l) ∧ (·.formatted) <$> f.formatWith l n.whole text = .ok s := by
  cases hselect : f.select o with
  | error e =>
    rw [debugCheck_of_select_error hselect] at h
    cases h
  | ok selected =>
    obtain ⟨n, l⟩ := selected
    rw [debugCheck_eq hselect] at h
    obtain ⟨first, hfirst, h⟩ := exists_of_bind_eq_ok h
    obtain ⟨second, -, h⟩ := exists_of_bind_eq_ok h
    obtain ⟨rfl, -, -⟩ := compareWith_eq_ok_iff.mp h
    exact ⟨n, l, rfl, by rw [hfirst]; rfl⟩

/-- Normalizing leaves the range and the cursor as they are. -/
theorem whole_of_select (h : (after requests).select o = .ok (n, l)) :
    n.formatsWholeFile = o.formatsWholeFile ∧ n.cursorOffset = o.cursorOffset := by
  obtain ⟨hn, -⟩ := resolve_of_select h
  rw [(Journal.describes_of requests).eq_of_resolve hn]
  exact ⟨rfl, rfl⟩

/-- **What the self-check gives back** is the text that is formatted as a whole. Formatting gives it back, too, if
it is asked for the whole text, and if it follows no cursor or the languages do not look at the cursor. -/
theorem format_of_debugCheck (h : (after requests).debugCheck text o = .ok s) :
    (∃ n l, (after requests).select o = .ok (n, l) ∧
      (·.formatted) <$> (after requests).formatWith l n.whole text = .ok s) ∧
    (o.formatsWholeFile = true →
      (o.cursorOffset = none ∨ ∀ r ∈ (after requests).languages, ∃ (β : Type) (l : Language β)
        (Solid : Tree β → Prop), r = .ofLanguage l ∧ l.OverlooksCursor Solid) →
      (after requests).format text o = .ok s) := by
  obtain ⟨n, l, hselect, hformat⟩ := formatWith_of_debugCheck h
  refine ⟨⟨n, l, hselect, hformat⟩, fun hrange hcursor => ?_⟩
  obtain ⟨hn, hc⟩ := whole_of_select hselect
  have hwhole : n.whole.withCursor n.cursorOffset = n := Options.withCursor_whole (hn.trans hrange)
  rw [format_of_select hselect, ← hformat]
  rcases hcursor with hnone | hlanguages
  · have hsame : n.whole = n := by
      rw [hc, hnone] at hwhole
      exact hwhole
    rw [hsame]
  · obtain ⟨-, hl⟩ := resolve_of_select hselect
    obtain ⟨β, language, Solid, rfl, hoverlooks⟩ := hlanguages l (mem_of_languageFor hl)
    have hsame : (·.formatted) <$> (after requests).formatWith (.ofLanguage language)
        (n.whole.withCursor n.cursorOffset) text =
          (·.formatted) <$> (after requests).formatWith (.ofLanguage language) n.whole text :=
      formatText_withCursor hoverlooks n.whole n.cursorOffset text
    rw [← hsame, hwhole]

end Formatter

namespace JavaScript

/-- The parser, for these texts only. -/
def parseOnly (texts : List String) : TextParser := fun text =>
  if text ∈ texts then parse text else .error .invalidSpan

theorem givesSolidTrees_parseOnly {texts : List String} (h : ∀ text ∈ texts,
    (parse text).toOption.all (fun parsed =>
      parsed.tree.nodes.all fun t => t.children.all fun u => decide (IsSolid u)) = true) :
    GivesSolidTrees (parseOnly texts) := by
  intro text parsed hparsed t ht u hu
  unfold parseOnly at hparsed
  split at hparsed
  · have hsolid := h text ‹_›
    rw [hparsed] at hsolid
    exact of_decide_eq_true (List.all_eq_true.mp (List.all_eq_true.mp hsolid t ht) u hu)
  · cases hparsed

end JavaScript

namespace Formatter

open JavaScript

/-- A call with a cursor in its last argument, formatted and checked. -/
theorem format_of_debugCheck_call :
    let f := after [.register (.ofLanguage (parsing (parseOnly ["f(a,[b])", "f(a, [b]);\n"])))]
    let o : Options := { filepath := some "a.js", cursorOffset := some 5 }
    f.debugCheck "f(a,[b])" o = .ok "f(a, [b]);\n" ∧ f.format "f(a,[b])" o = .ok "f(a, [b]);\n" := by
  intro f o
  have hchecked : f.debugCheck "f(a,[b])" o = .ok "f(a, [b]);\n" := eq_ok_of_toOption (by decide +kernel)
  have hsolid : GivesSolidTrees (parseOnly ["f(a,[b])", "f(a, [b]);\n"]) :=
    givesSolidTrees_parseOnly (by decide +kernel)
  refine ⟨hchecked, (format_of_debugCheck hchecked).2 rfl (.inr fun r hr => ?_)⟩
  exact ⟨Info, parsing _, IsSolid, List.mem_singleton.mp hr, overlooksCursor_parsing hsolid⟩

/-! ## Options that ask for more -/

/-- A language whose texts are printed as something else when a cursor is followed. -/
def cursorDependent : Language Unit where
  name := "dependent"
  extensions := ["dep"]
  parse _ text := .ok ⟨⟨0, 0, text.utf8ByteSize, (), []⟩, []⟩
  print scene _ _ := return .text (if scene.options.cursorOffset.isSome then "followed" else "")
  describe _ _ := .ok ""

/-- **Formatting gives back something else** for a range, as the self-check does not keep to it, and for a cursor
that the language looks at. -/
theorem not_what_format_gives :
    (¬ ∀ (text s : String) (o : Options), JavaScript.formatter.debugCheck text o = .ok s →
      JavaScript.formatter.format text o = .ok s) ∧
    ¬ ∀ (text s : String) (o : Options), o.formatsWholeFile = true →
      (ofLanguages [.ofLanguage cursorDependent]).debugCheck text o = .ok s →
        (ofLanguages [.ofLanguage cursorDependent]).format text o = .ok s := by
  constructor
  · intro h
    have hchecked : JavaScript.formatter.debugCheck "a\nb" { filepath := some "a.js", rangeEnd := some 1 } =
        .ok "a;\nb;\n" :=
      eq_ok_of_toOption (by decide +kernel)
    have hformatted : JavaScript.formatter.format "a\nb" { filepath := some "a.js", rangeEnd := some 1 } =
        .ok "a;\nb" :=
      eq_ok_of_toOption (by decide +kernel)
    exact absurd (Except.ok.inj (hformatted.symm.trans (h _ _ _ hchecked))) (by decide)
  · intro h
    have hchecked : (ofLanguages [.ofLanguage cursorDependent]).debugCheck ""
        { filepath := some "a.dep", cursorOffset := some 0 } = .ok "" :=
      eq_ok_of_toOption (by decide +kernel)
    have hformatted : (ofLanguages [.ofLanguage cursorDependent]).format ""
        { filepath := some "a.dep", cursorOffset := some 0 } = .ok "followed" :=
      eq_ok_of_toOption (by decide +kernel)
    exact absurd (Except.ok.inj (hformatted.symm.trans (h _ _ _ rfl hchecked))) (by decide)

end Formatter

end CodeFormatter
