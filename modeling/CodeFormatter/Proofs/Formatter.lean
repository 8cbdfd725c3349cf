import CodeFormatter.Proofs.SelfCheck

/-!
# Formatting with valid options

A formatter that has not been used before checks the options, names the language and hands the text
to it. With valid options nothing but the name can be missing (`formatNested_of_valid`).

How deep embedded texts nest is a parameter here: `formatNested` formats a text with one bound, and a
text is formatted with the bound for its size (`formatWithCursor_eq`).
-/

namespace CodeFormatter

/-! ## Parsed texts -/

namespace Pipeline

variable {α : Type}

/-- What printers can read of a text that has been parsed. -/
def sceneFor (language : Language α) (embedding : Embedding) (job : Job) (tree : Tree α) : Scene :=
  { language := language.name, text := job.text, bytes := bytesOf job.text, options := job.options
    cursorNode := (cursorTarget job.options tree).map (·.1), embedded := embedding }

/-- The document of a text, on the page of its options. -/
def outcomeOf (job : Job) (tree : Tree α) (d : Doc) : Formatted :=
  let printed := Layout.print (job.options.page job.text) d
  { formatted := restoreMark job.marked printed.formatted
    cursorOffset := (mapCursor (cursorTarget job.options tree) printed).map fun c =>
      if job.marked then c + 3 else c }

/-- **A parsed text is printed** and laid out, if no comment is missing. -/
theorem printParsed_zero (language : Language α) (embedding : Embedding) (job : Job)
    (parsed : Parsed α) :
    printParsed language embedding job parsed 0 =
      printTree language (sceneFor language embedding job parsed.tree) parsed.tree 0
          ⟨attached language job.text parsed, 0⟩ >>= fun r =>
        ensureAllPrinted r.2.comments >>= fun _ => pure (outcomeOf job parsed.tree r.1) := rfl

end Pipeline

/-! ## Formatters -/

/-- Is it the view of a language, and nothing else? -/
def Registered.IsLanguage (r : Registered) : Prop :=
  ∃ (α : Type) (language : Language α), r = .ofLanguage language

namespace Formatter

variable {f : Formatter} {languages : List Registered} {l : Registered} {options : Options}
  {depth : Nat} {text : String}

/-- The options with the name of the language, if the file tells it. -/
def named (f : Formatter) (options : Options) : Options :=
  { options with parser := options.parser.orElse fun _ => f.inferParser options }

/-- Formats a text in which at most `depth` embedded ones are nested. -/
def formatNested (f : Formatter) (depth : Nat) (text : String) (options : Options) :
    Except Error Formatted := do
  let (options, l) ← f.select options
  l.format (f.embedding depth) options text

theorem formatWithCursor_eq :
    f.formatWithCursor text options = f.formatNested (f.nesting text) text options := rfl

theorem computeNormalized_of_valid (h : options.validate = .ok ()) :
    f.computeNormalized options = .ok (f.named options) := by
  rw [computeNormalized, h]
  rfl

theorem resolve_of_valid (h : options.validate = .ok ()) :
    (ofLanguages languages).resolve options = .ok ((ofLanguages languages).named options) := by
  rw [resolve_ofLanguages, computeNormalized_of_valid h]

/-- Valid options: the language formats the text, if it is known. -/
theorem formatNested_of_valid (h : options.validate = .ok ()) :
    (ofLanguages languages).formatNested depth text options =
      (ofLanguages languages).languageFor ((ofLanguages languages).named options) >>= fun l =>
        l.format ((ofLanguages languages).embedding depth) ((ofLanguages languages).named options)
          text := by
  rw [formatNested, select, resolve_of_valid h]
  change ((ofLanguages languages).languageFor _ >>= fun l => pure (_, l)) >>= _ = _
  rw [bind_assoc]
  rfl

theorem mem_of_languageFor (h : f.languageFor options = .ok l) : l ∈ f.languages := by
  unfold languageFor at h
  split at h
  · cases h
  · split at h
    · rename_i hfind
      cases h
      exact List.mem_of_find?_eq_some hfind
    · cases h

/-- **Two texts, each with its options, are formatted alike** if the language of the first formats them
alike. The second options name the same language. -/
theorem formatNested_congr {options' : Options} {text' : String} {g : Formatted → Formatted}
    (hvalid : options.validate = .ok ()) (hvalid' : options'.validate = .ok ())
    (hparser : options'.parser = options.parser) (hfile : options'.filepath = options.filepath)
    (hformat : let f := ofLanguages languages
      ∀ l, f.languageFor (f.named options) = .ok l →
        l.format (f.embedding depth) (f.named options') text' =
          g <$> l.format (f.embedding depth) (f.named options) text) :
    (ofLanguages languages).formatNested depth text' options' =
      g <$> (ofLanguages languages).formatNested depth text options := by
  have hname : ((ofLanguages languages).named options').parser =
      ((ofLanguages languages).named options).parser := by
    simp only [named, inferParser, Options.fileExtension, hparser, hfile]
  have hlanguage : (ofLanguages languages).languageFor ((ofLanguages languages).named options') =
      (ofLanguages languages).languageFor ((ofLanguages languages).named options) := by
    simp only [languageFor, hname]
  rw [formatNested_of_valid hvalid, formatNested_of_valid hvalid', hlanguage]
  cases hl : (ofLanguages languages).languageFor ((ofLanguages languages).named options) with
  | error e => rfl
  | ok l => exact hformat l hl

end Formatter

end CodeFormatter
