import CodeFormatter.Proofs.JavaScript.Docblock
import CodeFormatter.Proofs.JavaScript.LayoutOptions
import CodeFormatter.Proofs.JavaScript.Ranges
import CodeFormatter.Proofs.Range
import CodeFormatter.Proofs.Layout.Uniformity

/-!
# Line endings of formatted texts

When the options leave it open how lines end, the newline is guessed from the text that is laid out.
That is not always the text that was given. A pragma is put in with line feeds, in front of all
newlines of the text, so that a text with carriage returns is laid out with line feeds from then on.
And the slice of a range may have no newline at all, while the text around it has others than the one
that is guessed then (`not_uniform`).

**Theorem (`uniform_format`).** Apart from that, a text that ends its lines in one way is formatted to
a text that ends them in the same way. All newlines in the document come from the text: from nodes that
are copied, from comments, and from the code in templates.
-/

namespace CodeFormatter.JavaScript

open Layout Pipeline Printer CodeFormatter.Tree Walk

variable {kind : LineEnding} {done : Comments}

/-- The documents whose texts are uniform. -/
abbrev UniformDoc (kind : LineEnding) : Doc → Prop := Doc.Every (UniformTexts kind)

/-- Texts that are uniform. -/
abbrev UniformText (kind : LineEnding) (s : String) : Prop := Uniform kind s.toList

theorem uniformText_of_inline {s : String} (h : isInline s = true) : UniformText kind s := by
  rw [isInline, List.all_eq_true] at h
  refine uniform_of_not_mem (fun hc => ?_) fun _ hc => ?_ <;> exact absurd (h _ hc) (by decide)

theorem uniformDoc_text {s : String} (h : UniformText kind s) : UniformDoc kind (.text s) :=
  .intro (uniformTexts_text h) (by simp [Doc.children])

/-- Uniform documents make up uniform documents. -/
theorem closed_uniformDoc (kind : LineEnding) : Closed (UniformText kind) (UniformDoc kind) :=
  closed_of_children fun d htext hprinted hchildren => by
    refine .intro ⟨fun s hs => ?_, ?_⟩ hchildren
    swap
    · rintro al e rfl
      cases hprinted
    cases d with
    | text t =>
      rw [List.mem_singleton.mp hs]
      exact htext t rfl
    | _ => cases hs

/-! ## Comments -/

/-- The lines of a comment have the characters of the comment, and blanks. -/
theorem mem_of_mem_indentedLines {lines : List (List Char)} {line : List Char} {c : Char}
    (hline : line ∈ CommentText.indentedLines lines) (hc : c ∈ line) :
    c = ' ' ∨ ∃ l ∈ lines, c ∈ l := by
  have hleft : ∀ {l : List Char}, c ∈ trimLeft l → c ∈ l :=
    fun h => (List.dropWhile_suffix _).subset h
  have hright : ∀ {l : List Char}, c ∈ trimRight l → c ∈ l := fun h =>
    (isPrefix_trimRight _).subset h
  have haligned : ∀ {rest : List (List Char)}, line ∈ CommentText.alignedLines rest →
      c = ' ' ∨ ∃ l ∈ rest, c ∈ l := by
    intro rest h
    induction rest using CommentText.alignedLines.induct with
    | case1 => cases h
    | case2 last =>
      rw [CommentText.alignedLines, List.mem_singleton] at h
      rw [h] at hc
      exact (List.mem_cons.mp hc).imp_right fun hc => ⟨last, List.mem_cons_self, hleft hc⟩
    | case3 l rest hrest ih =>
      rw [CommentText.alignedLines.eq_3 _ _ hrest] at h
      rcases List.mem_cons.mp h with rfl | h
      · exact (List.mem_cons.mp hc).imp_right fun hc => ⟨l, List.mem_cons_self, hleft (hright hc)⟩
      · exact (ih h).imp_right fun ⟨l', hl', hc'⟩ => ⟨l', List.mem_cons_of_mem l hl', hc'⟩
  cases lines with
  | nil => cases hline
  | cons first rest =>
    rcases List.mem_cons.mp hline with rfl | hline
    · exact .inr ⟨first, List.mem_cons_self, hright hc⟩
    · exact (haligned hline).imp_right fun ⟨l, hl, hc'⟩ => ⟨l, List.mem_cons_of_mem first hl, hc'⟩

/-- A comment with a uniform text has a uniform document. -/
theorem yields_print_uniform {c : Comment} (h : UniformText kind c.text) :
    Yields (fun _ => True) (UniformDoc kind) (CommentText.print c) := by
  have hclosed := closed_uniformDoc kind
  unfold CommentText.print
  split
  · refine (yields_sliceOrError trivial _ _ _).bind fun body hbody => ?_
    dsimp only
    split
    · refine hclosed.concat _ fun d hd => ?_
      simp only [List.mem_cons, List.not_mem_nil, or_false] at hd
      rcases hd with rfl | rfl | rfl
      · exact uniformDoc_text (uniformText_of_inline (by decide))
      · refine hclosed.join hclosed.hardline fun d hd => ?_
        obtain ⟨line, hline, rfl⟩ := List.mem_map.mp hd
        refine uniformDoc_text ?_
        have hmem : ∀ ch ∈ line, ch = ' ' ∨ ch ∈ body.toList ∧ ch ≠ '\n' := fun ch hch =>
          (mem_of_mem_indentedLines hline hch).imp_right fun ⟨l, hl, hch⟩ => mem_of_mem_pieces hl hch
        rw [UniformText, String.toList_ofList]
        refine uniform_of_not_mem (fun hfeed => ?_) ?_
        · rcases hmem _ hfeed with h | h
          · exact absurd h (by decide)
          · exact h.2 rfl
        · rintro rfl hreturn
          rcases hmem _ hreturn with h' | h'
          · exact absurd h' (by decide)
          · obtain ⟨before, after, htext, -, -⟩ :=
              slice?_eq_some_iff.mp (sliceOrError_eq_ok_iff.mp hbody)
            exact h (by rw [htext]; simp [h'.1])
      · exact uniformDoc_text (uniformText_of_inline (by decide))
    · exact uniformDoc_text h
  · refine uniformDoc_text ?_
    rw [UniformText, trimEnd, String.toList_ofList]
    exact h.trimRight

/-- The comments of a store are those that it was made of, but for what is noted in them. -/
theorem exists_of_bare_mem {text : String} {parsed : Parsed Info} {c : Comment}
    (h : c.bare ∈ (attached language text parsed).bare) : ∃ d ∈ parsed.comments, d.bare = c.bare := by
  obtain ⟨-, hbare, -⟩ := Attach.reached_attach language parsed.tree text
    (Comments.consistent_ofList parsed.comments)
  rw [attached, hbare] at h
  obtain ⟨d, hd, heq⟩ := List.mem_map.mp h
  exact ⟨d, (Comments.perm_sortByStart parsed.comments).mem_iff.mp hd, heq⟩

/-! ## Trees -/

/-- What the parser sees to: nodes and comments do not start inside a newline, and statements and
nodes with children do not stop in one. Tokens and operators stand on one line, a template starts with
its quote, and a comment has the text at its place. -/
structure Clean (text : String) (parsed : Parsed Info) : Prop where
  nodes : ∀ t ∈ parsed.tree.nodes, ¬ Splits text.toList t.start
  tokens : ∀ t ∈ parsed.tree.nodes, ∀ s ∈ t.info.tokens, isInline s = true
  operators : ∀ t ∈ parsed.tree.nodes, ∀ o ∈ t.info.operator, isInline o.text = true
  stops : ∀ t ∈ parsed.tree.nodes, isSourceElement t = true ∨ t.children ≠ [] →
    ¬ Splits text.toList t.stop
  templates : ∀ t ∈ parsed.tree.nodes, kindOf t = .templateString → ∀ s,
    slice? text t.start t.stop = some s → s.toList.head? = some '`'
  comments : ∀ c ∈ parsed.comments,
    slice? text c.start c.stop = some c.text ∧ ¬ Splits text.toList c.start

section Trees

variable {p : TextParser} {text : String} {parsed : Parsed Info} {scene : Scene}

theorem Clean.uniform_node (h : Clean text parsed) (htext : UniformText kind text) {t : Node}
    (ht : t ∈ parsed.tree.nodes) {s : String} (hs : sliceOrError text t.start t.stop = .ok s) :
    UniformText kind s :=
  Uniform.slice htext (slice?_eq_some_iff.mp (sliceOrError_eq_ok_iff.mp hs)) (h.nodes t ht)

theorem Clean.printsComments (h : Clean text parsed) (htext : UniformText kind text) :
    PrintsComments (fun _ => True) (UniformDoc kind) (attached language text parsed)
      CommentText.print := by
  intro c hc
  obtain ⟨d, hd, hbare⟩ := exists_of_bare_mem hc
  obtain ⟨hslice, hstart⟩ := h.comments d hd
  have htext' : d.bare.text = c.bare.text := by rw [hbare]
  refine yields_print_uniform ?_
  rw [← show d.text = c.text from htext']
  exact Uniform.slice htext (slice?_eq_some_iff.mp hslice) hstart

theorem uniform_requoted {raw : List Char} (h : Uniform kind raw) {preferred : Char}
    (hpreferred : preferred = '"' ∨ preferred = '\'') : Uniform kind (requoted preferred raw) := by
  unfold requoted
  split
  · rename_i quote rest
    split
    · exact h
    · rename_i hrequoted
      have hquote : quote ≠ '\r' := by
        rintro rfl
        exact hrequoted (by simp)
      have hmark : Uniform kind [preferred] := by
        rcases hpreferred with rfl | rfl <;>
          exact uniform_of_not_mem (by decide) fun _ => by decide
      have hrest := (h.tail hquote).of_isPrefix (List.dropLast_prefix rest)
      exact (hmark.append hrest).append hmark
  · exact h

/-- The code of a template is uniform. -/
theorem Clean.uniform_code (h : Clean text parsed) (htext : UniformText kind text)
    {t tag template : Node} {code : List Char} (ht : t ∈ parsed.tree.nodes)
    (hcode : HoldsCode text t tag template code) : Uniform kind code := by
  obtain ⟨raw, hraw, rfl⟩ := hcode.contents
  have htemplate : template ∈ parsed.tree.nodes :=
    mem_nodes_trans (mem_nodes_of_mem_children (by simp [hcode.parts]) (mem_nodes_self _)) ht
  have huniform := h.uniform_node htext htemplate hraw
  have hhead := h.templates template htemplate hcode.kindTemplate raw (sliceOrError_eq_ok_iff.mp hraw)
  rw [UniformText] at huniform
  rw [Embedded.contents]
  cases hcs : raw.toList with
  | nil => exact uniform_nil kind
  | cons c rest =>
    rw [hcs] at hhead huniform
    cases hhead
    exact (Uniform.tail huniform (by decide)).of_isPrefix (List.dropLast_prefix _)

/-- **All texts of a tree are uniform.** -/
theorem heritage_uniform (h : Clean text parsed) (hscene : scene.text = text)
    (htext : UniformText kind text)
    (hembedded : ∀ t ∈ parsed.tree.nodes, ∀ tag template code, HoldsCode text t tag template code →
      ∀ group, Yields (fun _ => True) (fun r => UniformDoc kind r.1)
        (scene.embedded (String.ofList code) (Embedded.codeOptions scene.options) group)) :
    Heritage (attached language text parsed) (fun _ => True) (UniformText kind) (UniformDoc kind)
      scene parsed.tree where
  closed := closed_uniformDoc kind
  words _ := uniformText_of_inline
  spaced s hs := by
    rw [UniformText, String.toList_append]
    have hspace : UniformText kind " " := uniformText_of_inline (by decide)
    exact hspace.append hs
  comments := h.printsComments htext
  span := trivial
  tokens t ht s hs := uniformText_of_inline (h.tokens t ht s hs)
  operators t ht o ho := uniformText_of_inline (h.operators t ht o ho)
  copies t ht s hs := uniformDoc_text (h.uniform_node htext ht (hscene ▸ hs))
  strings t ht _ s hs preferred hpreferred := by
    refine uniformDoc_text ?_
    rw [UniformText, String.toList_ofList]
    exact uniform_requoted (h.uniform_node htext ht (hscene ▸ hs)) hpreferred
  code t ht tag template code hcode _ group :=
    (hembedded t ht tag template code (hscene ▸ hcode) group).mono (fun _ _ _ => trivial)
      fun r hr => hr.stripTrailingHardline fun _ => uniformTexts_of_ownTexts rfl (by simp)
  cursor _ _ _ := .inl fun d hd => .intro (uniformTexts_of_ownTexts rfl (by simp)) <| by
    have hmark : UniformDoc kind .cursor :=
      .intro (uniformTexts_of_ownTexts rfl (by simp)) (by simp [Doc.children])
    simp [Doc.children, hmark, hd]

/-- The document of uniform code is uniform. -/
theorem uniform_embedding (hp : ∀ text parsed, p text = .ok parsed → Clean text parsed)
    {depth : Nat} {code : String} (hcode : UniformText kind code) (o : Options) (group : GroupId) :
    Yields (fun _ => True) (fun r => UniformDoc kind r.1)
      ((formatterOf p).embedding depth code (Embedded.codeOptions o) group) := by
  refine yields_embedding (UniformText kind) (UniformText kind)
    (fun d hd => hd.propagateBreaks fun _ => UniformTexts.propagateBreaks) ?_ depth hcode o group
  intro embedding o code parsed hcode hparse hembedded
  have hclean := hp code parsed hparse
  refine heritage_uniform hclean rfl hcode fun t ht tag template code' hcode' group => ?_
  refine hembedded _ ?_ o group
  rw [UniformText, String.toList_ofList]
  exact hclean.uniform_code hcode ht hcode'

end Trees

/-! ## Pragmas -/

section Pragmas

variable {cs ds : List Char} {lines : List (List Char)}

theorem not_mem_return_extended (h : ∀ line ∈ lines, '\r' ∉ line) : '\r' ∉ Pragma.extended lines := by
  have hwritten : '\r' ∉ lines.flatMap Pragma.writtenLine := by
    intro hc
    obtain ⟨line, hline, hc⟩ := List.mem_flatMap.mp hc
    unfold Pragma.writtenLine at hc
    split at hc
    · exact absurd hc (by decide)
    · simp only [List.mem_append] at hc
      rcases hc with (hc | hc) | hc
      · exact absurd hc (by decide)
      · exact h line hline hc
      · exact absurd hc (by decide)
  have hblank : '\r' ∉ (if lines.isEmpty then [] else " *\n".toList) := by
    split <;> decide
  unfold Pragma.extended
  simp only [List.mem_append, not_or]
  exact ⟨⟨⟨by decide, hwritten⟩, hblank⟩, by decide⟩

/-- A pragma is put in without carriage returns. -/
theorem not_mem_return_insertChars? (h : '\r' ∉ cs) (hinsert : Pragma.insertChars? cs = some ds) :
    '\r' ∉ ds := by
  obtain ⟨shebang, rest, hshebang⟩ := Pragma.exists_shebang cs
  rw [hshebang.eq_append, List.mem_append, not_or] at h
  obtain ⟨hfirst, hrest⟩ := h
  cases hdocblock : Pragma.docblock? rest with
  | none =>
    rw [Pragma.insertChars?_of_none hshebang hdocblock] at hinsert
    cases hinsert
    have hseparator : '\r' ∉ (if rest.head? == some '\n' then ['\n'] else ['\n', '\n']) := by
      split <;> decide
    simp only [List.mem_append, not_or]
    exact ⟨⟨⟨hfirst, by decide⟩, hseparator⟩, hrest⟩
  | some found =>
    obtain ⟨body, after⟩ := found
    rw [Pragma.insertChars?_of_some hshebang hdocblock] at hinsert
    obtain ⟨dropped, hdropped, rfl⟩ := Option.map_eq_some_iff.mp hinsert
    obtain ⟨front, rfl, -⟩ := Pragma.dropBytes?_eq_some_iff.mp hdropped
    have hlines : ∀ line ∈ Pragma.contents body, '\r' ∉ line := fun line hline hc =>
      hrest ((Pragma.isInfix_of_docblock? hdocblock).subset
        ((Pragma.isInfix_of_mem_contents hline).subset hc))
    have hafter : '\r' ∉ trimLeft dropped := fun hc =>
      hrest (List.mem_append_right front ((List.dropWhile_suffix _).subset hc))
    have hend : '\r' ∉ Pragma.behind dropped := by
      unfold Pragma.behind
      split
      · decide
      · simpa using hafter
    simp only [List.mem_append, not_or]
    exact ⟨⟨hfirst, not_mem_return_extended hlines⟩, hend⟩

end Pragmas

/-! ## Formatting -/

section Formatting

variable {p : TextParser} {embedding : Embedding} {parsed : Parsed Info} {options n : Options}
  {job : Job} {text : String}

theorem newline_page (hauto : options.endOfLine = .auto) (htext : UniformText kind text)
    (hnewline : kind = .lf ∨ '\n' ∈ text.toList) : (options.page text).newline = kind.text := by
  rw [Options.page, hauto]
  exact lineEnding_bytesOf htext hnewline

theorem uniform_restoreMark (marked : Bool) {out : String} (h : UniformText kind out) :
    UniformText kind (restoreMark marked out) := by
  rw [restoreMark]
  split
  · have hmark : Uniform kind [byteOrderMark] := uniform_of_not_mem (by decide) fun _ => by decide
    rw [UniformText, String.toList_ofList]
    exact hmark.append h
  · exact h

theorem uniform_stripMark (h : UniformText kind text) : UniformText kind (stripMark text) := by
  rw [UniformText] at h ⊢
  rcases toList_stripMark_or text with htext | htext
  · rwa [htext]
  · rw [htext] at h
    exact h.tail (by decide)

/-- The mark is no newline. -/
theorem mem_stripMark (h : '\n' ∈ text.toList) : '\n' ∈ (stripMark text).toList := by
  rcases toList_stripMark_or text with htext | htext
  · rwa [htext]
  · rw [htext] at h
    exact (List.mem_cons.mp h).resolve_left (by decide)

/-- The document of a tree, moved to its column. -/
theorem uniformDoc_atColumn {e : Doc} (he : UniformDoc kind e) (alignment tabWidth : Nat) :
    UniformDoc kind (atColumn alignment tabWidth e) := by
  have hclosed := closed_uniformDoc kind
  have hinner : UniformDoc kind (.concat [Doc.hardline, e]) :=
    hclosed.concat _ (by simp [hclosed.hardline, he])
  have halign : ∀ {al : Alignment} {d : Doc}, al.isBlank = true → UniformDoc kind d →
      UniformDoc kind (.align al d) := fun hal hd =>
    .intro ⟨by simp [Doc.ownTexts], fun _ _ heq => by cases heq; exact hal⟩
      (by simpa [Doc.children] using hd)
  rw [atColumn]
  refine Doc.Every.propagateBreaks (fun _ => UniformTexts.propagateBreaks) ?_
  split
  · rw [Doc.alignTo]
    split
    · exact hinner
    · refine halign rfl (halign rfl ?_)
      generalize alignment / max tabWidth 1 = levels
      induction levels with
      | zero => exact hinner
      | succ levels ih => exact hclosed.indent _ ih
  · exact he

/-- A uniform document is laid out as a uniform text. -/
theorem uniform_laidOut {e : Doc} (he : UniformDoc kind e)
    (hnewline : (job.options.page job.text).newline = kind.text) (tree : Node) (alignment : Nat) :
    UniformText kind
      (laidOut job tree alignment (atColumn alignment job.options.tabWidth e)).formatted := by
  have hformatted := uniform_formatted (uniformDoc_atColumn he alignment job.options.tabWidth)
    hnewline
  rw [laidOut]
  split
  · rw [hnewline, UniformText, String.toList_append, trim, String.toList_ofList]
    exact hformatted.trimBoth.append (uniform_text kind)
  · exact uniform_restoreMark _ hformatted

variable (hp : ∀ text parsed, p text = .ok parsed → Clean text parsed)

include hp

/-- A uniform text is printed as a uniform text. -/
theorem yields_printParsed_uniform (hparse : p job.text = .ok parsed)
    (htext : UniformText kind job.text) (hauto : job.options.endOfLine = .auto)
    (hnewline : kind = .lf ∨ '\n' ∈ job.text.toList) (depth alignment : Nat) :
    Yields (fun _ => True) (fun formatted => UniformText kind formatted.formatted)
      (printParsed (parsing p) ((formatterOf p).embedding depth) job parsed alignment) := by
  have hclean := hp job.text parsed hparse
  have hscene : (sceneOf ((formatterOf p).embedding depth) job parsed.tree).text = job.text := rfl
  have hheritage := heritage_uniform hclean hscene htext fun t ht tag template code hcode group =>
    uniform_embedding hp (by rw [UniformText, String.toList_ofList]; exact hclean.uniform_code htext ht hcode)
      job.options group
  refine (yields_printParsed (fun _ => trivial) hheritage alignment).mono (fun _ => id) ?_
  rintro formatted ⟨e, he, rfl⟩
  exact uniform_laidOut he (newline_page hauto htext hnewline) _ _

/-- A range of a uniform text is formatted, and the text stays uniform. Where lines end in carriage
returns with line feeds, there has to be one in the slice. -/
theorem yields_formatRange_uniform (hparse : p job.text = .ok parsed)
    (htext : UniformText kind job.text) (hauto : job.options.endOfLine = .auto)
    (hslice : kind = .crlf → asksForAll job = false → ∀ start stop,
      widened parsed.tree job = some (start, stop) → ∀ slice, slice? job.text start stop = some slice →
        '\n' ∈ slice.toList) (depth : Nat) :
    Yields (fun _ => True) (fun answer => ∀ s ∈ answer, UniformText kind s)
      (formatRange (parsing p) ((formatterOf p).embedding depth) job parsed.tree) := by
  have hclean := hp job.text parsed hparse
  refine yields_formatRange trivial (fun _ _ => htext) ?_
  intro start stop hall hwidened before hbefore slice hslice' column
  obtain ⟨⟨t, ht, rfl⟩, u, hu, rfl, hstops⟩ := Range.exists_ends_of_widen? hwidened
  have hlies := slice?_eq_some_iff.mp (sliceOrError_eq_ok_iff.mp hslice')
  have huniform : UniformText kind slice := Uniform.slice htext hlies (hclean.nodes t ht)
  have hbefore' : UniformText kind before := by
    obtain ⟨front, back, heq, hfront, -⟩ :=
      slice?_eq_some_iff.mp (sliceOrError_eq_ok_iff.mp hbefore)
    obtain rfl := byteLength_eq_zero.mp hfront
    rw [UniformText, heq] at htext
    exact htext.of_append_left
  have hnewline : kind = .lf ∨ '\n' ∈ slice.toList := by
    cases kind with
    | lf => exact .inl rfl
    | crlf => exact .inr (hslice rfl hall _ _ hwidened _ (sliceOrError_eq_ok_iff.mp hslice'))
  rw [formatSlice_parsing]
  cases hparse' : p (stripMark slice) with
  | error e => exact trivial
  | ok parsed' =>
    have hauto' : (unmark (sliceOptions job.options column) slice).options.endOfLine = .auto :=
      (congrArg Options.endOfLine (codeOptions_unmark _ slice)).trans hauto
    have hparse'' : p (unmark (sliceOptions job.options column) slice).text = .ok parsed' := by
      rw [unmark_text, hparse']
    have huniform' : UniformText kind (unmark (sliceOptions job.options column) slice).text := by
      rw [unmark_text]
      exact uniform_stripMark huniform
    have hnewline' : kind = .lf ∨
        '\n' ∈ (unmark (sliceOptions job.options column) slice).text.toList := by
      rw [unmark_text]
      exact hnewline.imp_right mem_stripMark
    refine (yields_printParsed_uniform hp hparse'' huniform' hauto' hnewline' depth column).mono
      (fun _ => id) fun formatted hformatted after hafter => ?_
    have hafter' : UniformText kind after := by
      have hlies' := slice?_eq_some_iff.mp (sliceOrError_eq_ok_iff.mp hafter)
      exact Uniform.slice htext hlies' (hclean.stops u hu hstops)
    rw [spliced, UniformText, String.toList_append, String.toList_append, trimEnd,
      String.toList_ofList]
    exact (hbefore'.append hformatted.trimRight).append hafter'

omit hp in
/-- The text that is parsed is uniform, too. -/
theorem uniform_prepare (htext : UniformText kind text)
    (hpragma : kind = .crlf → putsPragma n text = false) (hnewline : '\n' ∈ text.toList)
    (hprepare : prepare language n text = .ok job) :
    UniformText kind job.text ∧ (kind = .lf ∨ '\n' ∈ job.text.toList) := by
  cases hputs : putsPragma n text with
  | false =>
    rw [prepare_of_not_putsPragma hputs] at hprepare
    cases hprepare
    rw [unmark_text]
    exact ⟨uniform_stripMark htext, .inr (mem_stripMark hnewline)⟩
  | true =>
    cases kind with
    | crlf => exact absurd (hpragma rfl) (by simp [hputs])
    | lf =>
      obtain ⟨cs, hcs, hjob⟩ := exists_of_putsPragma hputs hprepare
      rw [hjob, UniformText, String.toList_ofList]
      exact ⟨not_mem_return_insertChars? (uniform_stripMark htext) hcs, .inl rfl⟩

/-- **A text that ends its lines in one way is formatted to a text that ends them in the same way**, if
these are line feeds, or no pragma is put in and the slice of a range has a newline. -/
theorem uniform_format {s : String} (hauto : options.endOfLine = .auto)
    (htext : UniformText kind text) (hnewline : '\n' ∈ text.toList)
    (hpragma : kind = .crlf → putsPragma (named options) text = false)
    (hslice : kind = .crlf → asksForAll (unmark (named options) text) = false →
      ∀ parsed start stop slice, p (stripMark text) = .ok parsed →
        widened parsed.tree (unmark (named options) text) = some (start, stop) →
        slice? (stripMark text) start stop = some slice → '\n' ∈ slice.toList)
    (hformat : (formatterOf p).format text options = .ok s) : UniformText kind s := by
  obtain ⟨hvalid, hjs⟩ := valid_of_format hformat
  have hyields : Yields (fun _ => True) (UniformText kind) ((formatterOf p).format text options) := by
    refine yields_format hvalid hjs (fun _ => htext) fun _ => ?_
    cases hprepare : prepare language (named options) text with
    | error e => exact trivial
    | ok job =>
      have hauto' : job.options.endOfLine = .auto :=
        (congrArg Options.endOfLine (codeOptions_of_prepare hprepare)).trans hauto
      obtain ⟨huniform, hnewline'⟩ := uniform_prepare htext hpragma hnewline hprepare
      dsimp only [Yields]
      cases hparse : p job.text with
      | error e => exact trivial
      | ok parsed =>
        refine ⟨?_, fun _ => yields_printParsed_uniform hp hparse huniform hauto' hnewline' _ 0⟩
        refine (yields_formatRange_uniform hp hparse huniform hauto' ?_ _).mono (fun _ => id)
          fun answer h s hs => uniform_restoreMark _ (h s hs)
        rintro rfl hall start stop hwidened slice hslice'
        rw [prepare_of_not_putsPragma (hpragma rfl)] at hprepare
        cases hprepare
        rw [unmark_text] at hparse hslice'
        exact hslice rfl hall parsed start stop slice hparse hwidened hslice'
  rw [hformat] at hyields
  exact hyields

end Formatting

/-! ## A block in a range -/

/-- A block over two lines. -/
def blockText : String := "\x7b\r\na\x7d"

def blockNode : Node :=
  ⟨1, 0, 5, ⟨.statementBlock, ["\x7b", "\x7d"], none⟩,
    [⟨2, 3, 4, ⟨.expressionStatement, [], none⟩, [⟨3, 3, 4, ⟨.identifier, [], none⟩, []⟩]⟩]⟩

/-- A parser for the block, and for the block with a statement on the line after it. -/
def parseBlock : TextParser := fun text =>
  if text = blockText then .ok ⟨⟨0, 0, 5, ⟨.program, [], none⟩, [blockNode]⟩, []⟩
  else if text = blockText ++ "\r\nb" then
    .ok ⟨⟨0, 0, 8, ⟨.program, [], none⟩, [blockNode,
      ⟨4, 7, 8, ⟨.expressionStatement, [], none⟩, [⟨5, 7, 8, ⟨.identifier, [], none⟩, []⟩]⟩]⟩, []⟩
  else .error .invalidSpan

theorem clean_parseBlock (text : String) (parsed : Parsed Info) (h : parseBlock text = .ok parsed) :
    Clean text parsed := by
  unfold parseBlock at h
  split at h
  · rename_i htext
    cases h
    subst htext
    exact ⟨by decide +kernel, by decide +kernel, by decide +kernel, by decide +kernel,
      by simp [nodes, nodesAll, blockNode, kindOf], by simp⟩
  · split at h
    · rename_i htext
      cases h
      subst htext
      exact ⟨by decide +kernel, by decide +kernel, by decide +kernel, by decide +kernel,
        by simp [nodes, nodesAll, blockNode, kindOf], by simp⟩
    · cases h

theorem uniform_format_block :
    (formatterOf parseBlock).format (blockText ++ "\r\nb")
        { parser := some "javascript", rangeEnd := some 5 } = .ok "\x7b\r\n  a;\r\n\x7d\r\nb" ∧
      UniformText .crlf "\x7b\r\n  a;\r\n\x7d\r\nb" := by
  have hformat : (formatterOf parseBlock).format (blockText ++ "\r\nb")
      { parser := some "javascript", rangeEnd := some 5 } =
        .ok "\x7b\r\n  a;\r\n\x7d\r\nb" := by
    decide +kernel
  have hinline : ∀ s : String, isInline s = true → UniformText .crlf s := fun _ =>
    uniformText_of_inline
  have hline := uniform_text .crlf
  have htext : UniformText .crlf (blockText ++ "\r\nb") :=
    (((hinline "\x7b" (by decide)).append hline).append (hinline "a\x7d" (by decide))).append
      (hline.append (hinline "b" (by decide)))
  refine ⟨hformat, uniform_format clean_parseBlock rfl htext (by decide) (fun _ => rfl) ?_ hformat⟩
  intro _ _ parsed start stop slice hparse hwidened hslice
  have hparse' : parseBlock (stripMark (blockText ++ "\r\nb")) = .ok parsed := hparse
  cases hparse'
  have hrange : some (start, stop) = some (0, 5) := hwidened.symm.trans (by decide +kernel)
  cases hrange
  have hslice' : some slice = some blockText := hslice.symm.trans (by decide +kernel)
  cases hslice'
  decide

/-- A pragma is put in with line feeds. -/
theorem not_uniform :
    ¬ ∀ (kind : LineEnding) (text s : String) (options : Options),
      options.endOfLine = .auto → UniformText kind text → '\n' ∈ text.toList →
      formatter.format text options = .ok s → UniformText kind s := by
  intro h
  have hformat : formatter.format "a;\r\n" { parser := some "javascript", insertPragma := true } =
      .ok "/** @format */\n\na;\n" := by
    decide +kernel
  have htext : UniformText .crlf "a;\r\n" := by
    have hstatement : UniformText .crlf "a;" := uniformText_of_inline (by decide)
    exact hstatement.append (uniform_text .crlf)
  have huniform := h .crlf _ _ { parser := some "javascript", insertPragma := true } rfl htext
    (by decide) hformat
  exact absurd (huniform "/** @format */".toList "\na;\n".toList rfl) (by decide)

end CodeFormatter.JavaScript
