import CodeFormatter.Doc.Dump
import CodeFormatter.Proofs.Layout.EmptyTexts
import CodeFormatter.Proofs.Text.Quoted

/-!
# Documents are read back from their text

A document is written as a *term*: words with terms behind them in parentheses, lists in brackets, quoted
texts, numbers, and settings in braces (`toList_dump`).

- *Terms are read back.* The first character of a term tells which of these it is. A word ends at the first
  character that is no letter and a number at the first one that is no digit; settings end at their brace and
  a quoted text at its quote. A list goes on while there is a comma (`render_append_inj`).
- *Documents are read off their terms.* `read` gives the document of a term. An empty sequence is read as the
  empty text that it was written as, and the contents of a conditional group as the first of its states
  (`read_term`).

**Theorem (`unified_eq_of_dump_eq`).** Documents that are written alike are equal up to empty sequences and empty
texts, and so their layout is the same on every page. For conditional groups we assume that their contents are
the first of their states, since the contents are not written.
-/

namespace CodeFormatter.Doc

/-! ## Terms -/

/-- The words that documents are written with. -/
inductive Word where
  | line
  | softline
  | hardline
  | hardlineWithoutBreakParent
  | literalline
  | literallineWithoutBreakParent
  | group
  | conditionalGroup
  | indent
  | align
  | dedent
  | dedentToRoot
  | markAsRoot
  | fill
  | ifBreak
  | lineSuffix
  | lineSuffixBoundary
  | breakParent
  | trim
  | cursor
  deriving DecidableEq, Repr

def Word.text : Word → String
  | .line => "line"
  | .softline => "softline"
  | .hardline => "hardline"
  | .hardlineWithoutBreakParent => "hardlineWithoutBreakParent"
  | .literalline => "literalline"
  | .literallineWithoutBreakParent => "literallineWithoutBreakParent"
  | .group => "group"
  | .conditionalGroup => "conditionalGroup"
  | .indent => "indent"
  | .align => "align"
  | .dedent => "dedent"
  | .dedentToRoot => "dedentToRoot"
  | .markAsRoot => "markAsRoot"
  | .fill => "fill"
  | .ifBreak => "ifBreak"
  | .lineSuffix => "lineSuffix"
  | .lineSuffixBoundary => "lineSuffixBoundary"
  | .breakParent => "breakParent"
  | .trim => "trim"
  | .cursor => "cursor"

/-- What may stand in braces: the settings of a group, or the name of the group that a choice looks at. -/
inductive Braces where
  | group (shouldBreak : Bool) (id : Option GroupId)
  | choice (id : GroupId)

def Braces.text : Braces → String
  | .group shouldBreak id =>
    String.intercalate ", " ((if shouldBreak then ["shouldBreak: true"] else [])
      ++ (match id with | some id => ["id: g" ++ toString id] | none => []))
  | .choice id => "groupId: g" ++ toString id

inductive Term where
  | quoted (s : String)
  | number (n : Nat)
  | braces (b : Braces)
  | list (items : List Term)
  | word (w : Word) (arguments : List Term)

namespace Term

@[elab_as_elim]
theorem induction {motive : Term → Prop} (quoted : ∀ s, motive (.quoted s)) (number : ∀ n, motive (.number n))
    (braces : ∀ b, motive (.braces b)) (list : ∀ items, (∀ t ∈ items, motive t) → motive (.list items))
    (word : ∀ w arguments, (∀ t ∈ arguments, motive t) → motive (.word w arguments)) (t : Term) : motive t :=
  @Term.rec motive (fun items => ∀ t ∈ items, motive t) quoted number braces list word
    (fun _ h => by cases h)
    (fun t items ht hitems u hu => by
      rcases List.mem_cons.mp hu with rfl | hu
      · exact ht
      · exact hitems u hu)
    t

/-- What stands behind a word. -/
def parenthesized : List (List Char) → List Char
  | [] => []
  | arguments => '(' :: ([',', ' '].intercalate arguments ++ [')'])

mutual

def render : Term → List Char
  | .quoted s => (Quoted.quote s).toList
  | .number n => (toString n).toList
  | .braces b => '\x7b' :: ' ' :: (b.text.toList ++ [' ', '\x7d'])
  | .list items => '[' :: ([',', ' '].intercalate (renderAll items) ++ [']'])
  | .word w arguments => w.text.toList ++ parenthesized (renderAll arguments)

def renderAll : List Term → List (List Char)
  | [] => []
  | t :: rest => render t :: renderAll rest

end

@[simp] theorem renderAll_eq (terms : List Term) : renderAll terms = terms.map render := by
  induction terms with
  | nil => rfl
  | cons t rest ih => rw [renderAll, ih, List.map_cons]

/-- What stands behind the first term of a list. -/
def renderRest (terms : List Term) : List Char := terms.flatMap fun t => ',' :: ' ' :: t.render

theorem intercalate_map_render (t : Term) (rest : List Term) :
    [',', ' '].intercalate ((t :: rest).map render) = t.render ++ renderRest rest := by
  induction rest generalizing t with
  | nil => simp [renderRest]
  | cons u rest ih =>
    rw [List.map_cons, List.map_cons, List.intercalate_cons_cons, ← List.map_cons, ih]
    simp [renderRest]

theorem render_word_cons (w : Word) (t : Term) (rest : List Term) :
    (word w (t :: rest)).render = w.text.toList ++ '(' :: (t.render ++ renderRest rest ++ [')']) := by
  rw [render, renderAll_eq, ← intercalate_map_render]
  rfl

end Term

/-- The settings of a group, if they differ from the usual ones. -/
def groupSettings (shouldBreak : Bool) (id : Option GroupId) : List Term :=
  if shouldBreak || id.isSome then [.braces (.group shouldBreak id)] else []

/-- The group that a choice looks at, if it is named. -/
def choiceSettings (id : Option GroupId) : List Term :=
  match id with
  | some id => [.braces (.choice id)]
  | none => []

def lineWord : LineKind → Word
  | .normal => .line
  | .soft => .softline
  | .hard => .hardlineWithoutBreakParent
  | .literal => .literallineWithoutBreakParent

def alignTerm (alignment : Alignment) (contents : Term) : Term :=
  match alignment with
  | .spaces n => .word .align [.number n, contents]
  | .text s => .word .align [.quoted s, contents]
  | .dedent => .word .dedent [contents]
  | .dedentToRoot => .word .dedentToRoot [contents]
  | .root => .word .markAsRoot [contents]

/-- The term of a sequence, from the terms of its parts. -/
def sequenceTerm (parts : List Doc) (terms : List Term) : Term :=
  match parts with
  | [] => .quoted ""
  | [.line .hard, .breakParent] => .word .hardline []
  | [.line .literal, .breakParent] => .word .literalline []
  | _ => .list terms

mutual

/-- The term that a document is written as. -/
def term : Doc → Term
  | .text s => .quoted s
  | .concat parts => sequenceTerm parts (termAll parts)
  | .line kind => .word (lineWord kind) []
  | .group contents shouldBreak id => .word .group (term contents :: groupSettings shouldBreak id)
  | .conditionalGroup _ states shouldBreak id =>
    .word .conditionalGroup (.list (termAll states) :: groupSettings shouldBreak id)
  | .indent contents => .word .indent [term contents]
  | .align alignment contents => alignTerm alignment (term contents)
  | .fill parts => .word .fill [.list (termAll parts)]
  | .ifBreak broken flat id => .word .ifBreak (term broken :: term flat :: choiceSettings id)
  | .lineSuffix contents => .word .lineSuffix [term contents]
  | .lineSuffixBoundary => .word .lineSuffixBoundary []
  | .breakParent => .word .breakParent []
  | .trim => .word .trim []
  | .cursor => .word .cursor []

def termAll : List Doc → List Term
  | [] => []
  | d :: rest => term d :: termAll rest

end

@[simp] theorem termAll_eq (parts : List Doc) : termAll parts = parts.map term := by
  induction parts with
  | nil => rfl
  | cons d rest ih => rw [termAll, ih, List.map_cons]

/-! ### A document is written as its term -/

section Equations

variable (c f : Doc) (parts states : List Doc) (b : Bool) (id : Option GroupId)

theorem dumpAll_eq : dumpAll parts = parts.map dump := by
  induction parts with
  | nil => rfl
  | cons d rest ih => rw [dumpAll, ih, List.map_cons]

theorem dump_concat : dump (concat parts) =
    match parts with
    | [] => "\"\""
    | [.line .hard, .breakParent] => "hardline"
    | [.line .literal, .breakParent] => "literalline"
    | parts => "[" ++ String.intercalate ", " (dumpAll parts) ++ "]" := by
  rw [dump.eq_def]
  split <;> simp_all

theorem dump_line (kind : LineKind) : dump (line kind) =
    match kind with
    | .normal => "line"
    | .soft => "softline"
    | .hard => "hardlineWithoutBreakParent"
    | .literal => "literallineWithoutBreakParent" := by
  cases kind <;> rfl

theorem dump_group : dump (group c b id) = "group(" ++ dump c ++ dumpSettings b id ++ ")" := rfl

theorem dump_conditionalGroup : dump (conditionalGroup c states b id) =
    "conditionalGroup([" ++ String.intercalate ", " (dumpAll states) ++ "]" ++ dumpSettings b id ++ ")" := rfl

theorem dump_indent : dump (indent c) = "indent(" ++ dump c ++ ")" := rfl

theorem dump_align (alignment : Alignment) : dump (align alignment c) =
    match alignment with
    | .spaces n => "align(" ++ toString n ++ ", " ++ dump c ++ ")"
    | .text s => "align(" ++ Quoted.quote s ++ ", " ++ dump c ++ ")"
    | .dedent => "dedent(" ++ dump c ++ ")"
    | .dedentToRoot => "dedentToRoot(" ++ dump c ++ ")"
    | .root => "markAsRoot(" ++ dump c ++ ")" := by
  cases alignment <;> rfl

theorem dump_fill : dump (fill parts) = "fill([" ++ String.intercalate ", " (dumpAll parts) ++ "])" := rfl

theorem dump_ifBreak : dump (ifBreak c f id) = "ifBreak(" ++ dump c ++ ", " ++ dump f
    ++ (match id with | some id => ", \x7b groupId: g" ++ toString id ++ " \x7d" | none => "") ++ ")" := rfl

theorem dump_lineSuffix : dump (lineSuffix c) = "lineSuffix(" ++ dump c ++ ")" := rfl

end Equations

theorem toList_dumpSettings (shouldBreak : Bool) (id : Option GroupId) :
    (dumpSettings shouldBreak id).toList = Term.renderRest (groupSettings shouldBreak id) := by
  have htext : dumpSettings shouldBreak id = if shouldBreak || id.isSome then
      ", \x7b " ++ (Braces.group shouldBreak id).text ++ " \x7d" else "" := by
    cases shouldBreak <;> cases id <;> rfl
  rw [htext, groupSettings]
  split
  · rw [String.toList_append, String.toList_append, List.append_assoc, Term.renderRest, List.flatMap_singleton]
    rfl
  · rfl

/-- **A document is written as its term.** -/
theorem toList_dump (d : Doc) : (dump d).toList = (term d).render := by
  have hall : ∀ {parts : List Doc}, (∀ d ∈ parts, (dump d).toList = (term d).render) →
      (String.intercalate ", " (dumpAll parts)).toList =
        [',', ' '].intercalate (Term.renderAll (termAll parts)) := by
    intro parts h
    have hparts : parts.map (String.toList ∘ dump) = parts.map (Term.render ∘ term) := List.map_congr_left h
    rw [String.toList_intercalate, dumpAll_eq, termAll_eq, Term.renderAll_eq, List.map_map, List.map_map,
      hparts]
    rfl
  induction d using Doc.induction with
  | text s => rfl
  | concat parts ih =>
    have hparts := hall ih
    rw [dump_concat, term]
    unfold sequenceTerm
    split
    · rfl
    · rfl
    · rfl
    · rw [Term.render, ← hparts, String.toList_append, String.toList_append]
      rfl
  | line kind =>
    rw [dump_line, term]
    cases kind <;> rfl
  | group contents shouldBreak id ih =>
    rw [dump_group, term, Term.render_word_cons, ← ih, ← toList_dumpSettings]
    simp [Word.text]
  | conditionalGroup contents states shouldBreak id _ ih =>
    rw [dump_conditionalGroup, term, Term.render_word_cons, ← toList_dumpSettings, Term.render, ← hall ih]
    simp [Word.text]
  | indent contents ih =>
    rw [dump_indent, term, Term.render_word_cons, ← ih]
    simp [Word.text, Term.renderRest]
  | lineSuffix contents ih =>
    rw [dump_lineSuffix, term, Term.render_word_cons, ← ih]
    simp [Word.text, Term.renderRest]
  | align alignment contents ih =>
    rw [dump_align, term]
    cases alignment <;> rw [alignTerm, Term.render_word_cons] <;>
      simp [Word.text, Term.renderRest, Term.render, ih]
  | fill parts ih =>
    rw [dump_fill, term, Term.render_word_cons, Term.render, ← hall ih]
    simp [Word.text, Term.renderRest]
  | ifBreak broken flat id ih ih' =>
    rw [dump_ifBreak, term, Term.render_word_cons, ← ih]
    cases id <;> simp [Word.text, Term.renderRest, Term.render, choiceSettings, Braces.text, ih']
  | lineSuffixBoundary | breakParent | trim | cursor =>
    rw [term, Term.render]
    exact (List.append_nil _).symm

/-! ## Terms are read back -/

theorem Word.text_inj {w v : Word} (h : w.text = v.text) : w = v := by
  cases w <;> cases v <;> simp [Word.text] at h ⊢

theorem Word.letters (w : Word) : w.text.toList ≠ [] ∧ ∀ c ∈ w.text.toList, c.isAlpha = true := by
  refine ⟨?_, List.all_eq_true.mp ?_⟩ <;> cases w <;> decide

theorem toDigits_ten_inj {m n : Nat} (h : Nat.toDigits 10 m = Nat.toDigits 10 n) : m = n := by
  rw [← Nat.ofDigitChars_ten_toDigits (n := m), h, Nat.ofDigitChars_ten_toDigits]

theorem toList_toString (n : Nat) : (toString n).toList = Nat.toDigits 10 n := by
  rw [Nat.toString_eq_ofList_toDigits, String.toList_ofList]

/-- Letters come behind the digits. -/
theorem isDigit_of_isAlpha {c : Char} (h : c.isAlpha = true) : c.isDigit = false := by
  have hge : 'A'.val ≤ c.val := by
    rcases (Bool.or_eq_true _ _).mp h with hupper | hlower
    · have hupper : 'A'.val ≤ c.val ∧ c.val ≤ 'Z'.val := of_decide_eq_true hupper
      exact hupper.1
    · have hlower : 'a'.val ≤ c.val :=
        of_decide_eq_true ((Bool.and_eq_true (decide (c.val ≥ 'a'.val)) _).mp hlower).1
      exact UInt32.le_trans (by decide) hlower
  refine Bool.eq_false_iff.mpr fun hdigit => ?_
  have hle : c.val ≤ '9'.val :=
    of_decide_eq_true ((Bool.and_eq_true _ (decide (c.val ≤ '9'.val))).mp hdigit).2
  exact absurd (UInt32.le_trans hge hle) (by decide)

theorem isDigit_of_mem_toDigits {n : Nat} {c : Char} (h : c ∈ Nat.toDigits 10 n) : c.isDigit = true :=
  Nat.isDigit_of_mem_toDigits (by decide) (by decide) h

theorem Braces.text_inj {b b' : Braces} (h : b.text = b'.text) : b = b' := by
  have hlist := congrArg String.toList h
  rcases b with ⟨_ | _, _ | m⟩ | m <;> rcases b' with ⟨_ | _, _ | n⟩ | n <;> simp [Braces.text] at hlist ⊢
  -- The words are the same, and a number stands behind them.
  all_goals exact toDigits_ten_inj hlist

theorem Braces.ne_closing_of_mem {b : Braces} : ∀ c ∈ b.text.toList, (c != '\x7d') = true := by
  have hdigits : ∀ n, ∀ c ∈ Nat.toDigits 10 n, ¬ c = '\x7d' := by
    rintro n c hc rfl
    exact absurd (isDigit_of_mem_toDigits hc) (by decide)
  rcases b with ⟨_ | _, _ | n⟩ | n <;> simp [Braces.text]
  all_goals exact hdigits n

namespace Term

/-- The kinds of terms. -/
inductive Shape where
  | quoted
  | number
  | braces
  | list
  | word
  deriving DecidableEq, Repr

def shape : Term → Shape
  | .quoted _ => .quoted
  | .number _ => .number
  | .braces _ => .braces
  | .list _ => .list
  | .word _ _ => .word

/-- The kind of the terms that start with a character. -/
def Shape.of? (c : Char) : Option Shape :=
  if c.isDigit then some .number
  else if c.isAlpha then some .word
  else if c = '"' then some .quoted
  else if c = '[' then some .list
  else if c = '\x7b' then some .braces
  else none

theorem shape_of_render (t : Term) : ∃ c cs, t.render = c :: cs ∧ Shape.of? c = some t.shape := by
  cases t with
  | quoted s => exact ⟨_, _, Quoted.toList_quote s, rfl⟩
  | number n =>
    obtain ⟨c, cs, hcs⟩ := List.exists_cons_of_ne_nil (Nat.toDigits_ne_nil (n := n) (b := 10))
    have hc : c.isDigit = true := isDigit_of_mem_toDigits (n := n) (by simp [hcs])
    refine ⟨c, cs, by rw [render, toList_toString, hcs], ?_⟩
    rw [Shape.of?, if_pos hc]
    rfl
  | braces b => exact ⟨_, _, rfl, rfl⟩
  | list items => exact ⟨_, _, rfl, rfl⟩
  | word w arguments =>
    obtain ⟨hne, hletters⟩ := w.letters
    obtain ⟨c, cs, hcs⟩ := List.exists_cons_of_ne_nil hne
    have hc := hletters c (by simp [hcs])
    refine ⟨c, cs ++ parenthesized (renderAll arguments), by simp [render, hcs], ?_⟩
    rw [Shape.of?, if_neg (by simp [isDigit_of_isAlpha hc]), if_pos hc]
    rfl

/-- What may stand behind a term. -/
def Ends (cs : List Char) : Prop := ∀ c ∈ cs.head?, c ∈ [',', ')', ']']

variable {t u : Term} {terms terms' : List Term} {c : Char} {r s : List Char}

theorem ends_cons (hc : c ∈ [',', ')', ']']) (r : List Char) : Ends (c :: r) := by
  simpa [Ends] using hc

theorem ends_renderRest (hr : Ends r) : Ends (renderRest terms ++ r) := by
  cases terms with
  | nil => exact hr
  | cons => exact ends_cons (by decide) _

/-- A term does not start like what stands behind one. -/
theorem head_render (t : Term) (r : List Char) : ∀ c ∈ (t.render ++ r).head?, c ∉ [',', ')', ']'] := by
  obtain ⟨c, cs, hcs, hshape⟩ := t.shape_of_render
  rw [hcs]
  intro d hd hmem
  obtain rfl : c = d := by simpa using hd
  simp only [List.mem_cons, List.not_mem_nil, or_false] at hmem
  rcases hmem with rfl | rfl | rfl <;> simp [Shape.of?] at hshape

/-- Where a term starts, that term and what is behind it are known. -/
def Known (t : Term) : Prop :=
  ∀ (u : Term) (r s : List Char), Ends r → Ends s → t.render ++ r = u.render ++ s → t = u ∧ r = s

/-- The terms behind a comma are known if each of them is. -/
theorem renderRest_append_inj (hterms : ∀ t ∈ terms, Known t) (hc : c ∈ [')', ']'])
    (h : renderRest terms ++ c :: r = renderRest terms' ++ c :: s) : terms = terms' ∧ r = s := by
  have hends : ∀ {l : List Term} (r : List Char), Ends (renderRest l ++ c :: r) := fun r =>
    ends_renderRest (ends_cons (List.mem_cons_of_mem _ hc) r)
  have hcomma : c ≠ ',' := by
    rintro rfl
    exact absurd hc (by decide)
  induction terms generalizing terms' with
  | nil =>
    cases terms' with
    | nil => exact ⟨rfl, (List.cons.inj h).2⟩
    | cons => exact absurd (List.cons.inj h).1 hcomma
  | cons t rest ih =>
    obtain ⟨ht, hrest⟩ := List.forall_mem_cons.mp hterms
    cases terms' with
    | nil => exact absurd (List.cons.inj h).1.symm hcomma
    | cons u rest' =>
      simp only [renderRest, List.flatMap_cons, List.cons_append, List.append_assoc, List.cons.injEq,
        true_and] at h
      obtain ⟨rfl, htail⟩ := ht u _ _ (hends r) (hends s) h
      obtain ⟨rfl, hr⟩ := ih hrest htail
      exact ⟨rfl, hr⟩

/-- The terms in a pair of brackets are known if each of them is. -/
theorem intercalate_append_inj (hterms : ∀ t ∈ terms, Known t) (hc : c ∈ [')', ']'])
    (h : [',', ' '].intercalate (terms.map render) ++ c :: r =
      [',', ' '].intercalate (terms'.map render) ++ c :: s) : terms = terms' ∧ r = s := by
  have hhead : ∀ (t : Term) (l : List Char), (t.render ++ l).head? ≠ some c := fun t l hl =>
    head_render t l c hl (List.mem_cons_of_mem _ hc)
  have hends : ∀ {l : List Term} (r : List Char), Ends (renderRest l ++ c :: r) := fun r =>
    ends_renderRest (ends_cons (List.mem_cons_of_mem _ hc) r)
  cases terms with
  | nil =>
    cases terms' with
    | nil => exact ⟨rfl, (List.cons.inj h).2⟩
    | cons u rest' =>
      rw [intercalate_map_render, List.append_assoc] at h
      exact absurd (congrArg List.head? h).symm (hhead u _)
  | cons t rest =>
    rw [intercalate_map_render, List.append_assoc] at h
    cases terms' with
    | nil => exact absurd (congrArg List.head? h) (hhead t _)
    | cons u rest' =>
      rw [intercalate_map_render, List.append_assoc] at h
      obtain ⟨ht, hrest⟩ := List.forall_mem_cons.mp hterms
      obtain ⟨rfl, htail⟩ := ht u _ _ (hends r) (hends s) h
      obtain ⟨rfl, hr⟩ := renderRest_append_inj hrest hc htail
      exact ⟨rfl, hr⟩

theorem shape_eq_of_render_eq (h : t.render ++ r = u.render ++ s) : t.shape = u.shape := by
  obtain ⟨c, cs, hcs, hshape⟩ := t.shape_of_render
  obtain ⟨d, ds, hds, hshape'⟩ := u.shape_of_render
  rw [hcs, hds] at h
  obtain ⟨rfl, -⟩ := List.cons.inj h
  exact Option.some.inj (hshape.symm.trans hshape')

/-- What may stand behind a term is neither a letter nor a digit. -/
theorem Ends.head (hr : Ends r) : ∀ c ∈ r.head?, c.isAlpha = false ∧ c.isDigit = false := by
  intro c hc
  have hmem := hr c hc
  simp only [List.mem_cons, List.not_mem_nil, or_false] at hmem
  rcases hmem with rfl | rfl | rfl <;> decide

/-- A word ends where its letters do. -/
theorem head_parenthesized (hr : Ends r) (arguments : List (List Char)) :
    ∀ c ∈ (parenthesized arguments ++ r).head?, c.isAlpha = false := by
  cases arguments with
  | nil => exact fun c hc => (hr.head c hc).1
  | cons =>
    rintro c hc
    obtain rfl : '(' = c := by simpa [parenthesized] using hc
    decide

/-- The terms behind a word are known if each of them is. -/
theorem parenthesized_append_inj (hterms : ∀ t ∈ terms, Known t) (hr : Ends r) (hs : Ends s)
    (h : parenthesized (terms.map render) ++ r = parenthesized (terms'.map render) ++ s) :
    terms = terms' ∧ r = s := by
  have hopening : ∀ {l : List Char}, Ends l → l.head? ≠ some '(' := fun hl hhead =>
    absurd (hl _ hhead) (by decide)
  cases terms with
  | nil =>
    cases terms' with
    | nil => exact ⟨rfl, h⟩
    | cons => exact absurd (congrArg List.head? h) (hopening hr)
  | cons t rest =>
    cases terms' with
    | nil => exact absurd (congrArg List.head? h).symm (hopening hs)
    | cons u rest' =>
      have hinner : [',', ' '].intercalate ((t :: rest).map render) ++ ')' :: r =
          [',', ' '].intercalate ((u :: rest').map render) ++ ')' :: s := by
        simpa [parenthesized] using h
      exact intercalate_append_inj hterms (by decide) hinner

/-- **Terms are read back.** -/
theorem known (t : Term) : Known t := by
  induction t using Term.induction with
  | quoted a =>
    intro u r s hr hs h
    have hshape := shape_eq_of_render_eq h
    cases u with
    | quoted b =>
      obtain ⟨rfl, hrest⟩ := Quoted.quote_append_inj h
      exact ⟨rfl, hrest⟩
    | number | braces | list | word => cases hshape
  | number m =>
    intro u r s hr hs h
    have hshape := shape_eq_of_render_eq h
    cases u with
    | number n =>
      rw [render, render, toList_toString, toList_toString] at h
      obtain ⟨hdigits, hrest⟩ := append_inj_of_all (fun c hc => isDigit_of_mem_toDigits hc)
        (fun c hc => isDigit_of_mem_toDigits hc) (fun c hc => (hr.head c hc).2)
        (fun c hc => (hs.head c hc).2) h
      exact ⟨congrArg number (toDigits_ten_inj hdigits), hrest⟩
    | quoted | braces | list | word => cases hshape
  | braces b =>
    intro u r s hr hs h
    have hshape := shape_eq_of_render_eq h
    cases u with
    | braces b' =>
      have hall : ∀ b : Braces, ∀ c ∈ b.text.toList ++ [' '], (c != '\x7d') = true := by
        intro b c hc
        rcases List.mem_append.mp hc with hc | hc
        · exact Braces.ne_closing_of_mem c hc
        · rw [List.mem_singleton.mp hc]
          decide
      have htext : b.text.toList ++ [' '] ++ '\x7d' :: r = b'.text.toList ++ [' '] ++ '\x7d' :: s := by
        simpa [render] using h
      obtain ⟨htext, hrest⟩ := append_inj_of_all (hall b) (hall b') (by simp) (by simp) htext
      have hb : b = b' := Braces.text_inj (String.toList_inj.mp (List.append_cancel_right htext))
      exact ⟨congrArg braces hb, (List.cons.inj hrest).2⟩
    | quoted | number | list | word => cases hshape
  | list items ih =>
    intro u r s hr hs h
    have hshape := shape_eq_of_render_eq h
    cases u with
    | list items' =>
      have hinner : [',', ' '].intercalate (items.map render) ++ ']' :: r =
          [',', ' '].intercalate (items'.map render) ++ ']' :: s := by
        simpa [render] using h
      obtain ⟨rfl, hrest⟩ := intercalate_append_inj ih (by decide) hinner
      exact ⟨rfl, hrest⟩
    | quoted | number | braces | word => cases hshape
  | word w arguments ih =>
    intro u r s hr hs h
    have hshape := shape_eq_of_render_eq h
    cases u with
    | word v arguments' =>
      rw [render, render, List.append_assoc, List.append_assoc, renderAll_eq, renderAll_eq] at h
      obtain ⟨hword, hbehind⟩ := append_inj_of_all w.letters.2 v.letters.2 (head_parenthesized hr _)
        (head_parenthesized hs _) h
      obtain rfl := Word.text_inj (String.toList_inj.mp hword)
      obtain ⟨rfl, hrest⟩ := parenthesized_append_inj ih hr hs hbehind
      exact ⟨rfl, hrest⟩
    | quoted | number | braces | list => cases hshape

theorem render_injective {t u : Term} (h : t.render = u.render) : t = u :=
  (known t u [] [] nofun nofun (by rw [h])).1

end Term

/-! ## Documents are read off their terms -/

/-- The settings of a group, as they are written. -/
def readSettings : List Term → Bool × Option GroupId
  | [.braces (.group shouldBreak id)] => (shouldBreak, id)
  | _ => (false, none)

/-- The group that a choice looks at, as it is written. -/
def readChoice : List Term → Option GroupId
  | [.braces (.choice id)] => some id
  | _ => none

/-- The document of a word by itself. -/
def readWord : Word → Doc
  | .line => space
  | .softline => softline
  | .hardline => hardline
  | .literalline => literalline
  | .hardlineWithoutBreakParent => .line .hard
  | .literallineWithoutBreakParent => .line .literal
  | .lineSuffixBoundary => .lineSuffixBoundary
  | .breakParent => .breakParent
  | .trim => .trim
  | .cursor => .cursor
  | _ => .text ""

mutual

/-- The document of a term; other terms than those of documents are read as an empty text. -/
def read : Term → Doc
  | .quoted s => .text s
  | .list items => .concat (readAll items)
  | .word w [] => readWord w
  | .word .group (contents :: settings) =>
    .group (read contents) (readSettings settings).1 (readSettings settings).2
  | .word .conditionalGroup (.list states :: settings) =>
    .conditionalGroup ((readAll states).headD (.text "")) (readAll states) (readSettings settings).1
      (readSettings settings).2
  | .word .indent [contents] => .indent (read contents)
  | .word .align [.number n, contents] => .align (.spaces n) (read contents)
  | .word .align [.quoted s, contents] => .align (.text s) (read contents)
  | .word .dedent [contents] => .align .dedent (read contents)
  | .word .dedentToRoot [contents] => .align .dedentToRoot (read contents)
  | .word .markAsRoot [contents] => .align .root (read contents)
  | .word .fill [.list parts] => .fill (readAll parts)
  | .word .ifBreak (broken :: flat :: settings) =>
    .ifBreak (read broken) (read flat) (readChoice settings)
  | .word .lineSuffix [contents] => .lineSuffix (read contents)
  | _ => .text ""

def readAll : List Term → List Doc
  | [] => []
  | t :: rest => read t :: readAll rest

end

/-- The contents of a conditional group are the first of its states, if there is one. -/
def ContentsFirst : Doc → Prop
  | .conditionalGroup contents states _ _ => contents = states.headD nil
  | _ => True

theorem readAll_eq (terms : List Term) : readAll terms = terms.map read := by
  induction terms with
  | nil => rfl
  | cons t rest ih => rw [readAll, ih, List.map_cons]

theorem readSettings_groupSettings (shouldBreak : Bool) (id : Option GroupId) :
    readSettings (groupSettings shouldBreak id) = (shouldBreak, id) := by
  cases shouldBreak <;> cases id <;> rfl

theorem readChoice_choiceSettings (id : Option GroupId) : readChoice (choiceSettings id) = id := by
  cases id <;> rfl

theorem headD_map_unified (states : List Doc) : (states.map unified).headD (.text "") = (states.headD nil).unified := by
  cases states <;> rfl

/-- **A document is read off its term**, up to empty sequences. -/
theorem read_term {d : Doc} (h : d.Every ContentsFirst) : read d.term = d.unified := by
  have hall : ∀ {parts : List Doc}, (∀ d ∈ parts, d.Every ContentsFirst) →
      (∀ d ∈ parts, d.Every ContentsFirst → read d.term = d.unified) →
      readAll (termAll parts) = parts.map unified := by
    intro parts hparts ih
    rw [readAll_eq, termAll_eq, List.map_map]
    exact List.map_congr_left fun d hd => ih d hd (hparts d hd)
  induction d using Doc.induction with
  | text | lineSuffixBoundary | breakParent | trim | cursor => rfl
  | line kind => cases kind <;> rfl
  | concat parts ih =>
    have hparts : readAll (termAll parts) = parts.map unified := hall (fun d => h.of_mem_children) ih
    rw [term]
    unfold sequenceTerm
    split
    · rfl
    · rfl
    · rfl
    · rename_i hnil _ _
      cases parts with
      | nil => exact absurd rfl hnil
      | cons d rest => rw [read, hparts, unified, unifiedAll_eq, List.map_cons]
  | fill parts ih =>
    have hparts : readAll (termAll parts) = parts.map unified := hall (fun d => h.of_mem_children) ih
    rw [unified, unifiedAll_eq, ← hparts]
    rfl
  | group contents shouldBreak id ih =>
    have hcontents := ih (h.of_mem_children (by simp [children]))
    rw [term, read, hcontents, readSettings_groupSettings, unified]
  | conditionalGroup contents states shouldBreak id _ ih =>
    have hstates : readAll (termAll states) = states.map unified :=
      hall (fun d hd => h.of_mem_children (List.mem_cons_of_mem _ hd)) ih
    have hcontents : contents = states.headD nil := h.self
    rw [term, read, hstates, headD_map_unified, readSettings_groupSettings, unified, unifiedAll_eq, hcontents]
  | indent contents ih | lineSuffix contents ih =>
    have hcontents := ih (h.of_mem_children (by simp [children]))
    rw [term, read, hcontents, unified]
  | align alignment contents ih =>
    have hcontents := ih (h.of_mem_children (by simp [children]))
    rw [unified, ← hcontents]
    cases alignment <;> rfl
  | ifBreak broken flat id ih ih' =>
    have hbroken := ih (h.of_mem_children (by simp [children]))
    have hflat := ih' (h.of_mem_children (by simp [children]))
    rw [term, read, hbroken, hflat, readChoice_choiceSettings, unified]

/-- **Documents that are written alike are the same up to empty sequences and empty texts**, and they have the
same layout on every page. -/
theorem unified_eq_of_dump_eq {d e : Doc} (hd : d.Every ContentsFirst) (he : e.Every ContentsFirst)
    (h : dump d = dump e) :
    d.unified = e.unified ∧ ∀ settings, Layout.print settings d = Layout.print settings e := by
  have hterm : d.term = e.term := by
    apply Term.render_injective
    rw [← toList_dump, ← toList_dump, h]
  have hunified : d.unified = e.unified := by
    rw [← read_term hd, ← read_term he, hterm]
  refine ⟨hunified, fun settings => ?_⟩
  rw [← Layout.print_unified settings d, hunified, Layout.print_unified]

/-- A conditional group whose first state is an empty sequence is written like one with an empty text. -/
theorem unified_eq_of_dump_eq_conditional :
    let d := conditional [nil, indent (.text "a")]
    let e := conditional [.text "", indent (.text "a")]
    d ≠ e ∧ d.Every ContentsFirst ∧ e.Every ContentsFirst ∧ dump d = dump e ∧
      d.unified = e.unified ∧ ∀ settings, Layout.print settings d = Layout.print settings e := by
  intro d e
  have hplain : ∀ s, (text s).Every ContentsFirst := fun s => .intro trivial (by simp [children])
  have hindent : (indent (.text "a")).Every ContentsFirst :=
    .intro trivial (by simpa [children] using hplain "a")
  have hd : d.Every ContentsFirst := by
    refine .intro rfl ?_
    have hnil : nil.Every ContentsFirst := .intro trivial (by simp [nil, children])
    simpa [d, conditional, children] using ⟨hnil, hindent⟩
  have he : e.Every ContentsFirst := by
    refine .intro rfl ?_
    simpa [e, conditional, children] using ⟨hplain "", hindent⟩
  have hempty : dump nil = dump (.text "") := by decide
  have hdump : dump d = dump e := by
    simp only [d, e, conditional, dump_conditionalGroup, dumpAll, hempty]
  exact ⟨by simp [d, e, conditional, nil], hd, he, hdump, unified_eq_of_dump_eq hd he hdump⟩

end CodeFormatter.Doc
