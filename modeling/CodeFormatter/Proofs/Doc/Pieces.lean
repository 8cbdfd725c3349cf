import Mathlib.Data.List.Basic
import Mathlib.Logic.Relation
import CodeFormatter.Proofs.Doc.Basic

/-!
# The pieces of a document

A concatenation only holds its parts together, and a cursor prints nothing. Without the two, a document is
a list of *pieces*: documents of the other kinds, whose contents are condensed in the same way.

Breaks reach outward in the pieces as in the document (`pieces_propagateBreaks`). To put cursors around parts
of a document leaves its pieces as they are (`WithCursors.pieces_eq`).
-/

namespace CodeFormatter.Doc

mutual

/-- The pieces of a document. -/
def pieces : Doc → List Doc
  | .concat parts => piecesAll parts
  | .cursor => []
  | .group contents shouldBreak id => [.group (.concat (pieces contents)) shouldBreak id]
  | .conditionalGroup contents states shouldBreak id =>
    [.conditionalGroup (.concat (pieces contents)) (condensedAll states) shouldBreak id]
  | .indent contents => [.indent (.concat (pieces contents))]
  | .align alignment contents => [.align alignment (.concat (pieces contents))]
  | .fill parts => [.fill (condensedAll parts)]
  | .ifBreak broken flat id => [.ifBreak (.concat (pieces broken)) (.concat (pieces flat)) id]
  | .lineSuffix contents => [.lineSuffix (.concat (pieces contents))]
  | .text s => [.text s]
  | .line kind => [.line kind]
  | .lineSuffixBoundary => [.lineSuffixBoundary]
  | .breakParent => [.breakParent]
  | .trim => [.trim]

def piecesAll : List Doc → List Doc
  | [] => []
  | d :: rest => pieces d ++ piecesAll rest

def condensedAll : List Doc → List Doc
  | [] => []
  | d :: rest => .concat (pieces d) :: condensedAll rest

end

/-- A document that is made of its pieces. -/
def condensed (d : Doc) : Doc := .concat d.pieces

theorem piecesAll_eq (parts : List Doc) : piecesAll parts = parts.flatMap pieces := by
  induction parts with
  | nil => rfl
  | cons d rest ih => exact congrArg (d.pieces ++ ·) ih

theorem condensedAll_eq (parts : List Doc) : condensedAll parts = parts.map condensed := by
  induction parts with
  | nil => rfl
  | cons d rest ih => exact congrArg (d.condensed :: ·) ih

section Equations

variable (s : String) (parts states : List Doc) (c f : Doc) (b : Bool) (id : Option GroupId)
  (kind : LineKind) (al : Alignment)

@[simp] theorem pieces_text : (text s).pieces = [.text s] := rfl

@[simp] theorem pieces_concat : (concat parts).pieces = parts.flatMap pieces := piecesAll_eq parts

@[simp] theorem pieces_line : (line kind).pieces = [.line kind] := rfl

@[simp] theorem pieces_group : (group c b id).pieces = [.group c.condensed b id] := rfl

@[simp] theorem pieces_conditionalGroup : (conditionalGroup c states b id).pieces =
    [.conditionalGroup c.condensed (states.map condensed) b id] := by
  rw [← condensedAll_eq]
  rfl

@[simp] theorem pieces_indent : (indent c).pieces = [.indent c.condensed] := rfl

@[simp] theorem pieces_align : (align al c).pieces = [.align al c.condensed] := rfl

@[simp] theorem pieces_fill : (fill parts).pieces = [.fill (parts.map condensed)] := by
  rw [← condensedAll_eq]
  rfl

@[simp] theorem pieces_ifBreak : (ifBreak c f id).pieces = [.ifBreak c.condensed f.condensed id] := rfl

@[simp] theorem pieces_lineSuffix : (lineSuffix c).pieces = [.lineSuffix c.condensed] := rfl

@[simp] theorem pieces_lineSuffixBoundary : lineSuffixBoundary.pieces = [.lineSuffixBoundary] := rfl

@[simp] theorem pieces_breakParent : breakParent.pieces = [.breakParent] := rfl

@[simp] theorem pieces_trim : trim.pieces = [.trim] := rfl

@[simp] theorem pieces_cursor : cursor.pieces = [] := rfl

end Equations

@[simp] theorem condensed_inj {d e : Doc} : d.condensed = e.condensed ↔ d.pieces = e.pieces := by
  rw [condensed, condensed, concat.injEq]

theorem map_condensed_inj {ds es : List Doc} :
    ds.map condensed = es.map condensed ↔ ds.map pieces = es.map pieces := by
  have hinj : ∀ ds : List Doc, ds.map condensed = (ds.map pieces).map concat := fun ds => by
    rw [List.map_map]
    rfl
  rw [hinj, hinj]
  exact List.map_inj_right fun _ _ h => concat.inj h

/-! ## Breaks that reach outward -/

/-- What the parts of a document agree on. -/
theorem any_congr_of_mem {parts : List Doc} {f g : Doc → Bool} (h : ∀ d ∈ parts, f d = g d) :
    parts.any f = parts.any g := by
  rw [Bool.eq_iff_iff, List.any_eq_true, List.any_eq_true]
  exact exists_congr fun d => and_congr_right fun hd => by rw [h d hd]

theorem any_exposesBreak_pieces (d : Doc) : d.pieces.any exposesBreak = d.exposesBreak := by
  induction d using Doc.induction with
  | concat parts ih =>
    rw [pieces_concat, List.any_flatMap, exposesBreak_concat]
    exact any_congr_of_mem ih
  | group c b id ih | indent c ih | align al c ih => simp [condensed, ih]
  | ifBreak c f id ih ih' => simp [condensed, ih, ih']
  | fill parts ih =>
    have hparts : parts.any (exposesBreak ∘ condensed) = parts.any exposesBreak :=
      any_congr_of_mem fun d hd => (exposesBreak_concat _).trans (ih d hd)
    simp [exposesBreak_fill, hparts]
  | lineSuffix c ih => simp [exposesBreak_lineSuffix, condensed, ih]
  | conditionalGroup c states b id => simp [exposesBreak_conditionalGroup]
  | text | line | lineSuffixBoundary | breakParent | trim => exact Bool.or_false _
  | cursor => rfl

/-- **The pieces of a marked document** are the marked pieces. -/
theorem pieces_propagateBreaks (d : Doc) : d.propagateBreaks.pieces = d.pieces.map propagateBreaks := by
  induction d using Doc.induction with
  | concat parts ih =>
    rw [propagateBreaks_concat, pieces_concat, pieces_concat, List.flatMap_map, List.map_flatMap]
    exact List.flatMap_congr ih
  | group c b id ih => simp [condensed, ih, any_exposesBreak_pieces]
  | indent c ih | align al c ih | lineSuffix c ih => simp [condensed, ih]
  | ifBreak c f id ih ih' => simp [condensed, ih, ih']
  | fill parts ih =>
    simp only [propagateBreaks_fill, pieces_fill, List.map_cons, List.map_nil, List.map_map]
    congr 2
    exact List.map_congr_left fun d hd => by simp [condensed, ih d hd]
  | conditionalGroup c states b id ih ihs =>
    simp only [propagateBreaks_conditionalGroup, pieces_conditionalGroup, List.map_cons, List.map_nil,
      List.map_map]
    congr 2
    · simp [condensed, ih]
    · exact List.map_congr_left fun d hd => by simp [condensed, ihs d hd]
  | text | line | lineSuffixBoundary | breakParent | trim | cursor => simp

/-! ## Must it break? -/

theorem anyWillBreak_eq (parts : List Doc) : anyWillBreak parts = parts.any willBreak := by
  induction parts with
  | nil => rfl
  | cons d rest ih => rw [anyWillBreak, ih, List.any_cons]

theorem any_willBreak_pieces (d : Doc) : d.pieces.any willBreak = d.willBreak := by
  induction d using Doc.induction with
  | concat parts ih =>
    rw [pieces_concat, List.any_flatMap, willBreak, anyWillBreak_eq]
    exact any_congr_of_mem ih
  | group c b id ih | indent c ih | align al c ih | lineSuffix c ih =>
    simp [condensed, willBreak, anyWillBreak_eq, ih]
  | ifBreak c f id ih ih' => simp [condensed, willBreak, anyWillBreak_eq, ih, ih']
  | fill parts ih =>
    have hparts : parts.any (willBreak ∘ condensed) = parts.any willBreak :=
      any_congr_of_mem fun d hd => by
        rw [← ih d hd, Function.comp_apply, condensed, willBreak, anyWillBreak_eq]
    simp [willBreak, anyWillBreak_eq, hparts]
  | conditionalGroup c states b id ih ihs =>
    have hstates : states.any (willBreak ∘ condensed) = states.any willBreak :=
      any_congr_of_mem fun d hd => by
        rw [← ihs d hd, Function.comp_apply, condensed, willBreak, anyWillBreak_eq]
    simp [condensed, willBreak, anyWillBreak_eq, ih, hstates]
  | text | line | lineSuffixBoundary | breakParent | trim => simp
  | cursor => simp [willBreak]

/-! ## Two documents with the same pieces -/

/-- What the document is made of, if the machine that prints it only has to open it. -/
def melts : Doc → Option (List Doc)
  | .concat parts => some parts
  | .cursor => some []
  | _ => none

theorem pieces_of_melts {d : Doc} {parts : List Doc} (h : d.melts = some parts) :
    d.pieces = parts.flatMap pieces := by
  cases d with
  | concat | cursor =>
    cases h
    simp
  | _ => cases h

/-- Documents of the same kind whose parts have the same pieces. -/
inductive Matched : Doc → Doc → Prop
  | text (s : String) : Matched (.text s) (.text s)
  | line (kind : LineKind) : Matched (.line kind) (.line kind)
  | group {c c' : Doc} (b : Bool) (id : Option GroupId) : c.pieces = c'.pieces →
      Matched (.group c b id) (.group c' b id)
  | conditionalGroup {c c' : Doc} {states states' : List Doc} (b : Bool) (id : Option GroupId) :
      c.pieces = c'.pieces → states.map pieces = states'.map pieces →
      Matched (.conditionalGroup c states b id) (.conditionalGroup c' states' b id)
  | indent {c c' : Doc} : c.pieces = c'.pieces → Matched (.indent c) (.indent c')
  | align {c c' : Doc} (al : Alignment) : c.pieces = c'.pieces → Matched (.align al c) (.align al c')
  | fill {parts parts' : List Doc} : parts.map pieces = parts'.map pieces →
      Matched (.fill parts) (.fill parts')
  | ifBreak {c c' f f' : Doc} (id : Option GroupId) : c.pieces = c'.pieces → f.pieces = f'.pieces →
      Matched (.ifBreak c f id) (.ifBreak c' f' id)
  | lineSuffix {c c' : Doc} : c.pieces = c'.pieces → Matched (.lineSuffix c) (.lineSuffix c')
  | lineSuffixBoundary : Matched .lineSuffixBoundary .lineSuffixBoundary
  | breakParent : Matched .breakParent .breakParent
  | trim : Matched .trim .trim

theorem exists_piece {d : Doc} (h : d.melts = none) : ∃ e, d.pieces = [e] := by
  cases d with
  | concat | cursor => cases h
  | _ => exact ⟨_, rfl⟩

/-- **Documents with the same pieces match**, when neither of them melts. -/
theorem matched_of_pieces_eq {d d' : Doc} (h : d.pieces = d'.pieces) (hd : d.melts = none)
    (hd' : d'.melts = none) : Matched d d' := by
  cases d <;> cases d' <;>
    simp only [melts, reduceCtorEq, pieces_text, pieces_line, pieces_group, pieces_conditionalGroup,
      pieces_indent, pieces_align, pieces_fill, pieces_ifBreak, pieces_lineSuffix,
      pieces_lineSuffixBoundary, pieces_breakParent, pieces_trim, List.cons.injEq, and_true, text.injEq,
      line.injEq, group.injEq, conditionalGroup.injEq, indent.injEq, align.injEq, fill.injEq,
      ifBreak.injEq, lineSuffix.injEq, condensed_inj, map_condensed_inj] at h hd hd'
  case text => exact h ▸ .text _
  case line => exact h ▸ .line _
  case group =>
    obtain ⟨hc, rfl, rfl⟩ := h
    exact .group _ _ hc
  case conditionalGroup =>
    obtain ⟨hc, hstates, rfl, rfl⟩ := h
    exact .conditionalGroup _ _ hc hstates
  case indent => exact .indent h
  case align =>
    obtain ⟨rfl, hc⟩ := h
    exact .align _ hc
  case fill => exact .fill h
  case ifBreak =>
    obtain ⟨hc, hf, rfl⟩ := h
    exact .ifBreak _ hc hf
  case lineSuffix => exact .lineSuffix h
  case lineSuffixBoundary => exact .lineSuffixBoundary
  case breakParent => exact .breakParent
  case trim => exact .trim

/-! ## Cursors in a document -/

/-- The second document is the first one with cursors around one of the documents in it, or around it all. -/
inductive WithCursor : Doc → Doc → Prop
  | around (x : Doc) : WithCursor x (.concat [.cursor, x, .cursor])
  | concat {x y : Doc} (before after : List Doc) : WithCursor x y →
      WithCursor (.concat (before ++ x :: after)) (.concat (before ++ y :: after))
  | group {x y : Doc} (b : Bool) (id : Option GroupId) : WithCursor x y →
      WithCursor (.group x b id) (.group y b id)
  | contents {x y : Doc} (states : List Doc) (b : Bool) (id : Option GroupId) : WithCursor x y →
      WithCursor (.conditionalGroup x states b id) (.conditionalGroup y states b id)
  | state {x y : Doc} (c : Doc) (before after : List Doc) (b : Bool) (id : Option GroupId) :
      WithCursor x y → WithCursor (.conditionalGroup c (before ++ x :: after) b id)
        (.conditionalGroup c (before ++ y :: after) b id)
  | indent {x y : Doc} : WithCursor x y → WithCursor (.indent x) (.indent y)
  | align {x y : Doc} (al : Alignment) : WithCursor x y → WithCursor (.align al x) (.align al y)
  | fill {x y : Doc} (before after : List Doc) : WithCursor x y →
      WithCursor (.fill (before ++ x :: after)) (.fill (before ++ y :: after))
  | broken {x y : Doc} (flat : Doc) (id : Option GroupId) : WithCursor x y →
      WithCursor (.ifBreak x flat id) (.ifBreak y flat id)
  | flat {x y : Doc} (broken : Doc) (id : Option GroupId) : WithCursor x y →
      WithCursor (.ifBreak broken x id) (.ifBreak broken y id)
  | lineSuffix {x y : Doc} : WithCursor x y → WithCursor (.lineSuffix x) (.lineSuffix y)

/-- The second document is the first one with cursors around any number of documents in it. -/
abbrev WithCursors : Doc → Doc → Prop := Relation.ReflTransGen WithCursor

theorem WithCursor.pieces_eq {d d' : Doc} (h : WithCursor d d') : d.pieces = d'.pieces := by
  induction h with
  | around x => simp
  | concat _ _ _ ih => simp [ih]
  | group _ _ _ ih | contents _ _ _ _ ih | indent _ ih | align _ _ ih | broken _ _ _ ih | flat _ _ _ ih
  | lineSuffix _ ih => simp [condensed, ih]
  | state _ _ _ _ _ _ ih | fill _ _ _ ih => simp [condensed, ih]

/-- **Cursors leave the pieces as they are.** -/
theorem WithCursors.pieces_eq {d d' : Doc} (h : WithCursors d d') : d.pieces = d'.pieces := by
  induction h with
  | refl => rfl
  | tail _ hstep ih => exact ih.trans hstep.pieces_eq

end CodeFormatter.Doc
