import CodeFormatter.Proofs.Doc.Pieces
import Mathlib.Data.List.Forall2

/-!
# Which groups must break

`Exposes` lists the ways in which a break leaves a document: it passes everything but conditional groups,
and these expose a break only if their builder marked them. `Marks` relates a document to the one in which
every plain group that holds an exposed break is marked.

**Theorem (`propagate_eq_exposes_marks`).** Propagation tells whether a break leaves the document, and
marks its groups. A break that leaves a document forces a newline, and to propagate breaks again changes
nothing.

The last part is what allows documents to be propagated on their own, and again as parts of others.
-/

namespace CodeFormatter.Doc

/-- A break leaves the document. -/
inductive Exposes : Doc → Prop
  | breakParent : Exposes .breakParent
  | marked {contents : Doc} {id : Option GroupId} : Exposes (.group contents true id)
  | group {contents : Doc} {shouldBreak : Bool} {id : Option GroupId} :
      Exposes contents → Exposes (.group contents shouldBreak id)
  | conditionalGroup {contents : Doc} {states : List Doc} {id : Option GroupId} :
      Exposes (.conditionalGroup contents states true id)
  | concat {d : Doc} {parts : List Doc} : d ∈ parts → Exposes d → Exposes (.concat parts)
  | fill {d : Doc} {parts : List Doc} : d ∈ parts → Exposes d → Exposes (.fill parts)
  | indent {contents : Doc} : Exposes contents → Exposes (.indent contents)
  | align {alignment : Alignment} {contents : Doc} :
      Exposes contents → Exposes (.align alignment contents)
  | lineSuffix {contents : Doc} : Exposes contents → Exposes (.lineSuffix contents)
  | broken {broken flat : Doc} {id : Option GroupId} :
      Exposes broken → Exposes (.ifBreak broken flat id)
  | flat {broken flat : Doc} {id : Option GroupId} :
      Exposes flat → Exposes (.ifBreak broken flat id)

/-- The documents differ in the marks of plain groups only. In the second one a plain group is marked if
it was marked in the first one, or if a break leaves its contents there. -/
inductive Marks : Doc → Doc → Prop
  | text (s : String) : Marks (.text s) (.text s)
  | line (kind : LineKind) : Marks (.line kind) (.line kind)
  | lineSuffixBoundary : Marks .lineSuffixBoundary .lineSuffixBoundary
  | breakParent : Marks .breakParent .breakParent
  | trim : Marks .trim .trim
  | cursor : Marks .cursor .cursor
  | group {c c' : Doc} {b b' : Bool} (id : Option GroupId) :
      Marks c c' → (b' = true ↔ b = true ∨ Exposes c) → Marks (.group c b id) (.group c' b' id)
  | conditionalGroup {c c' : Doc} {states states' : List Doc} (b : Bool) (id : Option GroupId) :
      Marks c c' → List.Forall₂ Marks states states' →
      Marks (.conditionalGroup c states b id) (.conditionalGroup c' states' b id)
  | concat {parts parts' : List Doc} :
      List.Forall₂ Marks parts parts' → Marks (.concat parts) (.concat parts')
  | fill {parts parts' : List Doc} :
      List.Forall₂ Marks parts parts' → Marks (.fill parts) (.fill parts')
  | indent {c c' : Doc} : Marks c c' → Marks (.indent c) (.indent c')
  | align {c c' : Doc} (alignment : Alignment) :
      Marks c c' → Marks (.align alignment c) (.align alignment c')
  | lineSuffix {c c' : Doc} : Marks c c' → Marks (.lineSuffix c) (.lineSuffix c')
  | ifBreak {c c' f f' : Doc} (id : Option GroupId) :
      Marks c c' → Marks f f' → Marks (.ifBreak c f id) (.ifBreak c' f' id)

/-! ## Exposed breaks -/

theorem Exposes.of_exposesBreak {d : Doc} (h : d.exposesBreak = true) : Exposes d := by
  induction d using Doc.induction with
  | breakParent => exact .breakParent
  | concat parts ih =>
    rw [exposesBreak_concat, List.any_eq_true] at h
    obtain ⟨d, hd, h⟩ := h
    exact .concat hd (ih d hd h)
  | fill parts ih =>
    rw [exposesBreak_fill, List.any_eq_true] at h
    obtain ⟨d, hd, h⟩ := h
    exact .fill hd (ih d hd h)
  | group contents shouldBreak id ih =>
    rw [exposesBreak_group, Bool.or_eq_true] at h
    rcases h with rfl | h
    · exact .marked
    · exact .group (ih h)
  | conditionalGroup contents states shouldBreak id =>
    rw [exposesBreak_conditionalGroup] at h
    exact h ▸ .conditionalGroup
  | indent contents ih => exact .indent (ih h)
  | align alignment contents ih => exact .align (ih h)
  | lineSuffix contents ih => exact .lineSuffix (ih h)
  | ifBreak broken flat id ih ih' =>
    rw [exposesBreak_ifBreak, Bool.or_eq_true] at h
    exact h.elim (fun h => .broken (ih h)) fun h => .flat (ih' h)
  | text | line | lineSuffixBoundary | trim | cursor => cases h

theorem Exposes.exposesBreak {d : Doc} (h : Exposes d) : d.exposesBreak = true := by
  induction h with
  | concat hd _ ih =>
    rw [exposesBreak_concat, List.any_eq_true]
    exact ⟨_, hd, ih⟩
  | fill hd _ ih =>
    rw [exposesBreak_fill, List.any_eq_true]
    exact ⟨_, hd, ih⟩
  | breakParent | marked | conditionalGroup => rfl
  | group _ ih | broken _ ih | flat _ ih => simp [ih]
  | indent _ ih | align _ ih | lineSuffix _ ih => exact ih

theorem exposesBreak_eq_true {d : Doc} : d.exposesBreak = true ↔ Exposes d :=
  ⟨.of_exposesBreak, (·.exposesBreak)⟩

/-- A break that leaves the document forces a newline. -/
theorem Exposes.willBreak {d : Doc} (h : Exposes d) : d.willBreak = true := by
  induction h with
  | concat hd _ ih | fill hd _ ih =>
    rw [Doc.willBreak, anyWillBreak_eq, List.any_eq_true]
    exact ⟨_, hd, ih⟩
  | breakParent | marked => rfl
  | conditionalGroup | group | indent | align | lineSuffix | broken | flat =>
    simp [Doc.willBreak, *]

/-! ## Marked groups -/

theorem forall₂_marks {parts : List Doc} (h : ∀ d ∈ parts, Marks d d.propagateBreaks) :
    List.Forall₂ Marks parts (parts.map propagateBreaks) :=
  List.forall₂_map_right_iff.mpr (List.forall₂_same.mpr h)

theorem marks_propagateBreaks (d : Doc) : Marks d d.propagateBreaks := by
  induction d using Doc.induction with
  | text s => exact .text s
  | line kind => exact .line kind
  | lineSuffixBoundary => exact .lineSuffixBoundary
  | breakParent => exact .breakParent
  | trim => exact .trim
  | cursor => exact .cursor
  | group contents shouldBreak id ih =>
    exact .group id ih ((Bool.or_eq_true ..).to_iff.trans (or_congr_right exposesBreak_eq_true))
  | conditionalGroup contents states shouldBreak id ih ihs =>
    rw [propagateBreaks_conditionalGroup]
    exact .conditionalGroup shouldBreak id ih (forall₂_marks ihs)
  | concat parts ih =>
    rw [propagateBreaks_concat]
    exact .concat (forall₂_marks ih)
  | fill parts ih =>
    rw [propagateBreaks_fill]
    exact .fill (forall₂_marks ih)
  | indent contents ih => exact .indent ih
  | align alignment contents ih => exact .align alignment ih
  | lineSuffix contents ih => exact .lineSuffix ih
  | ifBreak broken flat id ih ih' => exact .ifBreak id ih ih'

/-! ## Propagating again -/

/-- To propagate the breaks of a propagated document changes nothing, and the same breaks leave it. -/
theorem propagateBreaks_propagateBreaks (d : Doc) : d.propagateBreaks.propagateBreaks = d.propagateBreaks ∧
    d.propagateBreaks.exposesBreak = d.exposesBreak := by
  induction d using Doc.induction with
  | concat parts ih | fill parts ih =>
    have hany : parts.any (exposesBreak ∘ propagateBreaks) = parts.any exposesBreak :=
      any_congr_of_mem fun d hd => (ih d hd).2
    simpa [hany] using fun d hd => (ih d hd).1
  | conditionalGroup contents states shouldBreak id ih ihs =>
    simpa using ⟨ih.1, fun d hd => (ihs d hd).1⟩
  | group contents shouldBreak id ih | indent contents ih | align alignment contents ih
  | lineSuffix contents ih => simp [ih]
  | ifBreak broken flat id ih ih' => simp [ih, ih']
  | text | line | lineSuffixBoundary | breakParent | trim | cursor => exact ⟨rfl, rfl⟩

/-- **Propagation.** It tells whether a break leaves the document, and marks the plain groups that hold
one, also inside the states of conditional groups. Such a break forces a newline. To propagate breaks again
changes nothing and tells the same. -/
theorem propagate_eq_exposes_marks (d : Doc) :
    ((propagate d).2 = true ↔ Exposes d) ∧ Marks d (propagate d).1 ∧
      (Exposes d → d.willBreak = true) ∧ propagate (propagate d).1 = propagate d :=
  ⟨exposesBreak_eq_true, marks_propagateBreaks d, Exposes.willBreak,
    Prod.ext (propagateBreaks_propagateBreaks d).1 (propagateBreaks_propagateBreaks d).2⟩

/-- A break in a state of a conditional group marks the group inside the state, and none outside. -/
example :
    let inner (marked : Bool) : Doc := .group (.concat [.text "a", hardline]) marked none
    propagate (groupOf (.conditionalGroup (.text "a") [.text "a", inner false] false none)) =
      (groupOf (.conditionalGroup (.text "a") [.text "a", inner true] false none), false) := rfl

end CodeFormatter.Doc
