import CodeFormatter.Layout.Output
import CodeFormatter.Proofs.Doc.Basic
import Mathlib.Data.List.Basic

/-!
# The ink of a document

Layout decides about spaces and line ends only. What is left of a text without them is its *ink*, and
the ink of a document is that of its texts, in order.

A document offers choices: the two sides of an `ifBreak`, and the states of a conditional group. Its
ink is well defined if the choices do not differ in ink. Such a document is *coherent*. An alignment
by a text writes that text at the start of lines, as often as there are lines, so in a coherent
document such texts are spaces and tabs.
-/

namespace CodeFormatter

/-- A space, a tab or an end of line. -/
def isGap (c : Char) : Bool := Layout.isPadding c || c == '\r' || c == '\n'

/-- The text without spaces, tabs and line ends. -/
def ink (cs : List Char) : List Char := cs.filter (!isGap ·)

@[simp] theorem ink_nil : ink [] = [] := rfl

@[simp] theorem ink_append (cs cs' : List Char) : ink (cs ++ cs') = ink cs ++ ink cs' :=
  List.filter_append cs cs'

theorem ink_eq_nil {cs : List Char} (h : ∀ c ∈ cs, Layout.isPadding c) : ink cs = [] := by
  refine List.filter_eq_nil_iff.mpr fun c hc => ?_
  simp [isGap, h c hc]

/-- The text that an alignment writes at the start of a line, if any, is blank. -/
def Alignment.isBlank : Alignment → Bool
  | .text s => s.toList.all Layout.isPadding
  | _ => true

namespace Doc

mutual

/-- The ink of the texts of a document, in order. Of the sides of a choice only one counts, and of a
conditional group its contents. -/
def ink : Doc → List Char
  | .text s => CodeFormatter.ink s.toList
  | .concat parts | .fill parts => inkAll parts
  | .group contents _ _ | .conditionalGroup contents _ _ _ => ink contents
  | .indent contents | .align _ contents | .lineSuffix contents => ink contents
  | .ifBreak _ flat _ => ink flat
  | .line _ | .lineSuffixBoundary | .breakParent | .trim | .cursor => []

def inkAll : List Doc → List Char
  | [] => []
  | d :: rest => ink d ++ inkAll rest

end

mutual

/-- Do all choices in the document have the same ink, and are its alignments blank? -/
def coherent : Doc → Bool
  | .concat parts | .fill parts => allCoherent parts
  | .group contents _ _ | .indent contents | .lineSuffix contents => coherent contents
  | .align alignment contents => alignment.isBlank && coherent contents
  | .conditionalGroup contents states _ _ =>
    coherent contents && allCoherent states && states.all (·.ink == contents.ink)
  | .ifBreak broken flat _ => coherent broken && coherent flat && broken.ink == flat.ink
  | .text _ | .line _ | .lineSuffixBoundary | .breakParent | .trim | .cursor => true

def allCoherent : List Doc → Bool
  | [] => true
  | d :: rest => coherent d && allCoherent rest

end

mutual

/-- Is there a line suffix in the document? -/
def hasSuffix : Doc → Bool
  | .lineSuffix _ => true
  | .concat parts | .fill parts => anyHasSuffix parts
  | .group contents _ _ | .indent contents | .align _ contents => hasSuffix contents
  | .conditionalGroup contents states _ _ => hasSuffix contents || anyHasSuffix states
  | .ifBreak broken flat _ => hasSuffix broken || hasSuffix flat
  | .text _ | .line _ | .lineSuffixBoundary | .breakParent | .trim | .cursor => false

def anyHasSuffix : List Doc → Bool
  | [] => false
  | d :: rest => hasSuffix d || anyHasSuffix rest

end

theorem inkAll_eq (parts : List Doc) : inkAll parts = parts.flatMap ink := by
  induction parts with
  | nil => rfl
  | cons d rest ih => rw [inkAll, ih, List.flatMap_cons]

theorem allCoherent_eq (parts : List Doc) : allCoherent parts = parts.all coherent := by
  induction parts with
  | nil => rfl
  | cons d rest ih => rw [allCoherent, ih, List.all_cons]

theorem anyHasSuffix_eq (parts : List Doc) : anyHasSuffix parts = parts.any hasSuffix := by
  induction parts with
  | nil => rfl
  | cons d rest ih => rw [anyHasSuffix, ih, List.any_cons]

/-! ## Parts of a document -/

theorem coherent_of_mem_children {d e : Doc} (hd : d.coherent = true) (he : e ∈ d.children) :
    e.coherent = true := by
  cases d with
  | concat parts | fill parts =>
    rw [coherent, allCoherent_eq, List.all_eq_true] at hd
    exact hd e he
  | group contents _ _ | indent contents | lineSuffix contents => rwa [List.mem_singleton.mp he]
  | align alignment contents =>
    rw [coherent, Bool.and_eq_true] at hd
    rw [List.mem_singleton.mp he]
    exact hd.2
  | conditionalGroup contents states _ _ =>
    simp only [coherent, allCoherent_eq, Bool.and_eq_true, List.all_eq_true] at hd
    rcases List.mem_cons.mp he with rfl | he
    · exact hd.1.1
    · exact hd.1.2 e he
  | ifBreak broken flat _ =>
    simp only [coherent, Bool.and_eq_true] at hd
    rcases List.mem_pair.mp he with rfl | rfl
    · exact hd.1.1
    · exact hd.1.2
  | text | line | lineSuffixBoundary | breakParent | trim | cursor => cases he

theorem hasSuffix_of_mem_children {d e : Doc} (hd : d.hasSuffix = false) (he : e ∈ d.children) :
    e.hasSuffix = false := by
  cases d with
  | concat parts | fill parts =>
    rw [hasSuffix, anyHasSuffix_eq, List.any_eq_false] at hd
    simpa using hd e he
  | group contents _ _ | indent contents | align _ contents => rwa [List.mem_singleton.mp he]
  | conditionalGroup contents states _ _ =>
    simp only [hasSuffix, anyHasSuffix_eq, Bool.or_eq_false_iff, List.any_eq_false] at hd
    rcases List.mem_cons.mp he with rfl | he
    · exact hd.1
    · simpa using hd.2 e he
  | ifBreak broken flat _ =>
    rw [hasSuffix, Bool.or_eq_false_iff] at hd
    rcases List.mem_pair.mp he with rfl | rfl
    · exact hd.1
    · exact hd.2
  | lineSuffix => cases hd
  | text | line | lineSuffixBoundary | breakParent | trim | cursor => cases he

/-! ## Marking groups changes no ink -/

theorem ink_propagateBreaks (d : Doc) : d.propagateBreaks.ink = d.ink := by
  induction d using Doc.induction with
  | concat parts ih =>
    rw [propagateBreaks_concat, ink, ink, inkAll_eq, inkAll_eq, List.flatMap_map]
    exact List.flatMap_congr ih
  | fill parts ih =>
    rw [propagateBreaks_fill, ink, ink, inkAll_eq, inkAll_eq, List.flatMap_map]
    exact List.flatMap_congr ih
  | group _ _ _ ih => simpa [ink] using ih
  | conditionalGroup _ _ _ _ ih _ => simpa [ink] using ih
  | indent _ ih => simpa [ink] using ih
  | align _ _ ih => simpa [ink] using ih
  | ifBreak _ _ _ _ ih => simpa [ink] using ih
  | lineSuffix _ ih => simpa [ink] using ih
  | text | line | lineSuffixBoundary | breakParent | trim | cursor => rfl

theorem coherent_propagateBreaks (d : Doc) : d.propagateBreaks.coherent = d.coherent := by
  -- The parts of a list, each as coherent as before.
  have hall : ∀ parts : List Doc, (∀ d ∈ parts, d.propagateBreaks.coherent = d.coherent) →
      allCoherent (parts.map propagateBreaks) = allCoherent parts := by
    intro parts ih
    rw [allCoherent_eq, allCoherent_eq, List.all_map, Bool.eq_iff_iff, List.all_eq_true,
      List.all_eq_true]
    exact forall₂_congr fun d hd => by rw [Function.comp_apply, ih d hd]
  induction d using Doc.induction with
  | concat parts ih => simpa [coherent] using hall parts ih
  | fill parts ih => simpa [coherent] using hall parts ih
  | group _ _ _ ih => simpa [coherent] using ih
  | conditionalGroup contents states _ _ ih ihs =>
    rw [propagateBreaks_conditionalGroup, coherent, coherent, ih, hall states ihs, List.all_map]
    simp only [Function.comp_def, ink_propagateBreaks]
  | indent _ ih => simpa [coherent] using ih
  | align _ _ ih => rw [propagateBreaks_align, coherent, coherent, ih]
  | ifBreak _ _ _ ihb ihf =>
    rw [propagateBreaks_ifBreak, coherent, coherent, ihb, ihf, ink_propagateBreaks,
      ink_propagateBreaks]
  | lineSuffix _ ih => simpa [coherent] using ih
  | text | line | lineSuffixBoundary | breakParent | trim | cursor => rfl

theorem hasSuffix_propagateBreaks (d : Doc) : d.propagateBreaks.hasSuffix = d.hasSuffix := by
  have hany : ∀ parts : List Doc, (∀ d ∈ parts, d.propagateBreaks.hasSuffix = d.hasSuffix) →
      anyHasSuffix (parts.map propagateBreaks) = anyHasSuffix parts := by
    intro parts ih
    rw [anyHasSuffix_eq, anyHasSuffix_eq, List.any_map, Bool.eq_iff_iff, List.any_eq_true,
      List.any_eq_true]
    exact exists_congr fun d => and_congr_right fun hd => by rw [Function.comp_apply, ih d hd]
  induction d using Doc.induction with
  | concat parts ih => simpa [hasSuffix] using hany parts ih
  | fill parts ih => simpa [hasSuffix] using hany parts ih
  | group _ _ _ ih => simpa [hasSuffix] using ih
  | conditionalGroup contents states _ _ ih ihs =>
    rw [propagateBreaks_conditionalGroup, hasSuffix, hasSuffix, ih, hany states ihs]
  | indent _ ih => simpa [hasSuffix] using ih
  | align _ _ ih => simpa [hasSuffix] using ih
  | ifBreak _ _ _ ihb ihf => rw [propagateBreaks_ifBreak, hasSuffix, hasSuffix, ihb, ihf]
  | text | line | lineSuffix | lineSuffixBoundary | breakParent | trim | cursor => rfl

end Doc

end CodeFormatter
