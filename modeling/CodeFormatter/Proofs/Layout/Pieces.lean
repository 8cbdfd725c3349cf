import CodeFormatter.Proofs.Doc.Pieces
import CodeFormatter.Proofs.Layout.Fits
import CodeFormatter.Proofs.Layout.Progress

/-!
# Items with the same pieces fit alike

The pieces of the items that the fitting test reads. An item that *melts*, a concatenation or a cursor, has its
parts put in its place and nothing else, so that two tests may be compared from piece to piece
(`pieces_induction`). Where the one has more to open, the other waits.

**Theorem (`fits_congr`).** The fitting test finds the same in items with the same pieces.
-/

namespace CodeFormatter.Layout

/-! ## Items -/

namespace Item

/-- The pieces of an item. What is left of a fill is a piece itself. -/
def pieces : Item → List Item
  | .doc d => d.pieces.map .doc
  | .fillRest parts => [.fillRest (parts.map Doc.condensed)]

/-- What stands for an item that only has to be opened. -/
def melts : Item → Option (List Doc)
  | .doc d => d.melts
  | .fillRest _ => none

/-- Items of the same kind whose parts have the same pieces. -/
inductive Matched : Item → Item → Prop
  | doc {d d' : Doc} : Doc.Matched d d' → Matched (.doc d) (.doc d')
  | fillRest {parts parts' : List Doc} : parts.map Doc.pieces = parts'.map Doc.pieces →
      Matched (.fillRest parts) (.fillRest parts')

variable {item item' : Item} {parts : List Doc}

theorem pieces_of_melts (h : item.melts = some parts) :
    item.pieces = parts.flatMap fun d => (doc d).pieces := by
  cases item with
  | fillRest => cases h
  | doc d =>
    rw [pieces, Doc.pieces_of_melts h, List.map_flatMap]
    rfl

theorem exists_piece (h : item.melts = none) : ∃ x, item.pieces = [x] := by
  cases item with
  | fillRest => exact ⟨_, rfl⟩
  | doc d =>
    obtain ⟨e, he⟩ := Doc.exists_piece h
    exact ⟨.doc e, by rw [pieces, he, List.map_singleton]⟩

theorem matched_of_pieces_eq (h : item.pieces = item'.pieces) (hi : item.melts = none)
    (hi' : item'.melts = none) : Matched item item' := by
  cases item with
  | doc d =>
    cases item' with
    | doc d' =>
      exact .doc (Doc.matched_of_pieces_eq (List.map_injective_iff.mpr (fun _ _ h => doc.inj h) h) hi hi')
    | fillRest parts' =>
      obtain ⟨e, he⟩ := Doc.exists_piece hi
      simp [pieces, he] at h
  | fillRest parts =>
    cases item' with
    | doc d' =>
      obtain ⟨e, he⟩ := Doc.exists_piece hi'
      simp [pieces, he] at h
    | fillRest parts' => exact .fillRest (Doc.map_condensed_inj.mp (fillRest.inj (List.head_eq_of_cons_eq h)))

theorem work_of_melts (h : item.melts = some parts) : Doc.workAll parts < item.work := by
  cases item with
  | fillRest => cases h
  | doc d =>
    cases d with
    | concat | cursor =>
      cases h
      simp [work, Doc.work, Doc.workAll]
    | _ => cases h

theorem workAll_lt_fillRest (parts : List Doc) : Doc.workAll parts < (fillRest parts).work := by
  rw [work]
  omega

end Item

/-! ## The fitting test -/

/-- The pieces of the items that the test reads. -/
def itemPieces (items : List (Mode × Item)) : List (Mode × Item) :=
  items.flatMap fun p => p.2.pieces.map (p.1, ·)

/-- The steps that the test may take. -/
def itemsWork : List (Mode × Item) → Nat
  | [] => 0
  | (_, item) :: rest => item.work + itemsWork rest

section FittingTest

variable {modes : GroupModes} {mustBeFlat : Bool} {width : Int} {padding fuel fuel' : Nat}
  {mode : Mode} {item item' : Item} {items items' : List (Mode × Item)} {parts parts' : List Doc}
  {d d' : Doc}

@[simp] theorem itemPieces_cons : itemPieces ((mode, item) :: items) =
    item.pieces.map (mode, ·) ++ itemPieces items := rfl

@[simp] theorem itemPieces_append : itemPieces (items ++ items') = itemPieces items ++ itemPieces items' :=
  List.flatMap_append

theorem itemPieces_map_doc : itemPieces (parts.map (mode, .doc ·)) =
    (parts.flatMap fun d => (Item.doc d).pieces).map (mode, ·) := by
  rw [itemPieces, List.flatMap_map, List.map_flatMap]

theorem itemPieces_doc_congr (h : parts.map Doc.pieces = parts'.map Doc.pieces) :
    itemPieces (parts.map (mode, .doc ·)) = itemPieces (parts'.map (mode, .doc ·)) := by
  have hpieces : ∀ ds : List Doc, (ds.flatMap fun d => (Item.doc d).pieces) =
      (ds.map Doc.pieces).flatMap (·.map Item.doc) := fun ds => by
    rw [List.flatMap_map]
    rfl
  rw [itemPieces_map_doc, itemPieces_map_doc, hpieces, hpieces, h]

@[simp] theorem itemsWork_cons : itemsWork ((mode, item) :: items) = item.work + itemsWork items := rfl

@[simp] theorem itemsWork_append : itemsWork (items ++ items') = itemsWork items + itemsWork items' := by
  induction items with
  | nil => exact (Nat.zero_add _).symm
  | cons p rest ih => rw [List.cons_append, itemsWork_cons, itemsWork_cons, ih, Nat.add_assoc]

theorem itemsWork_map_doc : itemsWork (parts.map (mode, .doc ·)) = Doc.workAll parts := by
  induction parts with
  | nil => rfl
  | cons d rest ih => rw [List.map_cons, itemsWork_cons, ih, Doc.workAll, Item.work]

theorem itemPieces_of_melts (h : item.melts = some parts) :
    itemPieces ((mode, item) :: items) = itemPieces (parts.map (mode, .doc ·) ++ items) := by
  rw [itemPieces_cons, itemPieces_append, itemPieces_map_doc, Item.pieces_of_melts h]

theorem itemPieces_ne_nil (h : item.melts = none) : itemPieces ((mode, item) :: items) ≠ [] := by
  obtain ⟨x, hx⟩ := Item.exists_piece h
  simp [hx]

/-- The first items match, and the others have the same pieces. -/
theorem matched_of_itemPieces_eq {mode' : Mode}
    (h : itemPieces ((mode, item) :: items) = itemPieces ((mode', item') :: items'))
    (hi : item.melts = none) (hi' : item'.melts = none) :
    mode = mode' ∧ Item.Matched item item' ∧ itemPieces items = itemPieces items' := by
  obtain ⟨x, hx⟩ := Item.exists_piece hi
  obtain ⟨x', hx'⟩ := Item.exists_piece hi'
  rw [itemPieces_cons, itemPieces_cons, hx, hx'] at h
  obtain ⟨hhead, hitems⟩ := List.cons.inj h
  obtain ⟨rfl, rfl⟩ := Prod.mk.inj hhead
  exact ⟨rfl, Item.matched_of_pieces_eq (hx.trans hx'.symm) hi hi', hitems⟩

/-- **Induction over items with the same pieces.** An item that melts is opened, on either side. If neither
of the first items does, they match, and the claim is known of all items that are less work on both sides. -/
theorem pieces_induction {motive : List (Mode × Item) → List (Mode × Item) → Prop}
    (nil : motive [] [])
    (left : ∀ {mode : Mode} {item : Item} {parts : List Doc} {items items' : List (Mode × Item)},
      item.melts = some parts → motive (parts.map (mode, .doc ·) ++ items) items' →
        motive ((mode, item) :: items) items')
    (right : ∀ {mode : Mode} {item : Item} {parts : List Doc} {items items' : List (Mode × Item)},
      item.melts = some parts → motive items (parts.map (mode, .doc ·) ++ items') →
        motive items ((mode, item) :: items'))
    (both : ∀ {mode : Mode} {item item' : Item} {items items' : List (Mode × Item)},
      Item.Matched item item' → itemPieces items = itemPieces items' →
        (∀ inner inner', itemPieces inner = itemPieces inner' →
          itemsWork inner < item.work + itemsWork items →
          itemsWork inner' < item'.work + itemsWork items' → motive inner inner') →
        motive ((mode, item) :: items) ((mode, item') :: items'))
    (h : itemPieces items = itemPieces items') : motive items items' := by
  induction hn : itemsWork items + itemsWork items' using Nat.strong_induction_on
    generalizing items items' with
  | _ n ih =>
    -- The items of one side melt until both sides start with a piece.
    have hleft : ∀ {mode item rest parts}, items = (mode, item) :: rest → item.melts = some parts →
        motive items items' := by
      intro mode item rest parts hitems hi
      rw [hitems, itemPieces_of_melts hi] at h
      have hwork := Item.work_of_melts hi
      rw [hitems, itemsWork_cons] at hn
      rw [hitems]
      refine left hi (ih _ ?_ h rfl)
      rw [itemsWork_append, itemsWork_map_doc]
      omega
    have hright : ∀ {mode item rest parts}, items' = (mode, item) :: rest → item.melts = some parts →
        motive items items' := by
      intro mode item rest parts hitems' hi
      rw [hitems', itemPieces_of_melts hi] at h
      have hwork := Item.work_of_melts hi
      rw [hitems', itemsWork_cons] at hn
      rw [hitems']
      refine right hi (ih _ ?_ h rfl)
      rw [itemsWork_append, itemsWork_map_doc]
      omega
    cases items with
    | nil =>
      cases items' with
      | nil => exact nil
      | cons p' rest' =>
        cases hi' : p'.2.melts with
        | some => exact hright rfl hi'
        | none => exact absurd h.symm (itemPieces_ne_nil hi')
    | cons p rest =>
      cases hi : p.2.melts with
      | some => exact hleft rfl hi
      | none =>
        cases items' with
        | nil => exact absurd h (itemPieces_ne_nil hi)
        | cons p' rest' =>
          cases hi' : p'.2.melts with
          | some => exact hright rfl hi'
          | none =>
            obtain ⟨mode, item⟩ := p
            obtain ⟨mode', item'⟩ := p'
            obtain ⟨rfl, hmatched, hrest⟩ := matched_of_itemPieces_eq h hi hi'
            refine both hmatched hrest fun inner inner' hinner hlt hlt' => ih _ ?_ hinner rfl
            rw [itemsWork_cons, itemsWork_cons] at hn
            omega

theorem fits_of_neg (hw : width < 0) (items : List (Mode × Item)) :
    fits modes mustBeFlat fuel width padding items [] = false := by
  cases fuel with
  | zero => rfl
  | succ fuel => rw [fits, if_pos hw]

/-- An item that melts is opened by the test. -/
theorem fits_of_melts (h : item.melts = some parts) :
    fits modes mustBeFlat (fuel + 1) width padding ((mode, item) :: items) [] =
      fits modes mustBeFlat fuel width padding (parts.map (mode, .doc ·) ++ items) [] := by
  by_cases hw : width < 0
  · rw [fits_of_neg hw, fits_of_neg hw]
  cases item with
  | fillRest => cases h
  | doc d =>
    cases d with
    | concat | cursor =>
      cases h
      simp [fits, nextItem, hw]
    | _ => cases h

/-- **The test finds the same** in items with the same pieces. -/
theorem fits_congr (h : itemPieces items = itemPieces items') (hf : itemsWork items < fuel)
    (hf' : itemsWork items' < fuel') : fits modes mustBeFlat fuel width padding items [] =
      fits modes mustBeFlat fuel' width padding items' [] := by
  refine pieces_induction (motive := fun items items' => ∀ {fuel fuel' : Nat} {width : Int} {padding : Nat},
    itemsWork items < fuel → itemsWork items' < fuel' →
      fits modes mustBeFlat fuel width padding items [] =
        fits modes mustBeFlat fuel' width padding items' []) ?nil ?left ?right ?both h hf hf'
  case nil =>
    intro fuel fuel' width padding hf hf'
    obtain ⟨fuel, rfl⟩ := Nat.exists_eq_add_one_of_ne_zero (Nat.ne_zero_of_lt hf)
    obtain ⟨fuel', rfl⟩ := Nat.exists_eq_add_one_of_ne_zero (Nat.ne_zero_of_lt hf')
    simp [fits, nextItem]
  case left =>
    intro mode item parts items items' hi ih fuel fuel' width padding hf hf'
    obtain ⟨fuel, rfl⟩ := Nat.exists_eq_add_one_of_ne_zero (Nat.ne_zero_of_lt hf)
    have hwork := Item.work_of_melts hi
    rw [itemsWork_append, itemsWork_map_doc] at ih
    rw [itemsWork_cons] at hf
    rw [fits_of_melts hi]
    exact ih (by omega) hf'
  case right =>
    intro mode item parts items items' hi ih fuel fuel' width padding hf hf'
    obtain ⟨fuel', rfl⟩ := Nat.exists_eq_add_one_of_ne_zero (Nat.ne_zero_of_lt hf')
    have hwork := Item.work_of_melts hi
    rw [itemsWork_append, itemsWork_map_doc] at ih
    rw [itemsWork_cons] at hf'
    rw [fits_of_melts hi]
    exact ih hf (by omega)
  case both =>
    intro mode item item' items items' hmatched hrest ih fuel fuel' width padding hf hf'
    by_cases hw : width < 0
    · rw [fits_of_neg hw, fits_of_neg hw]
    obtain ⟨fuel, rfl⟩ := Nat.exists_eq_add_one_of_ne_zero (Nat.ne_zero_of_lt hf)
    obtain ⟨fuel', rfl⟩ := Nat.exists_eq_add_one_of_ne_zero (Nat.ne_zero_of_lt hf')
    rw [itemsWork_cons] at hf hf'
    -- What the test goes on with is less work than there is fuel left.
    have hnext : ∀ {width : Int} {padding : Nat} {inner inner' : List (Mode × Item)},
        itemPieces inner = itemPieces inner' → itemsWork inner < item.work + itemsWork items →
        itemsWork inner' < item'.work + itemsWork items' →
          fits modes mustBeFlat fuel width padding inner [] =
            fits modes mustBeFlat fuel' width padding inner' [] :=
      fun hinner hlt hlt' => ih _ _ hinner hlt hlt' (by omega) (by omega)
    have hpart : ∀ {width : Int} {padding : Nat} {m : Mode} {c c' : Doc}, c.pieces = c'.pieces →
        c.work < item.work → c'.work < item'.work →
          fits modes mustBeFlat fuel width padding ((m, .doc c) :: items) [] =
            fits modes mustBeFlat fuel' width padding ((m, .doc c') :: items') [] := by
      intro width padding m c c' hc hlt hlt'
      refine hnext ?_ ?_ ?_
      · rw [itemPieces_cons, itemPieces_cons, Item.pieces, Item.pieces, hc, hrest]
      · rw [itemsWork_cons, Item.work]
        omega
      · rw [itemsWork_cons, Item.work]
        omega
    have hparts : ∀ {width : Int} {padding : Nat} {ds ds' : List Doc},
        ds.map Doc.pieces = ds'.map Doc.pieces → Doc.workAll ds < item.work →
          Doc.workAll ds' < item'.work →
            fits modes mustBeFlat fuel width padding (ds.map (mode, .doc ·) ++ items) [] =
              fits modes mustBeFlat fuel' width padding (ds'.map (mode, .doc ·) ++ items') [] := by
      intro width padding ds ds' hds hlt hlt'
      refine hnext ?_ ?_ ?_
      · rw [itemPieces_append, itemPieces_append, itemPieces_doc_congr hds, hrest]
      · rw [itemsWork_append, itemsWork_map_doc]
        omega
      · rw [itemsWork_append, itemsWork_map_doc]
        omega
    have hskip : ∀ (width : Int) (padding : Nat), fits modes mustBeFlat fuel width padding items [] =
        fits modes mustBeFlat fuel' width padding items' [] := by
      intro width padding
      have hpos := item.one_le_work
      have hpos' := item'.one_le_work
      exact hnext hrest (by omega) (by omega)
    simp only [fits, if_neg hw, nextItem]
    cases hmatched with
    | fillRest hds => exact hparts hds (Item.workAll_lt_fillRest _) (Item.workAll_lt_fillRest _)
    | doc hd =>
      cases hd with
      | text | lineSuffix | lineSuffixBoundary | breakParent | trim => exact hskip _ _
      | line kind =>
        cases mode with
        | broken => rfl
        | flat =>
          cases kind with
          | normal | soft => exact hskip _ _
          | hard | literal => rfl
      | indent hc | align _ hc =>
        exact hpart hc (Doc.work_lt_of_mem_children List.mem_cons_self)
          (Doc.work_lt_of_mem_children List.mem_cons_self)
      | group b id hc | conditionalGroup b id hc =>
        dsimp only
        split
        · rfl
        · exact hpart hc (Doc.work_lt_of_mem_children List.mem_cons_self)
            (Doc.work_lt_of_mem_children List.mem_cons_self)
      | fill hds => exact hparts hds (Item.workAll_lt_fillRest _) (Item.workAll_lt_fillRest _)
      | ifBreak id hbroken hflat =>
        dsimp only
        split
        · exact hpart hbroken (Doc.work_lt_of_mem_children (by simp [Doc.children]))
            (Doc.work_lt_of_mem_children (by simp [Doc.children]))
        · exact hpart hflat (Doc.work_lt_of_mem_children (by simp [Doc.children]))
            (Doc.work_lt_of_mem_children (by simp [Doc.children]))

end FittingTest

end CodeFormatter.Layout
