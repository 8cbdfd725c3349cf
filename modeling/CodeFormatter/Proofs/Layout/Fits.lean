import CodeFormatter.Layout.Fits

/-!
# The fitting test, without fuel

`Fits` says what the fitting test finds out: reading the items one after another, each in its mode,
the width is never used up before the first newline that is certain, or before the end. It is the
test without its fuel and without the split between the stack of the test and the commands after it.
-/

namespace CodeFormatter.Layout

/-- What the test reads: the items of `stack`, then those of the commands after them. -/
def itemsOf (stack : List (Mode × Item)) (rest : List Command) : List (Mode × Item) :=
  stack ++ rest.map fun c => (c.mode, c.item)

/-- What the test reads instead of an item that only holds others. Texts, spaces, trims and lines
that break hold none. -/
def opened (modes : GroupModes) (mustBeFlat : Bool) (mode : Mode) :
    Item → Option (List (Mode × Item))
  | .fillRest parts => some (parts.map (mode, .doc ·))
  | .doc (.concat parts) => some (parts.map (mode, .doc ·))
  | .doc (.fill parts) => some (parts.map (mode, .doc ·))
  | .doc (.indent contents) => some [(mode, .doc contents)]
  | .doc (.align _ contents) => some [(mode, .doc contents)]
  | .doc (.group contents shouldBreak _) =>
    if mustBeFlat && shouldBreak then none
    else some [(if shouldBreak then .broken else mode, .doc contents)]
  | .doc (.conditionalGroup contents _ shouldBreak _) =>
    if mustBeFlat && shouldBreak then none
    else some [(if shouldBreak then .broken else mode, .doc contents)]
  | .doc (.ifBreak broken flat id) =>
    some [(mode, .doc (match choiceMode modes mode id with | .broken => broken | .flat => flat))]
  | .doc (.line .soft) => if mode = .flat then some [] else none
  | .doc (.lineSuffix _) => some []
  | .doc .lineSuffixBoundary => some []
  | .doc .breakParent => some []
  | .doc .cursor => some []
  | _ => none

/-- The items fit into `width` columns. `padding` is the number of spaces and tabs just read. -/
inductive Fits (modes : GroupModes) (mustBeFlat : Bool) : Int → Nat → List (Mode × Item) → Prop
  | done {width : Int} {padding : Nat} : 0 ≤ width → Fits modes mustBeFlat width padding []
  | text {width : Int} {padding : Nat} {mode : Mode} {s : String} {items : List (Mode × Item)} :
      0 ≤ width →
      Fits modes mustBeFlat (width - s.toList.length) (paddingAfter padding s.toList) items →
      Fits modes mustBeFlat width padding ((mode, .doc (.text s)) :: items)
  | space {width : Int} {padding : Nat} {items : List (Mode × Item)} : 0 ≤ width →
      Fits modes mustBeFlat (width - 1) (padding + 1) items →
      Fits modes mustBeFlat width padding ((.flat, .doc (.line .normal)) :: items)
  | trim {width : Int} {padding : Nat} {mode : Mode} {items : List (Mode × Item)} : 0 ≤ width →
      Fits modes mustBeFlat (width + padding) 0 items →
      Fits modes mustBeFlat width padding ((mode, .doc .trim) :: items)
  | newline {width : Int} {padding : Nat} {mode : Mode} {kind : LineKind}
      {items : List (Mode × Item)} : 0 ≤ width → (mode = .flat → kind.isHard = true) →
      Fits modes mustBeFlat width padding ((mode, .doc (.line kind)) :: items)
  | opened {width : Int} {padding : Nat} {mode : Mode} {item : Item}
      {inner items : List (Mode × Item)} : 0 ≤ width →
      opened modes mustBeFlat mode item = some inner →
      Fits modes mustBeFlat width padding (inner ++ items) →
      Fits modes mustBeFlat width padding ((mode, item) :: items)

variable {modes : GroupModes} {mustBeFlat : Bool} {width : Int} {padding : Nat}
  {stack : List (Mode × Item)} {rest : List Command}

theorem Fits.width_nonneg {items : List (Mode × Item)}
    (h : Fits modes mustBeFlat width padding items) : 0 ≤ width := by
  cases h <;> assumption

theorem itemsOf_append (inner stack : List (Mode × Item)) (rest : List Command) :
    itemsOf (inner ++ stack) rest = inner ++ itemsOf stack rest := List.append_assoc _ _ _

theorem itemsOf_of_nextItem {mode : Mode} {item : Item} {stack' : List (Mode × Item)}
    {rest' : List Command} (h : nextItem stack rest = some (mode, item, stack', rest')) :
    itemsOf stack rest = (mode, item) :: itemsOf stack' rest' := by
  match stack, rest with
  | (m, it) :: stack, rest => cases h; rfl
  | [], c :: rest => cases h; rfl
  | [], [] => cases h

/-- Where the stack of the test ends and the commands begin makes no difference. -/
theorem fits_itemsOf (fuel : Nat) (width : Int) (padding : Nat) (stack : List (Mode × Item))
    (rest : List Command) : fits modes mustBeFlat fuel width padding stack rest =
      fits modes mustBeFlat fuel width padding (itemsOf stack rest) [] := by
  induction fuel generalizing width padding stack rest with
  | zero => rfl
  | succ fuel ih =>
    rw [fits, fits]
    split
    · rfl
    cases hn : nextItem stack rest with
    | none =>
      match stack, rest with
      | _ :: _, _ => cases hn
      | [], _ :: _ => cases hn
      | [], [] => rfl
    | some next =>
      obtain ⟨mode, item, stack', rest'⟩ := next
      have hopen : ∀ (width : Int) (padding : Nat) (inner : List (Mode × Item)),
          fits modes mustBeFlat fuel width padding (inner ++ stack') rest' =
            fits modes mustBeFlat fuel width padding (inner ++ itemsOf stack' rest') [] := by
        intro width padding inner
        rw [ih, itemsOf_append]
      rw [itemsOf_of_nextItem hn]
      cases item with
      | fillRest parts => exact hopen _ _ _
      | doc d =>
        cases d with
        | line kind =>
          cases mode with
          | broken => rfl
          | flat =>
            cases kind with
            | normal | soft => exact ih _ _ _ _
            | hard | literal => rfl
        | group contents shouldBreak id | conditionalGroup contents states shouldBreak id =>
          simp only [nextItem]
          split
          · rfl
          · exact hopen _ _ [_]
        | text | trim | lineSuffix | lineSuffixBoundary | breakParent | cursor => exact ih _ _ _ _
        | concat | fill => exact hopen _ _ _
        | indent | align | ifBreak => exact hopen _ _ [_]

/-- **The test is right when it says yes.** -/
theorem fits_sound {fuel : Nat} (h : fits modes mustBeFlat fuel width padding stack rest = true) :
    Fits modes mustBeFlat width padding (itemsOf stack rest) := by
  induction fuel generalizing width padding stack rest with
  | zero => simp [fits] at h
  | succ fuel ih =>
    rw [fits] at h
    split at h
    · cases h
    rename_i hw
    rw [Int.not_lt] at hw
    cases hn : nextItem stack rest with
    | none =>
      have hnil : itemsOf stack rest = [] := by
        match stack, rest with
        | _ :: _, _ => cases hn
        | [], _ :: _ => cases hn
        | [], [] => rfl
      rw [hnil]
      exact .done hw
    | some next =>
      obtain ⟨mode, item, stack', rest'⟩ := next
      rw [itemsOf_of_nextItem hn]
      simp only [hn] at h
      -- An item that holds others is followed by what it holds.
      have hopen : ∀ {inner : List (Mode × Item)}, opened modes mustBeFlat mode item = some inner →
          fits modes mustBeFlat fuel width padding (inner ++ stack') rest' = true →
          Fits modes mustBeFlat width padding ((mode, item) :: itemsOf stack' rest') := by
        intro inner hinner hfits
        have hrec := ih hfits
        rw [itemsOf_append] at hrec
        exact .opened hw hinner hrec
      cases item with
      | fillRest parts => exact hopen rfl h
      | doc d =>
        cases d with
        | text s => exact .text hw (ih h)
        | trim => exact .trim hw (ih h)
        | line kind =>
          cases mode with
          | broken => exact .newline hw fun hm => by cases hm
          | flat =>
            cases kind with
            | normal => exact .space hw (ih h)
            | soft => exact hopen rfl h
            | hard | literal => exact .newline hw fun _ => rfl
        | group contents shouldBreak id =>
          simp only at h
          split at h
          · cases h
          · rename_i hflat
            exact hopen (by rw [opened, if_neg hflat]) h
        | conditionalGroup contents states shouldBreak id =>
          simp only at h
          split at h
          · cases h
          · rename_i hflat
            exact hopen (by rw [opened, if_neg hflat]) h
        | concat | fill | indent | align | ifBreak | lineSuffix | lineSuffixBoundary | breakParent
        | cursor => exact hopen rfl h

end CodeFormatter.Layout
