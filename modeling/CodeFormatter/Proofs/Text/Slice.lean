import CodeFormatter.Error
import Mathlib.Data.String.Basic
import Mathlib.Order.Bounds.Defs

/-!
# What a slice is

`slice?` counts bytes. `Lies` says the same in terms of characters: what stands before the slice in
the text has as many bytes as its first offset says. Slices that lie next to each other can be joined
(`Lies.append`), and a slice of a part is inside the slice of the whole (`Lies.isInfix`). The scanners,
which read bytes, may cut a text wherever a slice can start (`canCut_of_isBoundary`). The nearest places for
a cut are found by walking away from an offset (`isGreatest_floorBoundary`, `isLeast_ceilBoundary`).
-/

namespace CodeFormatter

open Scan

variable {text cs ds before after before' after' : List Char} {a b c d : Nat}

/-! ## Lengths in bytes -/

theorem byteLength_eq_utf8Len (cs : List Char) : byteLength cs = String.utf8Len cs := by
  induction cs with
  | nil => rfl
  | cons c cs ih => rw [byteLength_cons, String.utf8Len_cons, ih, Nat.add_comm]

theorem byteLength_toList (s : String) : byteLength s.toList = s.utf8ByteSize := by
  rw [byteLength_eq_utf8Len, ← String.utf8ByteSize_ofList, String.ofList_toList]

theorem byteLength_eq_zero : byteLength cs = 0 ↔ cs = [] := by
  rw [byteLength_eq_utf8Len, String.utf8Len_eq_zero]

theorem length_le_byteLength (cs : List Char) : cs.length ≤ byteLength cs := by
  induction cs with
  | nil => exact le_rfl
  | cons c cs ih =>
    have hsize := c.utf8Size_pos
    rw [List.length_cons, byteLength_cons]
    omega

/-- Of two cuts of a text, the one at the larger offset is behind. -/
theorem exists_append_of_byteLength_le (h : before ++ after = before' ++ after')
    (hle : byteLength before ≤ byteLength before') :
    ∃ m, before' = before ++ m ∧ after = m ++ after' := by
  rcases List.append_eq_append_iff.mp h with ⟨m, rfl, rfl⟩ | ⟨m, rfl, rfl⟩
  · exact ⟨m, rfl, rfl⟩
  · rw [byteLength_append] at hle
    have hm : m = [] := byteLength_eq_zero.mp (by omega)
    exact ⟨[], by simp [hm]⟩

/-- What stands before an offset is determined by the offset. -/
theorem append_inj_of_byteLength_eq (h : before ++ after = before' ++ after')
    (hlength : byteLength before = byteLength before') : before = before' ∧ after = after' := by
  obtain ⟨m, rfl, rfl⟩ := exists_append_of_byteLength_le h hlength.le
  rw [byteLength_append] at hlength
  have hm : m = [] := byteLength_eq_zero.mp (by omega)
  simp [hm]

/-! ## Slices -/

/-- The characters stand in the text from one offset to the other. -/
def Lies (text : List Char) (start stop : Nat) (cs : List Char) : Prop :=
  ∃ before after, text = before ++ cs ++ after ∧ byteLength before = start ∧
    byteLength before + byteLength cs = stop

theorem isBoundary_iff {text : String} {i : Nat} : isBoundary text i = true ↔
    ∃ before after, text.toList = before ++ after ∧ byteLength before = i := by
  rw [isBoundary, String.Pos.Raw.isValid_eq_true_iff, String.Pos.Raw.isValid_iff_exists_append]
  constructor
  · rintro ⟨before, after, rfl, hi⟩
    refine ⟨before.toList, after.toList, String.toList_append, ?_⟩
    rw [byteLength_toList]
    exact (congrArg String.Pos.Raw.byteIdx hi).symm
  · rintro ⟨before, after, htext, rfl⟩
    refine ⟨String.ofList before, String.ofList after, ?_, ?_⟩
    · rw [← String.ofList_append, ← htext, String.ofList_toList]
    · rw [String.rawEndPos_ofList, byteLength_eq_utf8Len]

theorem Lies.isBoundary_start {text : String} (h : Lies text.toList a b cs) :
    isBoundary text a = true := by
  obtain ⟨before, after, htext, rfl, -⟩ := h
  exact isBoundary_iff.mpr ⟨before, cs ++ after, by rw [htext, List.append_assoc], rfl⟩

theorem Lies.isBoundary_stop {text : String} (h : Lies text.toList a b cs) :
    isBoundary text b = true := by
  obtain ⟨before, after, htext, rfl, rfl⟩ := h
  exact isBoundary_iff.mpr ⟨before ++ cs, after, htext, byteLength_append before cs⟩

theorem slice?_of_lies {text : String} (h : Lies text.toList a b cs) :
    slice? text a b = some (String.ofList cs) := by
  have hstart := h.isBoundary_start
  have hstop := h.isBoundary_stop
  obtain ⟨before, after, htext, rfl, rfl⟩ := h
  have hextract := String.extract_of_valid before cs after
  rw [← htext, String.ofList_toList, ← byteLength_eq_utf8Len, ← byteLength_eq_utf8Len] at hextract
  rw [slice?, hstart, hstop, hextract]
  simp

/-- Between two boundaries something lies. -/
theorem exists_lies {text : String} (ha : isBoundary text a = true)
    (hb : isBoundary text b = true) (hab : a ≤ b) : ∃ cs, Lies text.toList a b cs := by
  obtain ⟨before, after, htext, rfl⟩ := isBoundary_iff.mp ha
  obtain ⟨before', after', htext', rfl⟩ := isBoundary_iff.mp hb
  obtain ⟨m, rfl, rfl⟩ := exists_append_of_byteLength_le (htext.symm.trans htext') hab
  exact ⟨m, before, after', by rw [htext, List.append_assoc], rfl, (byteLength_append before m).symm⟩

/-- **What a slice is.** -/
theorem slice?_eq_some_iff {text s : String} :
    slice? text a b = some s ↔ Lies text.toList a b s.toList := by
  refine ⟨fun h => ?_, fun h => (slice?_of_lies h).trans (by rw [String.ofList_toList])⟩
  have hbounds : a ≤ b ∧ isBoundary text a = true ∧ isBoundary text b = true := by
    by_contra hnot
    rw [slice?, if_neg (by simpa [and_assoc] using hnot)] at h
    cases h
  obtain ⟨cs, hcs⟩ := exists_lies hbounds.2.1 hbounds.2.2 hbounds.1
  rw [slice?_of_lies hcs] at h
  cases h
  rwa [String.toList_ofList]

theorem sliceOrError_eq_ok_iff {text s : String} {start stop : Nat} :
    sliceOrError text start stop = .ok s ↔ slice? text start stop = some s := by
  rw [sliceOrError]
  cases slice? text start stop <;> simp

namespace Lies

theorem le (h : Lies text a b cs) : a ≤ b := by
  obtain ⟨_, _, _, rfl, rfl⟩ := h
  omega

/-- The whole text. -/
theorem whole (text : List Char) : Lies text 0 (byteLength text) text :=
  ⟨[], [], by simp, rfl, Nat.zero_add _⟩

/-- Only one thing stands in a place. -/
theorem eq (h : Lies text a b cs) (h' : Lies text a b ds) : cs = ds := by
  obtain ⟨before, after, htext, ha, hb⟩ := h
  obtain ⟨before', after', htext', ha', hb'⟩ := h'
  rw [htext, List.append_assoc, List.append_assoc] at htext'
  obtain ⟨rfl, hrest⟩ := append_inj_of_byteLength_eq htext' (ha.trans ha'.symm)
  exact (append_inj_of_byteLength_eq hrest (by omega)).1

theorem append (h : Lies text a b cs) (h' : Lies text b c ds) : Lies text a c (cs ++ ds) := by
  obtain ⟨before, after, htext, rfl, hb⟩ := h
  obtain ⟨before', after', htext', hb', rfl⟩ := h'
  have hsplit : (before ++ cs) ++ after = before' ++ (ds ++ after') := by
    rw [← htext, htext', List.append_assoc]
  obtain ⟨rfl, rfl⟩ := append_inj_of_byteLength_eq hsplit
    ((byteLength_append before cs).trans (hb.trans hb'.symm))
  refine ⟨before, after', by rw [htext', List.append_assoc before cs ds], rfl, ?_⟩
  rw [byteLength_append, byteLength_append, Nat.add_assoc]

/-- A slice can be cut where another one starts. -/
theorem exists_split (h : Lies text a d cs) (h' : Lies text b c ds) (hab : a ≤ b) (hbd : b ≤ d) :
    ∃ left right, cs = left ++ right ∧ Lies text a b left ∧ Lies text b d right := by
  obtain ⟨before, after, htext, rfl, rfl⟩ := h
  obtain ⟨before', after', htext', rfl, -⟩ := h'
  have hsplit : before ++ (cs ++ after) = before' ++ (ds ++ after') := by
    rw [← List.append_assoc, ← htext, htext', List.append_assoc]
  obtain ⟨left, rfl, hrest⟩ := exists_append_of_byteLength_le hsplit hab
  rw [byteLength_append] at hbd
  obtain ⟨right, rfl, hafter⟩ := exists_append_of_byteLength_le hrest.symm (by omega)
  refine ⟨left, right, rfl, ⟨before, right ++ after, ?_, rfl, ?_⟩, ⟨before ++ left, after, ?_, ?_, ?_⟩⟩
  · simp [htext]
  · exact (byteLength_append before left).symm
  · simp [htext]
  · rfl
  · simp only [byteLength_append]
    omega

/-- The same where another one ends. -/
theorem exists_split_stop (h : Lies text a d cs) (h' : Lies text b c ds) (hac : a ≤ c)
    (hcd : c ≤ d) : ∃ left right, cs = left ++ right ∧ Lies text a c left ∧ Lies text c d right := by
  obtain ⟨before, after, htext, rfl, rfl⟩ := h'
  have hstop : Lies text (byteLength before + byteLength ds)
      (byteLength before + byteLength ds) [] :=
    ⟨before ++ ds, after, by simp [htext], byteLength_append before ds, byteLength_append before ds⟩
  exact h.exists_split hstop hac hcd

/-- A slice of a part is inside the slice of the whole. -/
theorem isInfix (h : Lies text a d cs) (h' : Lies text b c ds) (hab : a ≤ b) (hcd : c ≤ d) :
    ds <:+: cs := by
  obtain ⟨left, rest, rfl, -, hrest⟩ := h.exists_split h' hab (h'.le.trans hcd)
  obtain ⟨middle, right, rfl, hmiddle, -⟩ := hrest.exists_split_stop h' h'.le hcd
  rw [hmiddle.eq h']
  exact ⟨left, right, by simp⟩

end Lies

/-! ## Nearest boundaries -/

section Boundaries

variable {text : String} {i : Nat}

theorem isBoundary_zero (text : String) : isBoundary text 0 = true :=
  isBoundary_iff.mpr ⟨[], text.toList, rfl, rfl⟩

theorem isBoundary_size (text : String) : isBoundary text text.utf8ByteSize = true :=
  isBoundary_iff.mpr ⟨text.toList, [], by simp, byteLength_toList text⟩

theorem le_size_of_isBoundary (h : isBoundary text i = true) : i ≤ text.utf8ByteSize := by
  obtain ⟨before, after, htext, rfl⟩ := isBoundary_iff.mp h
  rw [← byteLength_toList, htext, byteLength_append]
  exact Nat.le_add_right _ _

theorem isGreatest_floorBoundary (text : String) (i : Nat) :
    IsGreatest {b | isBoundary text b = true ∧ b ≤ i} (floorBoundary text i) := by
  have hgo : ∀ n, IsGreatest {b | isBoundary text b = true ∧ b ≤ n} (floorBoundary.go text n) := by
    intro n
    induction n with
    | zero => exact ⟨⟨isBoundary_zero text, le_rfl⟩, fun b hb => hb.2⟩
    | succ n ih =>
      rw [floorBoundary.go]
      by_cases hn : isBoundary text (n + 1) = true
      · rw [if_pos hn]
        exact ⟨⟨hn, le_rfl⟩, fun b hb => hb.2⟩
      · rw [if_neg hn]
        refine ⟨⟨ih.1.1, Nat.le_succ_of_le ih.1.2⟩, ?_⟩
        intro b hb
        apply ih.2
        refine ⟨hb.1, Nat.le_of_lt_succ (lt_of_le_of_ne hb.2 ?_)⟩
        rintro rfl
        exact hn hb.1
  obtain ⟨hmem, hbound⟩ := hgo (min i text.utf8ByteSize)
  refine ⟨⟨hmem.1, hmem.2.trans (min_le_left _ _)⟩, ?_⟩
  intro b hb
  exact hbound ⟨hb.1, le_min hb.2 (le_size_of_isBoundary hb.1)⟩

theorem isLeast_ceilBoundary (text : String) (i : Nat) :
    IsLeast {b | isBoundary text b = true ∧ min i text.utf8ByteSize ≤ b} (ceilBoundary text i) := by
  have hgo : ∀ left n, n + left = text.utf8ByteSize →
      IsLeast {b | isBoundary text b = true ∧ n ≤ b} (ceilBoundary.go text left n) := by
    intro left
    induction left with
    | zero =>
      rintro n rfl
      exact ⟨⟨isBoundary_size text, le_rfl⟩, fun b hb => hb.2⟩
    | succ left ih =>
      intro n hn
      rw [ceilBoundary.go]
      by_cases hboundary : isBoundary text n = true
      · rw [if_pos hboundary]
        exact ⟨⟨hboundary, le_rfl⟩, fun b hb => hb.2⟩
      · rw [if_neg hboundary]
        obtain ⟨hmem, hbound⟩ := ih (n + 1) (by omega)
        refine ⟨⟨hmem.1, Nat.le_of_succ_le hmem.2⟩, ?_⟩
        intro b hb
        apply hbound
        refine ⟨hb.1, Nat.succ_le_of_lt (lt_of_le_of_ne hb.2 ?_)⟩
        rintro rfl
        exact hboundary hb.1
  apply hgo
  omega
end Boundaries

/-! ## Bytes -/

theorem toList_loop (bytes : ByteArray) (i : Nat) (read : List UInt8) :
    ByteArray.toList.loop bytes i read = read.reverse ++ bytes.data.toList.drop i := by
  induction i, read using ByteArray.toList.loop.induct bytes with
  | case1 i read hi ih =>
    have hi' : i < bytes.data.toList.length := hi
    rw [ByteArray.toList.loop, if_pos hi, ih, List.drop_eq_getElem_cons hi', List.reverse_cons,
      List.append_assoc, List.singleton_append]
    simp [ByteArray.get!, getElem!_pos bytes.data i hi]
  | case2 i read hi =>
    have hi' : bytes.data.toList.length ≤ i := Nat.le_of_not_lt hi
    rw [ByteArray.toList.loop, if_neg hi, List.drop_eq_nil_of_le hi', List.append_nil]

theorem bytesOf_eq (text : String) : bytesOf text = text.toByteArray.data.toList := by
  show ByteArray.toList.loop _ _ _ = _
  rw [toList_loop]
  rfl

theorem length_bytesOf (text : String) : (bytesOf text).length = text.utf8ByteSize := by
  rw [bytesOf_eq]
  rfl

/-- Each byte of a longer character is outside of ASCII. -/
theorem toNat_of_mem_utf8EncodeChar {c : Char} {b : UInt8} (h : b ∈ String.utf8EncodeChar c)
    (hb : b.toNat < 128) : b.toNat = c.toNat := by
  unfold String.utf8EncodeChar at h
  dsimp only at h
  split at h
  · rw [List.mem_singleton.mp h, UInt8.toNat_ofNat']
    exact Nat.mod_eq_of_lt (by omega)
  · exfalso
    split at h
    · simp only [List.mem_cons, List.not_mem_nil, or_false] at h
      rcases h with rfl | rfl <;> simp only [UInt8.toNat_ofNat'] at hb <;> omega
    · split at h <;> simp only [List.mem_cons, List.not_mem_nil, or_false] at h
      · rcases h with rfl | rfl | rfl <;> simp only [UInt8.toNat_ofNat'] at hb <;> omega
      · rcases h with rfl | rfl | rfl | rfl <;> simp only [UInt8.toNat_ofNat'] at hb <;> omega

theorem bytesOf_ofList (cs : List Char) :
    bytesOf (String.ofList cs) = cs.flatMap String.utf8EncodeChar := by
  rw [bytesOf_eq, String.toByteArray_ofList, List.utf8Encode, List.data_toByteArray]

theorem length_flatMap_utf8EncodeChar (cs : List Char) :
    (cs.flatMap String.utf8EncodeChar).length = byteLength cs := by
  rw [← bytesOf_ofList, length_bytesOf, ← byteLength_toList, String.toList_ofList]

/-! ## Cuts -/

theorem not_isContinuation {b : UInt8} (h : b.IsUTF8FirstByte) : isContinuation b = false := by
  have hall : ∀ n : Fin 256, (UInt8.ofFin n).IsUTF8FirstByte →
      isContinuation (UInt8.ofFin n) = false := by
    decide +kernel
  exact hall b.toFin h

/-- A text can be cut at its boundaries. -/
theorem canCut_of_isBoundary {text : String} {i : Nat} (h : isBoundary text i = true) :
    canCut (bytesOf text) i = true := by
  rw [isBoundary, String.Pos.Raw.isValid_eq_true_iff,
    String.Pos.Raw.isValid_iff_isUTF8FirstByte] at h
  rw [canCut, bytesOf_eq]
  rcases h with h | ⟨hlt, hfirst⟩
  · have hi : i = text.toByteArray.data.toList.length := congrArg String.Pos.Raw.byteIdx h
    rw [List.drop_eq_nil_of_le hi.ge]
  · have hi : i < text.toByteArray.data.toList.length := hlt
    rw [List.drop_eq_getElem_cons hi]
    rw [Bool.not_eq_true', Array.getElem_toList]
    exact not_isContinuation hfirst

end CodeFormatter
