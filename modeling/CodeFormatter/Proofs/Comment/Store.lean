import CodeFormatter.Comment.Store
import Mathlib.Data.List.Count

/-!
# The store of comments

What `attachTo` does to each view of the store: to the comment itself (`get?_attachTo`), to its owner
(`owner?_attachTo`) and to the comments of a node (`count_of_attachTo`).

**Consistency.** The comments of a node are those that it owns, each once. `attachTo` keeps this, for
any node and any comment, whoever owned the comment before.
-/

namespace CodeFormatter

/-- A comment without the marks that the formatter leaves on it. -/
def Comment.bare (c : Comment) : Comment :=
  { c with attached := false, placement := none, printed := false }

namespace Comments

variable {cs : Comments} {i j node n : Nat} {placement : Placement}

/-! ## The views of a store -/

/-- The comments of a node are those that it owns, each once. -/
structure Consistent (cs : Comments) : Prop where
  length_owners : cs.owners.length = cs.list.length
  count_of : ∀ n i, (cs.of n).count i = if cs.owner? i = some n then 1 else 0

theorem Consistent.mem_of (h : cs.Consistent) : i ∈ cs.of n ↔ cs.owner? i = some n := by
  rw [← List.count_pos_iff, h.count_of]
  split <;> simp_all

theorem Consistent.exists_get? (h : cs.Consistent) (howner : cs.owner? i = some n) :
    ∃ c, cs.get? i = some c := by
  have hlt : i < cs.owners.length := by
    by_contra hge
    simp [owner?, List.getElem?_eq_none (Nat.le_of_not_lt hge)] at howner
  rw [h.length_owners] at hlt
  exact ⟨cs.list[i], List.getElem?_eq_getElem hlt⟩

/-- A comment has been given to a node. -/
def Owned (cs : Comments) (i node : Nat) (placement : Placement) : Prop :=
  cs.owner? i = some node ∧
    ∃ c, cs.get? i = some c ∧ c.attached = true ∧ c.placement = some placement

/-- The comments as the parser found them. -/
def bare (cs : Comments) : List Comment := cs.list.map Comment.bare

theorem length_bare (cs : Comments) : cs.bare.length = cs.size := List.length_map _

theorem bare_getElem? (cs : Comments) (i : Nat) : cs.bare[i]? = (cs.get? i).map Comment.bare :=
  List.getElem?_map

/-- A comment stands in the same place in all stores that differ in the marks only. -/
theorem get?_of_bare_eq {cs' : Comments} {c : Comment} (h : cs'.bare = cs.bare)
    (hc : cs.get? i = some c) : ∃ c', cs'.get? i = some c' ∧ c'.start = c.start ∧ c'.stop = c.stop := by
  have hmap : (cs'.get? i).map Comment.bare = some c.bare := by
    rw [← bare_getElem?, h, bare_getElem?, hc, Option.map_some]
  obtain ⟨c', hc', hbare⟩ := Option.map_eq_some_iff.mp hmap
  have hstart : c'.bare.start = c.bare.start := by rw [hbare]
  have hstop : c'.bare.stop = c.bare.stop := by rw [hbare]
  exact ⟨c', hc', hstart, hstop⟩

theorem get?_eq_some_of_lt (h : i < cs.size) : ∃ c, cs.get? i = some c :=
  ⟨cs.list[i], List.getElem?_eq_getElem h⟩

/-! ## Releasing a comment -/

@[simp] theorem list_release (cs : Comments) (i : Nat) : (cs.release i).list = cs.list := by
  rw [release]
  split <;> rfl

theorem length_owners_release (cs : Comments) (i : Nat) :
    (cs.release i).owners.length = cs.owners.length := by
  rw [release]
  split
  · exact List.length_set
  · rfl

theorem owner?_release (cs : Comments) (i j : Nat) :
    (cs.release i).owner? j = if j = i then none else cs.owner? j := by
  rw [release]
  by_cases hj : j = i
  · subst hj
    cases h : cs.owner? j with
    | none => simpa using h
    | some m =>
      simp only [owner?, List.getElem?_set_self', if_true]
      cases cs.owners[j]? <;> rfl
  · simp only [hj, if_false]
    split
    · rw [owner?, List.getElem?_set_ne (Ne.symm hj), owner?]
    · rfl

/-- A node loses the comment if it had it. -/
theorem of_release (cs : Comments) (i n : Nat) :
    (cs.release i).of n = if cs.owner? i = some n then (cs.of n).filter (· != i) else cs.of n := by
  rw [release]
  cases h : cs.owner? i with
  | none => simp
  | some m =>
    simp only [of, lookup_assign, Option.some.injEq]
    by_cases hm : n = m
    · simp [hm]
    · simp [hm, Ne.symm hm]

theorem Consistent.release (h : cs.Consistent) (i : Nat) : (cs.release i).Consistent where
  length_owners := by rw [length_owners_release, list_release, h.length_owners]
  count_of n j := by
    rw [of_release, owner?_release]
    by_cases hj : j = i
    · subst hj
      simp only [if_true, reduceCtorEq, if_false]
      split
      · exact List.count_eq_zero.mpr (by simp)
      · rw [h.count_of, if_neg ‹_›]
    · rw [if_neg hj]
      split
      · rw [List.count_filter (by simpa using hj), h.count_of]
      · exact h.count_of n j

/-! ## Giving a comment to a node -/

theorem place_eq (cs : Comments) (i : Nat) (l : List Nat) :
    cs.place i l = (l.takeWhile fun j => cs.startOf j < cs.startOf i) ++
      i :: l.dropWhile fun j => cs.startOf j < cs.startOf i := by
  have hsplit := List.takeWhile_append_dropWhile (p := fun j => cs.startOf j < cs.startOf i) (l := l)
  have hdrop := congrArg (List.drop (l.takeWhile fun j => cs.startOf j < cs.startOf i).length) hsplit
  rw [List.drop_left] at hdrop
  rw [place, hdrop]

theorem perm_place (cs : Comments) (i : Nat) (l : List Nat) : (cs.place i l).Perm (i :: l) := by
  rw [place_eq]
  exact List.perm_middle.trans (by rw [List.takeWhile_append_dropWhile])

theorem size_attachTo (cs : Comments) (i node : Nat) (placement : Placement) :
    (cs.attachTo i node placement).size = cs.size := by
  rw [attachTo]
  split
  · simp [size]
  · rfl

theorem bare_attachTo (cs : Comments) (i node : Nat) (placement : Placement) :
    (cs.attachTo i node placement).bare = cs.bare := by
  rw [attachTo]
  split
  · refine List.ext_getElem? fun j => ?_
    simp only [bare, list_release, List.getElem?_map, List.getElem?_modify]
    cases cs.list[j]? with
    | none => rfl
    | some c => by_cases hj : i = j <;> simp [hj, Comment.bare]
  · rfl

/-- Nothing is written when a comment is given to a node. -/
theorem emitted_attachTo (cs : Comments) (i node : Nat) (placement : Placement) :
    (cs.attachTo i node placement).emitted = cs.emitted := by
  rw [attachTo]
  split
  · rw [release]
    split <;> rfl
  · rfl

/-- The comment gets its marks; all others stay as they are. -/
theorem get?_attachTo (hi : i < cs.size) (j : Nat) :
    (cs.attachTo i node placement).get? j =
      (cs.get? j).map fun c =>
        if j = i then { c with attached := true, placement := some placement } else c := by
  rw [attachTo, if_pos hi]
  simp only [get?, list_release, List.getElem?_modify]
  cases cs.list[j]? with
  | none => rfl
  | some c => by_cases hj : i = j <;> simp [hj, eq_comm]

theorem get?_attachTo_ne (hj : j ≠ i) : (cs.attachTo i node placement).get? j = cs.get? j := by
  by_cases hi : i < cs.size
  · rw [get?_attachTo hi]
    cases cs.get? j <;> simp [hj]
  · rw [attachTo, if_neg hi]

theorem owner?_attachTo (h : cs.Consistent) (hi : i < cs.size) (j : Nat) :
    (cs.attachTo i node placement).owner? j = if j = i then some node else cs.owner? j := by
  have hlen : i < (cs.release i).owners.length := by
    rw [length_owners_release, h.length_owners]
    exact hi
  rw [attachTo, if_pos hi]
  by_cases hj : j = i
  · subst hj
    simp [owner?, hlen]
  · simp only [hj, if_false]
    rw [owner?, List.getElem?_set_ne (Ne.symm hj), ← owner?, owner?_release, if_neg hj]

theorem of_attachTo (hi : i < cs.size) (n : Nat) :
    (cs.attachTo i node placement).of n =
      if n = node then (cs.release i).place i ((cs.release i).of n) else (cs.release i).of n := by
  rw [attachTo, if_pos hi, of, lookup_assign]
  by_cases hn : n = node
  · subst hn
    rw [if_pos rfl, if_pos rfl, Option.getD_some]
  · rw [if_neg hn, if_neg hn, of]

theorem count_of_attachTo (hi : i < cs.size) (n j : Nat) :
    ((cs.attachTo i node placement).of n).count j =
      ((cs.release i).of n).count j + if n = node ∧ j = i then 1 else 0 := by
  rw [of_attachTo hi]
  by_cases hn : n = node
  · rw [if_pos hn, (perm_place _ _ _).count_eq, List.count_cons]
    simp only [hn, true_and, beq_iff_eq, @eq_comm _ i j]
  · simp [hn]

theorem Consistent.attachTo (h : cs.Consistent) (i node : Nat) (placement : Placement) :
    (cs.attachTo i node placement).Consistent := by
  by_cases hi : i < cs.size
  · refine ⟨?_, fun n j => ?_⟩
    · have hlen := (h.release i).length_owners
      rw [Comments.attachTo, if_pos hi]
      simpa using hlen
    · rw [count_of_attachTo hi, (h.release i).count_of, owner?_release, owner?_attachTo h hi]
      by_cases hj : j = i <;> simp [hj, eq_comm]
  · rwa [Comments.attachTo, if_neg hi]

theorem owned_attachTo (h : cs.Consistent) (hi : i < cs.size) (node : Nat)
    (placement : Placement) : (cs.attachTo i node placement).Owned i node placement := by
  obtain ⟨c, hc⟩ := get?_eq_some_of_lt hi
  refine ⟨by rw [owner?_attachTo h hi, if_pos rfl],
    { c with attached := true, placement := some placement }, ?_, rfl, rfl⟩
  rw [get?_attachTo hi, hc, Option.map_some, if_pos rfl]

theorem Owned.attachTo {p : Placement} (ho : cs.Owned i n p) (h : cs.Consistent) (hj : i ≠ j)
    (node : Nat) (placement : Placement) : (cs.attachTo j node placement).Owned i n p := by
  by_cases hlt : j < cs.size
  · obtain ⟨howner, c, hc, hmarks⟩ := ho
    refine ⟨by rw [owner?_attachTo h hlt, if_neg hj, howner], c, ?_, hmarks⟩
    rw [get?_attachTo hlt, hc, Option.map_some, if_neg hj]
  · rwa [Comments.attachTo, if_neg hlt]

/-! ## New stores -/

theorem perm_insertByStart (c : Comment) (l : List Comment) : (insertByStart c l).Perm (c :: l) := by
  induction l with
  | nil => exact .refl _
  | cons d rest ih =>
    rw [insertByStart]
    split
    · exact .refl _
    · exact (ih.cons d).trans (.swap c d rest)

theorem perm_sortByStart (l : List Comment) : (sortByStart l).Perm l := by
  induction l with
  | nil => exact .refl _
  | cons c rest ih => exact (perm_insertByStart c _).trans (ih.cons c)

/-- Comments that are in order keep it. -/
theorem sortByStart_eq_self {l : List Comment} (h : l.Pairwise fun c d => c.start ≤ d.start) :
    sortByStart l = l := by
  induction l with
  | nil => rfl
  | cons c rest ih =>
    obtain ⟨hc, hrest⟩ := List.pairwise_cons.mp h
    have hsorted := ih hrest
    rw [sortByStart, List.foldr_cons, ← sortByStart, hsorted]
    cases rest with
    | nil => rfl
    | cons d rest => rw [insertByStart, if_pos (hc d List.mem_cons_self)]

theorem size_ofList (l : List Comment) : (ofList l).size = l.length := (perm_sortByStart l).length_eq

theorem owner?_ofList (l : List Comment) (i : Nat) : (ofList l).owner? i = none := by
  rw [owner?, ofList, List.getElem?_map]
  cases l[i]? <;> rfl

theorem consistent_ofList (l : List Comment) : (ofList l).Consistent where
  length_owners := by rw [ofList, List.length_map, (perm_sortByStart l).length_eq]
  count_of n i := by
    rw [owner?_ofList]
    rfl

end Comments

end CodeFormatter
