import CodeFormatter.Proofs.Comment.Emission
import Mathlib.Data.List.Induction
import Mathlib.Data.List.Nodup
import Mathlib.Data.List.TakeWhile

/-!
# The three views of the ownership

A store says three times what belongs to whom: in the owner of a comment, in the lists of the nodes, and in the
marks of the comment itself. Nothing but the calls `attachTo`, `markPrinted` and `markPrintedWithin` changes it.

**Theorem (`views_after`).** After any calls the views agree. The comments of a node are those that it owns, each
once, in source order, and the owner and the marks of a comment are told by the calls alone: its node and its
placement are those that it was given last, and it is printed if it was to begin with or one of the calls has
printed it. Its text, its span and its place in the store are as they were.

The proof compares a store with the calls that have led to it (`Reflects`). One call keeps this
(`Reflects.apply`), so any number of calls do.
-/

namespace CodeFormatter

namespace Comments

variable {cs fresh : Comments} {i node : Nat} {l : List Nat} {placement : Placement}

/-! ## Source order -/

/-- The comments of every node are sorted by their starts. -/
def InOrder (cs : Comments) : Prop := ∀ n, (cs.of n).Pairwise fun i j => cs.startOf i ≤ cs.startOf j

theorem startOf_eq_of_bare {cs' : Comments} (h : cs'.bare = cs.bare) (i : Nat) :
    cs'.startOf i = cs.startOf i := by
  have hget : (cs'.get? i).map Comment.bare = (cs.get? i).map Comment.bare := by
    rw [← bare_getElem?, h, bare_getElem?]
  have hstart : ∀ o : Option Comment, o.elim 0 (·.start) = (o.map Comment.bare).elim 0 (·.start) := by
    intro o
    cases o <;> rfl
  rw [startOf, startOf, hstart, hget, ← hstart]

theorem le_startOf_of_mem_dropWhile {s : Nat} (h : l.Pairwise fun i j => cs.startOf i ≤ cs.startOf j)
    (hi : i ∈ l.dropWhile fun j => cs.startOf j < s) : s ≤ cs.startOf i := by
  induction l with
  | nil => cases hi
  | cons j rest ih =>
    rw [List.dropWhile_cons] at hi
    rw [List.pairwise_cons] at h
    split at hi
    · exact ih h.2 hi
    · rename_i hj
      have hle : s ≤ cs.startOf j := by simpa using hj
      rcases List.mem_cons.mp hi with rfl | hi
      · exact hle
      · exact hle.trans (h.1 i hi)

/-- A sorted list stays sorted when a comment is put into it. -/
theorem pairwise_place (i : Nat) (h : l.Pairwise fun i j => cs.startOf i ≤ cs.startOf j) :
    (cs.place i l).Pairwise fun i j => cs.startOf i ≤ cs.startOf j := by
  have hbefore : ∀ j ∈ l.takeWhile fun j => cs.startOf j < cs.startOf i,
      cs.startOf j < cs.startOf i := by
    intro j hj
    simpa using List.mem_takeWhile_imp hj
  have hafter : ∀ j ∈ l.dropWhile fun j => cs.startOf j < cs.startOf i,
      cs.startOf i ≤ cs.startOf j := fun j hj => le_startOf_of_mem_dropWhile h hj
  rw [place_eq]
  refine List.pairwise_append.mpr ⟨h.sublist (List.takeWhile_sublist _), ?_, ?_⟩
  · exact List.pairwise_cons.mpr ⟨hafter, h.sublist (List.dropWhile_sublist _)⟩
  · intro j hj k hk
    rcases List.mem_cons.mp hk with rfl | hk
    · exact (hbefore j hj).le
    · exact (hbefore j hj).le.trans (hafter k hk)

theorem InOrder.release (h : cs.InOrder) (i : Nat) : (cs.release i).InOrder := by
  intro n
  have hstart : ∀ j, (cs.release i).startOf j = cs.startOf j :=
    startOf_eq_of_bare (by rw [bare, bare, list_release])
  simp only [hstart]
  rw [of_release]
  split
  · exact (h n).sublist List.filter_sublist
  · exact h n

theorem InOrder.attachTo (h : cs.InOrder) (i node : Nat) (placement : Placement) :
    (cs.attachTo i node placement).InOrder := by
  by_cases hi : i < cs.size
  · intro n
    have hstart : ∀ j, (cs.attachTo i node placement).startOf j = (cs.release i).startOf j :=
      startOf_eq_of_bare (by rw [bare_attachTo, bare, bare, list_release])
    simp only [hstart]
    rw [of_attachTo hi]
    split
    · exact pairwise_place i (h.release i n)
    · exact h.release i n
  · rwa [Comments.attachTo, if_neg hi]

/-! ## Calls -/

/-- A call that changes a store: a comment is given to a node, or comments are marked as printed, a single one
(`markPrinted`) or all within a span (`markPrintedWithin`). -/
inductive Call where
  | attach (index node : Nat) (placement : Placement)
  | mark (emission : Emission)

namespace Call

def apply (cs : Comments) : Call → Comments
  | .attach index node placement => cs.attachTo index node placement
  | .mark emission => emission.mark cs

/-- The node and the placement that the call gives to a comment, if it gives any. -/
def gives (i : Nat) : Call → Option (Nat × Placement)
  | .attach index node placement => if index = i then some (node, placement) else none
  | .mark _ => none

/-- Does the call print the comment `c`, which is the one of number `i`? -/
def prints (i : Nat) (c : Comment) : Call → Bool
  | .attach .. => false
  | .mark emission => emission.covers i c

end Call

/-- The store after some calls. -/
def after (cs : Comments) (calls : List Call) : Comments := calls.foldl Call.apply cs

/-- The node and the placement that a comment was given last. -/
def lastGiven (i : Nat) (calls : List Call) : Option (Nat × Placement) :=
  calls.reverse.findSome? (·.gives i)

theorem lastGiven_concat (i : Nat) (calls : List Call) (call : Call) :
    lastGiven i (calls ++ [call]) = (call.gives i).or (lastGiven i calls) := by
  rw [lastGiven, List.reverse_append, List.reverse_singleton, List.singleton_append,
    List.findSome?_cons]
  cases call.gives i <;> rfl

end Comments

/-- A comment after some calls. -/
def Comment.after (i : Nat) (c : Comment) (calls : List Comments.Call) : Comment :=
  { c with
    attached := c.attached || (Comments.lastGiven i calls).isSome
    placement := ((Comments.lastGiven i calls).map (·.2)).or c.placement
    printed := c.printed || calls.any (·.prints i c) }

namespace Comments

variable {cs fresh : Comments} {calls : List Call}

/-- The marks of a comment that has been given to a node once more. -/
theorem after_concat_attach (i : Nat) (c : Comment) (calls : List Call) (j node : Nat)
    (placement : Placement) :
    c.after i (calls ++ [.attach j node placement]) =
      if i = j then { c.after i calls with attached := true, placement := some placement }
      else c.after i calls := by
  by_cases hj : i = j
  · simp [Comment.after, lastGiven_concat, Call.gives, Call.prints, hj]
  · simp [Comment.after, lastGiven_concat, Call.gives, Call.prints, hj, Ne.symm hj]

/-- The marks of a comment after it may have been printed. -/
theorem after_concat_mark (i : Nat) (c : Comment) (calls : List Call) (e : Emission) :
    c.after i (calls ++ [.mark e]) =
      { c.after i calls with printed := (c.after i calls).printed || e.covers i (c.after i calls) } := by
  have hcovers : e.covers i (c.after i calls) = e.covers i c := Emission.covers_congr rfl rfl e
  rw [hcovers]
  simp [Comment.after, lastGiven_concat, Call.gives, Call.prints, Bool.or_assoc]

/-- A store that some calls have led to, from one in which no comment had an owner. -/
structure Reflects (fresh : Comments) (calls : List Call) (cs : Comments) : Prop where
  consistent : cs.Consistent
  inOrder : cs.InOrder
  size : cs.size = fresh.size
  owner : ∀ i < fresh.size, cs.owner? i = (lastGiven i calls).map (·.1)
  get : ∀ i, cs.get? i = (fresh.get? i).map (·.after i calls)

namespace Reflects

theorem attach (h : Reflects fresh calls cs) (j node : Nat) (placement : Placement) :
    Reflects fresh (calls ++ [.attach j node placement]) (cs.attachTo j node placement) where
  consistent := h.consistent.attachTo j node placement
  inOrder := h.inOrder.attachTo j node placement
  size := (size_attachTo cs j node placement).trans h.size
  owner i hi := by
    rw [lastGiven_concat, Call.gives]
    by_cases hj : j = i
    · subst hj
      rw [owner?_attachTo h.consistent (h.size ▸ hi), if_pos rfl, if_pos rfl]
      rfl
    · rw [if_neg hj, Option.none_or, ← h.owner i hi]
      by_cases hlt : j < cs.size
      · rw [owner?_attachTo h.consistent hlt, if_neg (Ne.symm hj)]
      · rw [attachTo, if_neg hlt]
  get i := by
    by_cases hlt : j < cs.size
    · rw [get?_attachTo hlt, h.get, Option.map_map]
      refine Option.map_congr fun c _ => ?_
      rw [after_concat_attach, Function.comp_apply]
    · rw [attachTo, if_neg hlt, h.get]
      -- The comment `i` is there, so the call is not about it.
      refine Option.map_congr fun c hc => ?_
      have hi : i < cs.size := h.size ▸ (List.getElem?_eq_some_iff.mp hc).1
      rw [after_concat_attach, if_neg (by omega)]

theorem mark (h : Reflects fresh calls cs) (e : Emission) :
    Reflects fresh (calls ++ [.mark e]) (e.mark cs) := by
  have hunmarked := Emission.unmarked_mark cs e
  have howner : ∀ i, (e.mark cs).owner? i = cs.owner? i := by
    intro i
    cases e <;> rfl
  have hof : ∀ n, (e.mark cs).of n = cs.of n := of_eq_of_unmarked hunmarked
  have hstart : ∀ i, (e.mark cs).startOf i = cs.startOf i :=
    startOf_eq_of_bare (bare_eq_of_unmarked hunmarked)
  have hsize : (e.mark cs).size = cs.size := by
    cases e
    · exact List.length_modify ..
    · exact List.length_map _
  refine ⟨⟨?_, fun n i => ?_⟩, fun n => ?_, hsize.trans h.size, fun i hi => ?_, fun i => ?_⟩
  · refine Eq.trans ?_ (h.consistent.length_owners.trans hsize.symm)
    cases e <;> rfl
  · rw [hof, howner, h.consistent.count_of]
  · simp only [hof, hstart]
    exact h.inOrder n
  · rw [howner, h.owner i hi, lastGiven_concat]
    rfl
  · rw [Emission.get?_mark, h.get, Option.map_map]
    refine Option.map_congr fun c _ => ?_
    rw [after_concat_mark, Function.comp_apply]

/-- **One call more.** -/
theorem apply (h : Reflects fresh calls cs) (call : Call) :
    Reflects fresh (calls ++ [call]) (call.apply cs) := by
  cases call with
  | attach j node placement => exact h.attach j node placement
  | mark e => exact h.mark e

end Reflects

theorem reflects_ofList (list : List Comment) : Reflects (ofList list) [] (ofList list) where
  consistent := consistent_ofList list
  inOrder n := List.Pairwise.nil
  size := rfl
  owner i _ := owner?_ofList list i
  get i := by
    have hafter : ∀ c : Comment, c.after i [] = c := by
      intro c
      simp [Comment.after, lastGiven]
    simp [hafter]

/-- Any calls. -/
theorem reflects_after (list : List Comment) (calls : List Call) :
    Reflects (ofList list) calls ((ofList list).after calls) := by
  induction calls using List.reverseRecOn with
  | nil => exact reflects_ofList list
  | append_singleton calls call ih =>
    rw [after, List.foldl_append]
    exact ih.apply call

/-- **The views of a store agree, after any calls.** -/
theorem views_after (list : List Comment) (calls : List Call) :
    let fresh := ofList list
    let cs := fresh.after calls
    (∀ n i, i ∈ cs.of n ↔ cs.owner? i = some n) ∧
      (∀ n, (cs.of n).Nodup) ∧ (∀ n m, n ≠ m → (cs.of n).Disjoint (cs.of m)) ∧
      (∀ n, (cs.of n).Pairwise fun i j => cs.startOf i ≤ cs.startOf j) ∧
      (∀ i < list.length, cs.owner? i = (lastGiven i calls).map (·.1)) ∧
      cs.list = fresh.list.mapIdx fun i c => { c with
        attached := c.attached || (lastGiven i calls).isSome
        placement := ((lastGiven i calls).map (·.2)).or c.placement
        printed := c.printed || calls.any (·.prints i c) } := by
  intro fresh cs
  have h : Reflects fresh calls cs := reflects_after list calls
  have hmem : ∀ n i, i ∈ cs.of n ↔ cs.owner? i = some n := fun n i => h.consistent.mem_of
  refine ⟨hmem, fun n => ?_, fun n m hne i hn hm => ?_, h.inOrder, fun i hi => ?_, ?_⟩
  · refine List.nodup_iff_count_le_one.mpr fun i => ?_
    rw [h.consistent.count_of]
    split <;> omega
  · rw [hmem] at hn hm
    exact hne (Option.some.inj (hn.symm.trans hm))
  · exact h.owner i (by rwa [size_ofList])
  · refine List.ext_getElem? fun i => ?_
    rw [List.getElem?_mapIdx]
    exact h.get i

end Comments

end CodeFormatter
