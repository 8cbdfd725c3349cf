import CodeFormatter.Proofs.Comment.Store

/-!
# Emissions

What an emission does to the store: it marks the comments that it covers (`Emission.get?_mark`) and is added to
the log (`Emission.emitted_mark`). What belongs to which node stays as it is (`Emission.unmarked_mark`): two stores
with the same `unmarked` agree on all but the marks and the log.
-/

namespace CodeFormatter

/-! ## Stores up to marks -/

namespace Comments

variable {cs cs' : Comments} {i n : Nat}

/-- The store before anything was printed. -/
def unmarked (cs : Comments) : Comments :=
  { cs with list := cs.list.map fun c => { c with printed := false }, emitted := [] }

/-- The placement of a comment, if it has one. -/
def placement? (cs : Comments) (i : Nat) : Option Placement := (cs.get? i).bind (·.placement)

theorem get?_unmarked (cs : Comments) (i : Nat) :
    cs.unmarked.get? i = (cs.get? i).map fun c => { c with printed := false } :=
  List.getElem?_map

theorem of_eq_of_unmarked (h : cs.unmarked = cs'.unmarked) (n : Nat) : cs.of n = cs'.of n :=
  congrArg (·.of n) h

theorem bare_eq_of_unmarked (h : cs.unmarked = cs'.unmarked) : cs.bare = cs'.bare := by
  have hbare : ∀ cs : Comments, cs.unmarked.bare = cs.bare := fun cs => by
    rw [bare, unmarked, List.map_map, bare]
    rfl
  rw [← hbare cs, h, hbare]

theorem placement?_eq_of_unmarked (h : cs.unmarked = cs'.unmarked) (i : Nat) :
    cs.placement? i = cs'.placement? i := by
  have hget := congrArg (·.get? i) h
  simp only [get?_unmarked] at hget
  rw [placement?, placement?]
  cases hc : cs.get? i <;> cases hc' : cs'.get? i <;> rw [hc, hc'] at hget <;> simp_all

theorem hasPlacement_iff (cs : Comments) (n : Nat) (p : Placement) :
    cs.hasPlacement n p = true ↔ ∃ i ∈ cs.of n, cs.placement? i = some p := by
  rw [hasPlacement, List.any_eq_true]
  refine exists_congr fun i => and_congr_right fun _ => ?_
  rw [placement?]
  cases cs.get? i <;> simp

end Comments

/-! ## Emissions -/

namespace Emission

theorem covers_congr {i : Nat} {c c' : Comment} (hstart : c'.start = c.start)
    (hstop : c'.stop = c.stop) (e : Emission) : e.covers i c' = e.covers i c := by
  cases e <;> simp only [covers, hstart, hstop]

/-- The store after an emission. -/
def mark (cs : Comments) : Emission → Comments
  | .comment i => cs.markPrinted i
  | .slice start stop => cs.markPrintedWithin start stop

theorem emitted_mark (cs : Comments) (e : Emission) : (e.mark cs).emitted = cs.emitted ++ [e] := by
  cases e <;> rfl

theorem get?_mark (cs : Comments) (e : Emission) (i : Nat) :
    (e.mark cs).get? i =
      (cs.get? i).map fun c => { c with printed := c.printed || e.covers i c } := by
  cases e with
  | comment j =>
    rw [mark, Comments.markPrinted, Comments.get?, List.getElem?_modify, Comments.get?]
    cases cs.list[i]? with
    | none => rfl
    | some c =>
      by_cases hj : j = i
      · simp [covers, hj]
      · simp [covers, hj, beq_false_of_ne hj]
  | slice start stop =>
    rw [mark, Comments.markPrintedWithin, Comments.get?, List.getElem?_map, Comments.get?]
    cases cs.list[i]? with
    | none => rfl
    | some c =>
      simp only [Option.map_some, covers]
      split <;> rename_i hin
      · rw [hin, Bool.or_true]
      · rw [Bool.eq_false_iff.mpr hin, Bool.or_false]

theorem unmarked_mark (cs : Comments) (e : Emission) : (e.mark cs).unmarked = cs.unmarked := by
  have hlist : (e.mark cs).unmarked.list = cs.unmarked.list := by
    refine List.ext_getElem? fun i => ?_
    have := get?_mark cs e i
    rw [Comments.get?, Comments.get?] at this
    simp only [Comments.unmarked, List.getElem?_map, this]
    cases cs.list[i]? <;> rfl
  cases e <;> rw [Comments.unmarked, Comments.unmarked, Comments.mk.injEq] <;>
    exact ⟨hlist, rfl, rfl, rfl⟩

end Emission

/-! ## Sequences of emissions -/

namespace Comments

variable {cs : Comments} {i : Nat} {c : Comment} {es : List Emission}

/-- The store after some emissions. -/
def emit (cs : Comments) (es : List Emission) : Comments := es.foldl Emission.mark cs

@[simp] theorem emit_nil (cs : Comments) : cs.emit [] = cs := rfl

theorem emit_append (cs : Comments) (es es' : List Emission) :
    cs.emit (es ++ es') = (cs.emit es).emit es' := List.foldl_append

/-- The log tells one emission from two. -/
theorem emitted_emit (cs : Comments) (es : List Emission) :
    (cs.emit es).emitted = cs.emitted ++ es := by
  induction es generalizing cs with
  | nil => exact (List.append_nil _).symm
  | cons e rest ih =>
    rw [emit, List.foldl_cons, ← emit, ih, Emission.emitted_mark, List.append_assoc,
      List.singleton_append]

theorem unmarked_emit (cs : Comments) (es : List Emission) : (cs.emit es).unmarked = cs.unmarked := by
  induction es generalizing cs with
  | nil => rfl
  | cons e rest ih => rw [emit, List.foldl_cons, ← emit, ih, Emission.unmarked_mark]

/-- What was marked, or is covered by an emission, is marked at the end. -/
theorem get?_emit (cs : Comments) (es : List Emission) (i : Nat) :
    (cs.emit es).get? i =
      (cs.get? i).map fun c => { c with printed := c.printed || es.any (·.covers i c) } := by
  induction es generalizing cs with
  | nil => simp
  | cons e rest ih =>
    rw [emit, List.foldl_cons, ← emit, ih, Emission.get?_mark, Option.map_map]
    -- The mark leaves the span of the comment alone.
    refine Option.map_congr fun c _ => ?_
    have hcovers : ∀ e' : Emission,
        e'.covers i { c with printed := c.printed || e.covers i c } = e'.covers i c :=
      fun e' => e'.covers_congr rfl rfl
    simp only [Function.comp_apply, hcovers, List.any_cons, Bool.or_assoc]

end Comments

end CodeFormatter
