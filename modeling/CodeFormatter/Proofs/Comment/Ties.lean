import CodeFormatter.Proofs.Comment.Store
import CodeFormatter.Comment.Attach
import Mathlib.Data.List.Induction
import Mathlib.Data.List.Sort

/-!
# Comments between the same two nodes

The rules have a *verdict* on every comment: its owner is known at once, or the comment is tied to the
nodes on both sides. A comment that is at the start or the end of its line, or is tied to another
node after it, *interrupts* the ties before it. A *batch* is a longest run of ties that nothing
interrupts: this is what the loop collects before it settles.

**Theorem (`leadsTo_drop_leadingRun`, `length_le_leadingRun`).** Of a batch, the comments that get the
node after it as their owner are the longest end of the batch in which only gaps separate each comment
from the next, and the last from the node.

Two batches that share a tie are the same (`Batch.eq`). The loop settles each tie in some batch; so it is
settled as part of any batch that it is in.
-/

namespace CodeFormatter

variable {α : Type}

namespace Comments

variable {cs : Comments} {i n node : Nat} {p placement : Placement} {l : List Nat}

/-! ## Giving several comments to one node -/

/-- Gives each of some comments to a node. -/
def attachEach (node : Nat) (placement : Placement) (cs : Comments) (l : List Nat) : Comments :=
  l.foldl (fun cs i => cs.attachTo i node placement) cs

theorem bare_attachEach (cs : Comments) (l : List Nat) :
    (attachEach node placement cs l).bare = cs.bare := by
  induction l generalizing cs with
  | nil => rfl
  | cons i rest ih => exact (ih _).trans (bare_attachTo cs i node placement)

theorem emitted_attachEach (cs : Comments) (l : List Nat) :
    (attachEach node placement cs l).emitted = cs.emitted := by
  induction l generalizing cs with
  | nil => rfl
  | cons i rest ih => exact (ih _).trans (emitted_attachTo cs i node placement)

theorem size_attachEach (cs : Comments) (l : List Nat) :
    (attachEach node placement cs l).size = cs.size := by
  rw [← length_bare, bare_attachEach, length_bare]

theorem Consistent.attachEach (h : cs.Consistent) (node : Nat) (placement : Placement)
    (l : List Nat) : (attachEach node placement cs l).Consistent := by
  induction l generalizing cs with
  | nil => exact h
  | cons i rest ih => exact ih (h.attachTo i node placement)

theorem Owned.attachEach (ho : cs.Owned i n p) (h : cs.Consistent) (hi : i ∉ l) :
    (attachEach node placement cs l).Owned i n p := by
  induction l generalizing cs with
  | nil => exact ho
  | cons j rest ih =>
    rw [List.mem_cons, not_or] at hi
    exact ih (ho.attachTo h hi.1 node placement) (h.attachTo j node placement) hi.2

theorem owned_attachEach (h : cs.Consistent) (hl : ∀ i ∈ l, i < cs.size) (hi : i ∈ l) :
    (attachEach node placement cs l).Owned i node placement := by
  induction l generalizing cs with
  | nil => cases hi
  | cons j rest ih =>
    have hrest := h.attachTo j node placement
    by_cases hmem : i ∈ rest
    · refine ih hrest (fun k hk => ?_) hmem
      rw [size_attachTo]
      exact hl k (List.mem_cons_of_mem _ hk)
    · obtain rfl : i = j := (List.mem_cons.mp hi).resolve_right hmem
      exact (owned_attachTo h (hl i List.mem_cons_self) node placement).attachEach hrest hmem

theorem get?_attachEach (hi : i ∉ l) : (attachEach node placement cs l).get? i = cs.get? i := by
  induction l generalizing cs with
  | nil => rfl
  | cons j rest ih =>
    rw [List.mem_cons, not_or] at hi
    exact (ih hi.2).trans (get?_attachTo_ne hi.1)

end Comments

namespace Attach

open Comments

/-! ## Verdicts -/

/-- What the rules say of a comment. -/
inductive Verdict (α : Type) where
  | given (owner : Nat) (placement : Placement)
  | tied (preceding following : Tree α)

/-- What the general rules say. -/
def generalVerdict (root : Tree α) (position : CommentPosition) (around : Surroundings α) :
    Verdict α :=
  match position, around.preceding, around.following with
  | .ownLine, _, some following => .given following.id .leading
  | .ownLine, some preceding, none => .given preceding.id .trailing
  | .endOfLine, some preceding, _ => .given preceding.id .trailing
  | .endOfLine, none, some following => .given following.id .leading
  | .remaining, some preceding, some following => .tied preceding following
  | .remaining, some preceding, none => .given preceding.id .trailing
  | .remaining, none, some following => .given following.id .leading
  | _, none, none => .given (around.enclosing.getD root).id .dangling

/-- What the rules say, with the language asked first. -/
def verdict (language : Language α) (root : Tree α) (text : String) (c : Comment) : Verdict α :=
  let around := surroundings language.canAttach root c.start c.stop
  let position := position (bytesOf text) c
  match language.handleComment root c position around with
  | some (owner, placement) => .given owner placement
  | none => generalVerdict root position around

/-- What is done on a verdict. -/
def Progress.follow (language : Language α) (text : String) (p : Progress α) (index : Nat) :
    Verdict α → Progress α
  | .given owner placement => { p with comments := p.comments.attachTo index owner placement }
  | .tied preceding following => p.tie language text ⟨index, preceding, following⟩

theorem place_eq_follow (language : Language α) (text : String) (root : Tree α) (p : Progress α)
    (index : Nat) (position : CommentPosition) (around : Surroundings α) :
    place language text root p index position around =
      p.follow language text index (generalVerdict root position around) := by
  obtain ⟨enclosing, preceding, following⟩ := around
  cases position <;> cases preceding <;> cases following <;> rfl

/-- One round of the loop. -/
theorem attachComment_eq_follow {language : Language α} {root : Tree α} {text : String}
    {p : Progress α} {index : Nat} {c : Comment} (hc : p.comments.get? index = some c) :
    attachComment language root text (bytesOf text) p index =
      (if position (bytesOf text) c = .remaining then p else p.settle language text).follow
        language text index (verdict language root text c) := by
  simp only [attachComment, hc, verdict]
  split <;> simp only [*, Progress.follow, place_eq_follow]

theorem position_of_verdict_eq_tied {language : Language α} {root : Tree α} {text : String}
    {c : Comment} {preceding following : Tree α}
    (h : verdict language root text c = .tied preceding following) :
    position (bytesOf text) c = .remaining := by
  simp only [verdict] at h
  split at h
  · cases h
  · unfold generalVerdict at h
    split at h <;> first | assumption | cases h

/-! ## Leading runs -/

section LeadingRun

variable (isGapText : String → Bool) (text : String) (cs : Comments)

/-- Where the first of some comments starts, or else the place after them. -/
def startOr (stop : Nat) : List Nat → Nat
  | [] => stop
  | i :: _ => cs.startOf i

/-- Only a gap separates the comment from what starts at `stop`. -/
def OpenTo (i stop : Nat) : Prop :=
  ∃ c, cs.get? i = some c ∧ (slice? text c.stop stop).any isGapText = true

/-- Only gaps separate each comment from the next, and the last from what starts at `stop`. -/
def LeadsTo (stop : Nat) : List Nat → Prop
  | [] => True
  | i :: rest => OpenTo isGapText text cs i (startOr cs stop rest) ∧ LeadsTo stop rest

variable {isGapText text cs} {stop : Nat} {l s : List Nat}

theorem leadsTo_concat {i : Nat} : LeadsTo isGapText text cs stop (l ++ [i]) ↔
    LeadsTo isGapText text cs (cs.startOf i) l ∧ OpenTo isGapText text cs i stop := by
  induction l with
  | nil => simp [LeadsTo, startOr]
  | cons j rest ih =>
    have hstart : startOr cs stop (rest ++ [i]) = startOr cs (cs.startOf i) rest := by
      cases rest <;> rfl
    rw [List.cons_append, LeadsTo, LeadsTo, ih, hstart, and_assoc]

variable (isGapText text cs l stop) in
/-- The last comment decides whether there is a run. -/
theorem leadingRun_concat (i : Nat) :
    (OpenTo isGapText text cs i stop ∧ leadingRun isGapText text cs stop (l ++ [i]).reverse =
      leadingRun isGapText text cs (cs.startOf i) l.reverse + 1) ∨
    (¬ OpenTo isGapText text cs i stop ∧
      leadingRun isGapText text cs stop (l ++ [i]).reverse = 0) := by
  rw [List.reverse_append, List.reverse_singleton, List.singleton_append, leadingRun, OpenTo,
    startOf]
  cases cs.get? i with
  | none => simp
  | some c =>
    by_cases hgap : (slice? text c.stop stop).any isGapText = true
    · exact .inl ⟨⟨c, rfl, hgap⟩, if_pos hgap⟩
    · refine .inr ⟨?_, if_neg hgap⟩
      rintro ⟨_, ⟨⟩, h⟩
      exact hgap h

variable (isGapText text cs stop l) in
theorem leadingRun_le : leadingRun isGapText text cs stop l.reverse ≤ l.length := by
  induction l using List.reverseRecOn generalizing stop with
  | nil => exact Nat.le_refl _
  | append_singleton l i ih =>
    rw [List.length_append, List.length_singleton]
    rcases leadingRun_concat isGapText text cs stop l i with ⟨-, hrun⟩ | ⟨-, hrun⟩
    · rw [hrun]
      exact Nat.succ_le_succ (ih _)
    · rw [hrun]
      exact Nat.zero_le _

/-- The end of the list that is in the run leads to `stop`. -/
theorem leadsTo_drop_leadingRun : LeadsTo isGapText text cs stop
    (l.drop (l.length - leadingRun isGapText text cs stop l.reverse)) := by
  induction l using List.reverseRecOn generalizing stop with
  | nil => trivial
  | append_singleton l i ih =>
    rcases leadingRun_concat isGapText text cs stop l i with ⟨hopen, hrun⟩ | ⟨-, hrun⟩
    · rw [hrun, List.length_append, List.length_singleton, Nat.add_sub_add_right,
        List.drop_append_of_le_length (Nat.sub_le _ _)]
      exact leadsTo_concat.mpr ⟨ih, hopen⟩
    · rw [hrun, Nat.sub_zero, List.drop_length]
      trivial

/-- No longer end of the list leads to `stop`. -/
theorem length_le_leadingRun (hs : s <:+ l) (hleads : LeadsTo isGapText text cs stop s) :
    s.length ≤ leadingRun isGapText text cs stop l.reverse := by
  induction l using List.reverseRecOn generalizing stop s with
  | nil => simp [List.suffix_nil.mp hs]
  | append_singleton l i ih =>
    rcases List.suffix_concat_iff.mp hs with rfl | ⟨t, rfl, ht⟩
    · exact Nat.zero_le _
    · obtain ⟨hleads, hopen⟩ := leadsTo_concat.mp hleads
      rcases leadingRun_concat isGapText text cs stop l i with ⟨-, hrun⟩ | ⟨hclosed, -⟩
      · rw [hrun, List.length_append, List.length_singleton]
        exact Nat.succ_le_succ (ih ht hleads)
      · exact absurd hopen hclosed

end LeadingRun

/-- The marks of the comments do not matter for the run. -/
theorem leadingRun_congr {isGapText : String → Bool} {text : String} {cs cs' : Comments}
    (h : cs'.bare = cs.bare) (stop : Nat) (l : List Nat) :
    leadingRun isGapText text cs' stop l = leadingRun isGapText text cs stop l := by
  induction l generalizing stop with
  | nil => rfl
  | cons i rest ih =>
    rw [leadingRun, leadingRun]
    cases hc : cs.get? i with
    | none =>
      have hlen : cs'.size = cs.size := by rw [← length_bare, h, length_bare]
      have hc' : cs'.get? i = none := by
        rw [get?, List.getElem?_eq_none_iff] at hc ⊢
        exact Nat.le_trans (Nat.le_of_eq hlen) hc
      rw [hc']
    | some c =>
      obtain ⟨c', hc', hstart, hstop⟩ := get?_of_bare_eq h hc
      simp only [hc', hstart, hstop, ih]

/-! ## Batches -/

section Batch

variable (language : Language α) (root : Tree α) (text : String) (cs : Comments)

/-- The comment of the tie stands between its nodes, and the language does not claim it. -/
def Tied (t : Tie α) : Prop :=
  ∃ c, cs.get? t.index = some c ∧
    verdict language root text c = .tied t.preceding t.following

/-- The comment ends a batch of ties to the node with the number `following`. -/
def Interrupts (i following : Nat) : Prop :=
  ∃ c, cs.get? i = some c ∧ (position (bytesOf text) c ≠ .remaining ∨
    ∃ p f, verdict language root text c = .tied p f ∧ f.id ≠ following)

/-- No comment between two others ends a batch. -/
def Unbroken (i j following : Nat) : Prop :=
  ∀ k, i < k → k < j → ¬ Interrupts language root text cs k following

/-- A longest run of ties to one node, in the order of the comments. -/
structure Batch (b : List (Tie α)) : Prop where
  sorted : b.Pairwise fun t u => t.index < u.index
  tied : ∀ t ∈ b, Tied language root text cs t
  mem_iff : ∀ t ∈ b, ∀ u, Tied language root text cs u →
    (u ∈ b ↔ u.following.id = t.following.id ∧
      Unbroken language root text cs t.index u.index t.following.id ∧
      Unbroken language root text cs u.index t.index t.following.id)

/-- The comments of a batch that get the node before them. -/
def trailingPart (b : List (Tie α)) : List Nat :=
  let indices := b.map (·.index)
  indices.take (indices.length - leadingRun language.isGapText text cs
    (b.head?.elim 0 (·.following.start)) indices.reverse)

/-- The comments of a batch that get the node after them. -/
def leadingPart (b : List (Tie α)) : List Nat :=
  let indices := b.map (·.index)
  indices.drop (indices.length - leadingRun language.isGapText text cs
    (b.head?.elim 0 (·.following.start)) indices.reverse)

variable {language root text cs} {t u first : Tie α} {b : List (Tie α)}

/-- A comment is tied to two nodes at most. -/
theorem Tied.eq (ht : Tied language root text cs t) (hu : Tied language root text cs u)
    (h : t.index = u.index) : t = u := by
  obtain ⟨c, hc, hverdict⟩ := ht
  obtain ⟨d, hd, hverdict'⟩ := hu
  rw [h, hd] at hc
  cases hc
  cases t
  cases u
  simp_all

theorem Tied.not_given (ht : Tied language root text cs t) {c : Comment} {owner : Nat}
    {placement : Placement} (hc : cs.get? t.index = some c) :
    verdict language root text c ≠ .given owner placement := by
  obtain ⟨d, hd, hverdict⟩ := ht
  rw [hc] at hd
  cases hd
  rw [hverdict]
  exact nofun

theorem Tied.lt_size (ht : Tied language root text cs t) : t.index < cs.size := by
  obtain ⟨c, hc, -⟩ := ht
  exact (List.getElem?_eq_some_iff.mp hc).1

/-- A tie does not end a batch of ties to the same node. -/
theorem Tied.not_interrupts (ht : Tied language root text cs t) :
    ¬ Interrupts language root text cs t.index t.following.id := by
  obtain ⟨c, hc, hverdict⟩ := ht
  rintro ⟨d, hd, hinterrupts⟩
  rw [hc] at hd
  cases hd
  rcases hinterrupts with hposition | ⟨p, f, hverdict', hne⟩
  · exact hposition (position_of_verdict_eq_tied hverdict)
  · rw [hverdict] at hverdict'
    cases hverdict'
    exact hne rfl

theorem Batch.eq {b' : List (Tie α)} (hb : Batch language root text cs b)
    (hb' : Batch language root text cs b') (ht : t ∈ b) (ht' : t ∈ b') : b = b' := by
  have : Std.Antisymm fun t u : Tie α => t.index < u.index := ⟨fun _ _ h h' => by omega⟩
  have : Std.Irrefl fun t u : Tie α => t.index < u.index := ⟨fun _ h => by omega⟩
  refine List.Pairwise.eq_of_mem_iff hb.sorted hb'.sorted fun u => ⟨fun hu => ?_, fun hu => ?_⟩
  · exact (hb'.mem_iff t ht' u (hb.tied u hu)).mpr ((hb.mem_iff t ht u (hb.tied u hu)).mp hu)
  · exact (hb.mem_iff t ht u (hb'.tied u hu)).mpr ((hb'.mem_iff t ht' u (hb'.tied u hu)).mp hu)

variable (language text cs) in
theorem trailingPart_append_leadingPart (b : List (Tie α)) :
    trailingPart language text cs b ++ leadingPart language text cs b = b.map (·.index) :=
  List.take_append_drop _ _

theorem mem_trailingPart_or (ht : t ∈ b) :
    t.index ∈ trailingPart language text cs b ∨ t.index ∈ leadingPart language text cs b := by
  rw [← List.mem_append, trailingPart_append_leadingPart]
  exact List.mem_map_of_mem ht

/-! ## Settling a batch -/

/-- The comments of a batch have their owners. -/
structure Settled (language : Language α) (text : String) (cs done : Comments) (first : Tie α)
    (b : List (Tie α)) : Prop where
  trailing : ∀ i ∈ trailingPart language text cs b, done.Owned i first.preceding.id .trailing
  leading : ∀ i ∈ leadingPart language text cs b, done.Owned i first.following.id .leading

variable {done : Comments} {rest : List (Tie α)}

theorem breakTies_eq (h : done.bare = cs.bare) (first : Tie α) (rest : List (Tie α)) :
    breakTies language.isGapText text done (first :: rest) =
      attachEach first.following.id .leading
        (attachEach first.preceding.id .trailing done
          (trailingPart language text cs (first :: rest)))
        (leadingPart language text cs (first :: rest)) := by
  rw [breakTies, leadingRun_congr h]
  rfl

variable (language text) in
theorem settled_breakTies (h : done.bare = cs.bare) (hdone : done.Consistent)
    (hsorted : (first :: rest).Pairwise fun t u => t.index < u.index)
    (hlt : ∀ t ∈ first :: rest, t.index < done.size) :
    Settled language text cs (breakTies language.isGapText text done (first :: rest)) first
      (first :: rest) := by
  have hsplit := trailingPart_append_leadingPart language text cs (first :: rest)
  have hnodup : ((first :: rest).map (·.index)).Nodup :=
    List.pairwise_map.mpr (hsorted.imp Nat.ne_of_lt)
  have hsize : ∀ i ∈ (first :: rest).map (·.index), i < done.size := by
    simpa using hlt
  rw [← hsplit] at hnodup hsize
  have htrailing := hdone.attachEach first.preceding.id .trailing
    (trailingPart language text cs (first :: rest))
  rw [breakTies_eq h]
  refine ⟨fun i hi => ?_, fun i hi => ?_⟩
  · refine (owned_attachEach hdone (fun j hj => hsize j ?_) hi).attachEach htrailing ?_
    · exact List.mem_append_left _ hj
    · exact fun hmem => (List.nodup_append.mp hnodup).2.2 i hi i hmem rfl
  · refine owned_attachEach htrailing (fun j hj => ?_) hi
    rw [size_attachEach]
    exact hsize j (List.mem_append_right _ hj)

end Batch

end Attach

end CodeFormatter
