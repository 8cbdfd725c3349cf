import CodeFormatter.Proofs.Comment.Surroundings
import CodeFormatter.Proofs.Comment.Ties
import CodeFormatter.Table

/-!
# Every comment gets one owner

After the loop every comment is *placed*: it is owned as its verdict says, or as the batch that its tie
is in is cut. This needs nothing of the language, the tree or the text.

The invariant of the loop has two parts. What is behind the loop is placed, apart from the ties that
wait (`Reached`). The ties that wait are the run of ties that nothing has interrupted yet (`Waiting`);
when something does, or when the comments end, they are a batch (`Waiting.batch`).

**Theorem (`exists_home`).** In a well-formed tree whose nodes do not overlap comments in part, a
placed comment has its *home* next to its anchor: it leads or trails a node of the level below, or it
dangles from the anchor, if there is no such node. All ties of a batch have the same two nodes, since
a node is on one level only, and has one neighbour before it there.
-/

namespace CodeFormatter.Attach

open Comments CodeFormatter.Tree

variable {α : Type}

/-! ## The loop -/

section Loop

variable (language : Language α) (root : Tree α) (text : String) (cs : Comments)

/-- The comment is owned as the rules say. -/
inductive Placed (done : Comments) (i : Nat) : Prop
  | given {c : Comment} {owner : Nat} {placement : Placement} (hc : cs.get? i = some c)
      (hverdict : verdict language root text c = .given owner placement)
      (howned : done.Owned i owner placement)
  | tied {first t : Tie α} {rest : List (Tie α)}
      (hbatch : Batch language root text cs (first :: rest)) (ht : t ∈ first :: rest)
      (hi : t.index = i)
      (htrailing : i ∈ trailingPart language text cs (first :: rest) →
        done.Owned i first.preceding.id .trailing)
      (hleading : i ∈ leadingPart language text cs (first :: rest) →
        done.Owned i first.following.id .leading)

/-- The ties before the comment `k` that nothing has interrupted. -/
structure Waiting (k : Nat) (ties : List (Tie α)) : Prop where
  sorted : ties.Pairwise fun t u => t.index < u.index
  lt : ∀ t ∈ ties, t.index < k
  tied : ∀ t ∈ ties, Tied language root text cs t
  same : ∀ t ∈ ties, ∀ u ∈ ties, u.following.id = t.following.id
  unbroken : ∀ t ∈ ties, Unbroken language root text cs t.index k t.following.id
  complete : ∀ t, Tied language root text cs t → t.index < k →
    Unbroken language root text cs t.index k t.following.id → t ∈ ties

/-- The loop has come to the comment `k`. The store differs from the one at the start only in the
comments before that. -/
structure Reached (k : Nat) (p : Progress α) : Prop where
  consistent : p.comments.Consistent
  bare : p.comments.bare = cs.bare
  emitted : p.comments.emitted = cs.emitted
  ahead : ∀ i, k ≤ i → p.comments.get? i = cs.get? i
  placed : ∀ i < k, (∀ t ∈ p.ties, t.index ≠ i) → Placed language root text cs p.comments i

variable {language root text cs} {k : Nat} {p : Progress α} {t : Tie α} {ties : List (Tie α)}

theorem Placed.imp {done done' : Comments} {i : Nat} (h : Placed language root text cs done i)
    (himp : ∀ n placement, done.Owned i n placement → done'.Owned i n placement) :
    Placed language root text cs done' i := by
  cases h with
  | given hc hverdict howned => exact .given hc hverdict (himp _ _ howned)
  | tied hbatch ht hi htrailing hleading =>
    exact .tied hbatch ht hi (himp _ _ ∘ htrailing) (himp _ _ ∘ hleading)

theorem Placed.exists_owned {done : Comments} {i : Nat}
    (h : Placed language root text cs done i) : ∃ n placement, done.Owned i n placement := by
  cases h with
  | given _ _ howned => exact ⟨_, _, howned⟩
  | tied hbatch ht hi htrailing hleading =>
    subst hi
    exact (mem_trailingPart_or ht).elim (fun h => ⟨_, _, htrailing h⟩) fun h => ⟨_, _, hleading h⟩

/-! ### The ties that wait -/

theorem waiting_nil : Waiting language root text cs 0 [] where
  sorted := .nil
  lt _ h := by cases h
  tied _ h := by cases h
  same _ h := by cases h
  unbroken _ h := by cases h
  complete _ _ h := absurd h (Nat.not_lt_zero _)

/-- One comment on: the ties that it interrupts are gone, and its own is added. -/
theorem Waiting.next (h : Waiting language root text cs k ties) {kept new : List (Tie α)}
    (hsub : kept.Sublist ties)
    (hkept : ∀ t ∈ ties, t ∈ kept ↔ ¬ Interrupts language root text cs k t.following.id)
    (hsorted : new.Pairwise fun t u => t.index < u.index)
    (hnew : ∀ t, t ∈ new ↔ Tied language root text cs t ∧ t.index = k) :
    Waiting language root text cs (k + 1) (kept ++ new) := by
  have hmem : ∀ {t}, t ∈ kept → t ∈ ties ∧ ¬ Interrupts language root text cs k t.following.id :=
    fun ht => ⟨hsub.subset ht, (hkept _ (hsub.subset ht)).mp ht⟩
  -- A tie that is kept and the new one have the same node after them.
  have hsame : ∀ {t u}, t ∈ kept → u ∈ new → u.following.id = t.following.id := by
    intro t u ht hu
    obtain ⟨⟨c, hc, hverdict⟩, rfl⟩ := (hnew u).mp hu
    by_contra hne
    exact (hmem ht).2 ⟨c, hc, .inr ⟨_, _, hverdict, hne⟩⟩
  refine ⟨?_, ?_, ?_, ?_, ?_, ?_⟩
  · refine List.pairwise_append.mpr ⟨h.sorted.sublist hsub, hsorted, fun t ht u hu => ?_⟩
    have := h.lt t (hmem ht).1
    have := ((hnew u).mp hu).2
    omega
  · intro t ht
    rcases List.mem_append.mp ht with ht | ht
    · exact Nat.lt_succ_of_lt (h.lt t (hmem ht).1)
    · rw [((hnew t).mp ht).2]
      exact Nat.lt_succ_self k
  · intro t ht
    rcases List.mem_append.mp ht with ht | ht
    · exact h.tied t (hmem ht).1
    · exact ((hnew t).mp ht).1
  · intro t ht u hu
    rcases List.mem_append.mp ht with ht | ht <;> rcases List.mem_append.mp hu with hu | hu
    · exact h.same t (hmem ht).1 u (hmem hu).1
    · exact hsame ht hu
    · exact (hsame hu ht).symm
    · obtain ⟨htied, hindex⟩ := (hnew t).mp ht
      obtain ⟨htied', hindex'⟩ := (hnew u).mp hu
      rw [htied.eq htied' (hindex.trans hindex'.symm)]
  · intro t ht j hlo hhi
    rcases List.mem_append.mp ht with ht | ht
    · rcases Nat.lt_succ_iff_lt_or_eq.mp hhi with hlt | rfl
      · exact h.unbroken t (hmem ht).1 j hlo hlt
      · exact (hmem ht).2
    · have := ((hnew t).mp ht).2
      omega
  · intro t ht hlt hunbroken
    rcases Nat.lt_succ_iff_lt_or_eq.mp hlt with hlt | heq
    · have hties := h.complete t ht hlt fun j hlo hhi => hunbroken j hlo (Nat.lt_succ_of_lt hhi)
      exact List.mem_append_left _ ((hkept t hties).mpr (hunbroken k hlt (Nat.lt_succ_self k)))
    · exact List.mem_append_right _ ((hnew t).mpr ⟨ht, heq⟩)

/-- Ties that the next comment interrupts, or that no comment is after, are a batch. -/
theorem Waiting.batch (h : Waiting language root text cs k ties)
    (hend : ∀ t ∈ ties, Interrupts language root text cs k t.following.id ∨ cs.size ≤ k) :
    Batch language root text cs ties := by
  refine ⟨h.sorted, h.tied, fun t ht u hu => ⟨fun hmem => ?_, ?_⟩⟩
  · have hsame := h.same t ht u hmem
    refine ⟨hsame, fun j hlo hhi => ?_, fun j hlo hhi => ?_⟩
    · exact h.unbroken t ht j hlo (Nat.lt_trans hhi (h.lt u hmem))
    · rw [← hsame]
      exact h.unbroken u hmem j hlo (Nat.lt_trans hhi (h.lt t ht))
  · rintro ⟨hsame, hbetween, hbetween'⟩
    rcases Nat.lt_trichotomy u.index k with hlt | heq | hgt
    · refine h.complete u hu hlt fun j hlo hhi => ?_
      rw [hsame]
      rcases Nat.lt_trichotomy j t.index with hjt | rfl | hjt
      · exact hbetween' j hlo hjt
      · exact (h.tied t ht).not_interrupts
      · exact h.unbroken t ht j hjt hhi
    · have hinterrupts := (hend t ht).resolve_right (by have := hu.lt_size; omega)
      rw [← hsame, ← heq] at hinterrupts
      exact absurd hinterrupts hu.not_interrupts
    · have hinterrupts := (hend t ht).resolve_right (by have := hu.lt_size; omega)
      exact absurd hinterrupts (hbetween k (h.lt t ht) hgt)

/-! ### One round -/

/-- Settling places the ties that wait. -/
theorem Reached.settle (h : Reached language root text cs k p)
    (hwaiting : Waiting language root text cs k p.ties) (hk : k ≤ cs.size)
    (hend : ∀ t ∈ p.ties, Interrupts language root text cs k t.following.id ∨ cs.size ≤ k) :
    Reached language root text cs k (p.settle language text) := by
  have hbatch := hwaiting.batch hend
  obtain ⟨done, ties⟩ := p
  cases ties with
  | nil => exact h
  | cons first rest =>
    have hsize : done.size = cs.size := by rw [← length_bare, h.bare, length_bare]
    have hlt : ∀ t ∈ first :: rest, t.index < done.size := fun t ht => by
      have := hwaiting.lt t ht
      omega
    have hsettled := settled_breakTies language text h.bare h.consistent hwaiting.sorted
      hlt
    have hmem : ∀ {i}, i ∈ trailingPart language text cs (first :: rest) ∨
        i ∈ leadingPart language text cs (first :: rest) → ∃ t ∈ first :: rest, t.index = i := by
      intro i hi
      rw [← List.mem_append, trailingPart_append_leadingPart] at hi
      exact List.mem_map.mp hi
    have htrailing := h.consistent.attachEach first.preceding.id .trailing
      (trailingPart language text cs (first :: rest))
    refine ⟨?_, ?_, ?_, fun i hi => ?_, fun i hi _ => ?_⟩
    · rw [Progress.settle, breakTies_eq h.bare]
      exact htrailing.attachEach _ _ _
    · rw [Progress.settle, breakTies_eq h.bare, bare_attachEach, bare_attachEach, h.bare]
    · rw [Progress.settle, breakTies_eq h.bare, emitted_attachEach, emitted_attachEach, h.emitted]
    · have hout : ∀ t ∈ first :: rest, t.index ≠ i := fun t ht => by
        have := hwaiting.lt t ht
        omega
      rw [Progress.settle, breakTies_eq h.bare, get?_attachEach, get?_attachEach]
      · exact h.ahead i hi
      · exact fun hi => (hmem (.inl hi)).elim fun t ht => hout t ht.1 ht.2
      · exact fun hi => (hmem (.inr hi)).elim fun t ht => hout t ht.1 ht.2
    · by_cases hties : ∃ t ∈ first :: rest, t.index = i
      · obtain ⟨t, ht, rfl⟩ := hties
        exact .tied hbatch ht rfl (hsettled.trailing _) (hsettled.leading _)
      · refine (h.placed i hi fun t ht heq => hties ⟨t, ht, heq⟩).imp fun n placement howned => ?_
        rw [Progress.settle, breakTies_eq h.bare]
        exact (howned.attachEach h.consistent fun hi => hties (hmem (.inl hi))).attachEach htrailing
          fun hi => hties (hmem (.inr hi))

/-- A comment gets the owner of its verdict. -/
theorem Reached.give (h : Reached language root text cs k p) {c : Comment} {owner : Nat}
    {placement : Placement} (hc : cs.get? k = some c)
    (hverdict : verdict language root text c = .given owner placement) :
    Reached language root text cs (k + 1)
      { p with comments := p.comments.attachTo k owner placement } := by
  have hk : k < p.comments.size := by
    rw [← length_bare, h.bare, length_bare]
    exact (List.getElem?_eq_some_iff.mp hc).1
  refine ⟨h.consistent.attachTo k owner placement, ?_, ?_, fun i hi => ?_, fun i hi hties => ?_⟩
  · rw [bare_attachTo, h.bare]
  · rw [emitted_attachTo, h.emitted]
  · rw [get?_attachTo_ne (by omega), h.ahead i (by omega)]
  · rcases Nat.lt_succ_iff_lt_or_eq.mp hi with hlt | rfl
    · exact (h.placed i hlt hties).imp fun n pl howned =>
        howned.attachTo h.consistent (Nat.ne_of_lt hlt) owner placement
    · exact .given hc hverdict (owned_attachTo h.consistent hk owner placement)

/-- A comment joins the ties that wait. -/
theorem Reached.wait (h : Reached language root text cs k p) (ht : t.index = k) :
    Reached language root text cs (k + 1) { p with ties := p.ties ++ [t] } := by
  refine ⟨h.consistent, h.bare, h.emitted, fun i hi => h.ahead i (by omega), fun i hi hties => ?_⟩
  have hne : t.index ≠ i := hties t (by simp)
  exact h.placed i (by omega) fun u hu => hties u (List.mem_append_left _ hu)

/-- One round of the loop keeps the invariant. -/
theorem reached_attachComment (h : Reached language root text cs k p)
    (hwaiting : Waiting language root text cs k p.ties) (hk : k < cs.size) :
    Reached language root text cs (k + 1)
        (attachComment language root text (bytesOf text) p k) ∧
      Waiting language root text cs (k + 1)
        (attachComment language root text (bytesOf text) p k).ties := by
  obtain ⟨c, hc⟩ := get?_eq_some_of_lt hk
  rw [attachComment_eq_follow ((h.ahead k (Nat.le_refl k)).trans hc)]
  have hsettle := h.settle hwaiting (Nat.le_of_lt hk)
  cases hverdict : verdict language root text c with
  | given owner placement =>
    have hnew : ∀ t : Tie α, t ∈ ([] : List (Tie α)) ↔
        Tied language root text cs t ∧ t.index = k := by
      intro t
      refine iff_of_false List.not_mem_nil ?_
      rintro ⟨ht, rfl⟩
      exact ht.not_given hc hverdict
    split
    case isTrue hposition =>
      -- The comment is in the middle of its line, and has an owner: the ties go on waiting.
      have hkept : ∀ t ∈ p.ties, t ∈ p.ties ↔
          ¬ Interrupts language root text cs k t.following.id := by
        refine fun t ht => iff_of_true ht ?_
        rintro ⟨d, hd, hinterrupts⟩
        rw [hc] at hd
        cases hd
        rcases hinterrupts with hne | ⟨_, _, hverdict', -⟩
        · exact hne hposition
        · rw [hverdict] at hverdict'
          cases hverdict'
      have hwaiting' := hwaiting.next (.refl _) hkept .nil hnew
      rw [List.append_nil] at hwaiting'
      exact ⟨h.give hc hverdict, hwaiting'⟩
    case isFalse hposition =>
      have hinterrupts : ∀ n, Interrupts language root text cs k n := fun n =>
        ⟨c, hc, .inl hposition⟩
      have hkept : ∀ t ∈ p.ties, t ∈ ([] : List (Tie α)) ↔
          ¬ Interrupts language root text cs k t.following.id :=
        fun t _ => iff_of_false List.not_mem_nil (not_not_intro (hinterrupts _))
      exact ⟨(hsettle fun t _ => .inl (hinterrupts _)).give hc hverdict,
        hwaiting.next (List.nil_sublist _) hkept .nil hnew⟩
  | tied preceding following =>
    have htied : Tied language root text cs ⟨k, preceding, following⟩ := ⟨c, hc, hverdict⟩
    have hnew : ∀ t : Tie α, t ∈ [⟨k, preceding, following⟩] ↔
        Tied language root text cs t ∧ t.index = k := by
      intro t
      rw [List.mem_singleton]
      refine ⟨?_, fun ht => ht.1.eq htied ht.2⟩
      rintro rfl
      exact ⟨htied, rfl⟩
    rw [if_pos (position_of_verdict_eq_tied hverdict), Progress.follow, Progress.tie]
    cases hlast : p.ties.getLast? with
    | none =>
      have hnil : p.ties = [] := List.getLast?_eq_none_iff.mp hlast
      refine ⟨h.wait rfl, hwaiting.next (.refl _) ?_ (List.pairwise_singleton _ _) hnew⟩
      simp [hnil]
    | some last =>
      have hmem : last ∈ p.ties := List.mem_of_getLast? hlast
      by_cases hid : last.following.id = following.id
      · simp only [if_pos hid]
        refine ⟨h.wait rfl, hwaiting.next (.refl _) ?_ (List.pairwise_singleton _ _) hnew⟩
        refine fun t ht => iff_of_true ht ?_
        rw [← hwaiting.same t ht last hmem, hid]
        exact htied.not_interrupts
      · have hinterrupts : ∀ t ∈ p.ties, Interrupts language root text cs k t.following.id := by
          refine fun t ht => ⟨c, hc, .inr ⟨_, _, hverdict, ?_⟩⟩
          rw [← hwaiting.same t ht last hmem]
          exact Ne.symm hid
        simp only [if_neg hid]
        refine ⟨(hsettle fun t ht => .inl (hinterrupts t ht)).wait rfl,
          hwaiting.next (List.nil_sublist _) ?_ (List.pairwise_singleton _ _) hnew⟩
        exact fun t ht => iff_of_false List.not_mem_nil (not_not_intro (hinterrupts t ht))

/-! ### The whole loop -/

variable (language root text) in
theorem reached_foldl (hcs : cs.Consistent) (hk : k ≤ cs.size) :
    Reached language root text cs k
        ((List.range k).foldl (attachComment language root text (bytesOf text)) ⟨cs, []⟩) ∧
      Waiting language root text cs k
        ((List.range k).foldl (attachComment language root text (bytesOf text)) ⟨cs, []⟩).ties := by
  induction k with
  | zero =>
    exact ⟨⟨hcs, rfl, rfl, fun _ _ => rfl, fun _ h => absurd h (Nat.not_lt_zero _)⟩, waiting_nil⟩
  | succ k ih =>
    obtain ⟨hreached, hwaiting⟩ := ih (Nat.le_of_succ_le hk)
    rw [List.range_succ, List.foldl_append]
    exact reached_attachComment hreached hwaiting hk

variable (language root text) in
/-- **All comments are placed.** -/
theorem reached_attach (hcs : cs.Consistent) :
    (attach language root text cs).Consistent ∧ (attach language root text cs).bare = cs.bare ∧
      (attach language root text cs).emitted = cs.emitted ∧
      ∀ i < cs.size, Placed language root text cs (attach language root text cs) i := by
  obtain ⟨hreached, hwaiting⟩ := reached_foldl language root text hcs (Nat.le_refl _)
  have h := hreached.settle hwaiting (Nat.le_refl _) fun _ _ => .inr (Nat.le_refl _)
  exact ⟨h.consistent, h.bare, h.emitted, fun i hi => h.placed i hi fun _ ht => by cases ht⟩

end Loop

/-! ## Homes -/

/-- How an owner stands to the anchor of a span. -/
inductive Rests (f : Tree α → Bool) (a : Tree α) (start stop : Nat) : Tree α → Placement → Prop
  | leading {t : Tree α} (ht : t ∈ ownersBelow f a) (hstop : stop ≤ t.start) :
      Rests f a start stop t .leading
  | trailing {t : Tree α} (ht : t ∈ ownersBelow f a) (hstart : t.stop ≤ start) :
      Rests f a start stop t .trailing
  | dangling (hnil : ownersBelow f a = []) : Rests f a start stop a .dangling

/-- An owner and a placement for a span: at the innermost node that holds it. -/
structure Home (f : Tree α → Bool) (root : Tree α) (start stop : Nat) (a t : Tree α)
    (placement : Placement) : Prop extends Anchor f root start stop a where
  innermost : ∀ v ∈ root.nodes, f v = true → ¬ v.Avoids start stop → a ∈ v.nodes
  rests : Rests f a start stop t placement

theorem Home.mem_nodes {f : Tree α → Bool} {root a t : Tree α} {start stop : Nat}
    {placement : Placement} (h : Home f root start stop a t placement) : t ∈ root.nodes := by
  cases h.rests with
  | leading ht => exact mem_nodes_trans (mem_nodes_of_mem_ownersBelow ht) h.mem
  | trailing ht => exact mem_nodes_trans (mem_nodes_of_mem_ownersBelow ht) h.mem
  | dangling => exact h.mem

section Home

variable {language : Language α} {root a : Tree α} {text : String} {cs done : Comments} {i : Nat}
  {c : Comment}

/-- Outside of ties the general rules give a comment an owner next to its anchor. -/
theorem Around.rests {f : Tree α → Bool} {start stop owner : Nat} {s : Surroundings α}
    {position : CommentPosition} {placement : Placement} (h : Around f root start stop a s)
    (hverdict : generalVerdict root position s = .given owner placement) :
    ∃ t, t.id = owner ∧ Rests f a start stop t placement := by
  obtain ⟨enclosing, preceding, following⟩ := s
  have hleading : ∀ t, following = some t → Rests f a start stop t .leading := by
    rintro t rfl
    exact .leading h.neighbours.mem_following (h.neighbours.after t rfl).1
  have htrailing : ∀ t, preceding = some t → Rests f a start stop t .trailing := by
    rintro t rfl
    exact .trailing h.neighbours.mem_preceding (h.neighbours.before t rfl).1
  have hdangling : preceding = none → following = none →
      Rests f a start stop (enclosing.getD root) .dangling := by
    rintro rfl rfl
    rw [h.enclosing]
    exact .dangling h.neighbours.eq_nil
  cases position <;> cases preceding <;> cases following <;> cases hverdict <;>
    first
    | exact ⟨_, rfl, hleading _ rfl⟩
    | exact ⟨_, rfl, htrailing _ rfl⟩
    | exact ⟨_, rfl, hdangling rfl rfl⟩

/-- The nodes of a tie are the neighbours of its comment. -/
theorem Tied.exists_around {t : Tie α} (ht : Tied language root text cs t)
    (hclear : ∀ i c, cs.get? i = some c → Clear language.canAttach root c.start c.stop) :
    ∃ c a enclosing, cs.get? t.index = some c ∧
      Around language.canAttach root c.start c.stop a
        ⟨enclosing, some t.preceding, some t.following⟩ := by
  obtain ⟨c, hc, hverdict⟩ := ht
  obtain ⟨a, haround⟩ := around_surroundings (hclear _ c hc)
  simp only [verdict] at hverdict
  split at hverdict
  · cases hverdict
  · revert haround hverdict
    generalize surroundings language.canAttach root c.start c.stop = s
    obtain ⟨enclosing, preceding, following⟩ := s
    intro haround hverdict
    refine ⟨c, a, enclosing, hc, ?_⟩
    unfold generalVerdict at hverdict
    split at hverdict <;> cases hverdict
    simp_all

/-- Ties to the same node after them have the same node before them. -/
theorem Tied.same_neighbours {t u : Tie α} (hroot : root.WellFormed)
    (hclear : ∀ i c, cs.get? i = some c → Clear language.canAttach root c.start c.stop)
    (ht : Tied language root text cs t) (hu : Tied language root text cs u)
    (hid : u.following.id = t.following.id) :
    u.preceding = t.preceding ∧ u.following = t.following := by
  obtain ⟨c, a, enclosing, hc, hcaround⟩ := ht.exists_around hclear
  obtain ⟨d, b, enclosing', hd, hdaround⟩ := hu.exists_around hclear
  have hta := hcaround.neighbours.mem_following
  have hub := hdaround.neighbours.mem_following
  have hfollowing : u.following = t.following := hroot.eq_of_id_eq
    (mem_nodes_trans (mem_nodes_of_mem_ownersBelow hub) hdaround.mem)
    (mem_nodes_trans (mem_nodes_of_mem_ownersBelow hta) hcaround.mem) hid
  rw [hfollowing] at hub hdaround
  obtain rfl : b = a := hroot.eq_of_mem_ownersBelow hdaround.mem hcaround.mem
    (hdaround.holds.imp_right And.left) (hcaround.holds.imp_right And.left) hub hta
  have hpreceding := hdaround.neighbours.preceding_eq
    ((hroot.of_mem hdaround.mem).nodup_ownersBelow language.canAttach) hcaround.neighbours
  exact ⟨Option.some.inj hpreceding, hfollowing⟩

/-- **The home of a comment.** A placed comment that the language does not claim has its owner at the
innermost node that holds it. -/
theorem Placed.exists_home (hroot : root.WellFormed)
    (hclear : ∀ i c, cs.get? i = some c → Clear language.canAttach root c.start c.stop)
    (h : Placed language root text cs done i) (hc : cs.get? i = some c) :
    (∃ owner placement, done.Owned i owner placement ∧
      language.handleComment root c (position (bytesOf text) c)
        (surroundings language.canAttach root c.start c.stop) = some (owner, placement)) ∨
    ∃ a t placement, Home language.canAttach root c.start c.stop a t placement ∧
      done.Owned i t.id placement := by
  cases h with
  | given hc' hverdict howned =>
    rw [hc] at hc'
    cases hc'
    simp only [verdict] at hverdict
    split at hverdict
    case h_1 heq =>
      cases hverdict
      exact .inl ⟨_, _, howned, heq⟩
    case h_2 =>
      obtain ⟨a, haround⟩ := around_surroundings (hclear i c hc)
      obtain ⟨t, rfl, hrests⟩ := haround.rests hverdict
      exact .inr ⟨a, t, _, ⟨haround.toAnchor, fun v => haround.innermost hroot, hrests⟩, howned⟩
  | @tied first t rest hbatch ht hi htrailing hleading =>
    subst hi
    have htied := hbatch.tied t ht
    have hfirst : first ∈ first :: rest := List.mem_cons_self
    have hid := ((hbatch.mem_iff t ht first (hbatch.tied first hfirst)).mp hfirst).1
    obtain ⟨hpreceding, hfollowing⟩ :=
      htied.same_neighbours hroot hclear (hbatch.tied first hfirst) hid
    rw [hpreceding] at htrailing
    rw [hfollowing] at hleading
    obtain ⟨d, a, enclosing, hd, haround⟩ := htied.exists_around hclear
    rw [hc] at hd
    cases hd
    have hhome : ∀ {t placement}, Rests language.canAttach a c.start c.stop t placement →
        Home language.canAttach root c.start c.stop a t placement :=
      fun hrests => ⟨haround.toAnchor, fun v => haround.innermost hroot, hrests⟩
    rcases mem_trailingPart_or ht with hmem | hmem
    · exact .inr ⟨a, t.preceding, _, hhome (.trailing haround.neighbours.mem_preceding
        (haround.neighbours.before _ rfl).1), htrailing hmem⟩
    · exact .inr ⟨a, t.following, _, hhome (.leading haround.neighbours.mem_following
        (haround.neighbours.after _ rfl).1), hleading hmem⟩

end Home

/-! ## What attachment promises -/

/-- The comments are the ones that were given. Each is marked, and is in the list of one node, its
owner, and there once. -/
structure OwnedOnce (comments : List Comment) (done : Comments) : Prop where
  perm : done.bare.Perm (comments.map Comment.bare)
  marked : ∀ i < comments.length,
    ∃ c, done.get? i = some c ∧ c.attached = true ∧ c.placement.isSome = true
  once : ∀ i < comments.length,
    ∃ n, done.owner? i = some n ∧ ∀ m, (done.of m).count i = if m = n then 1 else 0

/-- The comment stands on the side of its owner that its placement says. -/
structure Faces (f : Tree α → Bool) (root t : Tree α) (c : Comment) : Prop where
  leading : c.placement = some .leading → c.stop ≤ t.start
  trailing : c.placement = some .trailing → t.stop ≤ c.start
  dangling : c.placement = some .dangling →
    (t = root ∨ f t = true ∧ t.Holds c.start c.stop) ∧
    (∀ v ∈ root.nodes, f v = true → ¬ v.Avoids c.start c.stop → t ∈ v.nodes) ∧
    ownersBelow f t = []

/-- A batch is cut in two: the second part is the longest end of it that leads to the node after the
batch with nothing but gaps in between, and is owned by that node; the first part is owned by the node
before. -/
structure Cut (language : Language α) (text : String) (cs done : Comments) (b : List (Tie α))
    (preceding following : Tree α) (first second : List Nat) : Prop where
  append : first ++ second = b.map (·.index)
  trailing : ∀ i ∈ first, done.Owned i preceding.id .trailing
  leading : ∀ i ∈ second, done.Owned i following.id .leading
  gaps : LeadsTo language.isGapText text cs following.start second
  longest : ∀ s, s <:+ b.map (·.index) → LeadsTo language.isGapText text cs following.start s →
    s.length ≤ second.length

/-- Every comment faces its owner, every tie is in a batch, and every batch stands between two nodes
and is cut in two there. -/
structure Located (language : Language α) (root : Tree α) (text : String) (cs done : Comments) :
    Prop where
  faces : ∀ i c, done.get? i = some c →
    ∃ t ∈ root.nodes, done.owner? i = some t.id ∧ Faces language.canAttach root t c
  batch : ∀ t, Tied language root text cs t → ∃ b, Batch language root text cs b ∧ t ∈ b
  cut : ∀ b, Batch language root text cs b → b ≠ [] → ∃ preceding following,
    (∀ t ∈ b, t.preceding = preceding ∧ t.following = following) ∧
    ∃ first second, Cut language text cs done b preceding following first second

section Promise

variable {language : Language α} {root : Tree α} {text : String} {cs done : Comments}
  {comments : List Comment}

theorem Home.faces {c : Comment} {a t : Tree α} {placement : Placement}
    (h : Home language.canAttach root c.start c.stop a t placement)
    (hplacement : c.placement = some placement) : Faces language.canAttach root t c := by
  obtain ⟨hanchor, hinnermost, hrests⟩ := h
  refine ⟨fun heq => ?_, fun heq => ?_, fun heq => ?_⟩
  all_goals
    rw [hplacement] at heq
    cases heq
    cases hrests
  · assumption
  · assumption
  · exact ⟨hanchor.holds, hinnermost, ‹_›⟩

/-- A tie is placed as part of the batch that it is in. -/
theorem Batch.owned {first t : Tie α} {rest : List (Tie α)}
    (hb : Batch language root text cs (first :: rest))
    (hplaced : ∀ i < cs.size, Placed language root text cs done i) (ht : t ∈ first :: rest) :
    (t.index ∈ trailingPart language text cs (first :: rest) →
      done.Owned t.index first.preceding.id .trailing) ∧
    (t.index ∈ leadingPart language text cs (first :: rest) →
      done.Owned t.index first.following.id .leading) := by
  have htied := hb.tied t ht
  cases hplaced t.index htied.lt_size with
  | given hc hverdict => exact absurd hverdict (htied.not_given hc)
  | tied hbatch hu hindex htrailing hleading =>
    obtain rfl := (hbatch.tied _ hu).eq htied hindex
    cases hb.eq hbatch ht hu
    exact ⟨htrailing, hleading⟩

theorem Batch.exists_cut (hroot : root.WellFormed)
    (hclear : ∀ i c, cs.get? i = some c → Clear language.canAttach root c.start c.stop)
    (hplaced : ∀ i < cs.size, Placed language root text cs done i) {b : List (Tie α)}
    (hb : Batch language root text cs b) (hne : b ≠ []) : ∃ preceding following,
      (∀ t ∈ b, t.preceding = preceding ∧ t.following = following) ∧
      ∃ first second, Cut language text cs done b preceding following first second := by
  obtain ⟨first, rest, rfl⟩ := List.exists_cons_of_ne_nil hne
  have hfirst : first ∈ first :: rest := List.mem_cons_self
  have hsplit := trailingPart_append_leadingPart language text cs (first :: rest)
  have hmem : ∀ i ∈ trailingPart language text cs (first :: rest) ++
      leadingPart language text cs (first :: rest), ∃ t ∈ first :: rest, t.index = i := by
    intro i hi
    rw [hsplit] at hi
    exact List.mem_map.mp hi
  refine ⟨first.preceding, first.following, fun t ht => ?_, _, _, hsplit, fun i hi => ?_,
    fun i hi => ?_, leadsTo_drop_leadingRun, fun s hs hleads => ?_⟩
  · exact (hb.tied first hfirst).same_neighbours hroot hclear (hb.tied t ht)
      ((hb.mem_iff first hfirst t (hb.tied t ht)).mp ht).1
  · obtain ⟨t, ht, rfl⟩ := hmem i (List.mem_append_left _ hi)
    exact (hb.owned hplaced ht).1 hi
  · obtain ⟨t, ht, rfl⟩ := hmem i (List.mem_append_right _ hi)
    exact (hb.owned hplaced ht).2 hi
  · have hrun := length_le_leadingRun hs hleads
    have hle := leadingRun_le language.isGapText text cs first.following.start
      ((first :: rest).map (·.index))
    rw [leadingPart, List.length_drop]
    simp only [List.head?_cons, Option.elim_some]
    omega

end Promise

/-- **Attachment.** Every comment gets one owner, whatever the language, the tree and the text. If the
language claims no comment, and the nodes that can own comments do not overlap comments in part, it
gets it where it stands. -/
theorem attach_ownedOnce_and_located (language : Language α) (root : Tree α) (text : String)
    (comments : List Comment) :
    OwnedOnce comments (attach language root text (.ofList comments)) ∧
    ((∀ t c position around, language.handleComment t c position around = none) →
      root.WellFormed → (∀ c ∈ comments, Clear language.canAttach root c.start c.stop) →
      Located language root text (.ofList comments)
        (attach language root text (.ofList comments))) := by
  obtain ⟨hconsistent, hbare, -, hplaced⟩ :=
    reached_attach language root text (consistent_ofList comments)
  generalize attach language root text (.ofList comments) = done at *
  have hsize : (Comments.ofList comments).size = comments.length := size_ofList comments
  refine ⟨⟨?_, fun i hi => ?_, fun i hi => ?_⟩, fun hhook hroot hclear => ?_⟩
  · rw [hbare]
    exact (perm_sortByStart comments).map _
  · obtain ⟨n, placement, -, c, hc, hattached, hplacement⟩ :=
      (hplaced i (hsize ▸ hi)).exists_owned
    exact ⟨c, hc, hattached, by rw [hplacement, Option.isSome_some]⟩
  · obtain ⟨n, placement, howner, -⟩ := (hplaced i (hsize ▸ hi)).exists_owned
    refine ⟨n, howner, fun m => ?_⟩
    rw [hconsistent.count_of, howner]
    simp only [Option.some.injEq, eq_comm]
  · have hclear : ∀ i c, (Comments.ofList comments).get? i = some c →
        Clear language.canAttach root c.start c.stop := fun i c hc =>
      hclear c ((perm_sortByStart comments).mem_iff.mp (List.mem_of_getElem? hc))
    refine ⟨fun i c hc => ?_, fun t ht => ?_, fun b hb => hb.exists_cut hroot hclear hplaced⟩
    · obtain ⟨d, hd, hstart, hstop⟩ := get?_of_bare_eq hbare.symm hc
      have hi : i < (Comments.ofList comments).size := (List.getElem?_eq_some_iff.mp hd).1
      rcases (hplaced i hi).exists_home hroot hclear hd with ⟨_, _, _, hclaims⟩ | ⟨a, t, p, hhome, ho⟩
      · rw [hhook] at hclaims
        cases hclaims
      · obtain ⟨howner, c', hc', -, hplacement⟩ := ho
        rw [hc] at hc'
        cases hc'
        rw [hstart, hstop] at hhome
        exact ⟨t, hhome.mem_nodes, howner, hhome.faces hplacement⟩
    · cases hplaced t.index ht.lt_size with
      | given hc hverdict => exact absurd hverdict (ht.not_given hc)
      | tied hbatch hu hindex =>
        obtain rfl := (hbatch.tied _ hu).eq ht hindex
        exact ⟨_, hbatch, hu⟩

end CodeFormatter.Attach

namespace CodeFormatter.Table

open Attach CodeFormatter.Tree

/-- A row that is printed as its children, and then its dangling comments. -/
def plainRow (kind : String) (start stop : Nat) (children : List Nat) : Row where
  kind := kind
  start := start
  stop := stop
  children := children
  doc := some (.build [.children (.text ", "), .dangling true] .concat)
  embed := none
  transparent := false
  element := false
  redundant := false

/-- A table that is not asked for anything. -/
def noTable : Lang := ⟨[], 0, none, "", []⟩

/-- Two names in a list. -/
def twoNames : Tree Info :=
  ⟨0, 0, 20, ⟨plainRow "list" 0 20 [1, 2], 3⟩,
    [⟨1, 0, 1, ⟨plainRow "name" 0 1 [], 3⟩, []⟩, ⟨2, 19, 20, ⟨plainRow "name" 19 20 [], 3⟩, []⟩]⟩

def twoComments : List Comment :=
  [{ text := "/* x */", start := 2, stop := 9, block := true },
    { text := "/* y */", start := 11, stop := 18, block := true }]

theorem wellFormed_twoNames : twoNames.WellFormed := by
  constructor <;> simp [twoNames, nodes, nodesAll]

/-- Two comments between two names are cut apart at the comma. -/
theorem attach_twoComments :
    OwnedOnce twoComments
      (attach (bare noTable) twoNames "a /* x */, /* y */ b" (.ofList twoComments)) ∧
    Located (bare noTable) twoNames "a /* x */, /* y */ b" (.ofList twoComments)
      (attach (bare noTable) twoNames "a /* x */, /* y */ b" (.ofList twoComments)) ∧
    (attach (bare noTable) twoNames "a /* x */, /* y */ b" (.ofList twoComments)).owners =
      [some 1, some 2] := by
  have hclear : ∀ c ∈ twoComments, Clear (bare noTable).canAttach twoNames c.start c.stop := by
    simp [twoComments, Clear, twoNames, nodes, nodesAll, Tree.Holds, Tree.Avoids]
  have h := attach_ownedOnce_and_located (bare noTable) twoNames "a /* x */, /* y */ b" twoComments
  exact ⟨h.1, h.2 (fun _ _ _ _ => rfl) wellFormed_twoNames hclear, by decide +kernel⟩

end CodeFormatter.Table
