import CodeFormatter.Proofs.Walk.Coverage

/-!
# Searching a tree

`Tree.find?` goes down into every child that covers an offset, one after the other, and comes back when
nothing is found there; only then it asks for the node itself. Siblings may touch at the offset, and trees
may have equal parts in different places, so what is found is a way (`WayIn`) and not only a node.

`Tree.paths` lists the ways to all nodes, depth first and from the left. On a way that *covers* an offset,
every node does. A way is *innermost* if it covers the offset, its node satisfies the condition, and no way
that goes on from there does the same.

**Theorem (`find?_first_innermost`).** A search succeeds if and only if some way covers the offset and
leads to a node that satisfies the condition. What it finds is the first innermost way of the list.

The proof is an induction on the tree, with the nodes above it kept open. Where nothing is found, no way
that covers the offset leads to a node with the condition (`findFrom_eq_none_iff`); so nothing innermost is
left behind when the search turns to the next sibling, and nothing is below a node when the search comes
back to it.
-/

namespace CodeFormatter

open CodeFormatter.Tree Walk

variable {α : Type} {root t c : Tree α} {ancestors : List (Tree α)} {path way : Tree.Path α}
  {offset : Nat} {p : Tree α → Bool}

/-! ## Ways -/

namespace Walk.WayIn

/-- A way goes on below its node. -/
theorem append (h : WayIn root ⟨t, ancestors⟩) (hway : WayIn t way) :
    WayIn root ⟨way.node, way.ancestors ++ ancestors⟩ := by
  induction hway with
  | root => exact h
  | child _ hc ih => exact .child ih hc

/-- A way stops at the root, or leads through one of its children. -/
theorem cases_first (h : WayIn t way) :
    way = ⟨t, []⟩ ∨ ∃ c ∈ t.children, ∃ rest : Tree.Path α,
      WayIn c rest ∧ way = ⟨rest.node, rest.ancestors ++ [t]⟩ := by
  induction h with
  | root => exact .inl rfl
  | @child u c above _ hc ih =>
    right
    rcases ih with heq | ⟨d, hd, rest, hrest, heq⟩
    · cases heq
      exact ⟨c, hc, ⟨c, []⟩, .root, rfl⟩
    · cases heq
      exact ⟨d, hd, ⟨c, rest.node :: rest.ancestors⟩, .child hrest hc, rfl⟩

end Walk.WayIn

namespace Tree

mutual

/-- The ways to the nodes of a tree below `ancestors`, each before those that go on from it. -/
def pathsFrom (ancestors : List (Tree α)) : Tree α → List (Path α)
  | ⟨id, start, stop, info, children⟩ =>
    let t : Tree α := ⟨id, start, stop, info, children⟩
    ⟨t, ancestors⟩ :: pathsAmong (t :: ancestors) children

def pathsAmong (ancestors : List (Tree α)) : List (Tree α) → List (Path α)
  | [] => []
  | t :: rest => pathsFrom ancestors t ++ pathsAmong ancestors rest

end

/-- The ways to all nodes, depth first and from the left. -/
def paths (root : Tree α) : List (Path α) := pathsFrom [] root

theorem pathsFrom_eq (ancestors : List (Tree α)) (t : Tree α) :
    pathsFrom ancestors t = ⟨t, ancestors⟩ :: t.children.flatMap (pathsFrom (t :: ancestors)) := by
  have hall : ∀ above ts, pathsAmong above ts = ts.flatMap (pathsFrom (α := α) above) := by
    intro above ts
    induction ts with
    | nil => rfl
    | cons t rest ih => rw [pathsAmong, ih, List.flatMap_cons]
  cases t
  rw [pathsFrom, hall]

theorem mem_pathsFrom : path ∈ pathsFrom ancestors t ↔
    ∃ way, WayIn t way ∧ path = ⟨way.node, way.ancestors ++ ancestors⟩ := by
  induction t using Tree.induction generalizing ancestors with
  | node t ih =>
    rw [pathsFrom_eq, List.mem_cons, List.mem_flatMap]
    constructor
    · rintro (rfl | ⟨c, hc, hpath⟩)
      · exact ⟨⟨t, []⟩, .root, rfl⟩
      · obtain ⟨way, hway, rfl⟩ := (ih c hc).mp hpath
        refine ⟨⟨way.node, way.ancestors ++ [t]⟩, WayIn.append (.child .root hc) hway, ?_⟩
        simp
    · rintro ⟨way, hway, rfl⟩
      rcases hway.cases_first with rfl | ⟨c, hc, rest, hrest, rfl⟩
      · exact .inl rfl
      · refine .inr ⟨c, hc, (ih c hc).mpr ⟨rest, hrest, ?_⟩⟩
        simp

/-- The list has the ways from the root, and no others. -/
theorem mem_paths : path ∈ root.paths ↔ WayIn root path := by
  rw [paths, mem_pathsFrom]
  constructor
  · rintro ⟨way, hway, rfl⟩
    simpa using hway
  · intro h
    exact ⟨path, h, by simp⟩

/-! ## Innermost ways -/

/-- The node of a way covers an offset, and so do all nodes above it. -/
def Path.Covers (path : Path α) (offset : Nat) : Prop :=
  ∀ t ∈ path.node :: path.ancestors, t.covers offset = true

/-- A way that covers an offset and leads to a node that satisfies a condition, while no way from there
through one of the children does the same. -/
structure Path.Innermost (path : Path α) (offset : Nat) (p : Tree α → Bool) : Prop where
  covers : path.Covers offset
  holds : p path.node = true
  deepest : ∀ c ∈ path.node.children, ∀ way, WayIn c way → way.Covers offset → p way.node = false

theorem Path.covers_append : (⟨way.node, way.ancestors ++ ancestors⟩ : Path α).Covers offset ↔
    way.Covers offset ∧ ∀ a ∈ ancestors, a.covers offset = true := by
  rw [Path.Covers, Path.Covers, ← List.cons_append, List.forall_mem_append]

/-- A node is not innermost if there is another one below it. -/
theorem Path.Innermost.not_of_mem_pathsFrom (h : path.Innermost offset p) (hc : c ∈ t.children)
    (hpath : path ∈ pathsFrom ancestors c) (above : List (Tree α)) :
    ¬ (⟨t, above⟩ : Path α).Innermost offset p := by
  intro hinnermost
  obtain ⟨way, hway, rfl⟩ := mem_pathsFrom.mp hpath
  have hfalse := hinnermost.deepest c hc way hway (Path.covers_append.mp h.covers).1
  exact absurd h.holds (by simp [hfalse])

/-! ## The search -/

theorem findAmong_eq (offset : Nat) (p : Tree α → Bool) (ancestors ts : List (Tree α)) :
    findAmong offset p ancestors ts = ts.findSome? (findFrom offset p ancestors) := by
  induction ts with
  | nil => rfl
  | cons t rest ih =>
    rw [findAmong, List.findSome?_cons, ih]
    cases findFrom offset p ancestors t <;> rfl

theorem findFrom_eq (offset : Nat) (p : Tree α → Bool) (ancestors : List (Tree α)) (t : Tree α) :
    findFrom offset p ancestors t =
      if t.covers offset then
        (t.children.findSome? (findFrom offset p (t :: ancestors))).orElse fun _ =>
          if p t then some ⟨t, ancestors⟩ else none
      else none := by
  cases t
  rw [findFrom, findAmong_eq]
  dsimp only
  split
  · cases List.findSome? _ _ <;> rfl
  · rfl

/-- What can come of a search: the node is passed over, something is found below one of its children and
nothing before, or nothing is found below it. -/
theorem findFrom_cases (offset : Nat) (p : Tree α → Bool) (ancestors : List (Tree α)) (t : Tree α) :
    (t.covers offset = false ∧ findFrom offset p ancestors t = none) ∨
    (t.covers offset = true ∧
      ((∃ before c after path, t.children = before ++ c :: after ∧
          (∀ b ∈ before, findFrom offset p (t :: ancestors) b = none) ∧
          findFrom offset p (t :: ancestors) c = some path ∧
          findFrom offset p ancestors t = some path) ∨
        ((∀ c ∈ t.children, findFrom offset p (t :: ancestors) c = none) ∧
          findFrom offset p ancestors t = if p t then some ⟨t, ancestors⟩ else none))) := by
  by_cases hcovers : t.covers offset = true
  · refine .inr ⟨hcovers, ?_⟩
    rw [findFrom_eq, if_pos hcovers]
    cases hbelow : t.children.findSome? (findFrom offset p (t :: ancestors)) with
    | some path =>
      obtain ⟨before, c, after, hchildren, hc, hbefore⟩ := List.findSome?_eq_some_iff.mp hbelow
      exact .inl ⟨before, c, after, path, hchildren, hbefore, hc, rfl⟩
    | none => exact .inr ⟨List.findSome?_eq_none_iff.mp hbelow, rfl⟩
  · refine .inl ⟨by simpa using hcovers, ?_⟩
    rw [findFrom_eq, if_neg hcovers]

/-- **Nothing is found** if and only if no way that covers the offset leads to a node with the
condition. -/
theorem findFrom_eq_none_iff (hancestors : ∀ a ∈ ancestors, a.covers offset = true) :
    findFrom offset p ancestors t = none ↔
      ∀ path ∈ pathsFrom ancestors t, path.Covers offset → p path.node = false := by
  induction t using Tree.induction generalizing ancestors with
  | node t ih =>
    rcases findFrom_cases offset p ancestors t with ⟨hcovers, hnone⟩ | ⟨hcovers, hbelow⟩
    · simp only [hnone, true_iff]
      intro path hpath hall
      obtain ⟨way, hway, rfl⟩ := mem_pathsFrom.mp hpath
      -- The node itself is on every way that goes on from it.
      have hmem : t ∈ way.node :: way.ancestors := by
        rcases hway.cases_first with rfl | ⟨c, -, rest, -, rfl⟩ <;> simp
      have htrue := (Path.covers_append.mp hall).1 t hmem
      rw [hcovers] at htrue
      cases htrue
    · have habove : ∀ a ∈ t :: ancestors, a.covers offset = true :=
        List.forall_mem_cons.mpr ⟨hcovers, hancestors⟩
      have hself : (⟨t, ancestors⟩ : Path α).Covers offset := habove
      rcases hbelow with ⟨before, c, after, found, hchildren, -, hfound, hsome⟩ | ⟨hnone, heq⟩
      · have hc : c ∈ t.children := by simp [hchildren]
        have hnot := (ih c hc habove).not.mp (by simp [hfound])
        simp only [hsome, reduceCtorEq, false_iff]
        intro hall
        apply hnot
        intro path hpath
        apply hall path
        rw [pathsFrom_eq]
        exact List.mem_cons_of_mem _ (List.mem_flatMap.mpr ⟨c, hc, hpath⟩)
      · have hchildren : ∀ path ∈ t.children.flatMap (pathsFrom (t :: ancestors)),
            path.Covers offset → p path.node = false := by
          intro path hpath
          obtain ⟨c, hc, hpath⟩ := List.mem_flatMap.mp hpath
          exact (ih c hc habove).mp (hnone c hc) path hpath
        rw [heq, pathsFrom_eq, List.forall_mem_cons]
        by_cases hp : p t = true
        · simp [hp, hself]
        · simpa [hp] using hchildren

/-- If nothing is found in the children of a node that satisfies the condition, then it is innermost. -/
theorem innermost_of_findFrom_eq_none (hancestors : ∀ a ∈ t :: ancestors, a.covers offset = true)
    (hp : p t = true) (hnone : ∀ c ∈ t.children, findFrom offset p (t :: ancestors) c = none) :
    (⟨t, ancestors⟩ : Path α).Innermost offset p := by
  refine ⟨hancestors, hp, ?_⟩
  intro c hc way hway hcovers
  have hall := (findFrom_eq_none_iff hancestors).mp (hnone c hc)
  exact hall ⟨way.node, way.ancestors ++ t :: ancestors⟩ (mem_pathsFrom.mpr ⟨way, hway, rfl⟩)
    (Path.covers_append.mpr ⟨hcovers, hancestors⟩)

/-- **What is found** is innermost, and nothing innermost stands before it. -/
theorem exists_of_findFrom (hancestors : ∀ a ∈ ancestors, a.covers offset = true)
    (h : findFrom offset p ancestors t = some path) :
    ∃ before after, pathsFrom ancestors t = before ++ path :: after ∧ path.Innermost offset p ∧
      ∀ q ∈ before, ¬ q.Innermost offset p := by
  induction t using Tree.induction generalizing ancestors with
  | node t ih =>
    rcases findFrom_cases offset p ancestors t with ⟨-, hnone⟩ | ⟨hcovers, hbelow⟩
    · rw [hnone] at h
      cases h
    have habove : ∀ a ∈ t :: ancestors, a.covers offset = true :=
      List.forall_mem_cons.mpr ⟨hcovers, hancestors⟩
    rcases hbelow with ⟨siblings, c, others, found, hchildren, hsiblings, hfound, hsome⟩ | ⟨hnone, heq⟩
    · obtain rfl : found = path := Option.some.inj (hsome.symm.trans h)
      have hc : c ∈ t.children := by simp [hchildren]
      obtain ⟨before, after, hpaths, hinnermost, hbefore⟩ := ih c hc habove hfound
      refine ⟨⟨t, ancestors⟩ :: (siblings.flatMap (pathsFrom (t :: ancestors)) ++ before),
        after ++ others.flatMap (pathsFrom (t :: ancestors)), ?_, hinnermost, ?_⟩
      · rw [pathsFrom_eq, hchildren, List.flatMap_append, List.flatMap_cons, hpaths]
        simp
      · refine List.forall_mem_cons.mpr ⟨?_, List.forall_mem_append.mpr ⟨?_, hbefore⟩⟩
        · exact hinnermost.not_of_mem_pathsFrom hc (by rw [hpaths]; simp) ancestors
        · intro q hq hinner
          obtain ⟨b, hb, hq⟩ := List.mem_flatMap.mp hq
          have hfalse := (findFrom_eq_none_iff habove).mp (hsiblings b hb) q hq hinner.covers
          exact absurd hinner.holds (by simp [hfalse])
    · rw [heq] at h
      by_cases hp : p t = true
      · rw [if_pos hp] at h
        cases h
        exact ⟨[], _, pathsFrom_eq _ _, innermost_of_findFrom_eq_none habove hp hnone, nofun⟩
      · rw [if_neg hp] at h
        cases h

/-- A node that is found is one of the tree, and the nodes above it are the way to it. -/
theorem wayIn_of_find? (h : root.find? offset p = some path) :
    WayIn root path ∧ p path.node = true ∧ path.node.covers offset = true := by
  obtain ⟨before, after, hpaths, hinnermost, -⟩ := exists_of_findFrom (by simp) h
  have hmem : path ∈ root.paths := by
    rw [paths, hpaths]
    simp
  exact ⟨mem_paths.mp hmem, hinnermost.holds, hinnermost.covers path.node List.mem_cons_self⟩

/-- **A search finds the first innermost way**, if any way covers the offset and leads to a node with the
condition. -/
theorem find?_first_innermost (root : Tree α) (offset : Nat) (p : Tree α → Bool) :
    ((root.find? offset p).isSome = true ↔
        ∃ path, WayIn root path ∧ path.Covers offset ∧ p path.node = true) ∧
      ∀ path, root.find? offset p = some path →
        WayIn root path ∧ path.Innermost offset p ∧
          ∃ before after, root.paths = before ++ path :: after ∧ ∀ q ∈ before, ¬ q.Innermost offset p := by
  constructor
  · have hnone : root.find? offset p = none ↔ _ := findFrom_eq_none_iff (by simp)
    rw [← not_iff_not, Bool.not_eq_true, Option.isSome_eq_false_iff, Option.isNone_iff_eq_none, hnone]
    change (∀ path ∈ root.paths, _) ↔ _
    simp only [mem_paths, not_exists, not_and, Bool.not_eq_true]
  · intro path h
    obtain ⟨before, after, hpaths, hinnermost, hbefore⟩ := exists_of_findFrom (by simp) h
    exact ⟨(wayIn_of_find? h).1, hinnermost, before, after, hpaths, hbefore⟩

/-- Two siblings that touch at the offset: the search comes back from the first one. -/
example : (find? (⟨0, 0, 4, (), [⟨1, 0, 2, (), []⟩, ⟨2, 2, 4, (), [⟨3, 3, 4, (), []⟩]⟩]⟩ : Tree Unit) 2
    fun t => t.id != 1).map (fun found => (found.node.id, found.ancestors.map (·.id))) = some (2, [0]) :=
  rfl

end Tree

end CodeFormatter
