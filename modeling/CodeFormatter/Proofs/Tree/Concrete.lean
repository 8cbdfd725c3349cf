import CodeFormatter.Tree.Arena

/-!
# Concrete trees

The parts of a concrete tree are listed at their places, with the parts that each is in (`occurrences`). A
statement about all parts of a tree is one about this list, and what holds of it is proved by going down from
a part to those right below it (`mem_occurrencesFrom`).
-/

namespace CodeFormatter.Concrete

@[elab_as_elim]
theorem induction {motive : Concrete → Prop} (part : ∀ n, (∀ c ∈ n.children, motive c) → motive n)
    (n : Concrete) : motive n :=
  @Concrete.rec motive (fun cs => ∀ c ∈ cs, motive c)
    (fun kind named start stop operator children ih => part ⟨kind, named, start, stop, operator, children⟩ ih)
    (fun _ h => by cases h)
    (fun c cs hc hcs d hd => by
      rcases List.mem_cons.mp hd with rfl | hd
      · exact hc
      · exact hcs d hd)
    n

/-! ## Occurrences -/

/-- A part of a tree at its place: with the parts that it is in, innermost first. -/
structure Occurrence where
  part : Concrete
  ancestors : List Concrete

mutual

/-- A part and the parts in it, each before those in itself. -/
def occurrencesFrom (ancestors : List Concrete) : Concrete → List Occurrence
  | ⟨kind, named, start, stop, operator, children⟩ =>
    let n : Concrete := ⟨kind, named, start, stop, operator, children⟩
    ⟨n, ancestors⟩ :: occurrencesAmong (n :: ancestors) children

def occurrencesAmong (ancestors : List Concrete) : List Concrete → List Occurrence
  | [] => []
  | c :: rest => occurrencesFrom ancestors c ++ occurrencesAmong ancestors rest

end

/-- All parts of a tree, in the order in which they start. -/
def occurrences (root : Concrete) : List Occurrence := occurrencesFrom [] root

variable {n c : Concrete} {ancestors : List Concrete} {o : Occurrence}

theorem occurrencesFrom_eq (ancestors : List Concrete) (n : Concrete) : occurrencesFrom ancestors n =
    ⟨n, ancestors⟩ :: n.children.flatMap (occurrencesFrom (n :: ancestors)) := by
  have hall : ∀ (ancestors cs : List Concrete),
      occurrencesAmong ancestors cs = cs.flatMap (occurrencesFrom ancestors) := by
    intro ancestors cs
    induction cs with
    | nil => rfl
    | cons c rest ih => rw [occurrencesAmong, ih, List.flatMap_cons]
  cases n
  rw [occurrencesFrom, hall]

theorem mem_occurrencesFrom : o ∈ occurrencesFrom ancestors n ↔
    o = ⟨n, ancestors⟩ ∨ ∃ c ∈ n.children, o ∈ occurrencesFrom (n :: ancestors) c := by
  rw [occurrencesFrom_eq, List.mem_cons, List.mem_flatMap]

/-- What a part is in, it is in at each place below. -/
theorem mem_ancestors {a : Concrete} (h : o ∈ occurrencesFrom ancestors n) (ha : a ∈ ancestors) :
    a ∈ o.ancestors := by
  induction n using induction generalizing ancestors with
  | part n ih =>
    rcases mem_occurrencesFrom.mp h with rfl | ⟨c, hc, h⟩
    · exact ha
    · exact ih c hc h (List.mem_cons_of_mem n ha)

/-! ## Spans -/

/-- Parts stand one after the other inside the part above them. -/
def Spanned (n : Concrete) : Prop :=
  n.start ≤ n.stop ∧ (∀ c ∈ n.children, n.start ≤ c.start ∧ c.stop ≤ n.stop) ∧
    n.children.Pairwise fun c d => c.stop ≤ d.start

instance : DecidablePred Spanned := fun _ => inferInstanceAs (Decidable (_ ∧ (∀ c ∈ _, _) ∧ List.Pairwise _ _))

theorem within_of_mem (h : ∀ o ∈ occurrencesFrom ancestors n, Spanned o.part)
    (ho : o ∈ occurrencesFrom ancestors n) : n.start ≤ o.part.start ∧ o.part.stop ≤ n.stop := by
  induction n using Concrete.induction generalizing ancestors with
  | part n ih =>
    rcases mem_occurrencesFrom.mp ho with rfl | ⟨c, hc, hoc⟩
    · exact ⟨Nat.le_refl _, Nat.le_refl _⟩
    · have hself : Spanned n := h _ (mem_occurrencesFrom.mpr (.inl rfl))
      have hchild := hself.2.1 c hc
      have hbelow := ih c hc (fun o ho => h o (mem_occurrencesFrom.mpr (.inr ⟨c, hc, ho⟩))) hoc
      omega

/-- The parts of a tree are met in the order in which they start. -/
theorem pairwise_start (h : ∀ o ∈ occurrencesFrom ancestors n, Spanned o.part) :
    (occurrencesFrom ancestors n).Pairwise fun o o' => o.part.start ≤ o'.part.start := by
  induction n using Concrete.induction generalizing ancestors with
  | part n ih =>
    have hbelow : ∀ c ∈ n.children, ∀ o ∈ occurrencesFrom (n :: ancestors) c, Spanned o.part :=
      fun c hc o ho => h o (mem_occurrencesFrom.mpr (.inr ⟨c, hc, ho⟩))
    have hself : Spanned n := h _ (mem_occurrencesFrom.mpr (.inl rfl))
    rw [occurrencesFrom_eq, List.pairwise_cons, List.pairwise_flatMap]
    refine ⟨fun o ho => ?_, fun c hc => ih c hc (hbelow c hc), ?_⟩
    · obtain ⟨c, hc, ho⟩ := List.mem_flatMap.mp ho
      exact (within_of_mem h (mem_occurrencesFrom.mpr (.inr ⟨c, hc, ho⟩))).1
    · refine List.Pairwise.imp_of_mem ?_ hself.2.2
      intro c d hc hd hcd o ho o' ho'
      have hoc := within_of_mem (hbelow c hc) ho
      have hod := within_of_mem (hbelow d hd) ho'
      have hspan := (hbelow c hc o ho).1
      omega

end CodeFormatter.Concrete
