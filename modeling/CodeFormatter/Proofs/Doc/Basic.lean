import CodeFormatter.Doc.Breaks

/-!
# Induction over documents, and plain documents

`Doc.induction` is induction over a document with one hypothesis for all parts of a list. The walks
over documents come in pairs, one for a document and one for a list; beside each pair stands an
equation that says what the walk over a list does in terms of the other.

A *plain* document is built from the parts whose layout is a choice between flat and broken groups
and nothing else: texts of one line, lines, plain groups, indentations and choices. Its hard lines
are those of the builders `hardline` and `literalline`, which carry a `breakParent` along.

After breaks are propagated, a group that is not marked to break holds no hard line and no marked
group. We never state this as a property of the marked document. Instead every fact about the marked
form of a plain document is proved by induction on the document before marking, where the mark of a
group is `shouldBreak || contents.exposesBreak` by definition.
-/

namespace CodeFormatter.Doc

/-! ## Induction -/

@[elab_as_elim]
theorem induction {motive : Doc → Prop} (text : ∀ s, motive (.text s))
    (concat : ∀ parts, (∀ d ∈ parts, motive d) → motive (.concat parts))
    (line : ∀ kind, motive (.line kind))
    (group : ∀ contents shouldBreak id, motive contents → motive (.group contents shouldBreak id))
    (conditionalGroup : ∀ contents states shouldBreak id, motive contents →
      (∀ d ∈ states, motive d) → motive (.conditionalGroup contents states shouldBreak id))
    (indent : ∀ contents, motive contents → motive (.indent contents))
    (align : ∀ alignment contents, motive contents → motive (.align alignment contents))
    (fill : ∀ parts, (∀ d ∈ parts, motive d) → motive (.fill parts))
    (ifBreak : ∀ broken flat id, motive broken → motive flat → motive (.ifBreak broken flat id))
    (lineSuffix : ∀ contents, motive contents → motive (.lineSuffix contents))
    (lineSuffixBoundary : motive .lineSuffixBoundary) (breakParent : motive .breakParent)
    (trim : motive .trim) (cursor : motive .cursor) (d : Doc) : motive d :=
  @Doc.rec motive (fun parts => ∀ d ∈ parts, motive d) text concat line group conditionalGroup
    indent align fill ifBreak lineSuffix lineSuffixBoundary breakParent trim cursor
    (fun _ h => by cases h)
    (fun d parts hd hparts e he => by
      rcases List.mem_cons.mp he with rfl | he
      · exact hd
      · exact hparts e he)
    d

/-- The documents that a document holds. -/
def children : Doc → List Doc
  | .concat parts | .fill parts => parts
  | .group contents _ _ | .indent contents | .align _ contents | .lineSuffix contents => [contents]
  | .conditionalGroup contents states _ _ => contents :: states
  | .ifBreak broken flat _ => [broken, flat]
  | _ => []

/-- The same with one case for all documents. -/
@[elab_as_elim]
theorem childrenInduction {motive : Doc → Prop}
    (node : ∀ d, (∀ e ∈ d.children, motive e) → motive d) (d : Doc) : motive d := by
  induction d using Doc.induction with
  | concat parts ih | fill parts ih => exact node _ ih
  | group _ _ _ ih | indent _ ih | align _ _ ih | lineSuffix _ ih =>
    exact node _ (by simpa [children] using ih)
  | conditionalGroup _ _ _ _ ih ihs => exact node _ (List.forall_mem_cons.mpr ⟨ih, ihs⟩)
  | ifBreak _ _ _ ih ih' => exact node _ (by simpa [children] using ⟨ih, ih'⟩)
  | text | line | lineSuffixBoundary | breakParent | trim | cursor =>
    exact node _ (by simp [children])

theorem isEmpty_of_mem {d : Doc} {parts : List Doc} (h : allEmpty parts = true) (hd : d ∈ parts) :
    d.isEmpty = true := by
  induction parts with
  | nil => cases hd
  | cons e rest ih =>
    rw [allEmpty, Bool.and_eq_true] at h
    rcases List.mem_cons.mp hd with rfl | hd
    · exact h.1
    · exact ih h.2 hd

theorem work_le_workAll {d : Doc} {parts : List Doc} (h : d ∈ parts) : d.work ≤ workAll parts := by
  induction parts with
  | nil => cases h
  | cons e rest ih =>
    rw [workAll]
    rcases List.mem_cons.mp h with rfl | h
    · omega
    · have := ih h
      omega

theorem workAll_take_le (n : Nat) (parts : List Doc) : workAll (parts.take n) ≤ workAll parts := by
  induction parts generalizing n with
  | nil => simp
  | cons d rest ih =>
    cases n with
    | zero => exact Nat.zero_le _
    | succ n =>
      rw [List.take_succ_cons, workAll, workAll]
      exact Nat.add_le_add_left (ih n) _

theorem work_lt_of_mem_children {d e : Doc} (h : e ∈ d.children) : e.work < d.work := by
  have hle := work_le_workAll h
  cases d with
  | text | line | lineSuffixBoundary | breakParent | trim | cursor => cases h
  | _ =>
    simp only [children, workAll, work] at hle ⊢
    omega

/-! ## Propagation, part by part -/

/-- Does a break leave the document? -/
def exposesBreak (d : Doc) : Bool := (propagate d).2

theorem propagateAll_eq (parts : List Doc) :
    propagateAll parts = (parts.map propagateBreaks, parts.any exposesBreak) := by
  induction parts with
  | nil => rfl
  | cons d rest ih => exact congrArg (fun r => (d.propagateBreaks :: r.1, d.exposesBreak || r.2)) ih

section Equations

variable (s : String) (parts states : List Doc) (c f : Doc) (b : Bool) (id : Option GroupId)
  (kind : LineKind) (al : Alignment)

@[simp] theorem propagateBreaks_text : (text s).propagateBreaks = .text s := rfl

@[simp] theorem propagateBreaks_concat :
    (concat parts).propagateBreaks = .concat (parts.map propagateBreaks) :=
  congrArg (fun r : List Doc × Bool => concat r.1) (propagateAll_eq parts)

@[simp] theorem propagateBreaks_line : (line kind).propagateBreaks = .line kind := rfl

@[simp] theorem propagateBreaks_group :
    (group c b id).propagateBreaks = .group c.propagateBreaks (b || c.exposesBreak) id := rfl

@[simp] theorem propagateBreaks_conditionalGroup :
    (conditionalGroup c states b id).propagateBreaks =
      .conditionalGroup c.propagateBreaks (states.map propagateBreaks) b id :=
  congrArg (fun r : List Doc × Bool => conditionalGroup c.propagateBreaks r.1 b id) (propagateAll_eq states)

@[simp] theorem propagateBreaks_indent :
    (indent c).propagateBreaks = .indent c.propagateBreaks := rfl

@[simp] theorem propagateBreaks_align :
    (align al c).propagateBreaks = .align al c.propagateBreaks := rfl

@[simp] theorem propagateBreaks_fill :
    (fill parts).propagateBreaks = .fill (parts.map propagateBreaks) :=
  congrArg (fun r : List Doc × Bool => fill r.1) (propagateAll_eq parts)

@[simp] theorem propagateBreaks_ifBreak :
    (ifBreak c f id).propagateBreaks = .ifBreak c.propagateBreaks f.propagateBreaks id := rfl

@[simp] theorem propagateBreaks_lineSuffix :
    (lineSuffix c).propagateBreaks = .lineSuffix c.propagateBreaks := rfl

@[simp] theorem propagateBreaks_lineSuffixBoundary :
    lineSuffixBoundary.propagateBreaks = .lineSuffixBoundary := rfl

@[simp] theorem propagateBreaks_breakParent : breakParent.propagateBreaks = .breakParent := rfl

@[simp] theorem propagateBreaks_trim : trim.propagateBreaks = .trim := rfl

@[simp] theorem propagateBreaks_cursor : cursor.propagateBreaks = .cursor := rfl

@[simp] theorem exposesBreak_concat :
    (concat parts).exposesBreak = parts.any exposesBreak := congrArg (·.2) (propagateAll_eq parts)

@[simp] theorem exposesBreak_group :
    (group c b id).exposesBreak = (b || c.exposesBreak) := rfl

@[simp] theorem exposesBreak_indent : (indent c).exposesBreak = c.exposesBreak := rfl

@[simp] theorem exposesBreak_align : (align al c).exposesBreak = c.exposesBreak := rfl

@[simp] theorem exposesBreak_ifBreak :
    (ifBreak c f id).exposesBreak = (c.exposesBreak || f.exposesBreak) := rfl

@[simp] theorem exposesBreak_conditionalGroup :
    (conditionalGroup c states b id).exposesBreak = b := rfl

@[simp] theorem exposesBreak_fill : (fill parts).exposesBreak = parts.any exposesBreak :=
  congrArg (·.2) (propagateAll_eq parts)

@[simp] theorem exposesBreak_lineSuffix : (lineSuffix c).exposesBreak = c.exposesBreak := rfl

@[simp] theorem exposesBreak_breakParent : breakParent.exposesBreak = true := rfl

end Equations

/-- If no break leaves a sequence, none leaves its parts. -/
theorem exposesBreak_of_mem {d : Doc} {parts : List Doc} (h : (concat parts).exposesBreak = false)
    (hd : d ∈ parts) : d.exposesBreak = false := by
  rw [exposesBreak_concat, List.any_eq_false] at h
  simpa using h d hd

/-! ## All documents in a document -/

/-- The document is as `P` says, and so are all documents in it. -/
inductive Every (P : Doc → Prop) : Doc → Prop
  | intro {d : Doc} (self : P d) (below : ∀ e ∈ d.children, Every P e) : Every P d

theorem children_propagateBreaks (d : Doc) :
    d.propagateBreaks.children = d.children.map propagateBreaks := by
  cases d <;> simp [children]

namespace Every

variable {P : Doc → Prop} {d e : Doc}

theorem self (h : Every P d) : P d := by
  cases h
  assumption

theorem of_mem_children (h : Every P d) (he : e ∈ d.children) : Every P e := by
  cases h with
  | intro _ below => exact below e he

/-- A property that marks do not change is kept. -/
theorem propagateBreaks (hP : ∀ d, P d → P d.propagateBreaks) (h : Every P d) :
    Every P d.propagateBreaks := by
  induction h with
  | intro self below ih =>
    refine .intro (hP _ self) fun e he => ?_
    rw [children_propagateBreaks] at he
    obtain ⟨c, hc, rfl⟩ := List.mem_map.mp he
    exact ih c hc

/-- What is said of all documents in a document may be said in two parts. -/
theorem and {Q : Doc → Prop} (hP : Every P d) (hQ : Every Q d) : Every (fun e => P e ∧ Q e) d := by
  induction hP with
  | intro self _ ih =>
    exact .intro ⟨self, hQ.self⟩ fun e he => ih e he (hQ.of_mem_children he)

theorem mono {Q : Doc → Prop} (hsub : ∀ e, P e → Q e) (h : Every P d) : Every Q d := by
  induction h with
  | intro self _ ih => exact .intro (hsub _ self) ih

end Every

mutual

/-- Does the test hold of the document and of all documents in it? -/
def all (test : Doc → Bool) : Doc → Bool
  | .concat parts => test (.concat parts) && allOf test parts
  | .fill parts => test (.fill parts) && allOf test parts
  | .group contents shouldBreak id => test (.group contents shouldBreak id) && all test contents
  | .conditionalGroup contents states shouldBreak id =>
    test (.conditionalGroup contents states shouldBreak id) && all test contents && allOf test states
  | .indent contents => test (.indent contents) && all test contents
  | .align alignment contents => test (.align alignment contents) && all test contents
  | .ifBreak broken flat id => test (.ifBreak broken flat id) && all test broken && all test flat
  | .lineSuffix contents => test (.lineSuffix contents) && all test contents
  | .text s => test (.text s)
  | .line kind => test (.line kind)
  | .lineSuffixBoundary => test .lineSuffixBoundary
  | .breakParent => test .breakParent
  | .trim => test .trim
  | .cursor => test .cursor

def allOf (test : Doc → Bool) : List Doc → Bool
  | [] => true
  | d :: rest => all test d && allOf test rest

end

theorem allOf_eq (test : Doc → Bool) (parts : List Doc) : allOf test parts = parts.all (all test) := by
  induction parts with
  | nil => rfl
  | cons d rest ih => rw [allOf, ih, List.all_cons]

theorem every_of_all {test : Doc → Bool} {d : Doc} (h : d.all test = true) :
    d.Every (test · = true) := by
  induction d using Doc.childrenInduction with
  | node d ih =>
    have hnode : test d = true ∧ ∀ e ∈ d.children, e.all test = true := by
      cases d <;> simpa [all, allOf_eq, children, and_assoc] using h
    exact .intro hnode.1 fun e he => ih e he (hnode.2 e he)

/-- A part of what is left without the hard lines at the end. -/
theorem mem_stripLast {e : Doc} {parts : List Doc} (h : e ∈ stripLast parts) :
    e ∈ parts ∨ ∃ d ∈ parts, e = d.stripTrailingHardline := by
  induction parts with
  | nil => cases h
  | cons d rest ih =>
    rw [stripLast] at h
    split at h
    · split at h
      · cases h
      · rw [List.mem_singleton] at h
        exact .inr ⟨d, List.mem_cons_self, h⟩
    · rcases List.mem_cons.mp h with rfl | h
      · exact .inl List.mem_cons_self
      · exact (ih h).imp (List.mem_cons_of_mem d) fun ⟨d', hd', he⟩ =>
          ⟨d', List.mem_cons_of_mem d hd', he⟩

theorem Every.stripTrailingHardline {P : Doc → Prop} {d : Doc} (hP : ∀ parts, P (.concat parts))
    (h : d.Every P) : d.stripTrailingHardline.Every P := by
  induction d using Doc.induction with
  | concat parts ih =>
    rw [Doc.stripTrailingHardline]
    refine .intro (hP _) fun e he => ?_
    rcases mem_stripLast he with he | ⟨d, hd, rfl⟩
    · exact h.of_mem_children he
    · exact ih d hd (h.of_mem_children hd)
  | _ => exact h

/-! ## Plain documents -/

/-- The plain documents. A choice may name a group that `named` allows. -/
inductive Plain (named : Option GroupId → Prop) : Doc → Prop
  | text {s : String} : '\n' ∉ s.toList → Plain named (.text s)
  | concat {parts : List Doc} : (∀ d ∈ parts, Plain named d) → Plain named (.concat parts)
  | softline : Plain named softline
  | space : Plain named space
  | hardline : Plain named hardline
  | literalline : Plain named literalline
  | group {contents : Doc} {shouldBreak : Bool} {id : Option GroupId} :
      Plain named contents → Plain named (.group contents shouldBreak id)
  | indent {contents : Doc} : Plain named contents → Plain named (.indent contents)
  | align {alignment : Alignment} {contents : Doc} :
      Plain named contents → Plain named (.align alignment contents)
  | ifBreak {broken flat : Doc} {id : Option GroupId} :
      named id → Plain named broken → Plain named flat → Plain named (.ifBreak broken flat id)
  | breakParent : Plain named .breakParent
  | cursor : Plain named .cursor

end CodeFormatter.Doc
