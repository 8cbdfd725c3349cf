import CodeFormatter.Proofs.Layout.Selection

/-!
# The leaves of a document

A printer makes a document from texts of its own and from documents that were made for other things,
such as the nodes below its node. These are the *leaves* of its document. `Lays` says that a document
has certain leaves in a certain order, whatever the layout chooses: every side of a choice has the
same ones. Of the texts only the characters count that `keep` keeps, so that a document may have a
comma in one of its layouts and still have leaves.

Documents may also be *aside*: they stand somewhere among the leaves and do not count.

**Consequences.** What is known of the leaves is known of the document: what it writes
(`Builds.writes`), that it writes a text in every layout (`Builds.always`), whether its choices agree
(`Builds.coherent`).
-/

namespace CodeFormatter.Layout

variable {β : Type}

/-! ## Leaves -/

/-- A character of a text, or a document that was made for `b`. -/
inductive Leaf (β : Type) where
  | char (c : Char)
  | part (b : β) (d : Doc)

/-- A leaf without its document. -/
def Leaf.shape : Leaf β → Char ⊕ β
  | char c => .inl c
  | part b _ => .inr b

/-- The leaves of a text. -/
def letters (keep : Char → Bool) (s : String) : List (Leaf β) := (s.toList.filter keep).map .char

/-- The same without documents. -/
def word (keep : Char → Bool) (s : String) : List (Char ⊕ β) := (s.toList.filter keep).map .inl

/-- The document has these leaves in each of its layouts. -/
inductive Lays (keep : Char → Bool) (Aside : Doc → Prop) : List (Leaf β) → Doc → Prop
  | text (s : String) : Lays keep Aside (letters keep s) (.text s)
  | part (b : β) (d : Doc) : Lays keep Aside [.part b d] d
  | aside {d : Doc} : Aside d → Lays keep Aside [] d
  | nil : Lays keep Aside [] (.concat [])
  /-- A document that is empty may be left out. -/
  | vanish {ls ls' : List (Leaf β)} {d : Doc} {ds : List Doc} : Lays keep Aside ls d →
      d.isEmpty = true → Lays keep Aside ls' (.concat ds) → Lays keep Aside (ls ++ ls') (.concat ds)
  | cons {ls ls' : List (Leaf β)} {d : Doc} {ds : List Doc} : Lays keep Aside ls d →
      Lays keep Aside ls' (.concat ds) → Lays keep Aside (ls ++ ls') (.concat (d :: ds))
  | group {ls : List (Leaf β)} {d : Doc} (b : Bool) (id : Option GroupId) : Lays keep Aside ls d →
      Lays keep Aside ls (.group d b id)
  | indent {ls : List (Leaf β)} {d : Doc} : Lays keep Aside ls d → Lays keep Aside ls (.indent d)
  | conditional {ls : List (Leaf β)} {d : Doc} {states : List Doc} (b : Bool) (id : Option GroupId) :
      (∀ e ∈ d :: states, Lays keep Aside ls e) →
      Lays keep Aside ls (.conditionalGroup d states b id)
  | choose {ls : List (Leaf β)} {d e : Doc} (id : Option GroupId) : Lays keep Aside ls d →
      Lays keep Aside ls e → Lays keep Aside ls (.ifBreak d e id)
  | line (kind : LineKind) : Lays keep Aside [] (.line kind)
  | breakParent : Lays keep Aside [] .breakParent
  | cursor : Lays keep Aside [] .cursor

/-! ## What a document writes -/

/-- In each of its layouts the document writes these characters, of those that are kept. -/
def Writes (keep : Char → Bool) (d : Doc) (cs : List Char) : Prop :=
  ∀ ts, Selects [d] ts → ts.flatMap (·.toList.filter keep) = cs

/-- In each of its layouts the document writes a text that is as `p` says, if the empty text is
not. -/
def Always (p : String → Prop) (d : Doc) : Prop := p "" ∨ ∀ ts, Selects [d] ts → ∃ s ∈ ts, p s

/-- Documents one after the other are what a `concat` of them writes. -/
theorem selects_concat {ds : List Doc} {ts : List String} :
    Selects [.concat ds] ts ↔ Selects ds ts := by
  constructor
  · intro h
    obtain ⟨docs, hopen, ts', rfl, h⟩ := h.exists_opening (by simp)
    rw [List.mem_singleton.mp hopen] at h
    exact h
  · intro h
    have h : Selects (ds ++ []) ts := by rwa [List.append_nil]
    exact .opens (List.mem_singleton_self ds) h

/-- An empty document may write empty texts only. -/
theorem exists_selects_of_isEmpty {d : Doc} (h : d.isEmpty = true) :
    ∃ ts, Selects [d] ts ∧ ∀ s ∈ ts, s = "" := by
  induction d using Doc.induction with
  | text s =>
    refine ⟨[s] ++ [], .opens (List.mem_singleton_self []) .nil, fun s' hs' => ?_⟩
    rw [List.mem_singleton.mp hs']
    simpa [Doc.isEmpty] using h
  | concat parts ih =>
    suffices hall : ∃ ts, Selects parts ts ∧ ∀ s ∈ ts, s = "" by
      exact hall.imp fun ts hts => ⟨selects_concat.mpr hts.1, hts.2⟩
    rw [Doc.isEmpty] at h
    induction parts with
    | nil => exact ⟨[], .nil, by simp⟩
    | cons e rest ihr =>
      rw [Doc.allEmpty, Bool.and_eq_true] at h
      obtain ⟨ts, hts, hempty⟩ := ih e List.mem_cons_self h.1
      obtain ⟨ts', hts', hempty'⟩ := ihr (fun d hd => ih d (List.mem_cons_of_mem e hd)) h.2
      refine ⟨ts ++ ts', hts.append hts', fun s hs => ?_⟩
      exact (List.mem_append.mp hs).elim (hempty s) (hempty' s)
  | _ => simp [Doc.isEmpty] at h

theorem ink_of_isEmpty {d : Doc} (h : d.isEmpty = true) : d.ink = [] := by
  induction d using Doc.induction with
  | text s =>
    have hs : s = "" := by simpa [Doc.isEmpty] using h
    rw [hs]
    rfl
  | concat parts ih =>
    rw [Doc.isEmpty] at h
    rw [Doc.ink, Doc.inkAll_eq, List.flatMap_eq_nil_iff]
    induction parts with
    | nil => simp
    | cons e rest ihr =>
      rw [Doc.allEmpty, Bool.and_eq_true] at h
      intro d hd
      rcases List.mem_cons.mp hd with rfl | hd
      · exact ih d List.mem_cons_self h.1
      · exact ihr (fun d hd => ih d (List.mem_cons_of_mem e hd)) h.2 d hd
  | _ => simp [Doc.isEmpty] at h

/-- A document that writes nothing itself writes what one of its parts writes. -/
theorem exists_selects_of_openings {d : Doc} (parts : List Doc) {ts : List String}
    (h : Selects [d] ts) (hd : ∀ e, d ≠ .lineSuffix e)
    (hparts : (Item.doc d).openings = parts.map ([·])) (hown : d.ownTexts = []) :
    ∃ e ∈ parts, Selects [e] ts := by
  obtain ⟨docs, hopen, ts', rfl, h⟩ := h.exists_opening hd
  rw [hparts, List.mem_map] at hopen
  obtain ⟨e, he, rfl⟩ := hopen
  rw [hown]
  exact ⟨e, he, h⟩

/-- A document without texts writes nothing. -/
theorem eq_nil_of_openings {d : Doc} {ts : List String} (h : Selects [d] ts)
    (hd : ∀ e, d ≠ .lineSuffix e) (hopen : (Item.doc d).openings = [[]]) (hown : d.ownTexts = []) :
    ts = [] := by
  obtain ⟨docs, hdocs, ts', rfl, h⟩ := h.exists_opening hd
  rw [hopen, List.mem_singleton] at hdocs
  subst hdocs
  rw [hown, h.eq_nil, List.append_nil]

section Lays

variable {keep : Char → Bool} {Aside : Doc → Prop} {ls : List (Leaf β)} {d : Doc}

/-- What a leaf writes, if `K` is what is written for the parts. -/
def Leaf.read (K : β → List Char) : Leaf β → List Char
  | char c => [c]
  | part b _ => K b

theorem flatMap_letters (K : β → List Char) (s : String) :
    (letters keep s).flatMap (Leaf.read K) = s.toList.filter keep := by
  rw [letters, List.flatMap_map]
  exact List.flatMap_singleton' _

/-- **A document writes its leaves.** -/
theorem Lays.writes {K : β → List Char} (h : Lays keep Aside ls d)
    (hparts : ∀ b e, .part b e ∈ ls → Writes keep e (K b))
    (haside : ∀ e, Aside e → Writes keep e []) : Writes keep d (ls.flatMap (Leaf.read K)) := by
  induction h with
  | text s =>
    intro ts hts
    obtain ⟨docs, hopen, ts', rfl, h⟩ := hts.exists_opening (by simp)
    rw [List.mem_singleton.mp hopen] at h
    rw [h.eq_nil, flatMap_letters]
    simp [Doc.ownTexts]
  | part b d => simpa [Leaf.read] using hparts b d (List.mem_singleton_self _)
  | aside hd => exact haside _ hd
  | nil =>
    intro ts hts
    rw [(selects_concat.mp hts).eq_nil]
    rfl
  | @vanish ls ls' d ds _ hempty _ ih ih' =>
    have hnone : ls.flatMap (Leaf.read K) = [] := by
      obtain ⟨ts, hts, hs⟩ := exists_selects_of_isEmpty hempty
      rw [← ih (fun b e hb => hparts b e (List.mem_append_left _ hb)) ts hts,
        List.flatMap_eq_nil_iff]
      intro s hmem
      rw [hs s hmem]
      rfl
    rw [List.flatMap_append, hnone]
    exact ih' fun b e hb => hparts b e (List.mem_append_right _ hb)
  | cons _ _ ih ih' =>
    intro ts hts
    obtain ⟨ts₁, ts₂, rfl, h₁, h₂⟩ := (selects_concat.mp hts).of_cons
    rw [List.flatMap_append, List.flatMap_append,
      ih (fun b e hb => hparts b e (List.mem_append_left _ hb)) ts₁ h₁,
      ih' (fun b e hb => hparts b e (List.mem_append_right _ hb)) ts₂ (selects_concat.mpr h₂)]
  | group b id _ ih | indent _ ih =>
    intro ts hts
    obtain ⟨e, he, hts⟩ := exists_selects_of_openings [_] hts (by simp) rfl rfl
    rw [List.mem_singleton.mp he] at hts
    exact ih hparts ts hts
  | conditional b id _ ih =>
    intro ts hts
    obtain ⟨e, he, hts⟩ := exists_selects_of_openings _ hts (by simp) rfl rfl
    exact ih e he hparts ts hts
  | choose id _ _ ih ih' =>
    intro ts hts
    obtain ⟨e', he, hts'⟩ := exists_selects_of_openings [_, _] hts (by simp) rfl rfl
    rcases List.mem_pair.mp he with rfl | rfl
    · exact ih hparts ts hts'
    · exact ih' hparts ts hts'
  | line | breakParent | cursor =>
    intro ts hts
    rw [eq_nil_of_openings hts (by simp) rfl rfl]
    rfl

/-- What a leaf writes in each layout is written in each layout. -/
theorem Lays.always {b : β} {e : Doc} {p : String → Prop} (h : Lays keep Aside ls d)
    (hmem : .part b e ∈ ls) (he : Always p e) : Always p d := by
  -- Choices between documents that write the text, and a choice of one document.
  have hopens : ∀ (parts : List Doc) (d : Doc), (∀ e, d ≠ .lineSuffix e) →
      (Item.doc d).openings = parts.map ([·]) → d.ownTexts = [] → (∀ e ∈ parts, Always p e) →
      Always p d := by
    intro parts d hd hopen hown hparts
    by_cases hempty : p ""
    · exact .inl hempty
    · refine .inr fun ts hts => ?_
      obtain ⟨e, he, hts⟩ := exists_selects_of_openings parts hts hd hopen hown
      exact (hparts e he).resolve_left hempty ts hts
  induction h with
  | text s => simp [letters] at hmem
  | part b d =>
    cases List.mem_singleton.mp hmem
    exact he
  | aside | nil | line | breakParent | cursor => cases hmem
  | vanish _ hempty _ ih ih' =>
    rcases List.mem_append.mp hmem with hmem | hmem
    · refine .inl ?_
      rcases ih hmem with hp | hp
      · exact hp
      · obtain ⟨ts, hts, hs⟩ := exists_selects_of_isEmpty hempty
        obtain ⟨s, hmem, hp⟩ := hp ts hts
        rwa [hs s hmem] at hp
    · exact ih' hmem
  | cons _ _ ih ih' =>
    by_cases hempty : p ""
    · exact .inl hempty
    · refine .inr fun ts hts => ?_
      obtain ⟨ts₁, ts₂, rfl, h₁, h₂⟩ := (selects_concat.mp hts).of_cons
      rcases List.mem_append.mp hmem with hmem | hmem
      · obtain ⟨s, hs, hp⟩ := (ih hmem).resolve_left hempty ts₁ h₁
        exact ⟨s, List.mem_append_left _ hs, hp⟩
      · obtain ⟨s, hs, hp⟩ := (ih' hmem).resolve_left hempty ts₂ (selects_concat.mpr h₂)
        exact ⟨s, List.mem_append_right _ hs, hp⟩
  | group b id _ ih | indent _ ih =>
    exact hopens [_] _ (by simp) rfl rfl (by simpa using ih hmem)
  | conditional b id _ ih => exact hopens _ _ (by simp) rfl rfl fun e he => ih e he hmem
  | choose id _ _ ih ih' =>
    exact hopens [_, _] _ (by simp) rfl rfl (by simpa using ⟨ih hmem, ih' hmem⟩)

/-- A document is plain if its leaves are. -/
theorem Lays.isPlain (h : Lays keep Aside ls d)
    (hparts : ∀ b e, .part b e ∈ ls → e.isPlain = true)
    (haside : ∀ e, Aside e → e.isPlain = true) : d.isPlain = true := by
  induction h with
  | text | nil | line | breakParent | cursor => rfl
  | vanish _ _ _ _ ih' => exact ih' fun b e hb => hparts b e (List.mem_append_right _ hb)
  | part b d => exact hparts b d (List.mem_singleton_self _)
  | aside hd => exact haside _ hd
  | cons _ _ ih ih' =>
    have hds := ih' fun b e hb => hparts b e (List.mem_append_right _ hb)
    rw [Doc.isPlain] at hds
    rw [Doc.isPlain, Doc.allPlain, ih fun b e hb => hparts b e (List.mem_append_left _ hb), hds]
    rfl
  | group _ _ _ ih | indent _ ih => exact ih hparts
  | conditional _ _ _ ih =>
    rw [Doc.isPlain, Doc.allPlain_eq, Bool.and_eq_true, List.all_eq_true]
    exact ⟨ih _ List.mem_cons_self hparts, fun e he => ih e (List.mem_cons_of_mem _ he) hparts⟩
  | choose _ _ _ ih ih' => rw [Doc.isPlain, ih hparts, ih' hparts]; rfl

/-- The ink of a leaf. -/
def Leaf.ink : Leaf β → List Char
  | char c => [c]
  | part _ d => d.ink

/-- When all ink is kept, choices between documents with the same leaves agree in their ink. -/
theorem Lays.coherent (h : Lays (!isGap ·) Aside ls d)
    (hparts : ∀ b e, .part b e ∈ ls → e.coherent = true)
    (haside : ∀ e, Aside e → e.coherent = true ∧ e.ink = []) :
    d.coherent = true ∧ d.ink = ls.flatMap Leaf.ink := by
  induction h with
  | text s =>
    refine ⟨rfl, ?_⟩
    rw [letters, List.flatMap_map]
    exact (List.flatMap_singleton' _).symm
  | part b d => exact ⟨hparts b d (List.mem_singleton_self _), by simp [Leaf.ink]⟩
  | aside hd => exact haside _ hd
  | nil | line | breakParent | cursor => exact ⟨rfl, rfl⟩
  | vanish _ hempty _ ih ih' =>
    obtain ⟨-, hink⟩ := ih fun b e hb => hparts b e (List.mem_append_left _ hb)
    rw [ink_of_isEmpty hempty] at hink
    rw [List.flatMap_append, ← hink]
    exact ih' fun b e hb => hparts b e (List.mem_append_right _ hb)
  | cons _ _ ih ih' =>
    obtain ⟨hd, hink⟩ := ih fun b e hb => hparts b e (List.mem_append_left _ hb)
    obtain ⟨hds, hinks⟩ := ih' fun b e hb => hparts b e (List.mem_append_right _ hb)
    rw [Doc.coherent] at hds
    rw [Doc.ink] at hinks
    rw [Doc.coherent, Doc.allCoherent, hd, hds, Doc.ink, Doc.inkAll, hink, hinks,
      List.flatMap_append]
    exact ⟨rfl, rfl⟩
  | group _ _ _ ih | indent _ ih => exact ih hparts
  | conditional _ _ _ ih =>
    obtain ⟨hd, hink⟩ := ih _ List.mem_cons_self hparts
    refine ⟨?_, hink⟩
    simp only [Doc.coherent, Doc.allCoherent_eq, Bool.and_eq_true, List.all_eq_true, beq_iff_eq]
    refine ⟨⟨hd, fun e he => (ih e (List.mem_cons_of_mem _ he) hparts).1⟩, fun e he => ?_⟩
    rw [(ih e (List.mem_cons_of_mem _ he) hparts).2, hink]
  | choose _ _ _ ih ih' =>
    obtain ⟨hd, hink⟩ := ih hparts
    obtain ⟨he, hink'⟩ := ih' hparts
    rw [Doc.coherent, hd, he, Doc.ink, hink, hink']
    exact ⟨by simp, rfl⟩

end Lays

/-! ## Building -/

/-- The document has leaves of this shape, whose documents are as `P` says. -/
def Builds (keep : Char → Bool) (Aside : Doc → Prop) (P : β → Doc → Prop)
    (shape : List (Char ⊕ β)) (d : Doc) : Prop :=
  ∃ ls, Lays keep Aside ls d ∧ ls.map Leaf.shape = shape ∧ ∀ b e, .part b e ∈ ls → P b e

/-- The parts in a shape, one after the other. -/
def partsOf (bs : List β) : List (Char ⊕ β) := bs.map .inr

@[simp] theorem partsOf_nil : partsOf ([] : List β) = [] := rfl

@[simp] theorem partsOf_cons (b : β) (bs : List β) :
    partsOf (b :: bs) = .inr b :: partsOf bs := rfl

@[simp] theorem word_empty (keep : Char → Bool) : (word keep "" : List (Char ⊕ β)) = [] := rfl

theorem word_append (keep : Char → Bool) (s s' : String) :
    (word keep (s ++ s') : List (Char ⊕ β)) = word keep s ++ word keep s' := by
  simp [word]

namespace Builds

variable {keep : Char → Bool} {Aside : Doc → Prop} {P : β → Doc → Prop}
  {shape shape' : List (Char ⊕ β)} {d : Doc} {ds ds' : List Doc} {b : β}

theorem of_eq (h : Builds keep Aside P shape d) (heq : shape = shape') :
    Builds keep Aside P shape' d := heq ▸ h

theorem text (s : String) : Builds keep Aside P (word keep s) (.text s) := by
  refine ⟨_, .text s, ?_, ?_⟩
  · rw [letters, word, List.map_map]
    rfl
  · simp [letters]

theorem part (h : P b d) : Builds keep Aside P [.inr b] d := by
  refine ⟨_, .part b d, rfl, fun b' e hmem => ?_⟩
  cases List.mem_singleton.mp hmem
  exact h

theorem aside (h : Aside d) : Builds keep Aside P [] d := ⟨[], .aside h, rfl, by simp⟩

theorem group (h : Builds keep Aside P shape d) (shouldBreak : Bool) (id : Option GroupId) :
    Builds keep Aside P shape (.group d shouldBreak id) :=
  h.imp fun _ h => ⟨.group shouldBreak id h.1, h.2⟩

theorem groupOf (h : Builds keep Aside P shape d) : Builds keep Aside P shape (Doc.groupOf d) :=
  h.group false none

theorem indent (h : Builds keep Aside P shape d) : Builds keep Aside P shape (.indent d) :=
  h.imp fun _ h => ⟨.indent h.1, h.2⟩

theorem line (kind : LineKind) : Builds keep Aside P [] (.line kind) :=
  ⟨[], .line kind, rfl, by simp⟩

theorem breakParent : Builds keep Aside P [] .breakParent := ⟨[], .breakParent, rfl, by simp⟩

theorem cursor : Builds keep Aside P [] .cursor := ⟨[], .cursor, rfl, by simp⟩

end Builds

/-- The same for documents one after the other. -/
inductive BuildsAll (keep : Char → Bool) (Aside : Doc → Prop) (P : β → Doc → Prop) :
    List (Char ⊕ β) → List Doc → Prop
  | nil : BuildsAll keep Aside P [] []
  | cons {shape shape' : List (Char ⊕ β)} {d : Doc} {ds : List Doc} :
      Builds keep Aside P shape d → BuildsAll keep Aside P shape' ds →
      BuildsAll keep Aside P (shape ++ shape') (d :: ds)

namespace BuildsAll

variable {keep : Char → Bool} {Aside : Doc → Prop} {P : β → Doc → Prop}
  {shape shape' : List (Char ⊕ β)} {d : Doc} {ds ds' : List Doc}

theorem of_eq (h : BuildsAll keep Aside P shape ds) (heq : shape = shape') :
    BuildsAll keep Aside P shape' ds := heq ▸ h

theorem concat (h : BuildsAll keep Aside P shape ds) : Builds keep Aside P shape (.concat ds) := by
  induction h with
  | nil => exact ⟨[], .nil, rfl, by simp⟩
  | cons h _ ih =>
    obtain ⟨ls, hlays, rfl, hparts⟩ := h
    obtain ⟨ls', hlays', rfl, hparts'⟩ := ih
    refine ⟨ls ++ ls', .cons hlays hlays', List.map_append, fun b e hmem => ?_⟩
    exact (List.mem_append.mp hmem).elim (hparts b e) (hparts' b e)

theorem append (h : BuildsAll keep Aside P shape ds) (h' : BuildsAll keep Aside P shape' ds') :
    BuildsAll keep Aside P (shape ++ shape') (ds ++ ds') := by
  induction h with
  | nil => exact h'
  | cons h _ ih =>
    rw [List.append_assoc]
    exact .cons h ih

theorem of_append (h : BuildsAll keep Aside P shape (ds ++ ds')) : ∃ s s', shape = s ++ s' ∧
    BuildsAll keep Aside P s ds ∧ BuildsAll keep Aside P s' ds' := by
  induction ds generalizing shape with
  | nil => exact ⟨[], shape, rfl, .nil, h⟩
  | cons d ds ih =>
    cases h with
    | cons h hrest =>
      obtain ⟨s, s', rfl, hs, hs'⟩ := ih hrest
      exact ⟨_, s', (List.append_assoc ..).symm, .cons h hs, hs'⟩

theorem singleton (h : Builds keep Aside P shape d) : BuildsAll keep Aside P shape [d] :=
  (cons h nil).of_eq (List.append_nil shape)

/-- A document that writes nothing may come first. -/
theorem skip (h : Builds keep Aside P [] d) (h' : BuildsAll keep Aside P shape ds) :
    BuildsAll keep Aside P shape (d :: ds) := .cons h h'

end BuildsAll

/-! ## Lists with commas -/

/-- Parts with commas between them. -/
def separated (keep : Char → Bool) : List β → List (Char ⊕ β)
  | [] => []
  | [b] => [.inr b]
  | b :: rest => .inr b :: word keep "," ++ separated keep rest

/-- The same with documents. -/
def joined (keep : Char → Bool) : List (β × Doc) → List (Leaf β)
  | [] => []
  | [(b, d)] => [.part b d]
  | (b, d) :: rest => .part b d :: letters keep "," ++ joined keep rest

section Joined

variable {keep : Char → Bool} {Aside : Doc → Prop} {xs : List (β × Doc)}

theorem map_shape_letters (s : String) :
    (letters keep s : List (Leaf β)).map Leaf.shape = word keep s := by
  rw [letters, word, List.map_map]
  rfl

theorem map_shape_joined (xs : List (β × Doc)) :
    (joined keep xs).map Leaf.shape = separated keep (xs.map (·.1)) := by
  induction xs using joined.induct with
  | case1 => rfl
  | case2 b d => rfl
  | case3 b d rest hrest ih =>
    obtain ⟨x, rest, rfl⟩ := List.exists_cons_of_ne_nil hrest
    rw [joined, List.map_append, List.map_cons, map_shape_letters, ih]
    · rfl
    · exact hrest

theorem mem_joined {b : β} {d : Doc} (h : .part b d ∈ joined keep xs) : (b, d) ∈ xs := by
  induction xs using joined.induct with
  | case1 => cases h
  | case2 b' d' =>
    cases List.mem_singleton.mp h
    exact List.mem_singleton_self _
  | case3 b' d' rest hrest ih =>
    rw [joined] at h
    · rcases List.mem_append.mp h with h | h
      · rcases List.mem_cons.mp h with h | h
        · cases h
          exact List.mem_cons_self
        · simp [letters] at h
      · exact List.mem_cons_of_mem _ (ih h)
    · exact hrest

/-- Documents with the same separator between each two. -/
theorem lays_intersperse {sep : Doc} (hsep : Lays (β := β) keep Aside (letters keep ",") sep)
    (xs : List (β × Doc)) :
    Lays keep Aside (joined keep xs) (.concat ((xs.map (·.2)).intersperse sep)) := by
  induction xs using joined.induct with
  | case1 => exact .nil
  | case2 b d => exact .cons (.part b d) .nil
  | case3 b d rest hrest ih =>
    obtain ⟨x, rest, rfl⟩ := List.exists_cons_of_ne_nil hrest
    have h : Lays keep Aside ([.part b d] ++ (letters keep "," ++ joined keep (x :: rest)))
        (.concat (d :: sep :: ((x :: rest).map (·.2)).intersperse sep)) :=
      .cons (.part b d) (.cons hsep ih)
    rw [joined]
    · exact h
    · exact hrest

/-- Documents with a separator after each but the last one. That one is taken for another document,
with the same leaves. -/
theorem lays_last {sep : Doc} (hsep : Lays (β := β) keep Aside (letters keep ",") sep)
    {xs : List (β × Doc)} {f : Doc → Doc}
    (hf : ∀ (ls : List (Leaf β)) (d : Doc), Lays keep Aside ls d → Lays keep Aside ls (f d))
    {closing : Doc} {ls : List (Leaf β)} (hclosing : Lays keep Aside ls closing) (hne : xs ≠ []) :
    Lays keep Aside (joined keep xs ++ ls)
      (.concat ((xs.map (·.2)).dropLast.flatMap (fun d => [d, sep])
        ++ [f ((xs.map (·.2)).getLast?.getD Doc.nil), closing])) := by
  induction xs using joined.induct with
  | case1 => exact absurd rfl hne
  | case2 b d =>
    have h : Lays keep Aside (joined keep [(b, d)] ++ (ls ++ [])) (.concat [f d, closing]) :=
      .cons (hf _ _ (.part b d)) (.cons hclosing .nil)
    rwa [List.append_nil] at h
  | case3 b d rest hrest ih =>
    obtain ⟨x, rest, rfl⟩ := List.exists_cons_of_ne_nil hrest
    have h := Lays.cons (.part b d) (.cons hsep (ih (List.cons_ne_nil _ _)))
    rw [joined, List.append_assoc]
    · exact h
    · exact hrest

end Joined

namespace Builds

variable {keep : Char → Bool} {Aside : Doc → Prop} {P : β → Doc → Prop}
  {shape : List (Char ⊕ β)} {d e : Doc} {b : β}

/-- A document that is empty may be left out. -/
theorem vanish (h : Builds keep Aside P shape d) (hempty : d.isEmpty = true) {ds : List Doc}
    (h' : Builds keep Aside P [] (.concat ds)) : Builds keep Aside P shape (.concat ds) := by
  obtain ⟨ls, hlays, rfl, hparts⟩ := h
  obtain ⟨ls', hlays', hnil, hparts'⟩ := h'
  rw [List.map_eq_nil_iff] at hnil
  subst hnil
  refine ⟨ls ++ [], .vanish hlays hempty hlays', ?_, ?_⟩ <;> rw [List.append_nil]
  exact hparts

theorem hardline : Builds keep Aside P [] Doc.hardline :=
  (BuildsAll.skip (line .hard) (.singleton breakParent)).concat

theorem nil : Builds keep Aside P [] Doc.nil := BuildsAll.nil.concat

/-! ## What is known of the leaves -/

theorem mem_part {ls : List (Leaf β)} (h : .inr b ∈ ls.map Leaf.shape) :
    ∃ e, .part b e ∈ ls := by
  obtain ⟨l, hl, hshape⟩ := List.mem_map.mp h
  cases l with
  | char c => cases hshape
  | part b' e =>
    cases hshape
    exact ⟨e, hl⟩

/-- **A document writes its texts and what its parts write.** -/
theorem writes {K : β → List Char} (h : Builds keep Aside P shape d)
    (hparts : ∀ b e, .inr b ∈ shape → P b e → Writes keep e (K b))
    (haside : ∀ e, Aside e → Writes keep e []) :
    Writes keep d (shape.flatMap (Sum.elim (fun c => [c]) K)) := by
  obtain ⟨ls, hlays, rfl, hP⟩ := h
  have hread : ls.flatMap (Leaf.read K) =
      (ls.map Leaf.shape).flatMap (Sum.elim (fun c => [c]) K) := by
    rw [List.flatMap_map]
    exact List.flatMap_congr fun l _ => by cases l <;> rfl
  rw [← hread]
  refine hlays.writes (fun b e hmem => hparts b e ?_ (hP b e hmem)) haside
  exact List.mem_map_of_mem (f := Leaf.shape) hmem

/-- What a part always writes is always written. -/
theorem always {p : String → Prop} (h : Builds keep Aside P shape d) (hb : .inr b ∈ shape)
    (hP : ∀ e, P b e → Always p e) : Always p d := by
  obtain ⟨ls, hlays, rfl, hparts⟩ := h
  obtain ⟨e, he⟩ := mem_part hb
  exact hlays.always he (hP e (hparts b e he))

theorem isPlain (h : Builds keep Aside P shape d) (hP : ∀ b e, P b e → e.isPlain = true)
    (haside : ∀ e, Aside e → e.isPlain = true) : d.isPlain = true := by
  obtain ⟨ls, hlays, -, hparts⟩ := h
  exact hlays.isPlain (fun b e hmem => hP b e (hparts b e hmem)) haside

theorem coherent (h : Builds (!isGap ·) Aside P shape d)
    (hP : ∀ b e, P b e → e.coherent = true)
    (haside : ∀ e, Aside e → e.coherent = true ∧ e.ink = []) : d.coherent = true := by
  obtain ⟨ls, hlays, -, hparts⟩ := h
  exact (hlays.coherent (fun b e hmem => hP b e (hparts b e hmem)) haside).1

end Builds

end CodeFormatter.Layout
