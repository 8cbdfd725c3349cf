import CodeFormatter.Proofs.Layout.Invariants
import Mathlib.Data.List.Forall2

/-!
# Where in the document a piece is written

A command of the machine does not tell which documents it stands in. This module runs the layout once
more and keeps beside each command the documents around it, outermost first. `sitesOf` lists the pieces
that a layout writes, each with the document that writes it and the documents around that one.

**The tracker.** `Places` holds the documents around what is on the stack and in the queue. It runs beside
the machine and decides nothing: the pieces of the sites are those that the machine writes.

**Invariant (`Command.StandsIn`).** The documents around a command lead to it from the whole document, part
by part, and its indentation is the one that they make, one after the other.

**Theorem (`sound_of_mem_sitesOf`).** So each piece is written with the indentation of the documents around
it, no matter in what order groups, choices and suffixes let the machine get there.
-/

namespace CodeFormatter

/-- The documents of the list, outermost first, lead from `root` to a document, each to a part of it. A
boundary of suffixes leads to the hard line that it becomes. -/
inductive Doc.LeadsTo (root : Doc) : List Doc → Doc → Prop
  | refl : LeadsTo root [] root
  | part {around : List Doc} {d e : Doc} :
      LeadsTo root around d → e ∈ d.children → LeadsTo root (around ++ [d]) e
  | boundary {around : List Doc} : LeadsTo root around .lineSuffixBoundary →
      LeadsTo root (around ++ [.lineSuffixBoundary]) (.line .hard)

namespace Layout

/-! ## The documents around a command -/

namespace Indentation

/-- The indentation of the parts of a document that has the indentation `i`. -/
def inside (settings : Settings) (i : Indentation) : Doc → Indentation
  | .indent _ => i.indent settings
  | .align alignment _ => i.align settings alignment
  | _ => i

/-- The indentation inside all of these documents, outermost first. -/
def insideAll (settings : Settings) (around : List Doc) : Indentation :=
  around.foldl (inside settings) none

end Indentation

/-- The document that opens into the parts of an item. What is left of a fill is inside it already. -/
def Item.opener : Item → List Doc
  | .doc d => [d]
  | .fillRest _ => []

/-- The command stands in the documents `around` of `root`, and is indented by them. -/
structure Command.StandsIn (settings : Settings) (root : Doc) (around : List Doc) (c : Command) :
    Prop where
  leads : ∀ d ∈ c.item.docs, root.LeadsTo around d
  indentation : c.indentation = Indentation.insideAll settings around

namespace Command.StandsIn

variable {settings : Settings} {root : Doc} {around : List Doc} {c c' : Command}

/-- What a command opens into stands inside it. -/
theorem opened {docs : List Doc} (h : c.StandsIn settings root around) (hopen : docs ∈ c.item.openings)
    (hdocs : ∀ d ∈ c'.item.docs, d ∈ docs) (hi : c'.indentation = c.scope settings) :
    c'.StandsIn settings root (around ++ c.item.opener) := by
  obtain ⟨i, m, item⟩ := c
  cases item with
  | fillRest parts =>
    rw [List.mem_singleton.mp hopen] at hdocs
    constructor
    · intro d hd
      simpa [Item.opener] using h.leads d (hdocs d hd)
    · rw [hi]
      simpa [Item.opener, Command.scope] using h.indentation
  | doc e =>
    have he : root.LeadsTo around e := h.leads e (List.mem_singleton_self e)
    constructor
    · intro d hd
      rcases Item.mem_children_of_mem_openings hopen (hdocs d hd) with ⟨rfl, rfl⟩ | hd
      · exact .boundary he
      · exact .part he hd
    · have hscope : Command.scope settings ⟨i, m, .doc e⟩ = i.inside settings e := by cases e <;> rfl
      rw [hi, hscope, show i = _ from h.indentation, Item.opener, Indentation.insideAll,
        Indentation.insideAll, List.foldl_append, List.foldl_cons, List.foldl_nil]

/-- What is deferred stands inside the suffix. -/
theorem deferred {i : Indentation} {m : Mode} {d : Doc}
    (h : Command.StandsIn settings root around ⟨i, m, .doc (.lineSuffix d)⟩) :
    Command.StandsIn settings root (around ++ [.lineSuffix d]) ⟨i, m, .doc d⟩ := by
  constructor
  · intro e he
    rw [List.mem_singleton.mp he]
    exact .part (h.leads _ (List.mem_singleton_self _)) (List.mem_singleton_self d)
  · rw [Indentation.insideAll, List.foldl_append]
    exact h.indentation

end Command.StandsIn

/-! ## The tracker -/

/-- The documents around each command on the stack and in the queue. -/
structure Places where
  commands : List (List Doc)
  suffixes : List (List Doc)

/-- A piece that is written, the document that writes it, and the documents around that one. -/
structure Site where
  around : List Doc
  doc : Doc
  piece : Piece

namespace Places

/-- At the start there is one command, for the whole document. -/
def start : Places := { commands := [[]], suffixes := [] }

/-- Follows the command `c` from the state `st` to the state `st'`, both without the command. When the
queue has grown, a suffix of `c` waits; when it has become shorter, `c` comes back after it. -/
def follow (t : Places) (around : List Doc) (c : Command) (st st' : State) : Places :=
  if st.suffixes.length < st'.suffixes.length then
    { t with suffixes := t.suffixes ++ [around ++ c.item.opener] }
  else if st'.suffixes.length < st.suffixes.length then
    { commands := t.suffixes ++ around :: t.commands, suffixes := [] }
  else
    let new := st'.commands.length - st.commands.length
    { t with commands := List.replicate new (around ++ c.item.opener) ++ t.commands }

/-- When nothing is left to print, the waiting suffixes follow. -/
def settle (t : Places) : Places :=
  if t.commands.isEmpty then { commands := t.suffixes, suffixes := [] } else t

/-- Follows a step of the machine from the state `st`. -/
def step (settings : Settings) (fuel : Nat) (st : State) (t : Places) : Places :=
  match st.commands, t.commands with
  | c :: commands, around :: rest =>
    let st := { st with commands }
    ({ t with commands := rest }.follow around c st (st.perform settings fuel c)).settle
  | _, _ => t

/-- What a step writes. -/
def sites (settings : Settings) (fuel : Nat) (st : State) (t : Places) : List Site :=
  match st.commands, t.commands with
  | ⟨_, _, .doc d⟩ :: _, around :: _ => (st.writes settings fuel).map (⟨around, d, ·⟩)
  | _, _ => []

/-- What a run writes. -/
def sitesFrom (settings : Settings) : Nat → State → Places → List Site
  | 0, _, _ => []
  | fuel + 1, st, t =>
    if st.commands.isEmpty then []
    else t.sites settings (fuel + 2) st ++
      sitesFrom settings fuel (st.step settings (fuel + 2)) (t.step settings (fuel + 2) st)

end Places

/-- What the layout of a document writes, and where. -/
def sitesOf (settings : Settings) (d : Doc) : List Site :=
  let d := d.propagateBreaks
  Places.start.sitesFrom settings d.work (State.start d)

/-- The piece is written at this place of `root`, with the indentation of the place. -/
structure Site.Sound (settings : Settings) (root : Doc) (site : Site) : Prop where
  leads : root.LeadsTo site.around site.doc
  written : ∃ (st : State) (fuel : Nat) (mode : Mode) (rest : List Command),
    st.commands = ⟨.insideAll settings site.around, mode, .doc site.doc⟩ :: rest ∧
      site.piece ∈ st.writes settings fuel

namespace Places

variable {settings : Settings} {root : Doc} {fuel : Nat} {st st' : State} {t : Places}
  {around : List Doc} {c : Command}

/-- The tracker is beside the machine. -/
structure Follows (settings : Settings) (root : Doc) (st : State) (t : Places) : Prop where
  commands : List.Forall₂ (Command.StandsIn settings root) t.commands st.commands
  suffixes : List.Forall₂ (Command.StandsIn settings root) t.suffixes st.suffixes

theorem follows_start (settings : Settings) (root : Doc) :
    start.Follows settings root (State.start root) := by
  refine ⟨.cons ⟨fun d hd => ?_, rfl⟩ .nil, .nil⟩
  rw [List.mem_singleton.mp hd]
  exact .refl

namespace Follows

theorem settle (h : t.Follows settings root st) : t.settle.Follows settings root st.settle := by
  have hempty : t.commands.isEmpty = st.commands.isEmpty := by
    have hlength := h.commands.length_eq
    rw [Bool.eq_iff_iff, List.isEmpty_iff_length_eq_zero, List.isEmpty_iff_length_eq_zero, hlength]
  unfold Places.settle State.settle
  rw [hempty]
  split
  · rename_i hnil
    have hnil : st.commands = [] := by simpa using hnil
    refine ⟨?_, .nil⟩
    simpa [State.release, hnil] using h.suffixes
  · exact h

/-- **A command keeps the tracker beside the machine.** -/
theorem follow (h : t.Follows settings root st) (hc : c.StandsIn settings root around)
    (hperforms : State.Performs settings st c st') :
    (t.follow around c st st').Follows settings root st' := by
  unfold Places.follow
  cases hperforms with
  | opened new hcommands hsuffixes hopen hi _ =>
    have hlength : st'.suffixes.length = st.suffixes.length := by rw [hsuffixes]
    have hnew : List.Forall₂ (Command.StandsIn settings root)
        (List.replicate new.length (around ++ c.item.opener)) new := by
      refine List.forall₂_iff_get.mpr ⟨List.length_replicate, ?_⟩
      intro k hk hk'
      have hmem : new.get ⟨k, hk'⟩ ∈ new := List.get_mem ..
      rw [List.get_eq_getElem, List.getElem_replicate]
      exact hc.opened hopen (fun d hd => List.mem_flatMap.mpr ⟨_, hmem, hd⟩) (hi _ hmem)
    rw [if_neg (by omega), if_neg (by omega), hcommands, List.length_append, Nat.add_sub_cancel]
    exact ⟨hcommands ▸ List.rel_append hnew h.commands, hsuffixes ▸ h.suffixes⟩
  | deferred d hitem hcommands hsuffixes =>
    obtain ⟨i, m, item⟩ := c
    obtain rfl : item = .doc (.lineSuffix d) := hitem
    have hlength : st'.suffixes.length = st.suffixes.length + 1 := by
      rw [hsuffixes, List.length_append, List.length_singleton]
    rw [if_pos (by omega)]
    exact ⟨hcommands ▸ h.commands, hsuffixes ▸ List.rel_append h.suffixes (.cons hc.deferred .nil)⟩
  | released kind _ hne hcommands hsuffixes =>
    have hlength : st'.suffixes.length = 0 := by rw [hsuffixes, List.length_nil]
    have hpos := List.length_pos_of_ne_nil hne
    rw [if_neg (by omega), if_pos (by omega)]
    exact ⟨hcommands ▸ List.rel_append h.suffixes (.cons hc h.commands), hsuffixes ▸ .nil⟩

/-- **Every step keeps the tracker beside the machine.** -/
theorem step (h : t.Follows settings root st) (fuel : Nat) (hne : st.commands ≠ []) :
    (t.step settings fuel st).Follows settings root (st.step settings fuel) := by
  obtain ⟨c, rest, hst⟩ := List.exists_cons_of_ne_nil hne
  have hcommands := h.commands
  rw [hst] at hcommands
  obtain ⟨around, places, hc, hrest, ht⟩ := List.forall₂_cons_right_iff.mp hcommands
  rw [State.step_eq hst, Places.step, hst, ht]
  have h' : Follows settings root { st with commands := rest } { t with commands := places } :=
    ⟨hrest, h.suffixes⟩
  exact (h'.follow hc (State.performs_perform settings fuel _ c)).settle

/-- What a step writes is written where the tracker says. -/
theorem sites (h : t.Follows settings root st) (fuel : Nat) (hne : st.commands ≠ []) :
    (t.sites settings fuel st).map (·.piece) = st.writes settings fuel ∧
      ∀ site ∈ t.sites settings fuel st, site.Sound settings root := by
  obtain ⟨⟨i, m, item⟩, rest, hst⟩ := List.exists_cons_of_ne_nil hne
  have hcommands := h.commands
  rw [hst] at hcommands
  obtain ⟨around, places, hc, -, ht⟩ := List.forall₂_cons_right_iff.mp hcommands
  cases item with
  | fillRest parts =>
    have hnone : st.writes settings fuel = [] := by rw [State.writes, hst]
    simp [Places.sites, hst, ht, hnone]
  | doc d =>
    have heq : t.sites settings fuel st = (st.writes settings fuel).map (⟨around, d, ·⟩) := by
      rw [Places.sites, hst, ht]
    rw [heq]
    refine ⟨by rw [List.map_map]; exact List.map_id _, ?_⟩
    intro site hsite
    obtain ⟨piece, hpiece, rfl⟩ := List.mem_map.mp hsite
    exact ⟨hc.leads d (List.mem_singleton_self d), st, fuel, m, rest, hc.indentation ▸ hst, hpiece⟩

/-- **Everything that a run writes is written where the tracker says.** -/
theorem sitesFrom (h : t.Follows settings root st) (fuel : Nat) :
    (t.sitesFrom settings fuel st).map (·.piece) = st.trace settings fuel ∧
      ∀ site ∈ t.sitesFrom settings fuel st, site.Sound settings root := by
  induction fuel generalizing st t with
  | zero => exact ⟨rfl, List.forall_mem_nil _⟩
  | succ fuel ih =>
    rw [Places.sitesFrom, State.trace]
    split
    · exact ⟨rfl, List.forall_mem_nil _⟩
    · rename_i hne
      have hne : st.commands ≠ [] := by simpa using hne
      obtain ⟨hpieces, hsound⟩ := h.sites (fuel + 2) hne
      obtain ⟨hpieces', hsound'⟩ := ih (h.step (fuel + 2) hne)
      exact ⟨by rw [List.map_append, hpieces, hpieces'], List.forall_mem_append.mpr ⟨hsound, hsound'⟩⟩

end Follows

end Places

/-- The pieces of the sites are those of the layout. -/
theorem map_piece_sitesOf (settings : Settings) (d : Doc) :
    (sitesOf settings d).map (·.piece) = traceOf settings d :=
  ((Places.follows_start settings d.propagateBreaks).sitesFrom _).1

/-- **Each piece is written with the indentation of its place.** -/
theorem sound_of_mem_sitesOf {settings : Settings} {d : Doc} {site : Site}
    (h : site ∈ sitesOf settings d) : site.Sound settings d.propagateBreaks :=
  ((Places.follows_start settings d.propagateBreaks).sitesFrom _).2 site h

end Layout

end CodeFormatter
