import CodeFormatter.Layout.Indentation
import CodeFormatter.Layout.Output
import Mathlib.Data.List.DropRight

/-!
# What indentations are made of

The text and the width of an indentation can be read off the sequence of changes (`value_ofQueue_eq`,
`width_ofQueue_eq`): each adds what it writes, and with tabs an alignment is one tab, except for those at the
end, which are spaces.

Every indentation that the layout uses is computed from a sequence of changes, and so is the root it
carries. `Indentation.Built` says so, with a condition on the changes, and is kept by every way to
change an indentation. Facts about the text of an indentation then follow from one induction over
the changes: without tabs its width is the number of its characters, as far as a machine word counts, and it
is blank if the texts in it are.
-/

namespace CodeFormatter.Layout

/-! ## The text of a sequence of changes -/

namespace IndentPart

/-- An alignment by spaces. -/
def isSpaces : IndentPart → Bool
  | .spaces _ => true
  | _ => false

/-- The text of one change. Alignments by spaces are tabs, or stay spaces. -/
def written (settings : Settings) (alignWithTabs : Bool) : IndentPart → List Char
  | .level => if settings.useTabs then ['\t'] else List.replicate settings.tabWidth ' '
  | .spaces n => if alignWithTabs then ['\t'] else List.replicate n ' '
  | .text s => s.toList

/-- The columns that one change adds. -/
def columns (settings : Settings) (alignWithTabs : Bool) : IndentPart → Nat
  | .level => settings.tabWidth
  | .spaces n => if alignWithTabs then settings.tabWidth else n
  | .text s => s.length

/-- The columns that the changes add together. -/
def totalColumns (settings : Settings) (alignWithTabs : Bool) : List IndentPart → Nat
  | [] => 0
  | p :: parts => p.columns settings alignWithTabs + totalColumns settings alignWithTabs parts

@[simp] theorem totalColumns_append (settings : Settings) (alignWithTabs : Bool)
    (parts rest : List IndentPart) :
    totalColumns settings alignWithTabs (parts ++ rest) =
      totalColumns settings alignWithTabs parts + totalColumns settings alignWithTabs rest := by
  induction parts with
  | nil => simp [totalColumns]
  | cons p parts ih => rw [List.cons_append, totalColumns, totalColumns, ih, Nat.add_assoc]

theorem exists_eq_map_spaces {parts : List IndentPart} (h : ∀ p ∈ parts, p.isSpaces = true) :
    ∃ ns : List Nat, parts = ns.map .spaces := by
  induction parts with
  | nil => exact ⟨[], rfl⟩
  | cons p parts ih =>
    rw [List.forall_mem_cons] at h
    obtain ⟨ns, rfl⟩ := ih h.2
    cases p with
    | spaces n => exact ⟨n :: ns, rfl⟩
    | level | text s => cases h.1

theorem flatMap_written_spaces (settings : Settings) (alignWithTabs : Bool) (ns : List Nat) :
    (ns.map .spaces).flatMap (written settings alignWithTabs) =
      if alignWithTabs then List.replicate ns.length '\t'
      else List.replicate (totalColumns settings false (ns.map .spaces)) ' ' := by
  induction ns with
  | nil => cases alignWithTabs <;> rfl
  | cons n ns ih =>
    rw [List.map_cons, List.flatMap_cons, ih]
    cases alignWithTabs with
    | true => rfl
    | false => exact List.replicate_append_replicate

theorem totalColumns_tabs (settings : Settings) (ns : List Nat) :
    totalColumns settings true (ns.map .spaces) = settings.tabWidth * ns.length := by
  induction ns with
  | nil => rfl
  | cons n ns ih =>
    rw [List.map_cons, totalColumns, ih]
    exact (Nat.add_comm _ _).trans (Nat.mul_succ _ _).symm

end IndentPart

namespace Indentation

open IndentPart

variable {settings : Settings} {ok : IndentPart → Prop} {i : Indentation}

/-- Waiting alignments are written when another change follows. -/
theorem flush_spaces (settings : Settings) (value : List Char) (width : UInt64) (ns : List Nat) :
    Draft.flush settings ⟨value, width, ns.length, totalColumns settings false (ns.map .spaces)⟩ =
      ⟨value ++ (ns.map .spaces).flatMap (written settings settings.useTabs),
        width + .ofNat (totalColumns settings settings.useTabs (ns.map .spaces)), 0, 0⟩ := by
  rw [flatMap_written_spaces]
  cases htabs : settings.useTabs with
  | false => simp [Draft.flush, htabs]
  | true =>
    rw [totalColumns_tabs]
    cases ns <;> simp [Draft.flush, htabs, totalColumns]

/-- The alignments at the end wait, and the changes before them are written. -/
theorem foldl_add_eq (settings : Settings) (queue : List IndentPart) :
    queue.foldl (Draft.add settings) Draft.empty =
      { value := (queue.rdropWhile isSpaces).flatMap (written settings settings.useTabs)
        width := .ofNat (totalColumns settings settings.useTabs (queue.rdropWhile isSpaces))
        pending := (queue.rtakeWhile isSpaces).length
        pendingSpaces := totalColumns settings false (queue.rtakeWhile isSpaces) } := by
  induction queue using List.reverseRecOn with
  | nil => rfl
  | append_singleton queue p ih =>
    rw [List.foldl_append, ih, List.foldl_cons, List.foldl_nil]
    by_cases hp : p.isSpaces = true
    · rw [List.rdropWhile_concat_pos _ _ _ hp, List.rtakeWhile_concat_pos _ _ _ hp]
      cases p with
      | spaces n => simp [Draft.add, totalColumns, columns]
      | level | text s => cases hp
    · rw [List.rdropWhile_concat_neg _ _ _ hp, List.rtakeWhile_concat_neg _ _ _ hp]
      obtain ⟨ns, hns⟩ := exists_eq_map_spaces
        fun q (hq : q ∈ queue.rtakeWhile isSpaces) => List.mem_rtakeWhile_imp hq
      have hqueue : queue.rdropWhile isSpaces ++ ns.map .spaces = queue := by
        rw [← hns, List.rdropWhile_append_rtakeWhile]
      have hflush := flush_spaces settings
        ((queue.rdropWhile isSpaces).flatMap (written settings settings.useTabs))
        (.ofNat (totalColumns settings settings.useTabs (queue.rdropWhile isSpaces))) ns
      rw [← List.flatMap_append, ← UInt64.ofNat_add, ← totalColumns_append, hqueue] at hflush
      rw [hns, List.length_map]
      cases p with
      | spaces n => exact absurd rfl hp
      | level | text s => simp [Draft.add, hflush, written, totalColumns, columns]

/-- **The text of an indentation**: alignments at the end are spaces, also when the others are tabs. -/
theorem value_ofQueue_eq (settings : Settings) (queue : List IndentPart) (root : Option Indentation) :
    (ofQueue settings queue root).value =
      (queue.rdropWhile isSpaces).flatMap (written settings settings.useTabs) ++
        (queue.rtakeWhile isSpaces).flatMap (written settings false) := by
  obtain ⟨ns, hns⟩ := exists_eq_map_spaces
    fun q (hq : q ∈ queue.rtakeWhile isSpaces) => List.mem_rtakeWhile_imp hq
  rw [ofQueue, foldl_add_eq, hns, flatMap_written_spaces]
  rfl

/-- **The width of an indentation**, which the same changes add up to. -/
theorem width_ofQueue_eq (settings : Settings) (queue : List IndentPart) (root : Option Indentation) :
    (ofQueue settings queue root).width =
      .ofNat (totalColumns settings settings.useTabs (queue.rdropWhile isSpaces) +
        totalColumns settings false (queue.rtakeWhile isSpaces)) := by
  rw [ofQueue, foldl_add_eq, UInt64.ofNat_add]

/-! ## Measures -/

/-- A measure of texts adds up, and gives one for a space and the width of a tab for a tab, if there are tabs. -/
structure Measure (settings : Settings) (f : List Char → Nat) : Prop where
  append : ∀ cs ds, f (cs ++ ds) = f cs + f ds
  spaces : ∀ n, f (List.replicate n ' ') = n
  tab : settings.useTabs = true → f ['\t'] = settings.tabWidth

namespace Measure

variable {f : List Char → Nat} {parts : List IndentPart}

theorem nil (hf : Measure settings f) : f [] = 0 := hf.spaces 0

/-- It measures the text of a change by the columns that the change adds. -/
theorem written (hf : Measure settings f) {alignWithTabs : Bool}
    (htabs : alignWithTabs = true → settings.useTabs = true) {p : IndentPart}
    (htext : ∀ s, p = .text s → f s.toList = s.length) :
    f (p.written settings alignWithTabs) = p.columns settings alignWithTabs := by
  cases p with
  | level =>
    rw [IndentPart.written, columns]
    split
    · exact hf.tab ‹_›
    · exact hf.spaces _
  | spaces n =>
    rw [IndentPart.written, columns]
    split
    · exact hf.tab (htabs ‹_›)
    · exact hf.spaces n
  | text s => exact htext s rfl

theorem flatMap_written (hf : Measure settings f) {alignWithTabs : Bool}
    (htabs : alignWithTabs = true → settings.useTabs = true)
    (htexts : ∀ s, .text s ∈ parts → f s.toList = s.length) :
    f (parts.flatMap (IndentPart.written settings alignWithTabs)) =
      totalColumns settings alignWithTabs parts := by
  induction parts with
  | nil => exact hf.nil
  | cons p parts ih =>
    have hp := hf.written htabs fun s hs => htexts s (hs ▸ List.mem_cons_self)
    rw [List.flatMap_cons, hf.append, hp, ih fun s hs => htexts s (List.mem_cons_of_mem _ hs),
      totalColumns]

/-- **The measure of an indentation** is what its changes add up to. -/
theorem ofQueue {queue : List IndentPart} {root : Option Indentation} (hf : Measure settings f)
    (htexts : ∀ s, .text s ∈ queue → f s.toList = s.length) :
    f (ofQueue settings queue root).value =
      totalColumns settings settings.useTabs (queue.rdropWhile isSpaces) +
        totalColumns settings false (queue.rtakeWhile isSpaces) := by
  have hfront := (queue.rdropWhile_prefix isSpaces).subset
  have hback := (queue.rtakeWhile_suffix isSpaces).subset
  have hspaces : false = true → settings.useTabs = true := nofun
  rw [value_ofQueue_eq, hf.append, hf.flatMap_written id fun s hs => htexts s (hfront hs),
    hf.flatMap_written hspaces fun s hs => htexts s (hback hs)]

end Measure

/-! ## Where indentations come from -/

/-- The indentation comes from changes that are `ok`, and so does its root. -/
inductive Built (settings : Settings) (ok : IndentPart → Prop) : Indentation → Prop
  | intro {queue : List IndentPart} {root : Option Indentation} : (∀ p ∈ queue, ok p) →
      (∀ i ∈ root, Built settings ok i) → Built settings ok (ofQueue settings queue root)

theorem built_none : Built settings ok none :=
  @Built.intro settings ok [] Option.none (by simp) (by simp)

/-- The change that an alignment makes, if it makes one. -/
def partOf : Alignment → Option IndentPart
  | .spaces n => some (.spaces n)
  | .text s => some (.text s)
  | _ => Option.none

namespace Built

theorem push {p : IndentPart} (h : Built settings ok i) (hp : ok p) :
    Built settings ok (i.push settings p) := by
  cases h with
  | intro hqueue hroot =>
    refine .intro (fun q hq => ?_) hroot
    rcases List.mem_append.mp hq with hq | hq
    · exact hqueue q hq
    · rwa [List.mem_singleton.mp hq]

theorem indent (h : Built settings ok i) (hlevel : ok .level) :
    Built settings ok (i.indent settings) := h.push hlevel

/-- The root of an indentation, or none. -/
theorem getD_root (h : Built settings ok i) : Built settings ok (i.root.getD none) := by
  cases h with
  | @intro queue root _ hroot =>
    change Built settings ok (root.getD none)
    cases root with
    | none => exact built_none
    | some r => exact hroot r rfl

theorem align {al : Alignment} (h : Built settings ok i) (hal : ∀ p ∈ partOf al, ok p) :
    Built settings ok (i.align settings al) := by
  cases al with
  | spaces n =>
    cases n with
    | zero => exact h
    | succ n => exact h.push (hal _ rfl)
  | text s =>
    rw [Indentation.align]
    split
    · exact h
    · exact h.push (hal _ rfl)
  | dedent =>
    cases h with
    | intro hqueue hroot =>
      exact .intro (fun q hq => hqueue q (List.dropLast_subset _ hq)) hroot
  | dedentToRoot => exact h.getD_root
  | root =>
    -- The indentation itself becomes the root, and is otherwise unchanged.
    have h' := h
    cases h with
    | intro hqueue hroot =>
      exact .intro hqueue fun i hi => by
        cases hi
        exact h'

/-- A measure of texts gives the width of an indentation, if it gives for a text in the indentation the
number of its characters. -/
theorem measure_value {f : List Char → Nat} (h : Built settings ok i) (hf : Measure settings f)
    (hok : ∀ s : String, ok (.text s) → f s.toList = s.length) : .ofNat (f i.value) = i.width := by
  cases h with
  | intro hqueue _ =>
    rw [hf.ofQueue fun s hs => hok s (hqueue _ hs), width_ofQueue_eq]

/-- Without tabs, an indentation is as wide as it has characters. -/
theorem length_value (h : Built settings ok i) (ht : settings.useTabs = false) :
    .ofNat i.value.length = i.width :=
  h.measure_value ⟨fun _ _ => List.length_append, fun _ => List.length_replicate, by simp [ht]⟩
    fun _ _ => String.length_toList

/-- What holds of spaces, of tabs if there are any, and of the texts in an indentation holds of all its
characters. -/
theorem forall_mem_value {P : Char → Prop} (h : Built settings ok i) (hspace : P ' ')
    (htab : settings.useTabs = true → P '\t')
    (hok : ∀ s : String, ok (.text s) → ∀ c ∈ s.toList, P c) : ∀ c ∈ i.value, P c := by
  have hspaces : ∀ n, ∀ c ∈ List.replicate n ' ', P c := fun n c hc =>
    List.eq_of_mem_replicate hc ▸ hspace
  cases h with
  | @intro queue root hqueue _ =>
    have hfold : ∀ c ∈ (queue.foldl (Draft.add settings) Draft.empty).value, P c := by
      refine List.foldlRecOn (motive := fun d : Draft => ∀ c ∈ d.value, P c)
        queue (Draft.add settings) (by simp [Draft.empty]) fun d hd p hp => ?_
      have hflush : ∀ c ∈ (d.flush settings).value, P c := by
        unfold Draft.flush
        split
        · rename_i htabs
          rw [Bool.and_eq_true] at htabs
          exact List.forall_mem_append.mpr ⟨hd, fun c hc =>
            List.eq_of_mem_replicate hc ▸ htab htabs.1⟩
        · exact List.forall_mem_append.mpr ⟨hd, hspaces _⟩
      cases p with
      | level =>
        refine List.forall_mem_append.mpr ⟨hflush, ?_⟩
        split
        · rename_i htabs
          exact List.forall_mem_singleton.mpr (htab htabs)
        · exact hspaces _
      | text s => exact List.forall_mem_append.mpr ⟨hflush, hok s (hqueue _ hp)⟩
      | spaces n => exact hd
    exact List.forall_mem_append.mpr ⟨hfold, hspaces _⟩

/-- An indentation whose texts are blank is blank. -/
theorem isPadding_of_mem (h : Built settings ok i)
    (hok : ∀ s : String, ok (.text s) → ∀ c ∈ s.toList, isPadding c) :
    ∀ c ∈ i.value, isPadding c :=
  h.forall_mem_value rfl (fun _ => rfl) hok

end Built

end Indentation

end CodeFormatter.Layout
