import CodeFormatter.Proofs.Layout.Alignment
import CodeFormatter.Proofs.Layout.Columns
import CodeFormatter.Proofs.Layout.Sites

/-!
# Lines at an absolute column

A document that is aligned to a column goes back to the root of the indentation and gets as many columns
as it is told, wherever it stands. They are made of whole levels and of the spaces that are left over.

**Theorem (`columnsOf_aligned_line`).** Where no root is marked, the hard lines of the document start at
the column, or at the next whole tab.

**Where tabs go.** The spaces that are left over stand in front of the levels. With tabs, spaces that a
level follows become one tab (`Indentation.Draft.flush`), so a column that is not a whole number of tabs
is missed as soon as there is a level (`not_at_column_tabs`).
-/

namespace CodeFormatter

namespace Doc

/-- Does the document change the indentation of its parts? -/
def indents : Doc → Bool
  | .indent _ | .align _ _ => true
  | _ => false

/-- Does the document mark the root of the indentation? -/
def marksRoot : Doc → Bool
  | .align .root _ => true
  | _ => false

/-- The levels around a document, outermost first. -/
def levelsAround (d : Doc) : Nat → List Doc
  | 0 => []
  | k + 1 => Nat.repeat Doc.indent (k + 1) d :: d.levelsAround k

/-- The documents that align `d` to a column, outermost first. -/
def aligners (d : Doc) (n tabWidth : Nat) : List Doc :=
  d.alignTo n tabWidth ::
    .align (.spaces (n % tabWidth)) (Nat.repeat Doc.indent (n / tabWidth) d) ::
      d.levelsAround (n / tabWidth)

theorem alignTo_eq (d : Doc) {n tabWidth : Nat} (hn : 0 < n) (htabWidth : 0 < tabWidth) :
    d.alignTo n tabWidth = .align .dedentToRoot
      (.align (.spaces (n % tabWidth)) (Nat.repeat Doc.indent (n / tabWidth) d)) := by
  rw [alignTo, if_neg hn.ne', max_eq_left (show 1 ≤ tabWidth from htabWidth)]

theorem leadsTo_levelsAround {root : Doc} {around : List Doc} (d : Doc) (k : Nat)
    (h : root.LeadsTo around (Nat.repeat Doc.indent k d)) :
    root.LeadsTo (around ++ d.levelsAround k) d := by
  induction k generalizing around with
  | zero =>
    rw [levelsAround, List.append_nil]
    exact h
  | succ k ih =>
    have hstep := ih (.part h (List.mem_singleton_self _))
    rwa [List.append_assoc, List.singleton_append] at hstep

/-- They are what stands between the alignment and the document. -/
theorem leadsTo_aligners (d : Doc) {n tabWidth : Nat} (hn : 0 < n) (htabWidth : 0 < tabWidth) :
    (d.alignTo n tabWidth).LeadsTo (d.aligners n tabWidth) d := by
  have hspaces : (d.alignTo n tabWidth).LeadsTo [d.alignTo n tabWidth]
      (.align (.spaces (n % tabWidth)) (Nat.repeat Doc.indent (n / tabWidth) d)) :=
    .part .refl (by rw [alignTo_eq d hn htabWidth]; exact List.mem_singleton_self _)
  exact leadsTo_levelsAround d _ (.part hspaces (List.mem_singleton_self _))

end Doc

namespace Layout

variable {settings : Settings} {n : Nat}

/-! ## The indentation inside an alignment -/

namespace Indentation

/-- Only a mark changes the root. -/
theorem root_insideAll {around : List Doc} (h : ∀ e ∈ around, e.marksRoot = false) :
    (insideAll settings around).root = Option.none := by
  refine List.foldlRecOn (motive := fun i : Indentation => i.root = Option.none) around
    (inside settings) rfl ?_
  intro i hi e he
  have hmark := h e he
  cases e with
  | align al contents =>
    cases al with
    | root => cases hmark
    | dedentToRoot =>
      show (i.root.getD none).root = Option.none
      rw [hi]
      rfl
    | spaces k => cases k <;> exact hi
    | text s =>
      rw [inside, align]
      split <;> exact hi
    | dedent => exact hi
  | _ => exact hi

theorem foldl_inside_of_indents {around : List Doc} (i : Indentation)
    (h : ∀ e ∈ around, e.indents = false) : around.foldl (inside settings) i = i := by
  refine List.foldlRecOn (motive := (· = i)) around (inside settings) rfl ?_
  intro j hj e he
  have hindents := h e he
  cases e with
  | indent | align => cases hindents
  | _ => exact hj

theorem foldl_inside_levelsAround (settings : Settings) (d : Doc) (k : Nat) (queue : List IndentPart) :
    (d.levelsAround k).foldl (inside settings) (ofQueue settings queue Option.none) =
      ofQueue settings (queue ++ List.replicate k .level) Option.none := by
  induction k generalizing queue with
  | zero => rw [List.replicate_zero, List.append_nil]; rfl
  | succ k ih =>
    rw [List.replicate_succ, List.append_cons]
    exact ih (queue ++ [.level])

/-- **What is around an alignment does not matter**, if no root is marked there. -/
theorem insideAll_aligners {outer inner : List Doc} (d : Doc) (hn : 0 < n)
    (htabWidth : 0 < settings.tabWidth) (houter : ∀ e ∈ outer, e.marksRoot = false)
    (hinner : ∀ e ∈ inner, e.indents = false) :
    insideAll settings (outer ++ d.aligners n settings.tabWidth ++ inner) =
      ofQueue settings (leadOf settings.tabWidth n) Option.none := by
  have hroot : inside settings (insideAll settings outer) (d.alignTo n settings.tabWidth) = none := by
    rw [d.alignTo_eq hn htabWidth]
    exact congrArg (·.getD none) (root_insideAll houter)
  calc insideAll settings (outer ++ d.aligners n settings.tabWidth ++ inner)
      = (d.aligners n settings.tabWidth).foldl (inside settings) (insideAll settings outer) := by
        rw [insideAll, List.foldl_append, List.foldl_append, foldl_inside_of_indents _ hinner]
        rfl
    _ = (d.levelsAround (n / settings.tabWidth)).foldl (inside settings)
          (none.align settings (.spaces (n % settings.tabWidth))) := by
        rw [Doc.aligners, List.foldl_cons, List.foldl_cons, hroot]
        rfl
    _ = ofQueue settings (leadOf settings.tabWidth n) Option.none := by
        rw [align_spaces_none, foldl_inside_levelsAround, leadOf]

/-! ## Its columns -/

theorem totalColumns_levels (settings : Settings) (alignWithTabs : Bool) (k : Nat) :
    IndentPart.totalColumns settings alignWithTabs (List.replicate k .level) = k * settings.tabWidth := by
  induction k with
  | zero => rw [Nat.zero_mul]; rfl
  | succ k ih =>
    rw [List.replicate_succ, IndentPart.totalColumns, ih, Nat.succ_mul, Nat.add_comm]
    rfl

/-- Spaces that a level follows become a tab. -/
theorem totalColumns_leadOf (settings : Settings) (n : Nat) :
    IndentPart.totalColumns settings settings.useTabs (leadOf settings.tabWidth n) =
      if settings.useTabs = true ∧ ¬ settings.tabWidth ∣ n then
        (n / settings.tabWidth + 1) * settings.tabWidth
      else n := by
  have hdiv := Nat.mod_add_div' n settings.tabWidth
  rw [leadOf, IndentPart.totalColumns_append, totalColumns_levels]
  simp only [Nat.dvd_iff_mod_eq_zero]
  by_cases hmod : n % settings.tabWidth = 0
  · rw [if_pos hmod, if_neg (by simp [hmod]), IndentPart.totalColumns]
    omega
  · rw [if_neg hmod, IndentPart.totalColumns, IndentPart.totalColumns, IndentPart.columns]
    cases htabs : settings.useTabs with
    | true =>
      rw [if_pos rfl, if_pos ⟨rfl, hmod⟩, Nat.add_one_mul]
      omega
    | false =>
      rw [if_neg (by decide), if_neg (by simp)]
      omega

/-- The alignment stands in front of levels, or is one of spaces only. -/
theorem columnsOf_leadOf (htabWidth : 0 < settings.tabWidth) (n : Nat) :
    settings.columnsOf (ofQueue settings (leadOf settings.tabWidth n) Option.none).value =
      if settings.useTabs = true ∧ settings.tabWidth ≤ n ∧ ¬ settings.tabWidth ∣ n then
        (n / settings.tabWidth + 1) * settings.tabWidth
      else n := by
  have htexts : ∀ s, .text s ∈ leadOf settings.tabWidth n → settings.columnsOf s.toList = s.length := by
    intro s hs
    rcases List.mem_append.mp hs with hs | hs
    · split at hs <;> simp at hs
    · cases List.eq_of_mem_replicate hs
  rw [settings.measure_columnsOf.ofQueue htexts]
  by_cases hle : settings.tabWidth ≤ n
  · obtain ⟨k, hk⟩ := Nat.exists_eq_add_one_of_ne_zero (Nat.div_pos hle htabWidth).ne'
    have hlead : leadOf settings.tabWidth n = (if n % settings.tabWidth = 0 then [] else
        [.spaces (n % settings.tabWidth)]) ++ List.replicate k .level ++ [.level] := by
      rw [leadOf, hk, List.replicate_succ', List.append_assoc]
    have hlast : IndentPart.isSpaces .level = false := rfl
    have htake : (leadOf settings.tabWidth n).rtakeWhile IndentPart.isSpaces = [] := by
      rw [hlead, List.rtakeWhile_concat_neg _ _ _ (by simp [hlast])]
    have hdrop : (leadOf settings.tabWidth n).rdropWhile IndentPart.isSpaces =
        leadOf settings.tabWidth n := by
      rw [hlead, List.rdropWhile_concat_neg _ _ _ (by simp [hlast])]
    rw [htake, hdrop, totalColumns_leadOf, IndentPart.totalColumns, Nat.add_zero]
    simp only [hle, true_and]
  · -- There is no level, and the spaces stay spaces.
    have hlt : n < settings.tabWidth := not_le.mp hle
    rw [if_neg (fun h => hle h.2.1), leadOf, Nat.mod_eq_of_lt hlt, Nat.div_eq_of_lt hlt,
      List.replicate_zero, List.append_nil]
    split
    · rename_i hzero
      rw [hzero]
      rfl
    · exact Nat.zero_add n

end Indentation

/-! ## The lines of an aligned document -/

/-- A hard line writes a newline with the indentation of its place. -/
theorem Site.Sound.piece_eq {root : Doc} {site : Site} (h : site.Sound settings root)
    (hline : site.doc = .line .hard) :
    site.piece = .newline true (Indentation.insideAll settings site.around).value := by
  obtain ⟨st, fuel, mode, rest, hst, hpiece⟩ := h.written
  rw [State.writes, hst, hline] at hpiece
  dsimp only at hpiece
  split at hpiece
  · rw [List.mem_singleton.mp hpiece]
    cases mode <;> rfl
  · cases hpiece

/-- **A line at an absolute column.** The layout is assembled from pieces, each written at its place in
the document. A hard line that is aligned to column `n`, with no further indentation inside the alignment
and no marked root around it, starts with an indentation that ends at this column, unless tabs are used,
the column has room for one, and it is not a whole number of them: then it ends at the next whole tab. -/
theorem columnsOf_aligned_line (settings : Settings) (htabWidth : 0 < settings.tabWidth) (root : Doc) :
    (print settings root).formatted = String.ofList
        (assemble settings.newline.toList ((sitesOf settings root).map (·.piece))) ∧
      ∀ site ∈ sitesOf settings root, root.propagateBreaks.LeadsTo site.around site.doc ∧
        ∀ (d : Doc) (n : Nat) (outer inner : List Doc), 0 < n →
          site.around = outer ++ d.aligners n settings.tabWidth ++ inner → site.doc = .line .hard →
          (∀ e ∈ outer, e.marksRoot = false) → (∀ e ∈ inner, e.indents = false) →
          ∃ indentation, site.piece = .newline true indentation ∧
            settings.columnsOf indentation =
              if settings.useTabs = true ∧ settings.tabWidth ≤ n ∧ ¬ settings.tabWidth ∣ n then
                (n / settings.tabWidth + 1) * settings.tabWidth
              else n := by
  constructor
  · rw [map_piece_sitesOf, formatted_eq_assemble]
  intro site hsite
  have hsound := sound_of_mem_sitesOf hsite
  refine ⟨hsound.leads, ?_⟩
  intro d n outer inner hn haround hline houter hinner
  refine ⟨_, hsound.piece_eq hline, ?_⟩
  rw [haround, Indentation.insideAll_aligners d hn htabWidth houter hinner,
    Indentation.columnsOf_leadOf htabWidth]

/-- The line waits for a suffix and stands in a group, three levels deep. -/
theorem columnsOf_aligned_line_group :
    let settings : Settings := { width := 80, tabWidth := 4, useTabs := true, newline := "\n" }
    let d : Doc := .group (.concat [.lineSuffix (.text "#"), Doc.hardline, .text "a"]) true none
    let root : Doc := .indent (.align (.text "> ") (.indent (d.alignTo 8 4)))
    let outer : List Doc := [root, .align (.text "> ") (.indent (d.alignTo 8 4)), .indent (d.alignTo 8 4)]
    let inner : List Doc :=
      [d, .concat [.lineSuffix (.text "#"), Doc.hardline, .text "a"], Doc.hardline]
    (∀ e ∈ outer, e.marksRoot = false) ∧ (∀ e ∈ inner, e.indents = false) ∧
      ∃ site ∈ sitesOf settings root, site.around = outer ++ d.aligners 8 4 ++ inner ∧
        site.doc = .line .hard ∧ ∃ indentation, site.piece = .newline true indentation ∧
          settings.columnsOf indentation = 8 := by
  intro settings d root outer inner
  have houter : ∀ e ∈ outer, e.marksRoot = false := by simp [outer, root, Doc.marksRoot]
  have hinner : ∀ e ∈ inner, e.indents = false := by simp [inner, d, Doc.hardline, Doc.indents]
  let site : Site := ⟨outer ++ d.aligners 8 4 ++ inner, .line .hard, .newline true ['\t', '\t']⟩
  have hsite : (sitesOf settings root)[1]? = some site := by
    simp only [settings, root, site, outer, inner, d]
    rfl
  have hmem := List.mem_of_getElem? hsite
  obtain ⟨indentation, hpiece, hcolumns⟩ := ((columnsOf_aligned_line settings (by decide) root).2 site
    hmem).2 d 8 outer inner (by decide) rfl rfl houter hinner
  exact ⟨houter, hinner, site, hmem, rfl, rfl, indentation, hpiece, hcolumns.trans (by decide)⟩

/-- The space in front of the level becomes a tab: the line stands at column 4 instead of 3. -/
theorem not_at_column_tabs :
    let settings : Settings := { width := 80, tabWidth := 2, useTabs := true, newline := "\n" }
    let root : Doc := Doc.alignTo (.concat [Doc.hardline, .text "a"]) 3 2
    (print settings root).formatted = "\n\t\ta" ∧ settings.columnsOf ['\t', '\t'] = 4 ∧
      settings.columnsOf ['\t', '\t'] ≠ 3 := by
  decide +kernel

end Layout

end CodeFormatter
