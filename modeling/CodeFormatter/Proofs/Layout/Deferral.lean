import CodeFormatter.Proofs.Layout.Progress

/-!
# Deferred text ends its line

A line suffix waits until its line is about to end, so what it prints can only be followed by a
newline. This module writes the output once more, with the origin of each character and the number
of its line beside it, and proves this of every document.

**Origins.** A command that takes the place of another has its origin. The contents of a line suffix
have an origin of their own: the number of the suffix, counted when it is queued, or `nested` when
the suffix stands inside another.

**The tracker.** `Tracker` holds the origins of what is on the stack and in the queue, and what has been
written so far, piece by piece and as a page. It runs beside the machine and decides nothing, and it writes
the trace of the machine (`Tracker.Orderly.written_run`). Each of its steps is one of three moves
(`Tracker.exists_moves`).

**Invariant (`Tracker.Orderly`).** On the stack, what comes from suffixes stands above what does
not. While some of it is there, or has been written on the current line, the next command below it is
a line that breaks.

So after a character of a suffix, no character of other text is written before the next newline of the
layout, and suffixes are written in the order in which they were queued (`Tracker.Orderly.run`).
-/

namespace CodeFormatter.Layout

/-! ## Origins -/

/-- Where a piece of the output comes from. -/
inductive Origin where
  /-- From outside of all line suffixes. -/
  | code
  /-- From the line suffix that was queued as number `n` of those outside of others. -/
  | suffix (n : Nat)
  /-- From a line suffix inside another. -/
  | nested
  deriving DecidableEq

namespace Origin

/-- The place in the queue. -/
def number? : Origin → Option Nat
  | suffix n => some n
  | code | nested => none

/-- The origin of the contents of a line suffix that stands in text of this origin, when `queued`
suffixes have been queued before it. -/
def inside (queued : Nat) : Origin → Origin
  | code => suffix queued
  | suffix _ | nested => nested

/-- What has been queued from outside of suffixes, after a suffix that stands in text of this origin. -/
def queue (queued : List Doc) (contents : Doc) : Origin → List Doc
  | code => queued ++ [contents]
  | suffix _ | nested => queued

theorem inside_ne_code (queued : Nat) (o : Origin) : o.inside queued ≠ code := by
  cases o <;> simp [inside]

theorem inside_of_ne_code (queued : Nat) {o : Origin} (h : o ≠ code) : o.inside queued = nested := by
  cases o <;> simp_all [inside]

theorem queue_of_ne_code (queued : List Doc) (contents : Doc) {o : Origin} (h : o ≠ code) :
    o.queue queued contents = queued := by
  cases o <;> simp_all [queue]

end Origin

/-- The numbers among some origins. -/
def numbersOf (origins : List Origin) : List Nat := origins.filterMap Origin.number?

@[simp] theorem numbersOf_nil : numbersOf [] = [] := rfl

@[simp] theorem numbersOf_append (os os' : List Origin) :
    numbersOf (os ++ os') = numbersOf os ++ numbersOf os' := List.filterMap_append

theorem numbersOf_cons (o : Origin) (os : List Origin) :
    numbersOf (o :: os) = numbersOf [o] ++ numbersOf os := by
  rw [← numbersOf_append, List.singleton_append]

theorem numbersOf_eq_nil {os : List Origin} (h : ∀ o ∈ os, o = .code ∨ o = .nested) :
    numbersOf os = [] := by
  refine List.filterMap_eq_nil_iff.mpr fun o ho => ?_
  rcases h o ho with rfl | rfl <;> rfl

theorem eq_suffix_of_mem_numbersOf_replicate {n m : Nat} {o : Origin}
    (h : m ∈ numbersOf (List.replicate n o)) : o = .suffix m := by
  obtain ⟨o', ho', hm⟩ := List.mem_filterMap.mp h
  obtain rfl := List.eq_of_mem_replicate ho'
  cases o' with
  | suffix k => rw [Option.some.inj hm]
  | code | nested => cases hm

/-- Numbers in the order in which they were counted, up to `queued`. -/
structure Counted (queued : Nat) (ns : List Nat) : Prop where
  sorted : ns.Pairwise (· ≤ ·)
  lt : ∀ n ∈ ns, n < queued

namespace Counted

variable {queued : Nat}

theorem sublist {ns ns' : List Nat} (h : Counted queued ns) (hsub : ns'.Sublist ns) :
    Counted queued ns' :=
  ⟨h.sorted.sublist hsub, fun n hn => h.lt n (hsub.subset hn)⟩

/-- The next number. -/
theorem next {ns : List Nat} (h : Counted queued ns) : Counted (queued + 1) (ns ++ [queued]) := by
  refine ⟨List.pairwise_append.mpr ⟨h.sorted, List.pairwise_singleton _ _, ?_⟩, fun n hn => ?_⟩
  · intro n hn m hm
    rw [List.mem_singleton.mp hm]
    exact (h.lt n hn).le
  · rw [List.mem_append, List.mem_singleton] at hn
    rcases hn with hn | rfl
    · exact Nat.lt_succ_of_lt (h.lt n hn)
    · exact Nat.lt_succ_self n

/-- What comes next may be taken any number of times. -/
theorem replace {K K' N N' X : List Nat} (h : Counted queued (K ++ N ++ X)) (hK : K'.Sublist K)
    (hN : N' ⊆ N) (hN' : N'.Pairwise (· ≤ ·)) : Counted queued (K' ++ N' ++ X) := by
  obtain ⟨hsorted, hlt⟩ := h
  refine ⟨?_, fun n hn => hlt n ?_⟩
  · rw [List.append_assoc, List.pairwise_append, List.pairwise_append] at hsorted ⊢
    obtain ⟨hKs, ⟨_, hX, hNX⟩, hKNX⟩ := hsorted
    refine ⟨hKs.sublist hK, ⟨hN', hX, fun a ha => hNX a (hN ha)⟩, fun a ha b hb => ?_⟩
    refine hKNX a (hK.subset ha) b ?_
    rw [List.mem_append] at hb ⊢
    exact hb.imp (fun h => hN h) id
  · simp only [List.mem_append] at hn ⊢
    exact hn.imp (Or.imp (fun h => hK.subset h) (fun h => hN h)) id

end Counted

/-! ## Pages -/

/-- A character of the output, with its origin and its line: the number of newlines that the layout
had written when it was written. The characters of a newline belong to the line that they start. -/
structure Glyph where
  char : Char
  origin : Origin
  line : Nat

/-- If `x` comes from a suffix and `y` does not, `y` is on a later line. -/
def Glyph.Before (x y : Glyph) : Prop := x.origin ≠ .code → y.origin = .code → x.line < y.line

/-- What has been written, and the number of newlines of the layout among it. -/
structure Page where
  glyphs : List Glyph
  line : Nat

namespace Page

def text (p : Page) : List Char := p.glyphs.map (·.char)

def type (p : Page) (o : Origin) (cs : List Char) : Page :=
  { p with glyphs := p.glyphs ++ cs.map (⟨·, o, p.line⟩) }

def trim (p : Page) : Page := { p with glyphs := p.glyphs.rdropWhile (isPadding ·.char) }

/-- Writes a piece of origin `o`, as `Piece.write` does. -/
def stamp (newline : List Char) (o : Origin) (p : Page) : Piece → Page
  | .text cs => p.type o cs
  | .flatLine kind => p.type o kind.flatText
  | .fitted => p
  | .newline trims indentation =>
    let p := if trims then p.trim else p
    { p with line := p.line + 1 }.type o (newline ++ indentation)
  | .trim => p.trim

@[simp] theorem text_type (p : Page) (o : Origin) (cs : List Char) :
    (p.type o cs).text = p.text ++ cs := by
  simp [text, type, Function.comp_def]

@[simp] theorem text_trim (p : Page) : p.trim.text = trimEnd p.text := by
  simp [text, trim, trimEnd, List.rdropWhile, ← List.map_reverse, List.dropWhile_map,
    Function.comp_def]

@[simp] theorem text_with_line (p : Page) (n : Nat) : { p with line := n }.text = p.text := rfl

/-- A page has the text that is written. -/
theorem text_stamp (newline : List Char) (o : Origin) (p : Page) (piece : Piece) :
    (p.stamp newline o piece).text = piece.write newline p.text := by
  cases piece with
  | newline trims indentation => cases trims <;> simp [stamp, Piece.write]
  | text | flatLine | fitted | trim => simp [stamp, Piece.write]

/-- What a piece of origin `o` can make of a page: it takes away some of the end and writes on the
last line. -/
structure Grows (o : Origin) (p q : Page) : Prop where
  glyphs : ∃ kept, ∃ cs : List Char, kept <+: p.glyphs ∧
    q.glyphs = kept ++ cs.map (⟨·, o, q.line⟩)
  line : p.line ≤ q.line

variable {o : Origin} {p q : Page}

theorem Grows.refl (o : Origin) (p : Page) : Grows o p p :=
  ⟨⟨p.glyphs, [], List.prefix_rfl, by simp⟩, le_rfl⟩

theorem Grows.of_trim (h : Grows o p.trim q) : Grows o p q := by
  obtain ⟨⟨kept, cs, hkept, hq⟩, hline⟩ := h
  exact ⟨⟨kept, cs, hkept.trans (List.rdropWhile_prefix _ _), hq⟩, hline⟩

theorem grows_type {n : Nat} (hn : p.line ≤ n) (o : Origin) (cs : List Char) :
    Grows o p ({ p with line := n }.type o cs) :=
  ⟨⟨p.glyphs, cs, List.prefix_rfl, rfl⟩, hn⟩

theorem grows_stamp (newline : List Char) (o : Origin) (p : Page) (piece : Piece) :
    Grows o p (p.stamp newline o piece) := by
  cases piece with
  | text cs => exact grows_type le_rfl o cs
  | flatLine kind => exact grows_type le_rfl o kind.flatText
  | fitted => exact .refl o p
  | trim => exact .of_trim (.refl o p.trim)
  | newline trims indentation =>
    cases trims with
    | false => exact grows_type (Nat.le_succ _) o _
    | true => exact .of_trim (grows_type (p := p.trim) (Nat.le_succ _) o _)

/-- The page with pieces more, each written with its origin. -/
def stampAll (newline : List Char) (p : Page) (stamps : List (Origin × Piece)) : Page :=
  stamps.foldl (fun p s => p.stamp newline s.1 s.2) p

theorem text_stampAll (newline : List Char) (p : Page) (stamps : List (Origin × Piece)) :
    (p.stampAll newline stamps).text = writeAll newline p.text (stamps.map (·.2)) := by
  induction stamps generalizing p with
  | nil => rfl
  | cons s rest ih =>
    rw [stampAll, List.foldl_cons, ← stampAll, ih, text_stamp, List.map_cons, writeAll_cons]

/-- The page that is written from the start. -/
def ofStamps (newline : List Char) (stamps : List (Origin × Piece)) : Page :=
  stampAll newline { glyphs := [], line := 0 } stamps

/-! ### Lines in order -/

/-- A page on which nothing but a newline comes after deferred text. -/
structure Ordered (p : Page) : Prop where
  lines : ∀ x ∈ p.glyphs, x.line ≤ p.line
  before : p.glyphs.Pairwise Glyph.Before

/-- There is deferred text on the current line. -/
def Deferring (p : Page) : Prop := ∃ x ∈ p.glyphs, x.origin ≠ .code ∧ x.line = p.line

theorem Grows.mem (h : Grows o p q) {x : Glyph} (hx : x ∈ q.glyphs) :
    x ∈ p.glyphs ∨ x.origin = o ∧ x.line = q.line := by
  obtain ⟨kept, cs, hkept, hq⟩ := h.glyphs
  rw [hq, List.mem_append, List.mem_map] at hx
  rcases hx with hx | ⟨c, _, rfl⟩
  · exact .inl (hkept.subset hx)
  · exact .inr ⟨rfl, rfl⟩

/-- Deferred text may always be written. Other text may be written on a new line, or where no
deferred text is on the line. -/
theorem Ordered.grows (hp : p.Ordered) (h : Grows o p q)
    (ho : o = .code → p.line < q.line ∨ ¬ p.Deferring) : q.Ordered := by
  refine ⟨fun x hx => ?_, ?_⟩
  · rcases h.mem hx with hx | ⟨_, hx⟩
    · exact (hp.lines x hx).trans h.line
    · exact hx.le
  · obtain ⟨kept, cs, hkept, hq⟩ := h.glyphs
    rw [hq, List.pairwise_append]
    refine ⟨hp.before.sublist hkept.sublist, ?_, ?_⟩
    · exact List.pairwise_map.mpr (List.pairwise_of_forall fun _ _ hne heq => absurd heq hne)
    · intro x hx y hy hne heq
      obtain ⟨c, _, rfl⟩ := List.mem_map.mp hy
      have hx := hkept.subset hx
      have hle := hp.lines x hx
      have hline := h.line
      show x.line < q.line
      rcases ho heq with hlt | hnot
      · omega
      · have : x.line ≠ p.line := fun hl => hnot ⟨x, hx, hne, hl⟩
        omega

/-- Text that is not deferred leaves no deferred text on the line that had none. -/
theorem Ordered.not_deferring_grows (hp : p.Ordered) (h : Grows .code p q)
    (hlast : p.line < q.line ∨ ¬ p.Deferring) : ¬ q.Deferring := by
  rintro ⟨x, hx, hne, hline⟩
  rcases h.mem hx with hx | ⟨ho, _⟩
  · have hle := hp.lines x hx
    rcases hlast with hlt | hnot
    · omega
    · have := h.line
      exact hnot ⟨x, hx, hne, by omega⟩
  · exact hne ho

end Page

/-! ## The tracker -/

/-- The origins of what is on the stack and in the queue, the contents of the suffixes that have been
queued from outside of others, what has been written, and the page that it makes up. -/
structure Tracker where
  commands : List (Origin × Command)
  suffixes : List (Origin × Command)
  queued : List Doc
  written : List (Origin × Piece)
  page : Page

namespace Tracker

def start (d : Doc) : Tracker :=
  { commands := [(.code, ⟨.none, .broken, .doc d⟩)], suffixes := [], queued := [], written := []
    page := { glyphs := [], line := 0 } }

/-- Writes pieces of origin `o`. -/
def write (newline : List Char) (o : Origin) (pieces : List Piece) (t : Tracker) : Tracker :=
  { t with
    written := t.written ++ pieces.map (o, ·)
    page := t.page.stampAll newline (pieces.map (o, ·)) }

@[simp] theorem write_nil (newline : List Char) (o : Origin) (t : Tracker) : t.write newline o [] = t := by
  simp [write, Page.stampAll]

/-- Follows the command `c` of origin `o` from the state `st` to the state `st'`, both without the
command. A line suffix is queued with an origin of its own; the suffixes come back with theirs when
the queue has become shorter, and the line with them; everything else has the origin of `c`. -/
def follow (t : Tracker) (o : Origin) (c : Command) (st st' : State) : Tracker :=
  match c.item with
  | .doc (.lineSuffix d) =>
    { t with
      suffixes := t.suffixes ++ [(o.inside t.queued.length, ⟨c.indentation, c.mode, .doc d⟩)]
      queued := o.queue t.queued d }
  | _ =>
    if st'.suffixes.length < st.suffixes.length then
      { t with commands := t.suffixes ++ (o, c) :: t.commands, suffixes := [] }
    else
      let new := st'.commands.take (st'.commands.length - st.commands.length)
      { t with commands := new.map (o, ·) ++ t.commands }

/-- When nothing is left to print, the waiting suffixes follow. -/
def settle (t : Tracker) : Tracker :=
  if t.commands.isEmpty then { t with commands := t.suffixes, suffixes := [] } else t

/-- Follows a step of the machine from the state `st`. -/
def step (settings : Settings) (fuel : Nat) (st : State) (t : Tracker) : Tracker :=
  match st.commands, t.commands with
  | c :: commands, (o, _) :: tracked =>
    let t := { t with commands := tracked }.write settings.newline.toList o (st.writes settings fuel)
    let st := { st with commands }
    (t.follow o c st (st.perform settings fuel c)).settle
  | _, _ => t

/-- Follows a run. -/
def run (settings : Settings) : Nat → State → Tracker → Tracker
  | 0, _, t => t
  | fuel + 1, st, t =>
    if st.commands.isEmpty then t
    else run settings fuel (st.step settings (fuel + 2)) (t.step settings (fuel + 2) st)

/-- The numbers of what is written, on the stack and in the queue, in the order in which it will
stand in the output. -/
def numbers (t : Tracker) : List Nat :=
  numbersOf (t.page.glyphs.map (·.origin)) ++ numbersOf (t.commands.map (·.1)) ++
    numbersOf (t.suffixes.map (·.1))

end Tracker

/-- A line that breaks in its mode. -/
def Command.breaks (c : Command) : Prop :=
  ∃ kind, c.item = .doc (.line kind) ∧ (c.mode = .broken ∨ kind.isHard = true)

/-- The stack of a tracker: what is `above` comes from suffixes and what is `below` does not. -/
structure Tracker.Stacked (st : State) (t : Tracker) (above below : List (Origin × Command)) :
    Prop where
  commands : st.commands = t.commands.map (·.2)
  suffixes : st.suffixes = t.suffixes.map (·.2)
  split : t.commands = above ++ below
  above_ne : ∀ x ∈ above, x.1 ≠ .code
  below_eq : ∀ x ∈ below, x.1 = .code
  waiting : ∀ x ∈ t.suffixes, x.1 ≠ .code
  /-- Only suffixes of suffixes are queued while a suffix is printed. -/
  nested : above ≠ [] → ∀ x ∈ t.suffixes, x.1 = .nested

/-- What every step keeps. -/
structure Tracker.Orderly (st : State) (t : Tracker) : Prop where
  stacked : ∃ above below, t.Stacked st above below ∧
    (above ≠ [] ∨ t.page.Deferring → ∀ x ∈ below.head?, x.2.breaks)
  page : t.page.Ordered
  counted : Counted t.queued.length t.numbers

/-! ## Lines that break -/

namespace State

variable {settings : Settings} {fuel : Nat} {st : State} {c : Command}

/-- A line that breaks while suffixes wait comes back after them. -/
theorem perform_of_breaks (settings : Settings) (fuel : Nat) (hc : c.breaks) (hs : st.suffixes ≠ []) :
    (st.perform settings fuel c).commands = st.suffixes ++ c :: st.commands ∧
      (st.perform settings fuel c).suffixes = [] := by
  obtain ⟨i, m, item⟩ := c
  obtain ⟨kind, rfl, hm⟩ := hc
  have hs : st.suffixes.isEmpty = false := by simpa using hs
  cases m <;> cases kind <;>
    simp_all [perform, printDoc, printLine, breakLine, push, release, LineKind.isHard]

/-- Only a line that breaks puts the waiting suffixes on the stack. -/
theorem breaks_of_released {kind : LineKind} (hitem : c.item = .doc (.line kind))
    (hs : st.suffixes ≠ []) (hs' : (st.perform settings fuel c).suffixes = []) : c.breaks := by
  obtain ⟨i, m, item⟩ := c
  obtain rfl : item = .doc (.line kind) := hitem
  refine ⟨kind, rfl, ?_⟩
  cases m with
  | broken => exact .inl rfl
  | flat =>
    cases kind with
    | hard | literal => exact .inr rfl
    | soft | normal => exact absurd hs' hs

/-- A line that breaks writes nothing while suffixes wait. -/
theorem writes_of_breaks (settings : Settings) (fuel : Nat) {rest : List Command}
    (hst : st.commands = c :: rest) (hc : c.breaks) (hs : st.suffixes ≠ []) : st.writes settings fuel = [] := by
  obtain ⟨i, m, item⟩ := c
  obtain ⟨kind, rfl, hm⟩ := hc
  have hs : st.suffixes.isEmpty = false := by simpa using hs
  cases m <;> cases kind <;> simp_all [writes, LineKind.isHard]

/-- A line that breaks writes a newline when no suffix waits. -/
theorem exists_writes_of_breaks (settings : Settings) (fuel : Nat) {rest : List Command}
    (hst : st.commands = c :: rest) (hc : c.breaks) (hs : st.suffixes = []) :
    ∃ trims indentation, st.writes settings fuel = [.newline trims indentation] := by
  obtain ⟨i, m, item⟩ := c
  obtain ⟨kind, rfl, hm⟩ := hc
  cases m <;> cases kind <;>
    simp_all [writes, LineKind.isHard, linePiece, breakPiece]

/-- A step writes at most one piece. -/
theorem writes_cases (settings : Settings) (fuel : Nat) (st : State) :
    st.writes settings fuel = [] ∨ ∃ piece, st.writes settings fuel = [piece] := by
  unfold writes
  split
  · exact .inr ⟨_, rfl⟩
  · split
    · exact .inr ⟨_, rfl⟩
    · exact .inl rfl
  · dsimp only
    split
    · exact .inr ⟨_, rfl⟩
    · exact .inl rfl
  · exact .inr ⟨_, rfl⟩
  · exact .inl rfl

end State

/-! ## One step -/

namespace Tracker

variable {settings : Settings} {fuel : Nat} {st st' : State} {t : Tracker} {o : Origin}
  {c : Command} {tracked : List (Origin × Command)} {q : Page}

/-- What is written takes numbers from the command that comes first only. -/
theorem exists_numbers_grows (h : Page.Grows o t.page q) (new : List Command) :
    ∃ K' N', K'.Sublist (numbersOf (t.page.glyphs.map (·.origin))) ∧ N' ⊆ numbersOf [o] ∧
      N'.Pairwise (· ≤ ·) ∧
      numbersOf (q.glyphs.map (·.origin)) ++ numbersOf ((new.map (o, ·)).map (·.1)) = K' ++ N' := by
  obtain ⟨kept, cs, hkept, hq⟩ := h.glyphs
  have hwritten : (q.glyphs.map (·.origin)) = kept.map (·.origin) ++ List.replicate cs.length o := by
    rw [hq, List.map_append, List.map_map]
    congr 1
    exact List.map_const
  have hnew : (new.map (o, ·)).map (·.1) = List.replicate new.length o := by
    rw [List.map_map]
    exact List.map_const
  refine ⟨numbersOf (kept.map (·.origin)),
    numbersOf (List.replicate (cs.length + new.length) o),
    (hkept.sublist.map _).filterMap _, fun m hm => ?_, ?_, ?_⟩
  · rw [eq_suffix_of_mem_numbersOf_replicate hm]
    exact List.mem_singleton_self m
  · refine List.pairwise_iff_forall_sublist.mpr fun hsub => ?_
    have ha := eq_suffix_of_mem_numbersOf_replicate (hsub.subset (List.mem_cons_self ..))
    have hb := eq_suffix_of_mem_numbersOf_replicate (hsub.subset (List.mem_cons_of_mem _
      (List.mem_singleton_self _)))
    rw [ha] at hb
    exact (Origin.suffix.inj hb).le
  · rw [hwritten, hnew, List.replicate_add]
    simp only [numbersOf_append, List.append_assoc]

/-- The command that comes first, and where it stands. -/
theorem Stacked.first_cases {above below : List (Origin × Command)}
    (h : t.Stacked st above below) (ht : t.commands = (o, c) :: tracked) :
    (o = .code ∧ above = [] ∧ below = (o, c) :: tracked) ∨
      (o ≠ .code ∧ ∃ above', above = (o, c) :: above' ∧ tracked = above' ++ below) := by
  have hsplit := h.split
  rw [ht] at hsplit
  cases above with
  | nil =>
    obtain rfl : below = (o, c) :: tracked := hsplit.symm
    exact .inl ⟨h.below_eq _ (List.mem_cons_self ..), rfl, rfl⟩
  | cons x above' =>
    obtain ⟨rfl, htracked⟩ := List.cons.inj hsplit
    exact .inr ⟨h.above_ne _ (List.mem_cons_self ..), above', rfl, htracked⟩

theorem numbers_eq (ht : t.commands = (o, c) :: tracked) :
    t.numbers = numbersOf (t.page.glyphs.map (·.origin)) ++ numbersOf [o] ++
      (numbersOf (tracked.map (·.1)) ++ numbersOf (t.suffixes.map (·.1))) := by
  rw [numbers, ht, List.map_cons, numbersOf_cons]
  simp only [List.append_assoc]

/-- Text outside of suffixes has no numbers. -/
theorem numbersOf_code {xs : List (Origin × Command)} (h : ∀ x ∈ xs, x.1 = .code) :
    numbersOf (xs.map (·.1)) = [] := by
  refine numbersOf_eq_nil fun o ho => ?_
  obtain ⟨x, hx, rfl⟩ := List.mem_map.mp ho
  exact .inl (h x hx)

/-- Suffixes of suffixes have no numbers. -/
theorem numbersOf_nested {xs : List (Origin × Command)} (h : ∀ x ∈ xs, x.1 = .nested) :
    numbersOf (xs.map (·.1)) = [] := by
  refine numbersOf_eq_nil fun o ho => ?_
  obtain ⟨x, hx, rfl⟩ := List.mem_map.mp ho
  exact .inr (h x hx)

/-- Others take the place of a command. -/
theorem Orderly.opened (h : t.Orderly st) (ht : t.commands = (o, c) :: tracked)
    (hq : Page.Grows o t.page q) (hcode : o = .code → t.page.line < q.line ∨ ¬ t.page.Deferring)
    (new : List Command) (hc : st'.commands = new ++ tracked.map (·.2))
    (hs : st'.suffixes = st.suffixes) (written : List (Origin × Piece)) :
    { t with commands := new.map (o, ·) ++ tracked, written, page := q : Tracker }.Orderly st' := by
  obtain ⟨⟨above, below, hstack, hbelow⟩, hpage, hcounted⟩ := h
  have hcommands : st'.commands = (new.map (o, ·) ++ tracked).map (·.2) := by
    rw [hc, List.map_append, List.map_map]
    congr 1
    exact (List.map_id new).symm
  have hsuffixes : st'.suffixes = t.suffixes.map (·.2) := hs.trans hstack.suffixes
  refine ⟨?_, hpage.grows hq hcode, ?_⟩
  · rcases hstack.first_cases ht with ⟨rfl, rfl, rfl⟩ | ⟨ho, above', rfl, rfl⟩
    · refine ⟨[], new.map (.code, ·) ++ tracked, ⟨hcommands, hsuffixes, rfl, by simp, ?_,
        hstack.waiting, fun hne => absurd rfl hne⟩, ?_⟩
      · intro x hx
        rw [List.mem_append, List.mem_map] at hx
        rcases hx with ⟨_, _, rfl⟩ | hx
        · rfl
        · exact hstack.below_eq x (List.mem_cons_of_mem _ hx)
      · rintro (hne | hd)
        · exact absurd rfl hne
        · exact absurd hd (hpage.not_deferring_grows hq (hcode rfl))
    · refine ⟨new.map (o, ·) ++ above', below, ⟨hcommands, hsuffixes, by simp, ?_, hstack.below_eq,
        hstack.waiting, fun _ => hstack.nested (List.cons_ne_nil _ _)⟩,
        fun _ => hbelow (.inl (List.cons_ne_nil _ _))⟩
      intro x hx
      rw [List.mem_append, List.mem_map] at hx
      rcases hx with ⟨_, _, rfl⟩ | hx
      · exact ho
      · exact hstack.above_ne x (List.mem_cons_of_mem _ hx)
  · obtain ⟨K', N', hK, hN, hN', heq⟩ := exists_numbers_grows hq new
    rw [numbers, List.map_append, numbersOf_append, ← List.append_assoc, heq, List.append_assoc]
    rw [numbers_eq ht] at hcounted
    exact hcounted.replace hK hN hN'

/-- A line suffix waits. -/
theorem Orderly.deferred (h : t.Orderly st) (ht : t.commands = (o, c) :: tracked)
    (hcode : o = .code → ¬ t.page.Deferring) (d : Command) (contents : Doc)
    (hc : st'.commands = tracked.map (·.2)) (hs : st'.suffixes = st.suffixes ++ [d]) :
    { t with
      commands := tracked, suffixes := t.suffixes ++ [(o.inside t.queued.length, d)]
      queued := o.queue t.queued contents : Tracker }.Orderly st' := by
  obtain ⟨⟨above, below, hstack, hbelow⟩, hpage, hcounted⟩ := h
  have hsuffixes : st'.suffixes = (t.suffixes ++ [(o.inside t.queued.length, d)]).map (·.2) := by
    rw [hs, hstack.suffixes, List.map_append, List.map_singleton]
  have hwaiting : ∀ x ∈ t.suffixes ++ [(o.inside t.queued.length, d)], x.1 ≠ .code := by
    intro x hx
    rw [List.mem_append, List.mem_singleton] at hx
    rcases hx with hx | rfl
    · exact hstack.waiting x hx
    · exact o.inside_ne_code t.queued.length
  rw [numbers_eq ht] at hcounted
  rcases hstack.first_cases ht with ⟨rfl, rfl, rfl⟩ | ⟨ho, above', rfl, rfl⟩
  · refine ⟨⟨[], tracked, ⟨hc, hsuffixes, rfl, by simp,
      fun x hx => hstack.below_eq x (List.mem_cons_of_mem _ hx), hwaiting,
      fun hne => absurd rfl hne⟩, ?_⟩, hpage, ?_⟩
    · rintro (hne | hd)
      · exact absurd rfl hne
      · exact absurd hd (hcode rfl)
    · rw [numbers, List.map_append, numbersOf_append, ← List.append_assoc, Origin.queue,
        List.length_append]
      refine (hcounted.sublist ?_).next
      simp [List.append_assoc]
  · have hinside := Origin.inside_of_ne_code t.queued.length ho
    have hnested : ∀ x ∈ t.suffixes ++ [(o.inside t.queued.length, d)], x.1 = .nested := by
      intro x hx
      rw [List.mem_append, List.mem_singleton] at hx
      rcases hx with hx | rfl
      · exact hstack.nested (List.cons_ne_nil _ _) x hx
      · exact hinside
    refine ⟨⟨above', below, ⟨hc, hsuffixes, rfl,
      fun x hx => hstack.above_ne x (List.mem_cons_of_mem _ hx), hstack.below_eq, hwaiting,
      fun _ => hnested⟩, fun _ => hbelow (.inl (List.cons_ne_nil _ _))⟩, hpage, ?_⟩
    rw [numbers, numbersOf_nested hnested, List.append_nil, Origin.queue_of_ne_code _ _ ho]
    refine hcounted.sublist ?_
    simp [List.append_assoc]

/-- Suffixes come back before a line that breaks. -/
theorem Orderly.released (h : t.Orderly st) (ht : t.commands = (o, c) :: tracked)
    (hbreaks : c.breaks)
    (hc : st'.commands = st.suffixes ++ c :: tracked.map (·.2)) (hs : st'.suffixes = []) :
    { t with commands := t.suffixes ++ (o, c) :: tracked, suffixes := [] : Tracker }.Orderly
      st' := by
  obtain ⟨⟨above, below, hstack, hbelow⟩, hpage, hcounted⟩ := h
  have hcommands : st'.commands = (t.suffixes ++ (o, c) :: tracked).map (·.2) := by
    rw [hc, hstack.suffixes, List.map_append, List.map_cons]
  rw [numbers_eq ht] at hcounted
  rcases hstack.first_cases ht with ⟨rfl, rfl, rfl⟩ | ⟨ho, above', rfl, rfl⟩
  · refine ⟨⟨t.suffixes, (.code, c) :: tracked, ⟨hcommands, hs, rfl, hstack.waiting,
      hstack.below_eq, by simp, by simp⟩, fun _ x hx => ?_⟩, hpage, ?_⟩
    · rw [← Option.some.inj hx]
      exact hbreaks
    · refine hcounted.sublist ?_
      rw [numbers, List.map_append, numbersOf_append, numbersOf_code hstack.below_eq]
      simp [List.append_assoc]
  · refine ⟨⟨t.suffixes ++ (o, c) :: above', below, ⟨hcommands, hs, by simp, ?_,
      hstack.below_eq, by simp, by simp⟩, fun _ => hbelow (.inl (List.cons_ne_nil _ _))⟩, hpage, ?_⟩
    · intro x hx
      rw [List.mem_append] at hx
      rcases hx with hx | hx
      · exact hstack.waiting x hx
      · exact hstack.above_ne x hx
    · refine hcounted.sublist ?_
      rw [numbers, List.map_append, numbersOf_append,
        numbersOf_nested (hstack.nested (List.cons_ne_nil _ _))]
      rw [List.map_cons, numbersOf_cons]
      simp [List.append_assoc]

/-- The waiting suffixes follow when nothing is left to print. -/
theorem Orderly.settle (h : t.Orderly st) : t.settle.Orderly st.settle := by
  obtain ⟨⟨above, below, hstack, hbelow⟩, hpage, hcounted⟩ := h
  have hempty : st.commands.isEmpty = t.commands.isEmpty := by
    rw [hstack.commands, List.isEmpty_map]
  rw [Tracker.settle, State.settle, hempty]
  split
  · rename_i hnil
    rw [List.isEmpty_iff] at hnil
    obtain ⟨rfl, rfl⟩ := List.append_eq_nil_iff.mp (hstack.split.symm.trans hnil)
    refine ⟨⟨t.suffixes, [], ⟨?_, rfl, by simp, hstack.waiting, by simp, by simp, by simp⟩, by simp⟩,
      hpage, ?_⟩
    · rw [State.release, hstack.commands, hnil, hstack.suffixes]
      simp
    · rw [numbers, hnil] at hcounted
      simpa [numbers] using hcounted
  · exact ⟨⟨above, below, hstack, hbelow⟩, hpage, hcounted⟩

/-! ### Following a command -/

theorem follow_of_deferred {d : Doc} (hitem : c.item = .doc (.lineSuffix d)) :
    t.follow o c st st' =
      { t with
        suffixes := t.suffixes ++ [(o.inside t.queued.length, ⟨c.indentation, c.mode, .doc d⟩)]
        queued := o.queue t.queued d } := by
  rw [follow, hitem]

theorem follow_of_released {kind : LineKind} (hitem : c.item = .doc (.line kind))
    (hs : st.suffixes ≠ []) (hs' : st'.suffixes = []) :
    t.follow o c st st' =
      { t with commands := t.suffixes ++ (o, c) :: t.commands, suffixes := [] } := by
  rw [follow, hitem, hs', List.length_nil]
  exact if_pos (List.length_pos_of_ne_nil hs)

theorem follow_of_opened {new : List Command} (hitem : ∀ d, c.item ≠ .doc (.lineSuffix d))
    (hc : st'.commands = new ++ st.commands) (hs : st'.suffixes = st.suffixes) :
    t.follow o c st st' = { t with commands := new.map (o, ·) ++ t.commands } := by
  unfold follow
  split
  · rename_i d hd
    exact absurd hd (hitem d)
  · rw [if_neg (by rw [hs]; exact lt_irrefl _), hc, List.length_append, Nat.add_sub_cancel,
      List.take_left]

/-- What a step makes of a tracker, before the waiting suffixes may follow. The command `c` comes first. -/
inductive Moves (settings : Settings) (fuel : Nat) (st st' : State) (t : Tracker) (o : Origin)
    (c : Command) (tracked : List (Origin × Command)) : Tracker → Prop
  /-- Others take its place. -/
  | opened (new : List Command) : (c.breaks → st.suffixes = []) →
      st'.commands = new ++ tracked.map (·.2) → st'.suffixes = st.suffixes →
      new.flatMap (·.item.docs) ∈ c.item.openings →
      Moves settings fuel st st' t o c tracked
        { t.write settings.newline.toList o (st.writes settings fuel) with
          commands := new.map (o, ·) ++ tracked }
  /-- It waits for the end of the line. -/
  | deferred (d : Doc) : c.item = .doc (.lineSuffix d) → st'.commands = tracked.map (·.2) →
      st'.suffixes = st.suffixes ++ [⟨c.indentation, c.mode, .doc d⟩] →
      Moves settings fuel st st' t o c tracked
        { t with
          commands := tracked
          suffixes := t.suffixes ++ [(o.inside t.queued.length, ⟨c.indentation, c.mode, .doc d⟩)]
          queued := o.queue t.queued d }
  /-- It comes back after the suffixes. -/
  | released : c.breaks → st'.commands = st.suffixes ++ c :: tracked.map (·.2) → st'.suffixes = [] →
      Moves settings fuel st st' t o c tracked
        { t with commands := t.suffixes ++ (o, c) :: tracked, suffixes := [] }

/-- **Every step is such a move.** -/
theorem exists_moves (settings : Settings) (fuel : Nat) (hmap : st.commands = t.commands.map (·.2))
    (hne : st.commands ≠ []) :
    ∃ o c tracked st' t', t.commands = (o, c) :: tracked ∧ Moves settings fuel st st' t o c tracked t' ∧
      st.step settings fuel = st'.settle ∧ t.step settings fuel st = t'.settle := by
  obtain ⟨c, rest, hst⟩ := List.exists_cons_of_ne_nil hne
  rw [hst] at hmap
  obtain ⟨⟨o, c⟩, tracked, ht, rfl, rfl⟩ := List.map_eq_cons_iff.mp hmap.symm
  refine ⟨o, c, tracked, _, _, ht, ?_, State.step_eq hst, by rw [Tracker.step, hst, ht]⟩
  by_cases hrel : c.breaks ∧ st.suffixes ≠ []
  · -- The line comes back after the suffixes, and nothing is written.
    obtain ⟨hbreaks, hsuffixes⟩ := hrel
    obtain ⟨kind, hitem, _⟩ := id hbreaks
    have hwaiting : State.suffixes { st with commands := tracked.map (·.2) } ≠ [] := hsuffixes
    obtain ⟨hc, hs⟩ := State.perform_of_breaks settings fuel hbreaks hwaiting
    rw [State.writes_of_breaks settings fuel hst hbreaks hsuffixes, write_nil,
      follow_of_released hitem hwaiting hs]
    exact .released hbreaks hc hs
  have hquiet : c.breaks → st.suffixes = [] := fun hbreaks => by_contra fun hs => hrel ⟨hbreaks, hs⟩
  cases State.performs_perform settings fuel { st with commands := tracked.map (·.2) } c with
  | opened new hc hs hopen _ _ =>
    have hitem : ∀ d, c.item ≠ .doc (.lineSuffix d) := fun d hd => by simp [hd, Item.openings] at hopen
    rw [follow_of_opened hitem hc hs]
    exact .opened new hquiet hc hs hopen
  | deferred d hitem hc hs =>
    have hnothing : st.writes settings fuel = [] := by
      obtain ⟨i, m, item⟩ := c
      obtain rfl : item = .doc (.lineSuffix d) := hitem
      rw [State.writes, hst]
    rw [hnothing, write_nil, follow_of_deferred hitem]
    exact .deferred d hitem hc hs
  | released kind hitem hne' hc hs =>
    exact absurd ⟨State.breaks_of_released hitem hne' hs, hne'⟩ hrel

/-- What a step writes. -/
theorem grows_write (settings : Settings) (fuel : Nat) (st : State) (o : Origin) (t : Tracker) :
    Page.Grows o t.page (t.write settings.newline.toList o (st.writes settings fuel)).page := by
  rcases State.writes_cases settings fuel st with hw | ⟨piece, hw⟩ <;> rw [hw]
  · exact .refl o t.page
  · exact Page.grows_stamp _ o t.page piece

/-- A line that breaks where no suffix waits starts a new line. -/
theorem line_lt_write {rest : List Command} (settings : Settings) (fuel : Nat) (o : Origin) (t : Tracker)
    (hst : st.commands = c :: rest) (hc : c.breaks) (hs : st.suffixes = []) :
    t.page.line < (t.write settings.newline.toList o (st.writes settings fuel)).page.line := by
  obtain ⟨trims, indentation, hw⟩ := State.exists_writes_of_breaks settings fuel hst hc hs
  rw [hw]
  cases trims <;> exact Nat.lt_succ_self _

/-- Where text outside of suffixes comes first and there is deferred text on the line, the line breaks. -/
theorem Orderly.breaks_of_deferring (h : t.Orderly st) (ht : t.commands = (.code, c) :: tracked)
    (hd : t.page.Deferring) : c.breaks := by
  obtain ⟨above, below, hstack, hbelow⟩ := h.stacked
  rcases hstack.first_cases ht with ⟨_, rfl, rfl⟩ | ⟨hne, _⟩
  · exact hbelow (.inr hd) _ rfl
  · exact absurd rfl hne

/-- **Every step keeps the order.** -/
theorem Orderly.step (settings : Settings) (fuel : Nat) (h : t.Orderly st)
    (hne : st.commands ≠ []) : (t.step settings fuel st).Orderly (st.step settings fuel) := by
  obtain ⟨_, _, hstack, _⟩ := h.stacked
  obtain ⟨o, c, tracked, st', t', ht, hmoves, hstep, hstep'⟩ :=
    exists_moves settings fuel hstack.commands hne
  have hst : st.commands = c :: tracked.map (·.2) := by rw [hstack.commands, ht, List.map_cons]
  rw [hstep, hstep']
  refine Orderly.settle ?_
  cases hmoves with
  | opened new hquiet hc hs _ =>
    refine h.opened ht (grows_write settings fuel st o t) ?_ new hc hs _
    rintro rfl
    refine (em t.page.Deferring).imp_left fun hd => ?_
    have hbreaks := h.breaks_of_deferring ht hd
    exact line_lt_write settings fuel _ t hst hbreaks (hquiet hbreaks)
  | deferred d hitem hc hs =>
    refine h.deferred ht ?_ _ d hc hs
    rintro rfl hd
    obtain ⟨kind, hline, _⟩ := h.breaks_of_deferring ht hd
    rw [hitem] at hline
    cases hline
  | released hbreaks hc hs => exact h.released ht hbreaks hc hs

/-! ## Whole runs -/

@[simp] theorem written_settle (t : Tracker) : t.settle.written = t.written := by
  unfold settle
  split <;> rfl

@[simp] theorem page_settle (t : Tracker) : t.settle.page = t.page := by
  unfold settle
  split <;> rfl

@[simp] theorem written_follow (t : Tracker) (o : Origin) (c : Command) (st st' : State) :
    (t.follow o c st st').written = t.written := by
  unfold follow
  split
  · rfl
  · split <;> rfl

@[simp] theorem page_follow (t : Tracker) (o : Origin) (c : Command) (st st' : State) :
    (t.follow o c st st').page = t.page := by
  unfold follow
  split
  · rfl
  · split <;> rfl

/-- **A run keeps the order.** -/
theorem Orderly.run (settings : Settings) (fuel : Nat) (h : t.Orderly st) :
    (t.run settings fuel st).Orderly (st.run settings fuel) := by
  induction fuel generalizing st t with
  | zero => exact h
  | succ fuel ih =>
    rw [Tracker.run, State.run]
    split
    · exact h
    · rename_i hne
      exact ih (h.step settings (fuel + 2) (by simpa using hne))

/-- The tracker writes what the machine writes. -/
theorem Orderly.written_run (settings : Settings) (fuel : Nat) (h : t.Orderly st) :
    (t.run settings fuel st).written.map (·.2) = t.written.map (·.2) ++ st.trace settings fuel := by
  induction fuel generalizing st t with
  | zero => exact (List.append_nil _).symm
  | succ fuel ih =>
    rw [Tracker.run, State.trace]
    split
    · exact (List.append_nil _).symm
    · rename_i hempty
      have hne : st.commands ≠ [] := by simpa using hempty
      obtain ⟨_, _, hstack, _⟩ := h.stacked
      obtain ⟨c, rest, hst⟩ := List.exists_cons_of_ne_nil hne
      have hmap := hstack.commands
      rw [hst] at hmap
      obtain ⟨⟨o, c⟩, tracked, ht, rfl, _⟩ := List.map_eq_cons_iff.mp hmap.symm
      have hstep : (t.step settings (fuel + 2) st).written.map (·.2) =
          t.written.map (·.2) ++ st.writes settings (fuel + 2) := by
        rw [Tracker.step, hst, ht]
        simp [write, Function.comp_def]
      rw [ih (h.step settings (fuel + 2) hne), hstep, List.append_assoc]

/-- The page is what has been written. -/
theorem page_run (settings : Settings) (fuel : Nat) (st : State)
    (h : t.page = .ofStamps settings.newline.toList t.written) :
    (t.run settings fuel st).page =
      .ofStamps settings.newline.toList (t.run settings fuel st).written := by
  induction fuel generalizing st t with
  | zero => exact h
  | succ fuel ih =>
    rw [Tracker.run]
    split
    · exact h
    · refine ih _ ?_
      unfold Tracker.step
      split
      · simp only [page_settle, page_follow, written_settle, written_follow, write, h]
        exact List.foldl_append.symm
      · exact h

/-- What has been written comes first in the order. -/
theorem Orderly.sorted_page (h : t.Orderly st) :
    (numbersOf (t.page.glyphs.map (·.origin))).Pairwise (· ≤ ·) := by
  refine h.counted.sorted.sublist ?_
  rw [numbers, List.append_assoc]
  exact List.sublist_append_left _ _

theorem orderly_start (d : Doc) : (start d).Orderly (State.start d) := by
  refine ⟨⟨[], (start d).commands, ⟨rfl, rfl, rfl, by simp, by simp [start], by simp [start],
    by simp⟩, ?_⟩, ⟨by simp [start], by simp [start]⟩, ?_⟩
  · rintro (hne | ⟨x, hx, _⟩)
    · exact absurd rfl hne
    · simp [start] at hx
  · have hnil : (start d).numbers = [] := rfl
    rw [hnil]
    exact ⟨.nil, by simp⟩

end Tracker

end CodeFormatter.Layout
