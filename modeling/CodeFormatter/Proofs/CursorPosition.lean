import CodeFormatter.Proofs.Formatter
import CodeFormatter.Proofs.JavaScript.Ranges
import CodeFormatter.Proofs.Layout.CursorPositions

/-!
# Where a reported cursor is

The cursor goes to the place where its node starts in the output, and on by as many bytes as it was behind
the start of the node, but not past the end of the node. The bytes are counted in the source, and the node
may have been laid out differently: the place may be in the middle of a character (`not_boundary`).

**Theorem (`format_cursor`).** If cursors stand in pairs in the documents of a language, a reported cursor is
in the formatted text, and in what was printed for its node. It is between two characters if and only if
what was printed for the node can be cut there.
-/

namespace CodeFormatter

open Layout Pipeline

/-- Cursors stand in pairs in the documents of all trees, if texts are embedded like this. -/
def Language.PairsCursors {α : Type} (language : Language α) (embedding : Embedding) : Prop :=
  ∀ (scene : Scene) (tree : Tree α) (st : WalkState) (d : Doc) (st' : WalkState),
    scene.embedded = embedding → printTree language scene tree 0 st = .ok (d, st') → Paired d

section

variable {α : Type} {language : Language α} {embedding : Embedding} {o : Options} {text s : String}
  {c : Nat}

/-- Inside a part of a text, the text can be cut where the part can. -/
theorem isBoundary_inside_iff {before inside after : List Char} {k : Nat}
    (htext : s.toList = before ++ inside ++ after) (hk : k ≤ byteLength inside) :
    isBoundary s (byteLength before + k) = true ↔ Cuts inside k := by
  rw [isBoundary_iff]
  constructor
  · rintro ⟨front, rest, heq, hlength⟩
    rw [htext, List.append_assoc] at heq
    obtain ⟨m, rfl, hm⟩ := exists_append_of_byteLength_le heq (by omega)
    rw [byteLength_append] at hlength
    refine ⟨m, ?_, by omega⟩
    exact prefix_of_byteLength_le ⟨rest, hm.symm⟩ (List.prefix_append inside after) (by omega)
  · rintro ⟨front, ⟨rest, rfl⟩, rfl⟩
    exact ⟨before ++ front, rest ++ after, by rw [htext]; simp, byteLength_append before front⟩

/-- **How a cursor is reported.** The text `s` comes out for `text`, and its cursor is at `c`: as far behind
the first cursor of the document as the cursor was behind the start of its node, but not behind the second
one. What was printed between the two is `inside`. -/
def Reports (language : Language α) (embedding : Embedding) (o : Options) (text s : String) (c : Nat)
    (inside : List Char) (distance : Nat) : Prop :=
  ∃ (job : Job) (parsed : Parsed α) (d : Doc) (st : WalkState) (id start : Nat)
    (before after : List Char),
    prepare language o text = .ok job ∧ language.parse job.options job.text = .ok parsed ∧
      cursorTarget job.options parsed.tree = some (id, distance) ∧
      printTree language (sceneFor language embedding job parsed.tree) parsed.tree 0
        ⟨attached language job.text parsed, 0⟩ = .ok (d, st) ∧
      (print (job.options.page job.text) d).cursor = some start ∧
      (print (job.options.page job.text) d).cursorEnd = some (start + byteLength inside) ∧
      s.toList = before ++ inside ++ after ∧
      byteLength before = (if job.marked then start + 3 else start) ∧
      c = byteLength before + min distance (byteLength inside)

theorem Reports.le {inside : List Char} {distance : Nat}
    (h : Reports language embedding o text s c inside distance) : c ≤ s.utf8ByteSize := by
  obtain ⟨-, -, -, -, -, -, before, after, -, -, -, -, -, -, htext, -, rfl⟩ := h
  rw [← byteLength_toList, htext, byteLength_append, byteLength_append]
  omega

theorem Reports.isBoundary_iff {inside : List Char} {distance : Nat}
    (h : Reports language embedding o text s c inside distance) :
    isBoundary s c = true ↔ Cuts inside (min distance (byteLength inside)) := by
  obtain ⟨-, -, -, -, -, -, before, after, -, -, -, -, -, -, htext, -, rfl⟩ := h
  exact isBoundary_inside_iff htext (Nat.min_le_right _ _)

/-- The place where the cursor goes in an outcome. -/
theorem exists_of_outcomeOf {job : Job} {tree : Tree α} {d : Doc} (hd : Paired d)
    (h : outcomeOf job tree d = ⟨s, some c⟩) :
    ∃ id distance start before inside after, cursorTarget job.options tree = some (id, distance) ∧
      (print (job.options.page job.text) d).cursor = some start ∧
      (print (job.options.page job.text) d).cursorEnd = some (start + byteLength inside) ∧
      s.toList = before ++ inside ++ after ∧
      byteLength before = (if job.marked then start + 3 else start) ∧
      c = byteLength before + min distance (byteLength inside) := by
  obtain ⟨rfl, hcursor⟩ := Formatted.mk.inj h
  obtain ⟨place, hplace, rfl⟩ := Option.map_eq_some_iff.mp hcursor
  cases htarget : cursorTarget job.options tree with
  | none =>
    rw [htarget] at hplace
    cases hplace
  | some target =>
    obtain ⟨id, distance⟩ := target
    cases hstart : (print (job.options.page job.text) d).cursor with
    | none =>
      simp only [htarget, mapCursor, hstart] at hplace
      cases hplace
    | some start =>
      obtain ⟨before, inside, after, htext, rfl, hstop⟩ := exists_of_cursor _ hd hstart
      simp only [htarget, mapCursor, hstart, hstop, Option.some.injEq] at hplace
      rw [byteLength_append] at hstop hplace
      cases hmark : job.marked with
      | false =>
        refine ⟨id, distance, _, before, inside, after, rfl, rfl, hstop, htext, rfl, ?_⟩
        simp only [Bool.false_eq_true, if_false]
        omega
      | true =>
        have hsize : byteLength (byteOrderMark :: before) = byteLength before + 3 := by
          rw [byteLength_cons, Nat.add_comm]
          rfl
        refine ⟨id, distance, _, byteOrderMark :: before, inside, after, rfl, rfl, hstop, ?_, hsize, ?_⟩
        · simp [restoreMark, htext]
        · rw [hsize]
          simp only [if_true]
          omega

/-- **The cursor that is reported for a text.** A range has none, and neither has a text that is left as it
is. -/
theorem exists_reports_of_formatText (hpairs : language.PairsCursors embedding)
    (h : formatText language embedding o text = .ok ⟨s, some c⟩) :
    ∃ inside distance, Reports language embedding o text s c inside distance := by
  unfold formatText at h
  split at h
  · cases h
  · obtain ⟨job, hjob, h⟩ := Formatter.exists_of_bind_eq_ok h
    obtain ⟨parsed, hparsed, h⟩ := Formatter.exists_of_bind_eq_ok h
    obtain ⟨answer, -, h⟩ := Formatter.exists_of_bind_eq_ok h
    cases answer with
    | some _ => cases h
    | none =>
      dsimp only at h
      rw [printParsed_zero] at h
      obtain ⟨⟨d, st⟩, hrun, h⟩ := Formatter.exists_of_bind_eq_ok h
      obtain ⟨⟨⟩, -, h⟩ := Formatter.exists_of_bind_eq_ok h
      have hd : Paired d := hpairs _ parsed.tree _ d st rfl hrun
      obtain ⟨id, distance, start, before, inside, after, htarget, hplace⟩ :=
        exists_of_outcomeOf hd (Except.ok.inj h)
      exact ⟨inside, distance, job, parsed, d, st, id, start, before, after, hjob, hparsed, htarget, hrun,
        hplace⟩

/-- **A reported cursor** is in the formatted text, in what was printed for its node, and as far behind its
start as it was in the source, or at its end. Whether this is between two characters depends on what was
printed there. -/
theorem format_cursor {languages : List Registered}
    (hlanguages : let f := Formatter.ofLanguages languages
      ∀ r ∈ languages, ∃ (β : Type) (l : Language β), r = .ofLanguage l ∧
        l.PairsCursors (f.embedding (f.nesting text)))
    (hvalid : o.validate = .ok ())
    (h : (Formatter.ofLanguages languages).formatWithCursor text o = .ok ⟨s, some c⟩) :
    let f := Formatter.ofLanguages languages
    c ≤ s.utf8ByteSize ∧
      ∃ (β : Type) (l : Language β) (inside : List Char) (distance : Nat),
        f.languageFor (f.named o) = .ok (.ofLanguage l) ∧
          Reports l (f.embedding (f.nesting text)) (f.named o) text s c inside distance ∧
          (isBoundary s c = true ↔ Cuts inside (min distance (byteLength inside))) := by
  intro f
  rw [Formatter.formatWithCursor_eq, Formatter.formatNested_of_valid hvalid] at h
  obtain ⟨r, hr, h⟩ := Formatter.exists_of_bind_eq_ok h
  obtain ⟨β, l, rfl, hpairs⟩ := hlanguages r (Formatter.mem_of_languageFor hr)
  obtain ⟨inside, distance, hreports⟩ := exists_reports_of_formatText hpairs h
  exact ⟨hreports.le, β, l, inside, distance, hr, hreports, hreports.isBoundary_iff⟩

end

/-! ## JavaScript -/

namespace JavaScript

open Printer Walk

theorem closed_paired : Closed (fun _ => True) Paired := by
  refine closed_of_children fun d _ hprinted hchildren => .intro ?_ hchildren
  rintro rfl
  cases hprinted

theorem paired_of_printed {d : Doc} (h : Printed d) : Paired d := by
  induction h with
  | intro self _ ih =>
    refine .intro ?_ ih
    rintro rfl
    cases self

/-- No printer makes a cursor: they come from the walk alone, and in pairs. -/
theorem heritage_paired {scene : Scene} {root : Node} (done : Comments)
    (hcode : ∀ code group, Yields (fun _ => True) (fun r => Printed r.1)
      (scene.embedded code (Embedded.codeOptions scene.options) group)) :
    Heritage done (fun _ => True) (fun _ => True) Paired scene root where
  closed := closed_paired
  words := by simp
  spaced := by simp
  comments := printsComments_of_closed closed_paired
  span := trivial
  tokens := by simp
  operators := by simp
  copies _ _ _ _ := closed_paired.text _ trivial
  strings _ _ _ _ _ _ _ := closed_paired.text _ trivial
  code _ _ _ _ _ _ _ group := (hcode _ group).mono (fun _ _ _ => trivial) fun _ hr =>
    paired_of_printed (hr.stripTrailingHardline fun _ => rfl)
  cursor _ _ _ := .inl fun _ hd => .marked hd

theorem pairsCursors_parsing (p : TextParser) (depth : Nat) :
    (parsing p).PairsCursors ((formatterOf p).embedding depth) := by
  intro scene tree st d st' hembedded hrun
  rw [printTree_parsing] at hrun
  have hcode : ∀ code group, Yields (fun _ => True) (fun r => Printed r.1)
      (scene.embedded code (Embedded.codeOptions scene.options) group) := fun code group => by
    rw [hembedded]
    exact printed_embedding depth code scene.options group
  obtain ⟨-, e, he, rfl⟩ := ((heritage_paired st.comments hcode).printTree 0).gives _ _ _ rfl hrun
  exact he.propagateBreaks

/-- A cursor in front of an argument. -/
theorem format_cursor_argument :
    formatter.formatWithCursor "f(  é)" { parser := some "javascript", cursorOffset := some 4 } =
        .ok ⟨"f(é);\n", some 2⟩ ∧
      2 ≤ "f(é);\n".utf8ByteSize ∧
      ∃ (β : Type) (l : Language β) (inside : List Char) (distance : Nat),
        Reports l (formatter.embedding (formatter.nesting "f(  é)"))
          (formatter.named { parser := some "javascript", cursorOffset := some 4 }) "f(  é)" "f(é);\n" 2
          inside distance := by
  have hformat : formatter.formatWithCursor "f(  é)"
      { parser := some "javascript", cursorOffset := some 4 } = .ok ⟨"f(é);\n", some 2⟩ := by
    decide +kernel
  obtain ⟨hle, β, l, inside, distance, -, hreports, -⟩ :=
    format_cursor (fun r hr => ⟨Info, parsing parse, List.mem_singleton.mp hr,
      pairsCursors_parsing parse _⟩) rfl hformat
  exact ⟨hformat, hle, β, l, inside, distance, hreports⟩

/-- The blanks in front of an argument go, but the bytes in them count: the cursor comes to stand in the
middle of the argument. -/
theorem not_boundary :
    ¬ ∀ (text s : String) (o : Options) (c : Nat), o.validate = .ok () →
      (∀ offset ∈ o.cursorOffset, isBoundary text offset = true) →
      formatter.formatWithCursor text o = .ok ⟨s, some c⟩ → c ≤ s.utf8ByteSize ∧ isBoundary s c = true := by
  intro h
  have hformat : formatter.formatWithCursor "f(  é)"
      { parser := some "javascript", cursorOffset := some 3 } = .ok ⟨"f(é);\n", some 3⟩ := by
    decide +kernel
  have hboundary : isBoundary "f(  é)" 3 = true := by
    decide +kernel
  have hinside : isBoundary "f(é);\n" 3 = false := by
    decide +kernel
  obtain ⟨-, hcut⟩ := h "f(  é)" "f(é);\n" { parser := some "javascript", cursorOffset := some 3 } 3 rfl
    (fun offset hoffset => Option.some.inj hoffset ▸ hboundary) hformat
  exact absurd (hinside.symm.trans hcut) Bool.noConfusion

end JavaScript

end CodeFormatter
