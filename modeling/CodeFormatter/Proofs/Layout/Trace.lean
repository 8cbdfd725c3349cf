import CodeFormatter.Layout.Printer
import Mathlib.Data.List.DropRight

/-!
# What a run writes

The machine that lays out a document writes its output piece by piece: texts, lines that stay flat,
newlines. `State.trace` lists the pieces of a whole run, and `assemble` puts them together: it
appends them one after another and removes the spaces and tabs before each newline and at the end.

**Theorem (`formatted_eq_assemble`).** The layout of any document is the assembly of its trace.

A trace says more than the text it leads to. It tells a newline of the layout from a newline inside
a text, it shows each line before the spaces at its end are removed, and it shows where a line stayed
flat, even if that wrote nothing.
-/

namespace CodeFormatter

/-- What a line writes when it stays flat. -/
def LineKind.flatText : LineKind → List Char
  | .normal => [' ']
  | _ => []

namespace Layout

/-! ## Pieces -/

/-- A piece of what the layout writes. -/
inductive Piece where
  | text (cs : List Char)
  /-- A line that stays flat. -/
  | flatLine (kind : LineKind)
  /-- A group is measured here and fits. It writes nothing. -/
  | fitted
  /-- A newline and the start of the next line. Spaces and tabs before it go if it `trims`. -/
  | newline (trims : Bool) (indentation : List Char)
  /-- Spaces and tabs at the end go. -/
  | trim
  deriving DecidableEq

/-- The text without the spaces and tabs at its end. -/
def trimEnd (cs : List Char) : List Char := cs.rdropWhile isPadding

/-- The text `out` with one piece more. -/
def Piece.write (newline out : List Char) : Piece → List Char
  | .text cs => out ++ cs
  | .flatLine kind => out ++ kind.flatText
  | .fitted => out
  | .newline trims indentation =>
    (if trims then trimEnd out else out) ++ newline ++ indentation
  | .trim => trimEnd out

/-- The text `out` with the pieces after it. -/
def writeAll (newline out : List Char) (pieces : List Piece) : List Char :=
  pieces.foldl (Piece.write newline) out

/-- The text that the pieces make up. -/
def assemble (newline : List Char) (pieces : List Piece) : List Char :=
  trimEnd (writeAll newline [] pieces)

@[simp] theorem writeAll_nil (newline out : List Char) : writeAll newline out [] = out := rfl

@[simp] theorem writeAll_cons (newline out : List Char) (p : Piece) (pieces : List Piece) :
    writeAll newline out (p :: pieces) = writeAll newline (p.write newline out) pieces := rfl

@[simp] theorem writeAll_append (newline out : List Char) (ps qs : List Piece) :
    writeAll newline out (ps ++ qs) = writeAll newline (writeAll newline out ps) qs :=
  List.foldl_append

/-- The piece that a line writes when it breaks. -/
def breakPiece (indentation : Indentation) : LineKind → Piece
  | .literal => .newline false (indentation.root.getD .none).value
  | _ => .newline true indentation.value

/-- The piece that a line writes in the given mode. -/
def linePiece (indentation : Indentation) : Mode → LineKind → Piece
  | .flat, .normal => .flatLine .normal
  | .flat, .soft => .flatLine .soft
  | _, kind => breakPiece indentation kind

/-! ## The output, forwards -/

namespace Output

/-- The text written so far, first character first. -/
def text (out : Output) : List Char := out.backward.reverse

@[simp] theorem text_empty : empty.text = [] := rfl

@[simp] theorem text_append (out : Output) (cs : List Char) :
    (out.append cs).text = out.text ++ cs := by
  simp [text, append]

@[simp] theorem text_trim (out : Output) : out.trim.text = trimEnd out.text := by
  simp [text, trim, trimEnd, List.rdropWhile]

theorem padding_eq (out : Output) : out.padding = (out.text.rtakeWhile isPadding).length := by
  simp [padding, text, List.rtakeWhile]

end Output

theorem columnAfterText_of_notMem (column : UInt64) {cs : List Char} (h : '\n' ∉ cs) :
    columnAfterText column cs = column + .ofNat cs.length := by
  simp [columnAfterText, h]

/-- The modes of the named groups, after one more group. -/
def GroupModes.record (modes : GroupModes) (id : Option GroupId) (mode : Mode) : GroupModes :=
  match id with
  | some id => (id, mode) :: modes
  | none => modes

/-! ## Traces -/

namespace State

/-- What the next step writes. A line that breaks while suffixes wait writes nothing: it comes back
after them. -/
def writes (settings : Settings) (fuel : Nat) (st : State) : List Piece :=
  match st.commands with
  | ⟨_, _, .doc (.text s)⟩ :: _ => [.text s.toList]
  | ⟨indentation, mode, .doc (.line kind)⟩ :: _ =>
    if st.suffixes.isEmpty || (mode = .flat && !kind.isHard) then
      [linePiece indentation mode kind]
    else []
  | ⟨_, .broken, .doc (.group contents shouldBreak _)⟩ :: commands =>
    let st := { st with commands, remeasure := false }
    if !shouldBreak && st.fitsFlat settings fuel contents then [.fitted] else []
  | ⟨_, _, .doc .trim⟩ :: _ => [.trim]
  | _ => []

/-- What a run writes. -/
def trace (settings : Settings) : Nat → State → List Piece
  | 0, _ => []
  | fuel + 1, st =>
    if st.commands.isEmpty then []
    else st.writes settings (fuel + 2) ++ trace settings fuel (st.step settings (fuel + 2))

end State

/-- What the layout of a document writes. -/
def traceOf (settings : Settings) (d : Doc) : List Piece :=
  (State.start d.propagateBreaks).trace settings d.propagateBreaks.work

/-! ## Steps -/

namespace State

variable {settings : Settings} {fuel : Nat} {st : State}

/-- Prints one command. -/
def perform (settings : Settings) (fuel : Nat) (st : State) (c : Command) : State :=
  match c.item with
  | .fillRest parts => st.printFill settings fuel c.indentation c.mode parts
  | .doc d => st.printDoc settings fuel c.indentation c.mode d

/-- When nothing is left to print, the waiting suffixes follow. -/
def settle (st : State) : State := if st.commands.isEmpty then st.release else st

/-- A step takes the first command, prints it, and looks whether anything is left. -/
theorem step_eq {c : Command} {rest : List Command} (h : st.commands = c :: rest) :
    st.step settings fuel = ({ st with commands := rest }.perform settings fuel c).settle := by
  simp only [step, h]
  rfl

theorem run_of_commands_nil (h : st.commands = []) : st.run settings fuel = st := by
  cases fuel with
  | zero => rfl
  | succ fuel => rw [run, if_pos (by simp [h])]

/-- What every step keeps holds at the end of a run. -/
theorem run_keeps {P : State → Prop} (hstep : ∀ st fuel, P st → P (st.step settings fuel))
    (fuel : Nat) (h : P st) : P (st.run settings fuel) := by
  induction fuel generalizing st with
  | zero => exact h
  | succ fuel ih =>
    rw [run]
    split
    · exact h
    · exact ih (hstep st _ h)

/-- What every step keeps shows in all that a run writes. -/
theorem forall_mem_trace {P : State → Prop} {Q : Piece → Prop}
    (hstep : ∀ st fuel, st.commands ≠ [] → P st → P (st.step settings fuel))
    (hwrites : ∀ st fuel, st.commands ≠ [] → P st → ∀ p ∈ st.writes settings fuel, Q p)
    (fuel : Nat) (h : P st) : ∀ p ∈ st.trace settings fuel, Q p := by
  induction fuel generalizing st with
  | zero => exact List.forall_mem_nil _
  | succ fuel ih =>
    rw [trace]
    split
    · exact List.forall_mem_nil _
    · rename_i hc
      have hne : st.commands ≠ [] := by simpa using hc
      exact List.forall_mem_append.mpr ⟨hwrites st _ hne h, ih (hstep st _ hne h)⟩

theorem settle_of_suffixes_nil (h : st.suffixes = []) : st.settle = st := by
  cases st
  simp only at h
  simp [settle, release, h]

@[simp] theorem out_settle (st : State) : st.settle.out = st.out := by
  unfold settle
  split <;> rfl

@[simp] theorem out_push (st : State) (i : Indentation) (m : Mode) (d : Doc) :
    (st.push i m d).out = st.out := rfl

@[simp] theorem out_release (st : State) : st.release.out = st.out := rfl

theorem out_printFill (st : State) (i : Indentation) (m : Mode) (parts : List Doc) :
    (st.printFill settings fuel i m parts).out = st.out := by
  unfold printFill
  dsimp only
  split
  · rfl
  · split <;> rfl

/-- A group that is measured puts the layout it gets on the stack. -/
theorem printGroup_of_measured (settings : Settings) (fuel : Nat) {m : Mode}
    (h : (decide (m = .broken) || st.remeasure) = true) (i : Indentation) (contents : Doc)
    (states : Option (List Doc)) (shouldBreak : Bool) (id : Option GroupId) {layout : Mode × Doc}
    (hlayout : { st with remeasure := false }.chooseLayout settings fuel contents states
      shouldBreak = layout) :
    st.printGroup settings fuel i m contents states shouldBreak id =
      { st with remeasure := false, modes := st.modes.record id layout.1 }.push i layout.1
        layout.2 := by
  subst hlayout
  simp only [printGroup, h, if_true]
  cases id <;> rfl

/-- A group that is not measured puts its contents on the stack, flat if it does not have to
break. -/
theorem printGroup_of_not_measured (settings : Settings) (fuel : Nat) {m : Mode}
    (h : (decide (m = .broken) || st.remeasure) = false) (i : Indentation) (contents : Doc)
    (states : Option (List Doc)) (shouldBreak : Bool) (id : Option GroupId) :
    st.printGroup settings fuel i m contents states shouldBreak id =
      { st with modes := st.modes.record id (if shouldBreak then .broken else .flat) }.push i
        (if shouldBreak then .broken else .flat) contents := by
  simp only [printGroup, h, Bool.false_eq_true, if_false]
  cases id <;> rfl

theorem out_printGroup (st : State) (i : Indentation) (m : Mode) (contents : Doc)
    (states : Option (List Doc)) (shouldBreak : Bool) (id : Option GroupId) :
    (st.printGroup settings fuel i m contents states shouldBreak id).out = st.out := by
  cases h : decide (m = .broken) || st.remeasure with
  | true => rw [printGroup_of_measured settings fuel h i contents states shouldBreak id rfl, out_push]
  | false => rw [printGroup_of_not_measured settings fuel h, out_push]

theorem text_newline (st : State) (i : Indentation) (kind : LineKind) :
    (st.newline settings i kind).out.text =
      (breakPiece i kind).write settings.newline.toList st.out.text := by
  cases kind <;> simp [newline, breakPiece, Piece.write, trim]

/-- A line writes its piece, unless it breaks and suffixes wait. -/
theorem text_printLine (st : State) (i : Indentation) (m : Mode) (kind : LineKind) :
    (st.printLine settings i m kind).out.text =
      writeAll settings.newline.toList st.out.text
        (if st.suffixes.isEmpty || (m = .flat && !kind.isHard) then [linePiece i m kind]
        else []) := by
  have hbreak : ∀ st : State, (st.breakLine settings i m kind).out.text =
      writeAll settings.newline.toList st.out.text
        (if st.suffixes.isEmpty then [breakPiece i kind] else []) := by
    intro st
    unfold breakLine
    split <;> simp [text_newline]
  cases m <;> cases kind <;>
    simp [printLine, hbreak, linePiece, LineKind.isHard, Piece.write, LineKind.flatText]

theorem text_step (settings : Settings) (fuel : Nat) (st : State) :
    (st.step settings fuel).out.text =
      writeAll settings.newline.toList st.out.text (st.writes settings fuel) := by
  match hc : st.commands with
  | [] => simp [step, writes, hc]
  | ⟨i, m, .fillRest parts⟩ :: rest =>
    simp [step_eq hc, writes, hc, perform, out_printFill]
  | ⟨i, m, .doc d⟩ :: rest =>
    rw [step_eq hc, out_settle]
    cases d with
    | text s => simp [perform, printDoc, write, writes, hc, Piece.write]
    | line kind =>
      simp only [perform, printDoc, writes, hc]
      exact text_printLine { st with commands := rest } i m kind
    | trim => simp [perform, printDoc, trim, writes, hc, Piece.write]
    | group contents shouldBreak id =>
      simp only [perform, printDoc, out_printGroup, writes, hc]
      cases m with
      | flat => rfl
      | broken => dsimp only; split <;> rfl
    | conditionalGroup contents states shouldBreak id =>
      simp [perform, printDoc, out_printGroup, writes, hc]
    | fill parts => simp [perform, printDoc, out_printFill, writes, hc]
    | lineSuffixBoundary =>
      simp only [perform, printDoc, writes, hc]
      split <;> rfl
    | concat | indent | align | ifBreak | lineSuffix | breakParent | cursor =>
      simp [perform, printDoc, writes, hc]

/-- **A run writes its trace.** -/
theorem text_run (settings : Settings) (fuel : Nat) (st : State) :
    (st.run settings fuel).out.text =
      writeAll settings.newline.toList st.out.text (st.trace settings fuel) := by
  induction fuel generalizing st with
  | zero => rfl
  | succ fuel ih =>
    rw [run, trace]
    split
    · rfl
    · rw [ih, text_step, writeAll_append]

theorem formatted_finish (st : State) :
    st.finish.formatted = String.ofList (trimEnd st.out.text) := by
  rw [← Output.text_trim]
  rfl

end State

/-- **The layout of a document is the assembly of its trace.** -/
theorem formatted_eq_assemble (settings : Settings) (d : Doc) :
    (print settings d).formatted =
      String.ofList (assemble settings.newline.toList (traceOf settings d)) := by
  rw [print, State.formatted_finish, State.text_run]
  rfl

end Layout

end CodeFormatter
