import CodeFormatter.JavaScript
import CodeFormatter.CommandLine.Run
import Mathlib.Data.List.Basic
import Mathlib.Data.List.Pairwise
import Mathlib.Data.List.Count

/-!
# Files side by side

Several files may be processed at once. Each takes two steps, one in which it is read and formatted and one in
which the outcome is written or printed, and the steps of different files may come in any order. A *schedule* says
which file takes the next step. Failures, and the list of files that would change, are told when all are done.

**Theorem (`outcome_of_schedule`).** If the files that are written are different ones, the order of the steps makes
no difference. A file that could be formatted holds its formatted text after `write`, and every other file is as it
was, byte for byte. The command fails if a file failed, or if one would change and that was the question.

Two names of one file do not make two files. If both are given, the second read may come before the first write or
after it, and where formatting is not idempotent the file ends up with different contents
(`not_outcome_of_two_names`).

A file is read before or after others have been written, so the proof has to tell what a write leaves alone:
the contents of all other paths, and which paths there are (`read_congr`). `Sound` says this of a state on the way,
`Sound.advance` of one step and `Sound.run` of a schedule.
-/

namespace CodeFormatter.CommandLine

/-! ## Reading what others write -/

namespace Contents

variable {contents : Contents} {text : String}

/-- A file holds a text if it holds the bytes of the text. -/
theorem text?_eq_some_iff : contents.text? = some text ↔ contents = ofText text := by
  constructor
  · intro h
    unfold text? String.fromUTF8? at h
    split at h
    · rw [← Option.some.inj h]
      rfl
    · cases h
  · rintro rfl
    exact dif_pos text.isValidUTF8

theorem ofText_inj {text' : String} (h : ofText text = ofText text') : text = text' := by
  have htext := text?_eq_some_iff.mpr h
  rw [text?_eq_some_iff.mpr rfl] at htext
  exact Option.some.inj htext

end Contents

namespace Files

variable {files files' : Files} {a b path text : String}

theorem samePath_iff : samePath a b = true ↔ location a = location b := by
  simp [samePath]

theorem samePath_refl (a : String) : samePath a a = true := samePath_iff.mpr rfl

theorem samePath_comm (a b : String) : samePath a b = samePath b a := by
  rw [Bool.eq_iff_iff, samePath_iff, samePath_iff]
  exact eq_comm

/-- Two names of one file are the same to all other paths. -/
theorem samePath_congr (h : samePath a b = true) (path : String) :
    samePath path a = samePath path b := by
  rw [samePath, samePath, samePath_iff.mp h]

theorem get?_congr (h : samePath a b = true) : files.get? a = files.get? b := by
  have hsame : (fun e : String × Contents => samePath e.1 a) = fun e => samePath e.1 b :=
    funext fun e => samePath_congr h e.1
  exact congrArg (fun test => (files.entries.find? test).map (·.2)) hsame

/-- A write changes the file at the path and no other one. -/
theorem get?_write (files : Files) (path : String) (contents : Contents) (a : String) :
    (files.write path contents).get? a =
      if samePath a path then (files.get? a).map fun _ => contents else files.get? a := by
  have hget : ∀ files : Files,
      files.get? a = (files.entries.find? fun e => samePath e.1 a).map (·.2) := fun _ => rfl
  have hfind : ((files.write path contents).entries.find? fun e => samePath e.1 a) =
      (files.entries.find? fun e => samePath e.1 a).map
        fun e => (e.1, if samePath e.1 path then contents else e.2) := List.find?_map
  rw [hget, hget, hfind]
  cases h : files.entries.find? fun e => samePath e.1 a with
  | none => simp
  | some e =>
    have hsame : samePath e.1 a = true := by simpa using List.find?_some h
    have hpath : samePath e.1 path = samePath a path := by
      rw [samePath_comm, samePath_congr hsame, samePath_comm]
    simp only [Option.map_some, hpath]
    split <;> rfl

theorem paths_write (files : Files) (path : String) (contents : Contents) :
    (files.write path contents).entries.map (·.1) = files.entries.map (·.1) := by
  rw [write, List.map_map]
  rfl

/-- The paths tell which files and directories there are, and so where a path leads. -/
theorem follow_congr (hpaths : files'.entries.map (·.1) = files.entries.map (·.1)) (l : Location)
    (names : List (List Char)) :
    files'.isDirectory l = files.isDirectory l ∧ files'.follow l names = files.follow l names := by
  have hany : ∀ test : String → Bool,
      files'.entries.any (fun e => test e.1) = files.entries.any fun e => test e.1 := by
    intro test
    have h := congrArg (List.any · test) hpaths
    simpa only [List.any_map, Function.comp_def] using h
  have hfile : ∀ l, files'.isFile l = files.isFile l := fun l => hany fun p => location p == l
  have hdirectory : ∀ l, files'.isDirectory l = files.isDirectory l := fun l =>
    congrArg (l.isOutside || ·) (hany fun p => ((start p).passed (Files.names p)).contains l)
  refine ⟨hdirectory l, ?_⟩
  induction names generalizing l with
  | nil => rfl
  | cons name names ih => rw [follow, follow, hdirectory, hfile, ih]

/-- What is read at a path depends on its contents, and on which paths there are. -/
theorem read_congr (hget : files'.get? path = files.get? path)
    (hpaths : files'.entries.map (·.1) = files.entries.map (·.1)) :
    files'.read path = files.read path := by
  unfold read
  rw [hget, (follow_congr hpaths (start path) (names path)).2]
  simp only [(follow_congr hpaths _ []).1]

/-- What has been read is stored. -/
theorem get?_of_read (h : files.read path = .ok text) : files.get? path = some (.ofText text) := by
  unfold read at h
  split at h
  · cases h
  · split at h
    · cases h
    · split at h
      · rename_i contents hget
        cases htext : contents.text? with
        | none =>
          rw [htext] at h
          cases h
        | some read =>
          rw [htext] at h
          obtain rfl : read = text := Except.ok.inj h
          rw [hget, Contents.text?_eq_some_iff.mp htext]
      · cases h

end Files

/-! ## Schedules -/

/-- What is to be done with some files. -/
structure Job where
  formatter : Formatter
  options : Options
  mode : Mode
  debugCheck : Bool

/-- How far the processing of a file has come. -/
inductive Stage where
  | waiting
  /-- It has been read and formatted. -/
  | formatted (result : Except Failure Formatting)
  /-- What came of it has been written or printed. -/
  | settled (result : Except Failure Formatting)

/-- The number of steps that have been taken. -/
def Stage.steps : Stage → Nat
  | .waiting => 0
  | .formatted _ => 1
  | .settled _ => 2

structure Task where
  path : String
  stage : Stage

/-- Files on the way. -/
structure Processing where
  files : Files
  tasks : List Task
  stdout : String
  stderr : String

/-- All files wait. -/
def Processing.start (files : Files) (paths : List String) : Processing :=
  { files, tasks := paths.map (⟨·, .waiting⟩), stdout := "", stderr := "" }

/-- What came of a file that is done. -/
def Task.report? : Task → Option Report
  | ⟨path, .settled result⟩ => some ⟨path, result⟩
  | _ => none

/-- What came of the files that are done, in the order of their paths. -/
def Processing.reports (p : Processing) : List Report := p.tasks.filterMap Task.report?

namespace Job

/-- What comes of a file if nothing has been written before. -/
def result (job : Job) (files : Files) (path : String) : Except Failure Formatting :=
  formatFile job.formatter job.options job.debugCheck files path

/-- Is there a formatted text, and is it not what the file holds? -/
def differs (job : Job) (files : Files) (path : String) : Bool :=
  match job.result files path with
  | .ok r => files.get? path != some (.ofText r.formatted)
  | .error _ => false

/-- One step of the file `i`. -/
def advance (job : Job) (p : Processing) (i : Nat) : Processing :=
  match p.tasks[i]? with
  | some ⟨path, .waiting⟩ =>
    { p with tasks := p.tasks.set i ⟨path, .formatted (job.result p.files path)⟩ }
  | some ⟨path, .formatted result⟩ =>
    let report : Report := ⟨path, result⟩
    { files := settle job.mode p.files report
      tasks := p.tasks.set i ⟨path, .settled result⟩
      stdout := p.stdout ++ (if job.mode = .check then "" else report.output job.mode)
      stderr := p.stderr ++ report.note job.mode }
  | _ => p

/-- The steps of a schedule, one after the other. -/
def run (job : Job) (p : Processing) (schedule : List Nat) : Processing :=
  schedule.foldl job.advance p

/-- What is left behind when all files are done. -/
def outcome (job : Job) (p : Processing) : Outcome :=
  { code := if p.reports.any (·.fails job.mode) then 1 else 0
    stdout := p.stdout ++
      (if job.mode = .check then String.join (p.reports.map (·.output job.mode)) else "")
    stderr := p.stderr ++ String.join (p.reports.map (·.complaint))
    files := p.files }

/-- The command that asks for the job. -/
def command (job : Job) (paths : List String) : Command :=
  .format paths (job.mode == .write) (job.mode == .check) job.debugCheck job.options

end Job

/-! ## One file after the other -/

/-- The schedule of `n` files from the file `i` on, each of which takes its steps at once. -/
def inOrder (i n : Nat) : List Nat := (List.range' i n).flatMap fun i => [i, i]

theorem two_le_count_inOrder {i n : Nat} (h : i < n) : 2 ≤ (inOrder 0 n).count i := by
  have hmem : i ∈ List.range' 0 n := by simpa using h
  obtain ⟨before, after, heq⟩ := List.append_of_mem hmem
  rw [inOrder, heq, List.flatMap_append, List.flatMap_cons, List.count_append, List.count_append]
  simp only [List.count_cons_self, List.count_nil]
  omega

namespace Job

variable (job : Job)

theorem run_inOrder (paths : List String) (files : Files) (done : List Task) (out err : String) :
    let processed := processAll job.formatter job.options job.mode job.debugCheck files paths
    job.run ⟨files, done ++ paths.map (⟨·, .waiting⟩), out, err⟩ (inOrder done.length paths.length) =
      ⟨processed.2, done ++ processed.1.map fun report => ⟨report.path, .settled report.result⟩,
        out ++ String.join (processed.1.map fun report =>
          if job.mode = .check then "" else report.output job.mode),
        err ++ String.join (processed.1.map (·.note job.mode))⟩ := by
  induction paths generalizing files done out err with
  | nil => simp [run, inOrder, processAll]
  | cons path rest ih =>
    have hread : job.advance ⟨files, done ++ ⟨path, .waiting⟩ :: rest.map (⟨·, .waiting⟩), out, err⟩
        done.length = ⟨files, done ++ ⟨path, .formatted (job.result files path)⟩ ::
          rest.map (⟨·, .waiting⟩), out, err⟩ := by
      simp [advance]
    have hsettle : job.advance ⟨files, done ++ ⟨path, .formatted (job.result files path)⟩ ::
          rest.map (⟨·, .waiting⟩), out, err⟩ done.length =
        ⟨settle job.mode files ⟨path, job.result files path⟩,
          (done ++ [⟨path, .settled (job.result files path)⟩]) ++ rest.map (⟨·, .waiting⟩),
          out ++ (if job.mode = .check then "" else
            Report.output job.mode ⟨path, job.result files path⟩),
          err ++ Report.note job.mode ⟨path, job.result files path⟩⟩ := by
      simp [advance]
    have hschedule : inOrder done.length (rest.length + 1) =
        done.length :: done.length :: inOrder (done.length + 1) rest.length := by
      rw [inOrder, List.range'_succ]
      rfl
    have hrest := ih (settle job.mode files ⟨path, job.result files path⟩)
      (done ++ [⟨path, .settled (job.result files path)⟩])
      (out ++ (if job.mode = .check then "" else
        Report.output job.mode ⟨path, job.result files path⟩))
      (err ++ Report.note job.mode ⟨path, job.result files path⟩)
    rw [List.length_append, List.length_singleton] at hrest
    rw [List.map_cons, List.length_cons, hschedule, run, List.foldl_cons, hread, List.foldl_cons,
      hsettle]
    refine hrest.trans ?_
    simp only [processAll, List.map_cons, String.join_cons, String.append_assoc, List.append_assoc,
      List.singleton_append]
    rfl

/-- The program takes the files one after the other. -/
theorem run_command (input : String) (files : Files) {paths : List String} (hne : paths ≠ []) :
    (job.command paths).run job.formatter input files =
      job.outcome (job.run (.start files paths) (inOrder 0 paths.length)) := by
  have hrun := run_inOrder job paths files [] "" ""
  rw [List.nil_append, List.length_nil] at hrun
  have hreports : ∀ reports : List Report, (reports.map fun report =>
      (⟨report.path, .settled report.result⟩ : Task)).filterMap Task.report? = reports := by
    intro reports
    rw [List.filterMap_map]
    exact List.filterMap_some
  have hmode : (job.command paths).run job.formatter input files =
      formatFiles job.formatter files paths job.mode job.debugCheck job.options := by
    rw [command, Command.run, runFormat]
    cases job.mode <;> simp [hne]
  have hnothing : ∀ reports : List Report, String.join (reports.map fun _ => "") = "" := by
    intro reports
    induction reports with
    | nil => rfl
    | cons _ rest ih => rw [List.map_cons, String.join_cons, ih, String.empty_append]
  rw [hmode, Processing.start, hrun, formatFiles, outcome, Processing.reports]
  simp only [List.nil_append, hreports, String.empty_append]
  by_cases hcheck : job.mode = .check
  · simp only [hcheck, if_true, hnothing, String.empty_append]
  · simp only [hcheck, if_false, String.append_empty]

/-! ## Any order -/

variable {job : Job} {files : Files} {paths : List String} {p : Processing}

/-- A state that some steps have led to. What has been read was as in the beginning, what is done has been written,
and the rest is as it was. -/
structure Sound (job : Job) (files : Files) (paths : List String) (p : Processing) : Prop where
  paths : p.tasks.map Task.path = paths
  results : ∀ t ∈ p.tasks, ∀ result, t.stage = .formatted result ∨ t.stage = .settled result →
    result = job.result files t.path
  names : p.files.entries.map (·.1) = files.entries.map (·.1)
  kept : ∀ path, (job.mode = .write → ∀ t ∈ p.tasks, ∀ r, t.stage = .settled (.ok r) →
    Files.samePath path t.path = false) → p.files.get? path = files.get? path
  written : job.mode = .write → ∀ t ∈ p.tasks, ∀ r, t.stage = .settled (.ok r) →
    p.files.get? t.path = some (.ofText r.formatted)
  silent : job.mode = .check → p.stdout = ""

theorem result_congr {files' : Files} {path : String} (h : files'.read path = files.read path) :
    job.result files' path = job.result files path := by
  rw [result, result, formatFile, formatFile, readFile, readFile, h]

/-- A file that could be formatted has contents, and the formatted text may differ from them. -/
theorem exists_contents {path : String} {r : Formatting} (h : job.result files path = .ok r) :
    ∃ text, files.get? path = some (.ofText text) ∧ r.changed = (r.formatted != text) := by
  unfold result formatFile readFile at h
  cases hread : files.read path with
  | error e =>
    rw [hread] at h
    cases h
  | ok text =>
    refine ⟨text, Files.get?_of_read hread, ?_⟩
    simp only [hread, bind, Except.bind] at h
    split at h
    · cases h
      rfl
    · cases h

theorem sound_start (job : Job) (files : Files) (paths : List String) :
    Sound job files paths (.start files paths) := by
  have hwaiting : ∀ t ∈ (Processing.start files paths).tasks, t.stage = .waiting := by
    intro t ht
    obtain ⟨path, -, rfl⟩ := List.mem_map.mp ht
    rfl
  refine ⟨?_, fun t ht r hr => ?_, rfl, fun _ _ => rfl, fun _ t ht r hr => ?_, fun _ => rfl⟩
  · rw [Processing.start, List.map_map]
    exact List.map_id _
  · rw [hwaiting t ht] at hr
    simp at hr
  · rw [hwaiting t ht] at hr
    cases hr

/-- Files at different stages are different files. -/
theorem Sound.not_samePath (h : Sound job files paths p)
    (hdistinct : paths.Pairwise fun a b => Files.samePath a b = false) {t u : Task}
    (ht : t ∈ p.tasks) (hu : u ∈ p.tasks) (hne : t.stage ≠ u.stage) :
    Files.samePath t.path u.path = false := by
  rw [← h.paths, List.pairwise_map] at hdistinct
  have : Std.Symm fun t u : Task => Files.samePath t.path u.path = false :=
    ⟨fun t u htu => by rwa [Files.samePath_comm]⟩
  exact hdistinct.forall ht hu fun heq => hne (congrArg Task.stage heq)

variable (hdistinct : job.mode = .write → paths.Pairwise fun a b => Files.samePath a b = false)

include hdistinct in
/-- A file that has not been written is as it was. -/
theorem Sound.get?_of_not_settled (h : Sound job files paths p) {t : Task}
    (ht : t ∈ p.tasks) (hstage : ∀ result, t.stage ≠ .settled result) :
    p.files.get? t.path = files.get? t.path := by
  refine h.kept t.path fun hwrite u hu r hr => ?_
  exact h.not_samePath (hdistinct hwrite) ht hu (hr ▸ hstage _)

/-- A file that goes on to another stage keeps its path, and all other files stay at theirs. -/
theorem map_path_set {tasks : List Task} {i : Nat} {path : String} {s : Stage}
    (h : tasks[i]? = some ⟨path, s⟩) (s' : Stage) :
    (tasks.set i ⟨path, s'⟩).map Task.path = tasks.map Task.path := by
  refine List.ext_getElem? fun j => ?_
  rw [List.getElem?_map, List.getElem?_map, List.getElem?_set]
  split
  · rename_i hij
    subst hij
    rw [if_pos (List.getElem?_eq_some_iff.mp h).1, h]
    rfl
  · rfl

theorem mem_set_of_ne {tasks : List Task} {i : Nat} {t u : Task} (ht : t ∈ tasks)
    (hu : tasks[i]? = some u) (hne : t.stage ≠ u.stage) (v : Task) : t ∈ tasks.set i v := by
  obtain ⟨j, hj⟩ := List.mem_iff_getElem?.mp ht
  refine List.mem_iff_getElem?.mpr ⟨j, ?_⟩
  rw [List.getElem?_set_ne, hj]
  rintro rfl
  rw [hu] at hj
  exact hne (congrArg Task.stage (Option.some.inj hj).symm)

include hdistinct in
/-- The next file is read. -/
theorem Sound.read (h : Sound job files paths p) {i : Nat} {path : String}
    (hi : p.tasks[i]? = some ⟨path, .waiting⟩) :
    Sound job files paths
      { p with tasks := p.tasks.set i ⟨path, .formatted (job.result p.files path)⟩ } := by
  have hmem : (⟨path, .waiting⟩ : Task) ∈ p.tasks := List.mem_of_getElem? hi
  have hget := h.get?_of_not_settled hdistinct hmem fun _ hstage => by cases hstage
  have hresult : job.result p.files path = job.result files path :=
    result_congr (Files.read_congr hget h.names)
  rw [hresult]
  -- Nothing else is settled than before.
  have hsettled : ∀ t result, t.stage = .settled result →
      (t ∈ p.tasks.set i ⟨path, .formatted (job.result files path)⟩ ↔ t ∈ p.tasks) := by
    intro t result hstage
    refine ⟨fun ht => ?_, fun ht => mem_set_of_ne ht hi (by simp [hstage]) _⟩
    rcases List.mem_or_eq_of_mem_set ht with ht | heq
    · exact ht
    · rw [heq] at hstage
      cases hstage
  refine ⟨(map_path_set hi _).trans h.paths, fun t ht result hstage => ?_, h.names, fun q hq => ?_,
    fun hwrite t ht r hr => ?_, h.silent⟩
  · rcases List.mem_or_eq_of_mem_set ht with ht | heq
    · exact h.results t ht result hstage
    · rw [heq] at hstage ⊢
      rcases hstage with hstage | hstage
      · exact (Stage.formatted.inj hstage).symm
      · cases hstage
  · exact h.kept q fun hwrite t ht r hr => hq hwrite t ((hsettled t _ hr).mpr ht) r hr
  · exact h.written hwrite t ((hsettled t _ hr).mp ht) r hr

/-- What settling a file leaves alone. -/
theorem get?_settle (mode : Mode) (files : Files) {path other : String}
    {result : Except Failure Formatting}
    (h : mode = .write → ∀ r, result = .ok r → Files.samePath other path = false) :
    (settle mode files ⟨path, result⟩).get? other = files.get? other := by
  unfold settle
  split
  · rename_i r hresult
    split
    · rw [Files.get?_write, h rfl r hresult, if_neg Bool.false_ne_true]
    · rfl
  · rfl

theorem paths_settle (mode : Mode) (files : Files) (report : Report) :
    (settle mode files report).entries.map (·.1) = files.entries.map (·.1) := by
  unfold settle
  split
  · split
    · exact Files.paths_write ..
    · rfl
  · rfl

/-- What a file holds that has been written. A text that does not differ need not be written. -/
theorem get?_settle_self {path text : String} {r : Formatting}
    (hget : files.get? path = some (.ofText text)) (hchanged : r.changed = (r.formatted != text)) :
    (settle .write files ⟨path, .ok r⟩).get? path = some (.ofText r.formatted) := by
  unfold settle
  dsimp only
  split <;> rename_i h
  · rw [Files.get?_write, Files.samePath_refl, if_pos rfl, hget, Option.map_some]
  · have heq : r.formatted = text := by simpa [hchanged] using h
    rw [hget, heq]

include hdistinct in
/-- A file that has been read is settled. -/
theorem Sound.settle (h : Sound job files paths p) {i : Nat} {path : String} {result : Except Failure Formatting}
    (hi : p.tasks[i]? = some ⟨path, .formatted result⟩) (stderr : String) :
    Sound job files paths
      { files := CommandLine.settle job.mode p.files ⟨path, result⟩
        tasks := p.tasks.set i ⟨path, .settled result⟩
        stdout := p.stdout ++ (if job.mode = .check then "" else
          Report.output job.mode ⟨path, result⟩)
        stderr } := by
  have hmem : (⟨path, .formatted result⟩ : Task) ∈ p.tasks := List.mem_of_getElem? hi
  have hresult : result = job.result files path := h.results _ hmem result (.inl rfl)
  have hget := h.get?_of_not_settled hdistinct hmem fun _ hstage => by cases hstage
  have hset : ∀ t ∈ p.tasks.set i ⟨path, .settled result⟩,
      t ∈ p.tasks ∨ t = ⟨path, .settled result⟩ := fun t ht => List.mem_or_eq_of_mem_set ht
  refine ⟨(map_path_set hi _).trans h.paths, fun t ht r hstage => ?_,
    (paths_settle ..).trans h.names, fun q hq => ?_, fun hwrite t ht r hr => ?_, fun hcheck => ?_⟩
  · rcases hset t ht with ht | heq
    · exact h.results t ht r hstage
    · rw [heq] at hstage ⊢
      rcases hstage with hstage | hstage
      · cases hstage
      · rw [← Stage.settled.inj hstage]
        exact hresult
  · refine (get?_settle _ _ fun hwrite r hr => ?_).trans (h.kept q fun hwrite t ht r hr => ?_)
    · have hnew : (⟨path, .settled result⟩ : Task) ∈ p.tasks.set i ⟨path, .settled result⟩ :=
        List.mem_set (List.getElem?_eq_some_iff.mp hi).1 _
      have hother := hq hwrite _ hnew r (congrArg Stage.settled hr)
      exact hother
    · exact hq hwrite t (mem_set_of_ne ht hi (by simp [hr]) _) r hr
  · rcases hset t ht with ht | heq
    · have hother := h.not_samePath (hdistinct hwrite) ht hmem (by simp [hr])
      rw [get?_settle _ _ fun _ _ _ => hother]
      exact h.written hwrite t ht r hr
    · rw [heq] at hr ⊢
      have hok : result = .ok r := Stage.settled.inj hr
      obtain ⟨text, hcontents, hchanged⟩ := exists_contents (hresult.symm.trans hok)
      rw [hwrite, hok]
      exact get?_settle_self (hget.trans hcontents) hchanged
  · rw [if_pos hcheck, h.silent hcheck]
    rfl

include hdistinct in
/-- **One step.** -/
theorem Sound.advance (h : Sound job files paths p) (i : Nat) :
    Sound job files paths (job.advance p i) := by
  unfold Job.advance
  split
  · exact h.read hdistinct ‹_›
  · exact h.settle hdistinct ‹_› _
  · exact h

include hdistinct in
/-- **Any steps, in any order.** -/
theorem Sound.run (h : Sound job files paths p) (schedule : List Nat) :
    Sound job files paths (job.run p schedule) := by
  induction schedule generalizing p with
  | nil => exact h
  | cons i rest ih => exact ih (h.advance hdistinct i)

/-! ## All files done -/

/-- A step of a file brings it further, and no other one. -/
theorem exists_task_advance (job : Job) {p : Processing} {i : Nat} {t : Task}
    (h : p.tasks[i]? = some t) (j : Nat) : ∃ t', (job.advance p j).tasks[i]? = some t' ∧
      t'.stage.steps = min 2 (t.stage.steps + if j = i then 1 else 0) := by
  have hle : t.stage.steps ≤ 2 := by
    cases t.stage <;> simp [Stage.steps]
  by_cases hj : j = i
  · subst hj
    have hlt := (List.getElem?_eq_some_iff.mp h).1
    obtain ⟨path, stage⟩ := t
    cases stage with
    | waiting =>
      refine ⟨⟨path, .formatted (job.result p.files path)⟩, ?_, by simp [Stage.steps]⟩
      simp only [Job.advance, h, List.getElem?_set_self hlt]
    | formatted result =>
      refine ⟨⟨path, .settled result⟩, ?_, by simp [Stage.steps]⟩
      simp only [Job.advance, h, List.getElem?_set_self hlt]
    | settled result =>
      exact ⟨⟨path, .settled result⟩, by simp only [Job.advance, h], by simp [Stage.steps]⟩
  · refine ⟨t, ?_, by rw [if_neg hj]; omega⟩
    unfold Job.advance
    split
    · exact (List.getElem?_set_ne hj).trans h
    · exact (List.getElem?_set_ne hj).trans h
    · exact h

/-- A file has taken the steps that the schedule gives it, and no more than two. -/
theorem exists_task_run (job : Job) {p : Processing} {i : Nat} {t : Task}
    (h : p.tasks[i]? = some t) (schedule : List Nat) :
    ∃ t', (job.run p schedule).tasks[i]? = some t' ∧
      t'.stage.steps = min 2 (t.stage.steps + schedule.count i) := by
  induction schedule generalizing p t with
  | nil =>
    refine ⟨t, h, ?_⟩
    cases t.stage <;> simp [Stage.steps]
  | cons j rest ih =>
    obtain ⟨t', ht', hsteps⟩ := exists_task_advance job h j
    obtain ⟨t'', ht'', hsteps'⟩ := ih ht'
    refine ⟨t'', ht'', ?_⟩
    rw [hsteps', hsteps, List.count_cons]
    simp only [beq_iff_eq]
    omega

section

variable {schedule : List Nat} (hschedule : ∀ i < paths.length, 2 ≤ schedule.count i)

include hdistinct hschedule

/-- When every file has taken its steps, all are settled. -/
theorem stage_of_mem_run {t : Task} (ht : t ∈ (job.run (.start files paths) schedule).tasks) :
    t.stage = .settled (job.result files t.path) := by
  have hsound := (sound_start job files paths).run hdistinct schedule
  obtain ⟨i, hi⟩ := List.mem_iff_getElem?.mp ht
  have hlt : i < paths.length := by
    have hpath := congrArg (·[i]?) hsound.paths
    simp only [List.getElem?_map, hi, Option.map_some] at hpath
    exact (List.getElem?_eq_some_iff.mp hpath.symm).1
  have hstart : (Processing.start files paths).tasks[i]? = some ⟨paths[i], .waiting⟩ := by
    simp [Processing.start, hlt]
  obtain ⟨t', ht', hsteps⟩ := exists_task_run job hstart schedule
  obtain rfl : t = t' := Option.some.inj (hi.symm.trans ht')
  have htwo : t.stage.steps = 2 := by
    have hcount := hschedule i hlt
    simp only [Stage.steps] at hsteps ⊢
    omega
  cases hstage : t.stage with
  | settled result => rw [hsound.results t ht result (.inr hstage)]
  | waiting | formatted =>
    rw [hstage] at htwo
    cases htwo

theorem exists_task_of_mem {path : String} (hpath : path ∈ paths) :
    ∃ t ∈ (job.run (.start files paths) schedule).tasks, t.path = path ∧
      t.stage = .settled (job.result files path) := by
  rw [← ((sound_start job files paths).run hdistinct schedule).paths] at hpath
  obtain ⟨t, ht, rfl⟩ := List.mem_map.mp hpath
  exact ⟨t, ht, rfl, stage_of_mem_run hdistinct hschedule ht⟩

/-- There is a report of each file, in the order of their paths. -/
theorem reports_run : (job.run (.start files paths) schedule).reports =
    paths.map fun path => ⟨path, job.result files path⟩ := by
  have hreport : ∀ t ∈ (job.run (.start files paths) schedule).tasks,
      t.report? = some ⟨t.path, job.result files t.path⟩ := by
    intro t ht
    have hstage := stage_of_mem_run hdistinct hschedule ht
    obtain ⟨path, stage⟩ := t
    dsimp only at hstage
    rw [hstage]
    rfl
  calc (job.run (.start files paths) schedule).reports
      = (job.run (.start files paths) schedule).tasks.map
          fun t => ⟨t.path, job.result files t.path⟩ :=
        List.filterMap_eq_map_iff_forall_eq_some.mpr hreport
    _ = ((job.run (.start files paths) schedule).tasks.map Task.path).map
          fun path => ⟨path, job.result files path⟩ := by rw [List.map_map]; rfl
    _ = paths.map fun path => ⟨path, job.result files path⟩ := by
        rw [((sound_start job files paths).run hdistinct schedule).paths]

/-- A file that could be formatted holds its formatted text. -/
theorem get?_run_of_ok (hwrite : job.mode = .write) {path other : String} (hpath : path ∈ paths)
    {r : Formatting} (hr : job.result files path = .ok r) (hsame : Files.samePath other path = true) :
    (job.run (.start files paths) schedule).files.get? other = some (.ofText r.formatted) := by
  obtain ⟨t, ht, rfl, hstage⟩ := exists_task_of_mem hdistinct hschedule hpath
  rw [Files.get?_congr hsame]
  exact ((sound_start job files paths).run hdistinct schedule).written hwrite t ht r
    (hr ▸ hstage)

omit hschedule in
/-- All other files are as they were. -/
theorem get?_run_of_other {other : String} (h : job.mode = .write → ∀ path ∈ paths, ∀ r,
      job.result files path = .ok r → Files.samePath other path = false) :
    (job.run (.start files paths) schedule).files.get? other = files.get? other := by
  have hsound := (sound_start job files paths).run hdistinct schedule
  refine hsound.kept other fun hwrite t ht r hr => ?_
  have hpath : t.path ∈ paths := hsound.paths ▸ List.mem_map_of_mem ht
  exact h hwrite t.path hpath r (hsound.results t ht _ (.inr hr)).symm

/-- Two schedules lead to the same files. -/
theorem get?_run_congr {schedule' : List Nat} (hschedule' : ∀ i < paths.length, 2 ≤ schedule'.count i)
    (other : String) : (job.run (.start files paths) schedule').files.get? other =
      (job.run (.start files paths) schedule).files.get? other := by
  by_cases h : ∃ path ∈ paths, ∃ r, job.result files path = .ok r ∧ job.mode = .write ∧
      Files.samePath other path = true
  · obtain ⟨path, hpath, r, hr, hwrite, hother⟩ := h
    exact (get?_run_of_ok hdistinct hschedule' hwrite hpath hr hother).trans
      (get?_run_of_ok hdistinct hschedule hwrite hpath hr hother).symm
  · have hother : job.mode = .write → ∀ path ∈ paths, ∀ r,
        job.result files path = .ok r → Files.samePath other path = false :=
      fun hwrite path hpath r hr => Bool.eq_false_iff.mpr fun hsame => h ⟨path, hpath, r, hr, hwrite, hsame⟩
    exact (get?_run_of_other hdistinct hother).trans (get?_run_of_other hdistinct hother).symm

end

/-! ## What is told in the end -/

theorem differs_of_result {path : String} {r : Formatting} (h : job.result files path = .ok r) :
    job.differs files path = r.changed := by
  obtain ⟨text, hget, hchanged⟩ := exists_contents h
  unfold differs
  rw [h, hget, hchanged, Bool.eq_iff_iff, bne_iff_ne, bne_iff_ne, ne_eq, Option.some.injEq]
  exact not_congr ⟨fun heq => (Contents.ofText_inj heq).symm, fun heq => heq ▸ rfl⟩

theorem fails_iff (job : Job) (files : Files) (path : String) :
    Report.fails job.mode ⟨path, job.result files path⟩ = true ↔
      (∃ e, job.result files path = .error e) ∨
        (job.mode = .check ∧ job.differs files path = true) := by
  unfold Report.fails
  cases h : job.result files path with
  | error e => simp
  | ok r => simp [differs_of_result h]

theorem output_check (job : Job) (files : Files) (path : String) :
    Report.output .check ⟨path, job.result files path⟩ =
      if job.differs files path then path ++ "\n" else "" := by
  unfold Report.output
  cases h : job.result files path with
  | error e =>
    have hsame : job.differs files path = false := by rw [differs, h]
    rw [hsame]
    rfl
  | ok r => rw [differs_of_result h]

/-- The paths for which the test holds are listed in their order. -/
theorem join_map_ite (test : String → Bool) (paths : List String) :
    String.join (paths.map fun path => if test path then path ++ "\n" else "") =
      String.join ((paths.filter test).map (· ++ "\n")) := by
  induction paths with
  | nil => rfl
  | cons path rest ih =>
    rw [List.map_cons, String.join_cons, ih, List.filter_cons]
    split
    · rw [List.map_cons, String.join_cons]
    · rw [String.empty_append]

section

variable {schedule : List Nat} (hschedule : ∀ i < paths.length, 2 ≤ schedule.count i)

include hdistinct hschedule

/-- The files that would change are listed in the order of their paths. -/
theorem stdout_outcome (hcheck : job.mode = .check) :
    (job.outcome (job.run (.start files paths) schedule)).stdout =
      String.join ((paths.filter (job.differs files)).map (· ++ "\n")) := by
  have hsilent := ((sound_start job files paths).run hdistinct schedule).silent hcheck
  have hlist : (job.outcome (job.run (.start files paths) schedule)).stdout =
      "" ++ String.join ((paths.map fun path =>
        (⟨path, job.result files path⟩ : Report)).map (Report.output .check)) := by
    simp only [outcome, hsilent, hcheck, if_true, reports_run hdistinct hschedule]
  rw [hlist, String.empty_append, List.map_map, ← join_map_ite]
  exact congrArg String.join (List.map_congr_left fun path _ => output_check job files path)

theorem code_outcome_iff : (job.outcome (job.run (.start files paths) schedule)).code = 1 ↔
    ∃ path ∈ paths, (∃ e, job.result files path = .error e) ∨
      (job.mode = .check ∧ job.differs files path = true) := by
  have hcode : (job.outcome (job.run (.start files paths) schedule)).code = 1 ↔
      (job.run (.start files paths) schedule).reports.any (·.fails job.mode) = true := by
    simp [outcome]
  rw [hcode, reports_run hdistinct hschedule, List.any_map, List.any_eq_true]
  exact exists_congr fun path => and_congr_right fun _ => fails_iff job files path

end

end Job

/-- **The order of the steps makes no difference.** Files that are written must be different ones: `a` and `./a` are
two names of one file (`not_outcome_of_two_names`). -/
theorem outcome_of_schedule (job : Job) (input : String) (files : Files) {paths : List String}
    {schedule : List Nat} (hne : paths ≠ [])
    (hdistinct : job.mode = .write → paths.Pairwise fun a b => Files.samePath a b = false)
    (hschedule : ∀ i < paths.length, 2 ≤ schedule.count i) :
    let outcome := job.outcome (job.run (.start files paths) schedule)
    let program := (job.command paths).run job.formatter input files
    (job.mode = .write → ∀ path ∈ paths, ∀ r, job.result files path = .ok r →
        outcome.files.get? path = some (.ofText r.formatted)) ∧
      (∀ other, (job.mode = .write → ∀ path ∈ paths, ∀ r, job.result files path = .ok r →
        Files.samePath other path = false) → outcome.files.get? other = files.get? other) ∧
      (job.mode = .check →
        outcome.stdout = String.join ((paths.filter (job.differs files)).map (· ++ "\n"))) ∧
      (outcome.code = 1 ↔ ∃ path ∈ paths, (∃ e, job.result files path = .error e) ∨
        (job.mode = .check ∧ job.differs files path = true)) ∧
      (∀ other, program.files.get? other = outcome.files.get? other) ∧
      program.code = outcome.code ∧ (job.mode = .check → program.stdout = outcome.stdout) := by
  intro outcome program
  have hinOrder : ∀ i < paths.length, 2 ≤ (inOrder 0 paths.length).count i :=
    fun i hi => two_le_count_inOrder hi
  have hprogram : program = job.outcome (job.run (.start files paths) (inOrder 0 paths.length)) :=
    Job.run_command job input files hne
  have hreports : (job.run (.start files paths) (inOrder 0 paths.length)).reports =
      (job.run (.start files paths) schedule).reports :=
    (Job.reports_run hdistinct hinOrder).trans (Job.reports_run hdistinct hschedule).symm
  refine ⟨fun hwrite path hpath r hr => ?_, fun other hother => ?_, fun hcheck => ?_, ?_,
    fun other => ?_, ?_, fun hcheck => ?_⟩
  · exact Job.get?_run_of_ok hdistinct hschedule hwrite hpath hr (Files.samePath_refl path)
  · exact Job.get?_run_of_other hdistinct hother
  · exact Job.stdout_outcome hdistinct hschedule hcheck
  · exact Job.code_outcome_iff hdistinct hschedule
  · rw [hprogram]
    exact Job.get?_run_congr hdistinct hschedule hinOrder other
  · rw [hprogram, Job.outcome, hreports]
    rfl
  · rw [hprogram, Job.stdout_outcome hdistinct hinOrder hcheck]
    exact (Job.stdout_outcome hdistinct hschedule hcheck).symm

/-- A file that is read before the other ones and written after them, one that cannot be parsed, and one that is no
text. -/
theorem outcome_of_crossed_schedule :
    let job : Job := ⟨JavaScript.formatter, {}, .write, false⟩
    let files : Files :=
      ⟨[("a.js", .ofText "a"), ("b.js", .ofText "b"), ("c.js", .ofText "("), ("d.js", ⟨⟨#[255]⟩⟩)]⟩
    let paths := ["a.js", "b.js", "c.js", "./d.js"]
    let outcome := job.outcome (job.run (.start files paths) [1, 0, 2, 0, 3, 2, 1, 3])
    outcome.files.get? "a.js" = some (.ofText "a;\n") ∧
      outcome.files.get? "b.js" = some (.ofText "b;\n") ∧
      outcome.files.get? "c.js" = some (.ofText "(") ∧
      outcome.files.get? "d.js" = some ⟨⟨#[255]⟩⟩ ∧ outcome.code = 1 := by
  intro job files paths outcome
  have hdistinct : paths.Pairwise fun a b => Files.samePath a b = false := by decide +kernel
  have hschedule : ∀ i < paths.length, 2 ≤ [1, 0, 2, 0, 3, 2, 1, 3].count i := by decide
  obtain ⟨hwritten, hkept, -, hcode, -⟩ :=
    outcome_of_schedule job "" files (List.cons_ne_nil _ _) (fun _ => hdistinct) hschedule
  have hformatted : ∀ path text, (job.result files path).toOption.map (·.formatted) = some text →
      ∃ r, job.result files path = .ok r ∧ r.formatted = text := by
    intro path text h
    cases hresult : job.result files path with
    | error e => simp [hresult, Except.toOption] at h
    | ok r => exact ⟨r, rfl, by simpa [hresult, Except.toOption] using h⟩
  obtain ⟨a, ha, hatext⟩ := hformatted "a.js" "a;\n" (by decide +kernel)
  obtain ⟨b, hb, hbtext⟩ := hformatted "b.js" "b;\n" (by decide +kernel)
  have hfails : ∀ path ∈ ["c.js", "./d.js"], ∃ e, job.result files path = .error e := by
    intro path hpath
    have hnone : ∀ path ∈ ["c.js", "./d.js"], (job.result files path).toOption.isNone = true := by
      decide +kernel
    cases hresult : job.result files path with
    | error e => exact ⟨e, rfl⟩
    | ok r => simpa [hresult, Except.toOption] using hnone path hpath
  -- The files that cannot be formatted are not among those that are written.
  have hother : ∀ other ∈ ["c.js", "d.js"], ∀ path ∈ paths, ∀ r, job.result files path = .ok r →
      Files.samePath other path = false := by
    intro other hmem path hpath r hr
    have happart : ∀ other ∈ ["c.js", "d.js"], ∀ path ∈ ["a.js", "b.js"],
        Files.samePath other path = false := by decide +kernel
    rcases List.mem_append.mp (show path ∈ ["a.js", "b.js"] ++ ["c.js", "./d.js"] from hpath) with
      hpath | hpath
    · exact happart other hmem path hpath
    · obtain ⟨e, he⟩ := hfails path hpath
      rw [he] at hr
      cases hr
  refine ⟨?_, ?_, ?_, ?_, hcode.mpr ⟨"c.js", by simp, .inl (hfails _ (by simp))⟩⟩
  · rw [hwritten rfl "a.js" (by simp) a ha, hatext]
  · rw [hwritten rfl "b.js" (by simp) b hb, hbtext]
  · rw [hkept "c.js" fun _ => hother _ (by simp)]
    decide +kernel
  · rw [hkept "d.js" fun _ => hother _ (by simp)]
    decide +kernel

/-- Two names of one file. If it is written before it is read again, it is formatted twice. -/
theorem not_outcome_of_two_names :
    let job : Job := ⟨JavaScript.formatter, {}, .write, false⟩
    let files : Files := ⟨[("a.js", .ofText "x = \n/* c */\n1")]⟩
    let paths := ["a.js", "./a.js"]
    let holds := fun schedule => (job.outcome (job.run (.start files paths) schedule)).files.get? "a.js"
    paths.Nodup ∧ (∀ i < paths.length, 2 ≤ [0, 0, 1, 1].count i ∧ 2 ≤ [0, 1, 0, 1].count i) ∧
      (∀ path ∈ paths, (job.result files path).toOption.map (·.formatted) = some "x = /* c */\n1;\n") ∧
      holds [0, 1, 0, 1] = some (.ofText "x = /* c */\n1;\n") ∧
      holds [0, 0, 1, 1] = some (.ofText "x /* c */ = 1;\n") ∧
      holds [0, 0, 1, 1] ≠ holds [0, 1, 0, 1] := by
  decide +kernel

end CodeFormatter.CommandLine
