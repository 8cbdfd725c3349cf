import CodeFormatter.Proofs.Cache
import CodeFormatter.Proofs.Formatter

/-!
# Remembered options

Normalized options are remembered under the key of the options. The outcome depends on more than the key, on the
languages that are known and on the spelling of the path, so what is remembered may differ from what would be
computed now.

**Journals.** A journal notes what has been asked of a formatter: the options in the order in which they were
normalized, each with the languages of that moment. The cache can be read off it (`Journal.Describes`), and each
request keeps it so (`Journal.Describes.add`).

**Theorem (`resolve_after`).** After any requests, options are answered with what was computed when options of
their key were first normalized, since the cache was last cleared. That is what would be computed now, up to the
spelling of the path, unless the options are stale: they name no language, there was none for the file at that
time, and one has been registered since.
-/

namespace CodeFormatter

/-! ## Keys -/

namespace Options

variable {a b : Options}

theorem filter_pathComponents (path : String) :
    (pathComponents path).filter (fun c => c != [] && c != ['.']) =
      (path.toList.splitOn '/').filter fun c => c != [] && c != ['.'] := by
  unfold pathComponents
  split <;> rename_i hparts <;> rw [hparts]
  · rfl
  · rw [List.filter_cons, List.filter_cons, List.filter_filter]
    simp only [Bool.and_self]

/-- The same path has the same file name. -/
theorem fileName?_congr {path path' : String} (h : pathComponents path = pathComponents path') :
    fileName? path = fileName? path' := by
  unfold fileName?
  rw [← filter_pathComponents, ← filter_pathComponents, h]

theorem fileExtension_eq_of_key_eq (h : a.key = b.key) : a.fileExtension = b.fileExtension := by
  have hpath : a.filepath.map pathComponents = b.filepath.map pathComponents := congrArg Key.path h
  unfold fileExtension
  cases ha : a.filepath with
  | none =>
    rw [ha, Option.map_none, eq_comm, Option.map_eq_none_iff] at hpath
    rw [hpath]
  | some path =>
    rw [ha, Option.map_some, eq_comm, Option.map_eq_some_iff] at hpath
    obtain ⟨path', hb, hsame⟩ := hpath
    rw [hb, Option.bind_some, Option.bind_some, fileName?_congr hsame]

/-- Options with the same key differ in the spelling of the path, and in nothing else. -/
theorem eq_of_key_eq (h : a.key = b.key) : a = { b with filepath := a.filepath } := by
  have hpathless : { a with filepath := none } = { b with filepath := none } := congrArg Key.pathless h
  calc a = { ({ a with filepath := none } : Options) with filepath := a.filepath } := rfl
    _ = { b with filepath := a.filepath } := by rw [hpathless]

theorem validate_eq_of_key_eq (h : a.key = b.key) : a.validate = b.validate := by
  rw [eq_of_key_eq h]
  rfl

end Options

namespace Formatter

variable {f : Formatter} {languages : List Registered} {asked o n : Options}

/-! ## Computing -/

theorem computeNormalized_of_invalid {e : ConfigError} (h : o.validate = .error e) :
    f.computeNormalized o = .error (.config e) := by
  rw [computeNormalized, h]

/-- Only the languages count. -/
theorem computeNormalized_ofLanguages (f : Formatter) (o : Options) :
    (ofLanguages f.languages).computeNormalized o = f.computeNormalized o := rfl

theorem inferParser_eq_of_key_eq (h : asked.key = o.key) : f.inferParser asked = f.inferParser o := by
  rw [inferParser, inferParser, Options.fileExtension_eq_of_key_eq h]

/-- A language that is known for a file stays the first one when others come after it. -/
theorem inferParser_of_known {known : List Registered} {name : String} (h : known <+: languages)
    (hname : (ofLanguages known).inferParser o = some name) :
    (ofLanguages languages).inferParser o = some name := by
  obtain ⟨later, rfl⟩ := h
  unfold inferParser at hname ⊢
  cases hextension : o.fileExtension with
  | none =>
    rw [hextension] at hname
    cases hname
  | some extension =>
    rw [hextension] at hname
    change ((known ++ later).find? _ >>= fun l => some l.name) = some name
    change (known.find? _ >>= fun l => some l.name) = some name at hname
    obtain ⟨l, hl, hlname⟩ := Option.bind_eq_some_iff.mp hname
    rw [List.find?_append, hl]
    exact hlname

/-- The outcomes for two spellings of a path, with different languages known, differ in the path and in the name
that is inferred. -/
theorem named_eq_of_key_eq (h : asked.key = o.key) :
    (ofLanguages languages).named asked =
      { o with
        filepath := asked.filepath
        parser := o.parser.orElse fun _ => (ofLanguages languages).inferParser o } := by
  rw [named, inferParser_eq_of_key_eq h, Options.eq_of_key_eq h]

/-! ## Remembering -/

/-- What is remembered for options is their answer, if there is one. -/
theorem get?_remember (f : Formatter) (o : Options) (key : Options.Key) :
    (f.remember o).normalized.get? key =
      if o.key = key then (f.resolve o).toOption else f.normalized.get? key := by
  rw [resolve_eq, Formatter.remember, normalize, Cache.resolve]
  by_cases hkey : o.key = key
  · subst hkey
    rw [if_pos rfl]
    cases hget : f.normalized.get? o.key with
    | some n => exact hget
    | none => cases f.computeNormalized o <;> simp [Cache.insert, Cache.get?_setSlot, Except.toOption]
  · rw [if_neg hkey]
    cases f.normalized.get? o.key with
    | some n => rfl
    | none => cases f.computeNormalized o <;> simp [Cache.insert, Cache.get?_setSlot, hkey]

/-! ## Requests -/

/-- What is asked of a formatter between two texts. -/
inductive Request where
  | normalize (options : Options)
  | clearCache
  | register (l : Registered)

def Request.apply (f : Formatter) : Request → Formatter
  | .normalize options => f.remember options
  | .clearCache => f.clearCache
  | .register l => f.withLanguage l

/-- A new formatter after these requests. -/
def after (requests : List Request) : Formatter := requests.foldl Request.apply (ofLanguages [])

/-- What has been asked of a formatter. -/
structure Journal where
  languages : List Registered
  /-- The options that were normalized since the cache was cleared, first ones first, each with the languages that
  were known then. -/
  normalized : List (Options × List Registered)

namespace Journal

def add (j : Journal) : Request → Journal
  | .normalize options => { j with normalized := j.normalized ++ [(options, j.languages)] }
  | .clearCache => { j with normalized := [] }
  | .register l => { j with languages := j.languages ++ [l] }

def of (requests : List Request) : Journal := requests.foldl add ⟨[], []⟩

/-- When options with this key were first normalized. -/
def first? (j : Journal) (key : Options.Key) : Option (Options × List Registered) :=
  j.normalized.find? fun entry => entry.1.key = key

/-- A language has been registered for the file of these options, which had none when they were first
normalized. -/
def IsStale (j : Journal) (o : Options) : Prop :=
  ∃ asked known, j.first? o.key = some (asked, known) ∧ o.validate = .ok () ∧ o.parser = none ∧
    (ofLanguages known).inferParser o = none ∧ (ofLanguages j.languages).inferParser o ≠ none

/-- The path was spelled the same when the options were first normalized. -/
def SpelledAlike (j : Journal) (o : Options) : Prop :=
  ∀ asked known, j.first? o.key = some (asked, known) → o.validate = .ok () → asked.filepath = o.filepath

/-- **What a formatter remembers** is what was computed first. Computations that failed are not remembered. -/
structure Describes (j : Journal) (f : Formatter) : Prop where
  languages : f.languages = j.languages
  remembered : ∀ key, f.normalized.get? key =
    (j.first? key).bind fun entry => ((ofLanguages entry.2).computeNormalized entry.1).toOption
  known : ∀ entry ∈ j.normalized, entry.2 <+: j.languages

variable {j : Journal}

theorem key_of_first? {key : Options.Key} {known : List Registered}
    (h : j.first? key = some (asked, known)) : asked.key = key := by
  simpa using List.find?_some h

theorem first?_add_normalize (j : Journal) (o : Options) (key : Options.Key) :
    (j.add (.normalize o)).first? key =
      (j.first? key).or (if o.key = key then some (o, j.languages) else none) := by
  rw [first?, add, List.find?_append, ← first?, List.find?_singleton]
  simp

/-- **The answer** is what was computed first. -/
theorem Describes.resolve_eq (h : j.Describes f) (o : Options) :
    f.resolve o =
      match j.first? o.key with
      | some (asked, known) => (ofLanguages known).computeNormalized asked
      | none => f.computeNormalized o := by
  rw [Formatter.resolve_eq, h.remembered]
  cases hfirst : j.first? o.key with
  | none => rfl
  | some entry =>
    obtain ⟨asked, known⟩ := entry
    have hvalidate : asked.validate = o.validate := Options.validate_eq_of_key_eq (key_of_first? hfirst)
    dsimp only [Option.bind_some]
    -- A computation that failed is made again, and fails again.
    cases hvalid : o.validate with
    | ok _ => rw [computeNormalized_of_valid (hvalidate.trans hvalid)]; rfl
    | error e =>
      rw [computeNormalized_of_invalid (hvalidate.trans hvalid), computeNormalized_of_invalid hvalid]
      rfl

/-! ## Each request keeps the journal in step -/

theorem describes_new : (Journal.mk [] []).Describes (ofLanguages []) where
  languages := rfl
  remembered _ := rfl
  known _ h := nomatch h

theorem Describes.remember (h : j.Describes f) (o : Options) :
    (j.add (.normalize o)).Describes (f.remember o) where
  languages := h.languages
  remembered key := by
    have hnow : (ofLanguages j.languages).computeNormalized o = f.computeNormalized o := by
      rw [← h.languages, computeNormalized_ofLanguages]
    rw [get?_remember, first?_add_normalize]
    by_cases hkey : o.key = key
    · subst hkey
      rw [if_pos rfl, if_pos rfl, h.resolve_eq]
      cases j.first? o.key with
      | none => exact congrArg Except.toOption hnow.symm
      | some entry => rfl
    · rw [if_neg hkey, if_neg hkey, Option.or_none, h.remembered]
  known entry hentry := by
    rcases List.mem_append.mp hentry with hold | hnew
    · exact h.known entry hold
    · rw [List.mem_singleton.mp hnew]
      exact List.prefix_rfl

theorem Describes.add (h : j.Describes f) (request : Request) :
    (j.add request).Describes (request.apply f) := by
  cases request with
  | normalize o => exact h.remember o
  | clearCache => exact ⟨h.languages, fun _ => rfl, fun _ hentry => nomatch hentry⟩
  | register l =>
    have hlanguages : f.languages ++ [l] = j.languages ++ [l] := by rw [h.languages]
    exact ⟨hlanguages, h.remembered, fun entry hentry =>
      (h.known entry hentry).trans (List.prefix_append _ _)⟩

theorem Describes.foldl (h : j.Describes f) (requests : List Request) :
    (requests.foldl Journal.add j).Describes (requests.foldl Request.apply f) := by
  induction requests generalizing j f with
  | nil => exact h
  | cons request rest ih => exact ih (h.add request)

/-- **A journal that is kept from the beginning** describes the formatter. -/
theorem describes_of (requests : List Request) : (of requests).Describes (after requests) :=
  describes_new.foldl requests

/-! ## Answers -/

/-- Normalizing changes the name of the language and the spelling of the path only. -/
theorem Describes.eq_of_resolve (h : j.Describes f) (hn : f.resolve o = .ok n) :
    n = { o with parser := n.parser, filepath := n.filepath } := by
  have hcomputed : ∃ asked known, asked.key = o.key ∧ (ofLanguages known).computeNormalized asked = .ok n := by
    rw [h.resolve_eq] at hn
    split at hn
    · exact ⟨_, _, key_of_first? ‹_›, hn⟩
    · exact ⟨o, f.languages, rfl, hn⟩
  obtain ⟨asked, known, hkey, hcomputed⟩ := hcomputed
  unfold computeNormalized at hcomputed
  split at hcomputed
  · cases hcomputed
  · cases hcomputed
    rw [Options.eq_of_key_eq hkey]

/-- The name that is inferred now is the one that was inferred first, if there was one. -/
theorem Describes.parser_eq_iff (h : j.Describes f) {known : List Registered}
    (hfirst : j.first? o.key = some (asked, known)) (hvalid : o.validate = .ok ()) :
    (o.parser.orElse fun _ => (ofLanguages known).inferParser o) =
      (o.parser.orElse fun _ => f.inferParser o) ↔ ¬ j.IsStale o := by
  have hknown : known <+: j.languages := h.known _ (List.mem_of_find?_eq_some hfirst)
  have hnow : f.inferParser o = (ofLanguages j.languages).inferParser o := by
    rw [← h.languages]
    rfl
  have hstale : j.IsStale o ↔ o.parser = none ∧ (ofLanguages known).inferParser o = none ∧
      (ofLanguages j.languages).inferParser o ≠ none := by
    constructor
    · rintro ⟨asked', known', hfirst', -, hrest⟩
      cases hfirst.symm.trans hfirst'
      exact hrest
    · exact fun hrest => ⟨asked, known, hfirst, hvalid, hrest⟩
  rw [hstale, hnow]
  cases hparser : o.parser with
  | some name => simp
  | none =>
    cases hthen : (ofLanguages known).inferParser o with
    | some name => simp [inferParser_of_known hknown hthen]
    | none => simp [eq_comm]

end Journal

open Journal

/-- **Remembered options.** The answer for options is what was computed when options of their key were first
normalized. Up to the spelling of the path it is what would be computed now if, and only if, no language has been
registered for their file since then that the file did not have before. -/
theorem resolve_after (requests : List Request) (o : Options) :
    let f := after requests
    let j := Journal.of requests
    (f.resolve o =
      match j.first? o.key with
      | some (asked, known) => (ofLanguages known).computeNormalized asked
      | none => f.computeNormalized o) ∧
    (Options.key <$> f.resolve o = Options.key <$> f.computeNormalized o ↔ ¬ j.IsStale o) ∧
    (f.resolve o = f.computeNormalized o ↔ ¬ j.IsStale o ∧ j.SpelledAlike o) := by
  intro f j
  have hdescribes : j.Describes f := describes_of requests
  refine ⟨hdescribes.resolve_eq o, ?_⟩
  rw [hdescribes.resolve_eq]
  cases hfirst : j.first? o.key with
  | none => simp [IsStale, SpelledAlike, hfirst]
  | some entry =>
    obtain ⟨asked, known⟩ := entry
    have hkey : asked.key = o.key := key_of_first? hfirst
    have hvalidate : asked.validate = o.validate := Options.validate_eq_of_key_eq hkey
    cases hvalid : o.validate with
    | error e =>
      have hsame : (ofLanguages known).computeNormalized asked = f.computeNormalized o := by
        rw [computeNormalized_of_invalid (hvalidate.trans hvalid), computeNormalized_of_invalid hvalid]
      simp [IsStale, SpelledAlike, hvalid, hsame]
    | ok _ =>
      have hspelled : j.SpelledAlike o ↔ asked.filepath = o.filepath := by
        simp [SpelledAlike, hfirst, hvalid]
      have hparser := hdescribes.parser_eq_iff hfirst hvalid
      dsimp only
      rw [computeNormalized_of_valid (hvalidate.trans hvalid), computeNormalized_of_valid hvalid,
        named_eq_of_key_eq hkey, hspelled, ← hparser]
      constructor
      · have hpath : asked.filepath.map Options.pathComponents = o.filepath.map Options.pathComponents :=
          congrArg Options.Key.path hkey
        simp [Functor.map, Except.map, Options.key, named, hpath]
      · simp [named, and_comm]

/-- **What would be computed now is not the answer.** A file that got no language, as there was none, gets none
when there is one. And a path is given back as it was spelled first. -/
theorem not_uncached :
    (¬ ∀ (requests : List Request) (o : Options),
      Options.key <$> (after requests).resolve o = Options.key <$> (after requests).computeNormalized o) ∧
    ¬ ∀ o o' : Options, o.key = o'.key →
      (after [.register (.ofLanguage JavaScript.language), .normalize o]).resolve o' =
        (after [.register (.ofLanguage JavaScript.language), .normalize o]).computeNormalized o' := by
  constructor
  · intro h
    have hsame := h [.normalize { filepath := some "main.js" }, .register (.ofLanguage JavaScript.language)]
      { filepath := some "main.js" }
    exact absurd hsame (by decide +kernel)
  · intro h
    have hkey : Options.key { filepath := some "a/main.js" } = Options.key { filepath := some "a//main.js" } := by
      decide +kernel
    exact absurd (h _ _ hkey) (by decide +kernel)

end Formatter

end CodeFormatter
