import CodeFormatter.Cache
import Mathlib.Data.List.Count

/-!
# A cache is a map

A computation that fails leaves an empty slot behind, so a cache may have slots for keys that the map it
stands for does not have. An empty slot gives no value (`get?_setSlot`), does not count (`size_setSlot`), and is
replaced by the next computation for its key. So nobody can tell the two apart.

**Theorem (`observe_empty`).** Whatever is done with a new cache, in any order, all that can be seen of it is
what can be seen of a map that is empty at first: the answers, whether a computation ran, and after every call
the size and whether there is anything at all. In the map a computation that fails changes nothing.

Keys that are equal for the cache need not be the same: all that is asked of `==` is that it is an equivalence.
-/

namespace CodeFormatter.Cache

variable {κ ν ε : Type} [BEq κ]

/-! ## Calls -/

/-- What is done with a cache. A computation is given by what comes of it. -/
inductive Call (κ ν ε : Type) where
  | get (key : κ)
  | insert (key : κ) (value : ν)
  | resolve (key : κ) (outcome : Except ε ν)
  | clear

inductive Answer (ν ε : Type) where
  | found (value : Option ν)
  | done
  | resolved (answer : Except ε ν) (computed : Bool)
  deriving DecidableEq

/-- What can be seen of a call, and after it. -/
structure Observation (ν ε : Type) where
  answer : Answer ν ε
  size : Nat
  isEmpty : Bool
  deriving DecidableEq

def Call.onCache (c : Cache κ ν) : Call κ ν ε → Answer ν ε × Cache κ ν
  | .get key => (.found (c.get? key), c)
  | .insert key value => (.done, c.insert key value)
  | .resolve key outcome =>
    let resolved := c.resolve key fun _ => outcome
    (.resolved resolved.answer resolved.computed, resolved.cache)
  | .clear => (.done, .empty)

/-- All that can be seen while these calls are made. -/
def observe (c : Cache κ ν) : List (Call κ ν ε) → List (Observation ν ε)
  | [] => []
  | call :: rest =>
    let (answer, c) := call.onCache c
    ⟨answer, c.size, c.isEmpty⟩ :: c.observe rest

section

variable [Hashable κ]

/-- The call on a map: a computation runs if the key has no value, and its value is stored if it succeeds. -/
def Call.onMap (m : Std.HashMap κ ν) : Call κ ν ε → Answer ν ε × Std.HashMap κ ν
  | .get key => (.found m[key]?, m)
  | .insert key value => (.done, m.insert key value)
  | .resolve key outcome =>
    match m[key]?, outcome with
    | some value, _ => (.resolved (.ok value) false, m)
    | none, .ok value => (.resolved (.ok value) true, m.insert key value)
    | none, .error e => (.resolved (.error e) true, m)
  | .clear => (.done, ∅)

def observeMap (m : Std.HashMap κ ν) : List (Call κ ν ε) → List (Observation ν ε)
  | [] => []
  | call :: rest =>
    let (answer, m) := call.onMap m
    ⟨answer, m.size, m.isEmpty⟩ :: observeMap m rest

end

/-! ## Slots -/

variable {c : Cache κ ν} {key other : κ} {slot : Option ν}

/-- No two slots have equal keys. -/
def Distinct (c : Cache κ ν) : Prop := c.slots.Pairwise fun a b => (a.1 == b.1) = false

section

variable [EquivBEq κ]

theorem lookup_filter_of_ne (h : (key == other) = false) (slots : List (κ × Option ν)) :
    (slots.filter fun entry => !(entry.1 == key)).lookup other = slots.lookup other := by
  induction slots with
  | nil => rfl
  | cons entry rest ih =>
    obtain ⟨k, slot⟩ := entry
    by_cases hk : (k == key) = true
    · have hother : (other == k) = false := by
        rw [BEq.congr_right hk, BEq.comm]
        exact h
      simp only [List.filter_cons, hk, Bool.not_true, Bool.false_eq_true, if_false, ih,
        List.lookup_cons, hother]
    · simp only [List.filter_cons, hk, Bool.not_false, if_true, List.lookup_cons, ih]

/-- A slot is found under every key that equals its own, and the others are as they were. -/
theorem get?_setSlot (c : Cache κ ν) (key other : κ) (slot : Option ν) :
    (c.setSlot key slot).get? other = if key == other then slot else c.get? other := by
  unfold get? slot? setSlot
  rw [List.lookup_cons, BEq.comm (a := other)]
  cases h : key == other with
  | true => rfl
  | false => exact congrArg Option.join (lookup_filter_of_ne h c.slots)

theorem Distinct.setSlot (h : c.Distinct) (key : κ) (slot : Option ν) :
    (c.setSlot key slot).Distinct := by
  refine List.pairwise_cons.mpr ⟨fun entry hentry => ?_, h.filter _⟩
  obtain ⟨-, hne⟩ := List.mem_filter.mp hentry
  rw [BEq.comm]
  exact Bool.not_eq_true' _ ▸ hne

/-- At most one slot belongs to a key, and it is filled if there is a value. -/
theorem Distinct.countP_filter (h : c.Distinct) (key : κ) :
    (c.slots.filter fun entry => entry.1 == key).countP (·.2.isSome) = (c.get? key).isSome.toNat := by
  unfold Distinct get? slot? at *
  generalize c.slots = slots at h
  induction slots with
  | nil => rfl
  | cons entry rest ih =>
    obtain ⟨k, slot⟩ := entry
    obtain ⟨hk, hrest⟩ := List.pairwise_cons.mp h
    rw [List.filter_cons, List.lookup_cons, BEq.comm (a := key)]
    cases hkey : k == key with
    | true =>
      have hnone : (rest.filter fun entry => entry.1 == key) = [] := by
        refine List.filter_eq_nil_iff.mpr fun entry hentry heq => ?_
        have hne : (k == entry.1) = false := hk entry hentry
        rw [BEq.congr_right heq, hkey] at hne
        cases hne
      rw [if_pos rfl, hnone]
      cases slot <;> rfl
    | false => exact ih hrest

/-- **What a new slot does to the size.** The old value of the key does not count any more. -/
theorem Distinct.size_setSlot (h : c.Distinct) (key : κ) (slot : Option ν) :
    (c.setSlot key slot).size + (c.get? key).isSome.toNat = c.size + slot.isSome.toNat := by
  have hsplit : c.size = (c.slots.filter fun entry => !(entry.1 == key)).countP (·.2.isSome) +
      (c.get? key).isSome.toNat := by
    rw [size, List.countP_eq_countP_filter_add _ _ fun entry => !(entry.1 == key)]
    simp only [Bool.not_not, h.countP_filter]
  have hcons : (c.setSlot key slot).size =
      (c.slots.filter fun entry => !(entry.1 == key)).countP (·.2.isSome) + slot.isSome.toNat := by
    rw [Cache.setSlot, size, List.countP_cons]
    cases slot <;> rfl
  omega

end

/-! ## The map that a cache stands for -/

section

variable [Hashable κ] {m : Std.HashMap κ ν}

/-- The map has the values of the filled slots. -/
structure Represents (c : Cache κ ν) (m : Std.HashMap κ ν) : Prop where
  distinct : c.Distinct
  get? : ∀ key, c.get? key = m[key]?
  size : c.size = m.size

theorem represents_empty : (empty : Cache κ ν).Represents ∅ where
  distinct := List.Pairwise.nil
  get? _ := Std.HashMap.getElem?_empty.symm
  size := rfl

theorem Represents.isEmpty (h : c.Represents m) : c.isEmpty = m.isEmpty := by
  rw [Std.HashMap.isEmpty_eq_size_eq_zero, ← h.size]
  rfl

variable [EquivBEq κ] [LawfulHashable κ]

theorem Represents.insert (h : c.Represents m) (key : κ) (value : ν) :
    (c.insert key value).Represents (m.insert key value) where
  distinct := h.distinct.setSlot key _
  get? other := by rw [Cache.insert, get?_setSlot, Std.HashMap.getElem?_insert, h.get?]
  size := by
    have hsize := h.distinct.size_setSlot key (some value)
    rw [h.get?, h.size] at hsize
    rw [Cache.insert, Std.HashMap.size_insert]
    by_cases hkey : key ∈ m
    · rw [Std.HashMap.mem_iff_isSome_getElem?.mp hkey] at hsize
      rw [if_pos hkey]
      exact Nat.add_right_cancel hsize
    · rw [Std.HashMap.getElem?_eq_none hkey] at hsize
      rw [if_neg hkey]
      exact hsize

/-- **The slot that a failure leaves behind** is not part of the map. -/
theorem Represents.setSlot_none (h : c.Represents m) (hkey : m[key]? = none) :
    (c.setSlot key none).Represents m where
  distinct := h.distinct.setSlot key _
  get? other := by
    rw [get?_setSlot, h.get?]
    cases heq : key == other with
    | true =>
      rw [if_pos rfl, ← Std.HashMap.getElem?_congr heq, hkey]
    | false => rfl
  size := by
    have hsize := h.distinct.size_setSlot key none
    rw [h.get?, h.size, hkey] at hsize
    simpa using hsize

/-- **One call**: the answers are the same, and the cache still stands for the map. -/
theorem Represents.call (h : c.Represents m) (call : Call κ ν ε) :
    (call.onCache c).1 = (call.onMap m).1 ∧ (call.onCache c).2.Represents (call.onMap m).2 := by
  cases call with
  | get key => exact ⟨congrArg Answer.found (h.get? key), h⟩
  | insert key value => exact ⟨rfl, h.insert key value⟩
  | clear => exact ⟨rfl, represents_empty⟩
  | resolve key outcome =>
    simp only [Call.onCache, Call.onMap, resolve, h.get?]
    cases hkey : m[key]? with
    | some value => exact ⟨rfl, h⟩
    | none =>
      cases outcome with
      | ok value => exact ⟨rfl, h.insert key value⟩
      | error e => exact ⟨rfl, h.setSlot_none hkey⟩

theorem Represents.observe (h : c.Represents m) (calls : List (Call κ ν ε)) :
    c.observe calls = observeMap m calls := by
  induction calls generalizing c m with
  | nil => rfl
  | cons call rest ih =>
    obtain ⟨hanswer, hnext⟩ := h.call call
    simp only [Cache.observe, observeMap, hanswer, hnext.size, hnext.isEmpty, ih hnext]

/-- **A cache cannot be told from a map** by anything that is done with it. -/
theorem observe_empty (calls : List (Call κ ν ε)) :
    (empty : Cache κ ν).observe calls = observeMap ∅ calls :=
  represents_empty.observe calls

end

/-- A computation that fails, is tried again, and fails for a key that has a value. -/
theorem observe_empty_retry :
    let calls : List (Call String Nat String) :=
      [.resolve "a" (.error "boom"), .get "a", .resolve "a" (.ok 1), .resolve "a" (.error "boom"),
        .insert "b" 2, .clear]
    (empty : Cache String Nat).observe calls = observeMap ∅ calls ∧
      (empty : Cache String Nat).observe calls =
        [⟨.resolved (.error "boom") true, 0, true⟩, ⟨.found none, 0, true⟩,
          ⟨.resolved (.ok 1) true, 1, false⟩, ⟨.resolved (.ok 1) false, 1, false⟩,
          ⟨.done, 2, false⟩, ⟨.done, 0, true⟩] :=
  ⟨observe_empty _, by decide⟩

end CodeFormatter.Cache
