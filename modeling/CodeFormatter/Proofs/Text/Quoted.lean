import CodeFormatter.Text.Quoted
import Mathlib.Data.List.Basic

/-!
# Quoted texts are read back

Between the quotes each character is written in one of three ways: as it is, as a backslash with one mark, or
as a backslash with its number. None of them is the start of another one, and a quote by itself is none of them.

**Theorem (`quote_append_inj`).** Where a text begins with a quoted text, that text and what is behind it are
known.
-/

namespace CodeFormatter

variable {cs ds r s : List Char}

/-- A text is known to end where the first character stands that is not as its characters are. -/
theorem append_inj_of_all {p : Char → Bool} (hcs : ∀ c ∈ cs, p c = true) (hds : ∀ c ∈ ds, p c = true)
    (hr : ∀ c ∈ r.head?, p c = false) (hs : ∀ c ∈ s.head?, p c = false) (h : cs ++ r = ds ++ s) :
    cs = ds ∧ r = s := by
  have hnil : ∀ {l : List Char}, (∀ c ∈ l.head?, p c = false) → l.takeWhile p = [] := by
    intro l hl
    cases l with
    | nil => rfl
    | cons c l => rw [List.takeWhile_cons_of_neg (by simp [hl c rfl])]
  have hfront := congrArg (List.takeWhile p) h
  rw [List.takeWhile_append_of_pos hcs, List.takeWhile_append_of_pos hds, hnil hr, hnil hs, List.append_nil,
    List.append_nil] at hfront
  subst hfront
  exact ⟨rfl, List.append_cancel_left h⟩

namespace Quoted

variable {c d : Char}

/-! ## Numbers -/

theorem digitChar_inj : ∀ m < 16, ∀ n < 16, Nat.digitChar m = Nat.digitChar n → m = n := by
  decide

theorem closing_ne_digitChar : ∀ n < 16, '\x7d' ≠ Nat.digitChar n := by
  decide

theorem closing_notMem_hexadecimal (n : Nat) : '\x7d' ∉ hexadecimal n := by
  induction n using Nat.strongRecOn with
  | ind n ih =>
    rw [hexadecimal, Nat.toDigits_eq_if (by decide)]
    split
    · rw [List.mem_singleton]
      exact closing_ne_digitChar n ‹_›
    · rw [List.mem_append, List.mem_singleton, not_or]
      exact ⟨ih (n / 16) (by omega), closing_ne_digitChar _ (Nat.mod_lt n (by decide))⟩

/-- The digits of a number tell the number. -/
theorem hexadecimal_inj {m n : Nat} (h : hexadecimal m = hexadecimal n) : m = n := by
  have hne : ∀ k, hexadecimal k ≠ [] := fun k => Nat.toDigits_ne_nil
  induction m using Nat.strongRecOn generalizing n with
  | ind m ih =>
    rw [hexadecimal, hexadecimal, Nat.toDigits_eq_if (by decide), Nat.toDigits_eq_if (n := n) (by decide)] at h
    split at h <;> split at h
    · exact digitChar_inj m ‹_› n ‹_› (List.singleton_inj.mp h)
    -- One digit is not several digits.
    · exact absurd (List.append_eq_singleton_iff.mp h.symm) (by simp [Nat.toDigits_ne_nil])
    · exact absurd (List.append_eq_singleton_iff.mp h) (by simp [Nat.toDigits_ne_nil])
    · obtain ⟨hfront, hlast⟩ := List.append_inj' h rfl
      have hquotient : m / 16 = n / 16 := ih (m / 16) (by omega) hfront
      have hdigit : m % 16 = n % 16 := digitChar_inj _ (Nat.mod_lt m (by decide)) _ (Nat.mod_lt n (by decide))
        (List.singleton_inj.mp hlast)
      omega

/-! ## Characters -/

/-- The marks that stand for a character behind a backslash. -/
def escapes : List (Char × Char) :=
  [('0', '\x00'), ('t', '\t'), ('r', '\r'), ('n', '\n'), ('"', '"'), ('\\', '\\')]

/-- The ways to write a character. -/
inductive Written (c : Char) : List Char → Prop
  | plain : c ≠ '\\' → c ≠ '"' → Written c [c]
  | short {mark : Char} : (mark, c) ∈ escapes → Written c ['\\', mark]
  | long : Written c ('\\' :: 'u' :: '\x7b' :: (hexadecimal c.toNat ++ ['\x7d']))

theorem written_encodeChar (c : Char) : Written c (encodeChar c) := by
  unfold encodeChar
  split_ifs with hnul htab hreturn hfeed hquote hbackslash
  · exact .short (by simp [escapes, hnul])
  · exact .short (by simp [escapes, htab])
  · exact .short (by simp [escapes, hreturn])
  · exact .short (by simp [escapes, hfeed])
  · exact .short (by simp [escapes, hquote])
  · exact .short (by simp [escapes, hbackslash])
  · exact .long
  · exact .plain hbackslash hquote

/-- A mark stands for one character, and none begins a number. -/
theorem escapes_inj : ∀ e ∈ escapes, e.1 ≠ 'u' ∧ ∀ f ∈ escapes, e.1 = f.1 → e = f := by
  decide

/-- **No way to write a character is the start of another one.** -/
theorem Written.append_inj (hc : Written c cs) (hd : Written d ds) (h : cs ++ r = ds ++ s) :
    c = d ∧ r = s := by
  cases hc with
  | plain hbackslash =>
    cases hd with
    | plain => simpa using h
    | short | long => exact absurd (List.cons.inj h).1 hbackslash
  | short hmark =>
    cases hd with
    | plain hbackslash => exact absurd (List.cons.inj h).1.symm hbackslash
    | short hmark' =>
      obtain ⟨heq, hrest⟩ := List.cons.inj (List.cons.inj h).2
      exact ⟨congrArg Prod.snd ((escapes_inj _ hmark).2 _ hmark' heq), hrest⟩
    | long => exact absurd (List.cons.inj (List.cons.inj h).2).1 (escapes_inj _ hmark).1
  | long =>
    cases hd with
    | plain hbackslash => exact absurd (List.cons.inj h).1.symm hbackslash
    | short hmark => exact absurd (List.cons.inj (List.cons.inj h).2).1.symm (escapes_inj _ hmark).1
    | long =>
      have hdigits : ∀ n, ∀ x ∈ hexadecimal n, (x != '\x7d') = true := by
        intro n x hx
        rw [bne_iff_ne]
        rintro rfl
        exact closing_notMem_hexadecimal n hx
      simp only [List.cons_append, List.append_assoc, List.cons.injEq, true_and, List.nil_append] at h
      obtain ⟨hnumber, hrest⟩ := append_inj_of_all (hdigits _) (hdigits _) (by simp) (by simp) h
      exact ⟨Char.toNat_inj.mp (hexadecimal_inj hnumber), (List.cons.inj hrest).2⟩

theorem Written.head?_ne_quote (h : Written c cs) : cs.head? ≠ some '"' ∧ cs ≠ [] := by
  cases h with
  | plain _ hquote => simpa using hquote
  | short | long => simp

/-! ## Texts -/

/-- The characters up to the closing quote are known. -/
theorem flatMap_encodeChar_inj (h : cs.flatMap encodeChar ++ '"' :: r = ds.flatMap encodeChar ++ '"' :: s) :
    cs = ds ∧ r = s := by
  have hquote : ∀ (c : Char) (l : List Char), (encodeChar c ++ l).head? ≠ some '"' := by
    intro c l
    obtain ⟨hhead, hne⟩ := (written_encodeChar c).head?_ne_quote
    rwa [List.head?_append_of_ne_nil _ hne]
  induction cs generalizing ds with
  | nil =>
    cases ds with
    | nil => simpa using h
    | cons d ds =>
      refine absurd (congrArg List.head? h).symm ?_
      rw [List.flatMap_cons, List.append_assoc]
      exact hquote d _
  | cons c cs ih =>
    rw [List.flatMap_cons, List.append_assoc] at h
    cases ds with
    | nil => exact absurd (congrArg List.head? h) (hquote c _)
    | cons d ds =>
      rw [List.flatMap_cons, List.append_assoc] at h
      obtain ⟨rfl, hcs⟩ := (written_encodeChar c).append_inj (written_encodeChar d) h
      obtain ⟨rfl, hrest⟩ := ih hcs
      exact ⟨rfl, hrest⟩

theorem toList_quote (s : String) : (quote s).toList = '"' :: (s.toList.flatMap encodeChar ++ ['"']) :=
  String.toList_ofList

/-- **A quoted text is known, and so is what stands behind it.** -/
theorem quote_append_inj {a b : String} (h : (quote a).toList ++ r = (quote b).toList ++ s) : a = b ∧ r = s := by
  rw [toList_quote, toList_quote, List.cons_append, List.cons_append, List.append_assoc, List.append_assoc] at h
  obtain ⟨htext, hrest⟩ := flatMap_encodeChar_inj (List.cons.inj h).2
  exact ⟨String.toList_inj.mp htext, hrest⟩

end Quoted

end CodeFormatter
