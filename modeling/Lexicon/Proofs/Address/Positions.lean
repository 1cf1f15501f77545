import Mathlib
import Lexicon.Address

/-!
# Positions in addresses

The position of a branch is written in decimal digits. A part is read as a position if it is the
digits of a number of 64 bits, with a plus sign or without (`index?_eq_some_iff`), so a position has
many spellings. One of them is canonical, and it is the one that is written
(`Spells.toString_eq_iff`).
-/

namespace Lexicon.Address

def Canonical (part : List Char) : Prop :=
  part.head? ≠ some '+' ∧ (part.head? = some '0' → part = ['0'])

instance (part : List Char) : Decidable (Canonical part) := inferInstanceAs (Decidable (_ ∧ _))

theorem digitChar_of_isDigit {c : Char} (h : c.isDigit = true) :
    c.toNat - '0'.toNat < 10 ∧ Nat.digitChar (c.toNat - '0'.toNat) = c := by
  have hrange : 48 ≤ c.toNat ∧ c.toNat ≤ 57 := by
    simpa [Char.isDigit, UInt32.le_iff_toNat_le] using h
  have hzero : '0'.toNat = 48 := rfl
  have hlt : c.toNat - '0'.toNat < 10 := by omega
  refine ⟨hlt, Char.toNat_inj.mp ?_⟩
  rw [Nat.toNat_digitChar_of_lt_ten hlt]
  omega

theorem canonical_toDigits (n : Nat) : Canonical (Nat.toDigits 10 n) := by
  induction n using Nat.strongRecOn with
  | ind n ih =>
    rw [Nat.toDigits_eq_if (by decide)]
    split
    · rename_i hn
      interval_cases n <;> exact ⟨by decide, by decide⟩
    · rename_i hn
      have hpos : 0 < n / 10 := by omega
      obtain ⟨hplus, hzero⟩ := ih (n / 10) (by omega)
      cases hdigits : Nat.toDigits 10 (n / 10) with
      | nil => exact absurd hdigits Nat.toDigits_ne_nil
      | cons c rest =>
        rw [hdigits] at hplus hzero
        refine ⟨hplus, fun hc => ?_⟩
        have hone : Nat.toDigits 10 (n / 10) = ['0'] := hdigits.trans (hzero hc)
        have hvalue := congrArg (Nat.ofDigitChars 10 · 0) hone
        simp only [Nat.ofDigitChars_ten_toDigits] at hvalue
        exact absurd hvalue hpos.ne'

/-- Digits that follow those of a number are kept as they are. -/
theorem toDigits_ofDigitChars {digits : List Char} {acc : Nat} (hacc : 0 < acc)
    (hdigits : ∀ c ∈ digits, c.isDigit = true) :
    Nat.toDigits 10 (Nat.ofDigitChars 10 digits acc) = Nat.toDigits 10 acc ++ digits := by
  induction digits generalizing acc with
  | nil => simp
  | cons c rest ih =>
    obtain ⟨hlt, hc⟩ := digitChar_of_isDigit (hdigits c (List.mem_cons_self ..))
    have hnext : 0 < 10 * acc + (c.toNat - '0'.toNat) := by omega
    have hrest := ih hnext fun c hc => hdigits c (List.mem_cons_of_mem _ hc)
    rw [Nat.ofDigitChars_cons, hrest, ← Nat.toDigits_append_toDigits (by decide) hacc hlt,
      Nat.toDigits_of_lt_base hlt, hc, List.append_assoc, List.singleton_append]

theorem toDigits_of_canonical {digits : List Char} (hne : digits ≠ [])
    (hdigits : ∀ c ∈ digits, c.isDigit = true) (h : Canonical digits) :
    Nat.toDigits 10 (Nat.ofDigitChars 10 digits 0) = digits := by
  cases digits with
  | nil => exact absurd rfl hne
  | cons c rest =>
    by_cases hzero : c = '0'
    · subst hzero
      rw [h.2 rfl]
      rfl
    · obtain ⟨hlt, hc⟩ := digitChar_of_isDigit (hdigits c (List.mem_cons_self ..))
      have hpos : 0 < c.toNat - '0'.toNat := by
        refine Nat.pos_of_ne_zero fun hvalue => hzero ?_
        rw [← hc, hvalue]
        rfl
      rw [Nat.ofDigitChars_cons, Nat.mul_zero, Nat.zero_add,
        toDigits_ofDigitChars hpos fun c hc => hdigits c (List.mem_cons_of_mem _ hc),
        Nat.toDigits_of_lt_base hlt, hc, List.singleton_append]

def Spells (part : List Char) (n : Nat) : Prop :=
  ∃ digits, (part = digits ∨ part = '+' :: digits) ∧ digits ≠ [] ∧
    (∀ c ∈ digits, c.isDigit = true) ∧ n = Nat.ofDigitChars 10 digits 0 ∧ n < Word.size 64

variable {part : List Char} {n : Nat}

/-- What is read of a part once its plus sign is dropped. -/
theorem some_digits_iff (digits : List Char) :
    (if digits ≠ [] ∧ digits.all Char.isDigit then
      let n := digits.foldl (fun acc c => acc * 10 + (c.toNat - '0'.toNat)) 0
      if n < Word.size 64 then some n else none
    else none) = some n ↔ digits ≠ [] ∧ (∀ c ∈ digits, c.isDigit = true) ∧
      n = Nat.ofDigitChars 10 digits 0 ∧ n < Word.size 64 := by
  have hvalue : digits.foldl (fun acc c => acc * 10 + (c.toNat - '0'.toNat)) 0 =
      Nat.ofDigitChars 10 digits 0 := by
    simp only [Nat.ofDigitChars, Nat.mul_comm 10]
  rw [hvalue]
  simp only [List.all_eq_true]
  split
  · rename_i hdigits
    split
    · rename_i hlt
      rw [Option.some.injEq]
      exact ⟨fun h => ⟨hdigits.1, hdigits.2, h.symm, h ▸ hlt⟩, fun h => h.2.2.1.symm⟩
    · rename_i hle
      exact ⟨nofun, fun h => absurd (h.2.2.1 ▸ h.2.2.2) hle⟩
  · rename_i hdigits
    exact ⟨nofun, fun h => absurd ⟨h.1, h.2.1⟩ hdigits⟩

theorem index?_eq_some_iff : index? part = some n ↔ Spells part n := by
  unfold index? Spells
  dsimp only
  split
  · rename_i rest
    rw [some_digits_iff]
    constructor
    · exact fun h => ⟨rest, .inr rfl, h⟩
    · rintro ⟨digits, rfl | heq, h⟩
      -- The plus sign is no digit, so the part is not its own digits.
      · exact absurd (h.2.1 '+' (List.mem_cons_self ..)) (by decide)
      · obtain rfl : rest = digits := (List.cons.inj heq).2
        exact h
  · rename_i hplus
    rw [some_digits_iff]
    constructor
    · exact fun h => ⟨part, .inl rfl, h⟩
    · rintro ⟨digits, rfl | heq, h⟩
      · exact h
      · exact absurd heq (hplus digits)

theorem index?_toString (h : n < Word.size 64) : index? (toString n).toList = some n := by
  refine index?_eq_some_iff.mpr
    ⟨Nat.toDigits 10 n, .inl Nat.toList_repr, Nat.toDigits_ne_nil, ?_, ?_, h⟩
  · exact fun c hc => Nat.isDigit_of_mem_toDigits (by decide) (by decide) hc
  · exact Nat.ofDigitChars_ten_toDigits.symm

/-- A part is what its number is written as if it is canonical. -/
theorem Spells.toString_eq_iff (h : Spells part n) :
    (toString n).toList = part ↔ Canonical part := by
  obtain ⟨digits, hpart, hne, hdigits, rfl, -⟩ := h
  have htext : (toString (Nat.ofDigitChars 10 digits 0)).toList =
      Nat.toDigits 10 (Nat.ofDigitChars 10 digits 0) := Nat.toList_repr
  rw [htext]
  constructor
  · intro heq
    rw [← heq]
    exact canonical_toDigits _
  · intro hcanonical
    rcases hpart with rfl | rfl
    · exact toDigits_of_canonical hne hdigits hcanonical
    · exact absurd rfl hcanonical.1

end Lexicon.Address
