import Mathlib
import Lexicon.Binary64

/-!
# Integers as doubles

Integers of at most 53 bits are doubles, so nothing is rounded (`value_ofInt`), and a double without
a fractional part is such an integer (`value_ofInt_truncate`). The double nearest to any integer has
no fractional part (`isWhole_ofInt`), and rounding keeps the order (`value_ofInt_mono`), so an
integer of fewer than 54 bits compares with every other one as their doubles do
(`ofInt_le_ofInt_iff`).
-/

namespace Lexicon

theorem roundHalfEven_of_dvd {num den : Nat} (hpos : 0 < den) (h : den ∣ num) :
    roundHalfEven num den = num / den := by
  have hmod : num % den = 0 := Nat.mod_eq_zero_of_dvd h
  unfold roundHalfEven
  rw [hmod]
  exact if_pos hpos

theorem le_roundHalfEven (num den : Nat) : num / den ≤ roundHalfEven num den := by
  simp only [roundHalfEven]
  split
  · omega
  · split <;> omega

theorem roundHalfEven_mono {m n : Nat} (h : m ≤ n) (den : Nat) :
    roundHalfEven m den ≤ roundHalfEven n den := by
  rcases Nat.lt_or_eq_of_le (Nat.div_le_div_right h : m / den ≤ n / den) with hlt | heq
  · exact (roundHalfEven_le hlt).trans (le_roundHalfEven n den)
  · -- With one quotient the order is that of the remainders.
    have hm := Nat.div_add_mod m den
    have hn := Nat.div_add_mod n den
    rw [heq] at hm
    have hrest : m % den ≤ n % den := by omega
    have hparity : n / den % 2 < 2 := Nat.mod_lt _ (by decide)
    simp only [roundHalfEven, heq]
    split_ifs <;> omega

namespace Binary64

theorem one_eq : ∃ k, one = 2 ^ k := by
  unfold one
  generalize 1074 = k
  exact ⟨k, rfl⟩

theorem spacing_eq (units : Nat) : spacing units = 2 ^ (units.log2 - 52) := rfl

theorem spacing_pos (units : Nat) : 0 < spacing units := by
  rw [spacing_eq]
  exact Nat.two_pow_pos _

theorem roundUnits_one (units : Nat) :
    roundUnits units 1 = spacing units * roundHalfEven units (spacing units) := by
  unfold roundUnits
  rw [Nat.div_one]
  dsimp only
  rw [Nat.one_mul]

theorem roundUnits_of_dvd {units : Nat} (h : spacing units ∣ units) : roundUnits units 1 = units := by
  rw [roundUnits_one, roundHalfEven_of_dvd (spacing_pos units) h]
  exact Nat.mul_div_cancel' h

/-- Rounding does not go above the next power of two. -/
theorem roundUnits_le {units k : Nat} (hk : units.log2 < k) (h : 52 < k) :
    roundUnits units 1 ≤ 2 ^ k := by
  have hquotient : units / spacing units < Nat.pow 2 53 :=
    Nat.div_lt_of_lt_mul (lt_spacing units)
  calc roundUnits units 1 = spacing units * roundHalfEven units (spacing units) := roundUnits_one units
    _ ≤ 2 ^ (units.log2 - 52) * 2 ^ 53 := Nat.mul_le_mul le_rfl (roundHalfEven_le hquotient)
    _ = 2 ^ (units.log2 - 52 + 53) := (Nat.pow_add 2 _ 53).symm
    _ ≤ 2 ^ k := Nat.pow_le_pow_right (by decide) (by omega)

/-- Rounding does not go below the last power of two. -/
theorem le_roundUnits {units : Nat} (h : 52 ≤ units.log2) : 2 ^ units.log2 ≤ roundUnits units 1 := by
  have hne : units ≠ 0 := by
    rintro rfl
    simp at h
  have hpow : spacing units * 2 ^ 52 = 2 ^ units.log2 := by
    rw [spacing_eq, ← Nat.pow_add, Nat.sub_add_cancel h]
  have hquotient : 2 ^ 52 ≤ units / spacing units := by
    rw [Nat.le_div_iff_mul_le (spacing_pos units), Nat.mul_comm, hpow]
    exact Nat.log2_self_le hne
  calc 2 ^ units.log2 = spacing units * 2 ^ 52 := hpow.symm
    _ ≤ spacing units * roundHalfEven units (spacing units) :=
      Nat.mul_le_mul le_rfl (hquotient.trans (le_roundHalfEven _ _))
    _ = roundUnits units 1 := (roundUnits_one units).symm

theorem roundUnits_mono {m n : Nat} (h : m ≤ n) : roundUnits m 1 ≤ roundUnits n 1 := by
  have hlog : m.log2 ≤ n.log2 := by
    rw [Nat.log2_eq_log_two, Nat.log2_eq_log_two]
    exact Nat.log_mono_right h
  by_cases hstep : m.log2 - 52 = n.log2 - 52
  · have hspacing : spacing m = spacing n := by rw [spacing_eq, spacing_eq, hstep]
    rw [roundUnits_one, roundUnits_one, hspacing]
    exact Nat.mul_le_mul le_rfl (roundHalfEven_mono h _)
  · -- A power of two stands between numbers of different spacing.
    exact (roundUnits_le (by omega) (by omega)).trans (le_roundUnits (by omega))

/-- An integer with at most 53 significant bits is a double. -/
theorem value_ofInt_of_dvd {n : Int} (h : spacing (n.natAbs * one) ∣ n.natAbs * one) :
    (ofInt n).value = n * one := by
  have hunits : (ofInt n).units = n.natAbs * one := roundUnits_of_dvd h
  have hnegative : (ofInt n).negative = decide (n < 0) := rfl
  unfold value
  rw [hunits, hnegative]
  by_cases hn : n < 0
  · have habs : (n.natAbs : Int) = -n := by omega
    rw [if_pos (decide_eq_true hn), Int.natCast_mul, habs, Int.neg_mul, Int.neg_neg]
  · have habs : (n.natAbs : Int) = n := by omega
    rw [if_neg (by simpa using hn), Int.natCast_mul, habs]

theorem value_ofInt {n : Int} (h : n.natAbs ≤ 2 ^ 53) : (ofInt n).value = n * one := by
  obtain ⟨k, hk⟩ := one_eq
  refine value_ofInt_of_dvd ?_
  rw [hk]
  exact spacing_dvd h k

theorem natAbs_value (x : Binary64) : x.value.natAbs = x.units := by
  unfold value
  split <;> simp

theorem isWhole_eq (x : Binary64) : x.isWhole = (x.value % one == 0) := by
  have hunits : (x.value % one = 0) ↔ x.units % one = 0 := by
    rw [← Int.dvd_iff_emod_eq_zero, ← Nat.dvd_iff_mod_eq_zero, ← natAbs_value, Int.natCast_dvd]
  rw [Bool.eq_iff_iff, isWhole, beq_iff_eq, beq_iff_eq, hunits]

theorem truncate_mul_one {x : Binary64} (h : x.isWhole = true) : x.truncate * one = x.value := by
  rw [isWhole_eq, beq_iff_eq, ← Int.dvd_iff_emod_eq_zero] at h
  exact Int.tdiv_mul_cancel h

/-- A whole double is an integer that needs no rounding. -/
theorem value_ofInt_truncate {x : Binary64} (h : x.isWhole = true) :
    (ofInt x.truncate).value = x.value := by
  have hunits : x.truncate.natAbs * one = x.units := by
    rw [← natAbs_value, ← truncate_mul_one h, Int.natAbs_mul, Int.natAbs_natCast]
  rw [value_ofInt_of_dvd (hunits ▸ x.rounded.dvd), truncate_mul_one h]

theorem value_ofInt_eq (n : Int) :
    (ofInt n).value =
      if n < 0 then -(roundUnits (n.natAbs * one) 1 : Int) else roundUnits (n.natAbs * one) 1 := by
  unfold value ofInt
  by_cases hn : n < 0
  · rw [if_pos hn, decide_eq_true hn, if_pos rfl]
  · rw [if_neg hn, decide_eq_false hn, if_neg Bool.false_ne_true]

/-- Rounding keeps the order of integers. -/
theorem value_ofInt_mono {m n : Int} (h : m ≤ n) : (ofInt m).value ≤ (ofInt n).value := by
  have hunits : ∀ {i j : Int}, i.natAbs ≤ j.natAbs →
      roundUnits (i.natAbs * one) 1 ≤ roundUnits (j.natAbs * one) 1 :=
    fun hij => roundUnits_mono (Nat.mul_le_mul_right one hij)
  rw [value_ofInt_eq, value_ofInt_eq]
  by_cases hm : m < 0
  · by_cases hn : n < 0
    · have := @hunits n m (by omega)
      rw [if_pos hm, if_pos hn]
      omega
    · rw [if_pos hm, if_neg hn]
      omega
  · have hn : ¬ n < 0 := by omega
    have := @hunits m n (by omega)
    rw [if_neg hm, if_neg hn]
    omega

/-- The double nearest to an integer is a whole number. -/
theorem isWhole_ofInt (n : Int) : (ofInt n).isWhole = true := by
  obtain ⟨k, hk⟩ := one_eq
  have hunits : (ofInt n).units = roundUnits (n.natAbs * one) 1 := rfl
  have hdvd : one ∣ roundUnits (n.natAbs * one) 1 := by
    rcases Nat.le_total ((n.natAbs * one).log2 - 52) k with hle | hle
    · have hspacing : spacing (n.natAbs * one) ∣ one := by
        rw [spacing_eq, hk] at *
        exact Nat.pow_dvd_pow 2 hle
      rw [roundUnits_of_dvd (hspacing.trans (Nat.dvd_mul_left one _))]
      exact Nat.dvd_mul_left one _
    · have hspacing : one ∣ spacing (n.natAbs * one) := by
        rw [spacing_eq]
        exact (hk ▸ dvd_rfl : one ∣ 2 ^ k).trans (Nat.pow_dvd_pow 2 hle)
      rw [roundUnits_one]
      exact hspacing.mul_right _
  rw [isWhole, hunits, beq_iff_eq]
  exact Nat.mod_eq_zero_of_dvd hdvd

theorem one_pos : 0 < one := by
  obtain ⟨k, hk⟩ := one_eq
  rw [hk]
  exact Nat.two_pow_pos k

section
variable {n : Int} (hn : n.natAbs < 2 ^ 53)
include hn

/-- An integer of at most 53 bits compares with every other integer as their doubles do. -/
theorem ofInt_le_ofInt_iff (m : Int) : ofInt m ≤ ofInt n ↔ m ≤ n := by
  refine ⟨fun h => ?_, value_ofInt_mono⟩
  by_contra hlt
  have hnext := value_ofInt_mono (by omega : n + 1 ≤ m)
  rw [le_iff, value_ofInt hn.le] at h
  rw [@value_ofInt (n + 1) (by omega)] at hnext
  have := Int.natCast_pos.mpr one_pos
  rw [Int.add_mul, Int.one_mul] at hnext
  omega

theorem ofInt_ge_ofInt_iff (m : Int) : ofInt n ≤ ofInt m ↔ n ≤ m := by
  refine ⟨fun h => ?_, value_ofInt_mono⟩
  by_contra hlt
  have hprevious := value_ofInt_mono (by omega : m ≤ n - 1)
  rw [le_iff, value_ofInt hn.le] at h
  rw [@value_ofInt (n - 1) (by omega)] at hprevious
  have := Int.natCast_pos.mpr one_pos
  rw [Int.sub_mul, Int.one_mul] at hprevious
  omega

theorem same_ofInt_iff (m : Int) : (ofInt n).same (ofInt m) = true ↔ n = m := by
  rw [same_iff, le_antisymm_iff, ← le_iff, ← le_iff, ofInt_ge_ofInt_iff hn, ofInt_le_ofInt_iff hn,
    ← le_antisymm_iff]

theorem truncate_ofInt : (ofInt n).truncate = n := by
  have h := truncate_mul_one (isWhole_ofInt n)
  rw [value_ofInt hn.le] at h
  exact Int.eq_of_mul_eq_mul_right (Int.natCast_pos.mpr one_pos).ne' h

end

/-- Rounding takes the greatest signed word of 64 bits to the next power of two. -/
theorem value_ofInt_lastWord :
    (ofInt (Word.size 63 - 1)).value = (Word.size 63 : Int) * one := by
  decide +kernel

theorem value_ofInt_size : (ofInt (Word.size 63)).value = (Word.size 63 : Int) * one := by
  decide +kernel

end Binary64
end Lexicon
