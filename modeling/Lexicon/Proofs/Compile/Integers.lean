import Lexicon.Proofs.Binary64
import Lexicon.Proofs.Compile.Depth
import Lexicon.Proofs.Compile.Realizes
import Lexicon.Proofs.Validator.Conversion
import Lexicon.Proofs.Validator.Output

/-!
# Integers are read as doubles

The validator of an integer compares the doubles nearest to the value, to the bounds and to the
listed members, and puts out the double of the value. Rounding keeps the order, so what the
definition admits is accepted; what is accepted is admitted, and put out as it is, where the value
has at most 53 bits (`IntegerShape.parse_rounded`). Beyond these bits a value above the maximum may
be accepted and changed (`IntegerShape.parse_beyond`).
-/

namespace Lexicon

def IntegerShape.Admits (s : IntegerShape) (n : Int) : Prop :=
  (∀ m ∈ s.minimum, m ≤ n) ∧ (∀ m ∈ s.maximum, n ≤ m) ∧ ∀ ms ∈ s.oneOf, n ∈ ms

/-- The nearest double is in the bounds and among the listed members, as far as doubles can tell. -/
def IntegerShape.AdmitsNearest (s : IntegerShape) (x : Binary64) : Prop :=
  (∀ m ∈ s.minimum, Binary64.ofInt m ≤ x) ∧ (∀ m ∈ s.maximum, x ≤ Binary64.ofInt m) ∧
    ∀ ms ∈ s.oneOf, ∃ m ∈ ms, x.same (Binary64.ofInt m) = true

namespace IntegerShape

variable {s : IntegerShape} {n : Int}

/-- Rounding admits nothing less. -/
theorem Admits.nearest (h : s.Admits n) : s.AdmitsNearest (Binary64.ofInt n) := by
  obtain ⟨hminimum, hmaximum, honeOf⟩ := h
  refine ⟨fun m hm => ?_, fun m hm => ?_, fun ms hms => ?_⟩
  · exact Binary64.value_ofInt_mono (hminimum m hm)
  · exact Binary64.value_ofInt_mono (hmaximum m hm)
  · exact ⟨n, honeOf ms hms, (Binary64.same_iff _ _).mpr rfl⟩

/-- An integer of at most 53 bits is admitted exactly when its double is. -/
theorem admitsNearest_iff (hn : n.natAbs < 2 ^ 53) :
    s.AdmitsNearest (Binary64.ofInt n) ↔ s.Admits n := by
  unfold AdmitsNearest Admits
  simp only [Binary64.ofInt_le_ofInt_iff hn, Binary64.ofInt_ge_ofInt_iff hn,
    Binary64.same_ofInt_iff hn, exists_eq_right']

def rules (s : IntegerShape) : NumberRules where
  minimum := s.minimum.map Binary64.ofInt
  maximum := s.maximum.map Binary64.ofInt
  whole := true
  coerce := true
  oneOf := s.oneOf.map fun ms => ms.map Binary64.ofInt

theorem admits_rules_iff : s.rules.admits (.integer n) = true ↔ s.AdmitsNearest (Binary64.ofInt n) := by
  have hvalue : s.rules.valueOf? (.integer n) = some (Binary64.ofInt n) := rfl
  unfold NumberRules.admits AdmitsNearest
  rw [hvalue]
  simp only [rules, Bool.not_true, Bool.false_or, Bool.and_eq_true, Binary64.isWhole_ofInt, true_and,
    Option.all_map, Option.all_eq_true, Function.comp_apply, decide_eq_true_eq, List.any_map,
    List.any_eq_true, Option.mem_def, and_assoc]

theorem integral_ofInt (hn : Word.FitsSigned 64 n) : s.rules.Integral (Binary64.ofInt n) := by
  obtain ⟨hlower, hupper⟩ := hn
  refine ⟨rfl, Binary64.isWhole_ofInt n, ?_, ?_⟩
  · exact Binary64.value_ofInt_mono hlower
  · exact Binary64.value_ofInt_mono hupper.le

theorem kind_validator (hs : s.const = none) (policy : ConstPolicy) :
    s.validator policy = { kind := .number s.rules } := by
  have hpolicy : s.validator policy = s.validator .default := by
    unfold validator
    rw [hs]
    rfl
  rw [hpolicy, validator_default, hs]
  rfl

/-- A whole number in the range of the word is accepted where its double is admitted, and its double
is put out. -/
theorem convert?_validator (hs : s.const = none) (policy : ConstPolicy)
    (hn : Word.FitsSigned 64 n) (y : Json) :
    (s.validator policy).convert? (.integer n) = some y ↔
      s.AdmitsNearest (Binary64.ofInt n) ∧
        y = .integer (min (Binary64.ofInt n).truncate (Word.size 63 - 1)) := by
  have hvalue : s.rules.valueOf? (.integer n) = some (Binary64.ofInt n) := rfl
  rw [kind_validator hs, Validator.convert?_of_not_nullable rfl, Kind.convert?, hvalue,
    Option.map_some, NumberRules.output_of_integral (integral_ofInt hn), ← admits_rules_iff]
  cases s.rules.admits (.integer n) <;> simp [eq_comm]

/-- An integer of the signed word is checked, and put out, as the double nearest to it. All that the
definition admits is accepted, and an integer of at most 53 bits is accepted only if it is admitted,
and is put out as it is, whatever the bounds and the members are. -/
theorem parse_rounded (ctx : Context) (a : Address) (t : Tables) (hs : s.const = none)
    (hn : Word.FitsSigned 64 n) :
    ∃ v, (ctx.apply (.integer s) a (.node .integer)).runOn t = (.ok v, t) ∧
      (∀ y, v.parse (.integer n) = .ok y ↔ s.AdmitsNearest (Binary64.ofInt n) ∧
        y = .integer (min (Binary64.ofInt n).truncate (Word.size 63 - 1))) ∧
      (s.Admits n → v.accepts (.integer n) = true) ∧
      (n.natAbs < 2 ^ 53 → ∀ y, v.parse (.integer n) = .ok y ↔ s.Admits n ∧ y = .integer n) := by
  have hparse : ∀ y, (s.validator ctx.constPolicy).parse (.integer n) = .ok y ↔
      s.AdmitsNearest (Binary64.ofInt n) ∧
        y = .integer (min (Binary64.ofInt n).truncate (Word.size 63 - 1)) :=
    fun y => Validator.parse_eq_ok.trans (convert?_validator hs ctx.constPolicy hn y)
  have hrun : ctx.apply (.integer s) a (.node .integer) = pure (s.validator ctx.constPolicy) :=
    Compile.unbounded_eq (.node .integer) ctx (.integer s) a
  refine ⟨s.validator ctx.constPolicy, by rw [hrun, Compile.runOn_pure], hparse, fun h => ?_, ?_⟩
  · unfold Validator.accepts
    rw [(hparse _).mpr ⟨h.nearest, rfl⟩]
  · intro hbits y
    have hlast : n ≤ Word.size 63 - 1 := by
      have hsize : n < Word.size 63 := hn.2
      omega
    rw [hparse, admitsNearest_iff hbits, Binary64.truncate_ofInt hbits, min_eq_left hlast]

def size : IntegerShape := { maximum := some (2 ^ 53) }

theorem parse_rounded_size :
    ∃ v t, (Context.apply {} (.integer size) "main" (.node .integer)).runOn {} = (.ok v, t) ∧
      v.parse (.integer (2 ^ 53 - 1)) = .ok (.integer (2 ^ 53 - 1)) := by
  have hfits : Word.FitsSigned 64 (2 ^ 53 - 1) := by decide
  have hadmits : size.Admits (2 ^ 53 - 1) := by
    refine ⟨nofun, fun m hm => ?_, nofun⟩
    obtain rfl := Option.some.inj hm
    decide
  obtain ⟨v, hrun, -, -, hparse⟩ :=
    parse_rounded {} "main" {} (rfl : size.const = none) hfits
  exact ⟨v, {}, hrun, (hparse (by decide) _).mpr ⟨hadmits, rfl⟩⟩

/-- One more than the maximum is accepted, and the maximum is put out. -/
theorem parse_beyond :
    ∃ v, (Context.apply {} (.integer size) "main" (.node .integer)).runOn {} = (.ok v, {}) ∧
      v.parse (.integer (2 ^ 53 + 1)) = .ok (.integer (2 ^ 53)) ∧ ¬ size.Admits (2 ^ 53 + 1) := by
  have hfits : Word.FitsSigned 64 (2 ^ 53 + 1) := by decide
  have hnearest : size.AdmitsNearest (Binary64.ofInt (2 ^ 53 + 1)) := by
    refine ⟨nofun, fun m hm => ?_, nofun⟩
    obtain rfl := Option.some.inj hm
    decide +kernel
  have houtput : min (Binary64.ofInt (2 ^ 53 + 1)).truncate (Word.size 63 - 1) = 2 ^ 53 := by
    decide +kernel
  refine ⟨size.validator .default, rfl, ?_, fun h => ?_⟩
  · rw [Validator.parse_eq_ok, convert?_validator rfl .default hfits, houtput]
    exact ⟨hnearest, rfl⟩
  · exact absurd (h.2.1 _ rfl) (by decide)

end IntegerShape
end Lexicon
