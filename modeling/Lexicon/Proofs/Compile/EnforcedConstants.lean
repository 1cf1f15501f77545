import Lexicon.Proofs.Compile.Constants
import Lexicon.Proofs.Compile.Correctness
import Lexicon.Proofs.Json
import Lexicon.Proofs.Validator.Conversion

/-!
# What an enforced constant accepts

A node with an enforced constant is a literal whose default is the constant, whatever the other
rules of its definition are. Finishing the node puts the declared default in the place of that
default, and the literal has to accept it. So the constant is filled in where no default is
declared, and a missing value is refused where a different one is (`Context.compileNode_enforced`).
-/

namespace Lexicon

namespace Validator

variable {v : Validator} {c x : Json}

theorem accepts_literal (hkind : v.kind = .literal c) (hnullable : v.nullable = false) (x : Json) :
    v.accepts x = x.same c := by
  have hliteral : (Kind.literal c).admits x = x.same c := by rw [Kind.admits]
  rw [accepts_eq_admits, Bool.eq_iff_iff, admits_iff, hkind, hnullable]
  simp [hliteral]

/-- A literal fills in a default only if it is the literal. -/
theorem parseField_literal {e : Json} (hkind : v.kind = .literal c) (hnullable : v.nullable = false)
    (hdefault : v.default = some e) (y : Option Json) :
    v.parseField none = .ok y ↔ y = some e ∧ e.same c = true := by
  rw [parseField_eq_ok, convertField?, hdefault, Option.none_or]
  dsimp only
  rw [convert?_of_not_nullable hnullable, hkind, Kind.convert?]
  split
  · rename_i hsame
    simp [hsame, eq_comm]
  · rename_i hsame
    simp [hsame]

end Validator

namespace Compile

variable {ctx : Context} {d : Definition} {c : Json} {a : Address} {t : Tables}

theorem exists_runOn_bodyWith (apply : Apply) (ctx : Context) (hconst : d.const? = some c)
    (a : Address) (t : Tables) :
    ∃ t', (bodyWith apply ctx d a).runOn t = (.ok (d.valued ctx.constPolicy), t') := by
  cases d with
  | string s =>
    obtain ⟨v, t', hrun⟩ := (Steady.string ctx s a).exists_ok t
    have hvalue := hrun
    rw [string_eq] at hvalue
    obtain ⟨_, t₁, -, hlast⟩ := runOn_bind_eq_ok.mp hvalue
    cases hlast
    exact ⟨_, hrun⟩
  | integer s | boolean s => exact ⟨t, rfl⟩
  | _ => exact nomatch hconst

theorem dispatchWith_const (hregistry : ctx.registry = .builtin) (hconst : d.const? = some c)
    (a : Address) : dispatchWith unbounded ctx d a = bodyWith unbounded ctx d a := by
  have hproper : d.Proper := by
    cases d with
    | string _ | integer _ | boolean _ => exact ⟨nofun, nofun⟩
    | _ => exact nomatch hconst
  rw [dispatchWith_unbounded, dispatchWith_eq_bodyWith hregistry hproper]

end Compile

namespace Context

open Compile (unbounded nodeWith extendedWith)

variable {ctx : Context} {d : Definition} {c : Json} {a : Address} {t : Tables}

/-- A node with an enforced constant accepts the constant alone, under whatever rules. A missing
value becomes the constant where no default is declared. A declared default is filled in if it is
the same as the constant; otherwise a missing value is refused. -/
theorem compileNode_enforced (hregistry : ctx.registry = .builtin)
    (hpolicy : ctx.constPolicy = .enforce) (hconst : d.const? = some c) (hc : c.DistinctKeys)
    (hoverride : t.options.override? a = none) :
    ∃ v t', (ctx.compileNode d a).runOn t = (.ok (some v), t') ∧
      (∀ x, v.accepts x = x.same c) ∧
      ∀ y, v.parseField none = .ok y ↔
        y = some (d.default?.getD c) ∧ ∀ e ∈ d.default?, e.same c = true := by
  obtain ⟨t₁, hbody⟩ := Compile.exists_runOn_bodyWith unbounded ctx hconst a t
  rw [← Compile.dispatchWith_const hregistry hconst] at hbody
  have hsteady := Compile.Steady.extend (d.valued ctx.constPolicy) d.description d.default? a
  obtain ⟨v, t', hextend⟩ := hsteady.exists_ok t₁
  have hv := Compile.eq_of_runOn_extend hextend
  have hvalued : d.valued ctx.constPolicy = (Validator.literal c).withDefault c := by
    rw [Definition.valued_eq, hpolicy, hconst]
    rfl
  have hkind : v.kind = .literal c := by rw [hv, hvalued]; rfl
  have hnullable : v.nullable = false := by rw [hv, hvalued]; rfl
  have hdefault : v.default = some (d.default?.getD c) := by
    rw [hv, hvalued]
    cases d.default? <;> rfl
  refine ⟨v, t', ?_, Validator.accepts_literal hkind hnullable, fun y => ?_⟩
  · have hextended : (extendedWith unbounded ctx d a).runOn t = (.ok v, t') :=
      (Compile.runOn_bind_of_ok hbody).trans hextend
    rw [compileNode_eq, nodeWith, Compile.runOn_bind_of_ok (Compile.runOn_override? a), hoverride]
    exact Compile.runOn_bind_of_ok hextended
  · rw [Validator.parseField_literal hkind hnullable hdefault]
    cases d.default? with
    | none => simp [c.same_self hc]
    | some e => simp

def enforcing : Context := { constPolicy := .enforce }

/-- The third level is the only one, though levels begin with the fifth. -/
theorem compileNode_enforced_level :
    ∃ v t', (enforcing.compileNode (.integer { minimum := some 5, const := some (.integer 3) })
        "main").runOn {} = (.ok (some v), t') ∧
      v.accepts (.integer 3) = true ∧ v.accepts (.integer 5) = false ∧
      v.parseField none = .ok (some (.integer 3)) := by
  have hthree : (Json.integer 3).DistinctKeys := Json.distinctKeys_leaf nofun nofun
  obtain ⟨v, t', hrun, haccepts, hmissing⟩ := @compileNode_enforced enforcing
    (.integer { minimum := some 5, const := some (.integer 3) }) (.integer 3) "main" {}
    rfl rfl rfl hthree rfl
  refine ⟨v, t', hrun, ?_, ?_, (hmissing _).mpr ⟨rfl, nofun⟩⟩
  · rw [haccepts]
    rfl
  · rw [haccepts]
    rfl

/-- Gold is the only value, but silver is what a missing value becomes, so it is refused. -/
theorem compileNode_enforced_default :
    ∃ v t', (enforcing.compileNode
        (.string { default := some (.string "silver"), const := some (.string "gold") })
        "main").runOn {} = (.ok (some v), t') ∧
      v.accepts (.string "gold") = true ∧ v.default = some (.string "silver") ∧
      ∃ r, v.parseField none = .error r :=
  ⟨_, _, rfl, by decide +kernel, rfl, _, rfl⟩

end Context
end Lexicon
