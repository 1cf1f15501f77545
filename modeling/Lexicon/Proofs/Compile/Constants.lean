import Lexicon.Proofs.Compile.Easing
import Lexicon.Proofs.Validator.Output

/-!
# Constants that are enforced

Where constants are enforced, a declared constant replaces the rules of its definition; elsewhere it
is only the default. If the rules accept the constant, the two validators have the same default, and
the values that are the same as the constant are among those that the rules admit
(`Definition.valued_refines`). The two compilations of a document run in parallel, so enforcing its
constants makes it accept less and nothing else (`Document.compile_enforced`).
-/

namespace Lexicon

/-! ## Values that are the same -/

theorem StringRules.admits_same (rules : StringRules) {x y : Json} (hsame : y.same x = true)
    (hx : rules.admits x = true) : rules.admits y = true := by
  cases x with
  | string s =>
    cases y with
    | string s' =>
      obtain rfl : s' = s := by simpa [Json.same] using hsame
      exact hx
    | _ => simp [Json.same] at hsame
  | _ => exact (Bool.false_ne_true hx).elim

theorem NumberRules.admits_same (rules : NumberRules) {x y : Json} (hsame : y.same x = true)
    (hx : rules.admits x = true) : rules.admits y = true := by
  cases x with
  | number n =>
    cases y with
    | number m =>
      have hvalue : m.toBinary64.value = n.toBinary64.value := by
        cases m with
        | integer i =>
          cases n with
          | integer j =>
            obtain rfl : i = j := by simpa [Json.same, Number.same] using hsame
            rfl
          | float _ => simp [Json.same, Number.same] at hsame
        | float u =>
          cases n with
          | integer _ => simp [Json.same, Number.same] at hsame
          | float w =>
            simp only [Json.same, Number.same, Binary64.same_iff] at hsame
            exact hsame
      have hm : rules.valueOf? (.number m) = some m.toBinary64 := rfl
      have hn : rules.valueOf? (.number n) = some n.toBinary64 := rfl
      rwa [NumberRules.admits_congr hm hn hvalue]
    | _ => simp [Json.same] at hsame
  | string s =>
    cases y with
    | string s' =>
      obtain rfl : s' = s := by simpa [Json.same] using hsame
      exact hx
    | _ => simp [Json.same] at hsame
  | _ => exact (Bool.false_ne_true hx).elim

/-! ## Definitions with a constant -/

namespace Definition

def const? : Definition → Option Json
  | string s => s.const
  | integer s => s.const
  | boolean s => s.const
  | _ => none

def bareValidator : Definition → Validator
  | string s => { s with const := none }.validator .default
  | integer s => { s with const := none }.validator .default
  | boolean s => { s with const := none }.validator .default
  | _ => .any

def ConstFits (d : Definition) : Prop :=
  ∀ x, d.const? = some x → d.bareValidator.accepts x = true

theorem valued_eq (policy : ConstPolicy) (d : Definition) :
    d.valued policy = policy.apply d.const? d.bareValidator := by
  cases d <;> rfl

theorem nullable_bareValidator (d : Definition) : d.bareValidator.nullable = false := by
  cases d with
  | string s =>
    rw [bareValidator, StringShape.validator_default]
  | integer s =>
    rw [bareValidator, IntegerShape.validator_default]
  | _ => rfl

theorem bareValidator_admits_same (d : Definition) {x y : Json} (hsame : y.same x = true)
    (hx : d.bareValidator.kind.admits x = true) : d.bareValidator.kind.admits y = true := by
  cases d with
  | string s =>
    rw [bareValidator, StringShape.validator_default, Kind.admits] at hx ⊢
    exact StringRules.admits_same _ hsame hx
  | integer s =>
    rw [bareValidator, IntegerShape.validator_default, Kind.admits] at hx ⊢
    exact NumberRules.admits_same _ hsame hx
  | boolean s =>
    rw [bareValidator, BooleanShape.validator_default, Kind.admits] at hx ⊢
    cases x with
    | bool b =>
      cases y with
      | bool _ => rfl
      | _ => simp [Json.same] at hsame
    | _ => exact (Bool.false_ne_true hx).elim
  | _ =>
    change Kind.admits .any y = true
    rw [Kind.admits]

/-- The constant alone is less than the rules admit, and its default is the same. -/
theorem valued_refines {d : Definition} (h : d.ConstFits) :
    (d.valued .enforce).Refines (d.valued .default) := by
  rw [valued_eq, valued_eq]
  cases hconst : d.const? with
  | none => exact .refl _
  | some x =>
    have haccepts := h x hconst
    rw [Validator.accepts_eq_admits, Validator.admits_iff] at haccepts
    have hx : d.bareValidator.kind.admits x = true := by
      rcases haccepts.1 x rfl with ⟨hnullable, -⟩ | hx
      · rw [d.nullable_bareValidator] at hnullable
        exact nomatch hnullable
      · exact hx
    constructor
    · intro y hy
      change Kind.admits (.literal x) y = true at hy
      rw [Kind.admits] at hy
      exact d.bareValidator_admits_same hy hx
    · exact nofun
    · exact nofun
    · exact nofun
    · rfl

end Definition

/-! ## Documents -/

def Context.under (ctx : Context) (policy : ConstPolicy) : Context :=
  { ctx with constPolicy := policy }

namespace Document

variable {doc : Document} {o : CompileOptions}

theorem contextAt_under (doc : Document) (o : CompileOptions) (policy : ConstPolicy)
    (name : String) :
    doc.contextAt { o with constPolicy := policy } name = (doc.contextAt o name).under policy := by
  have hleft := (Context.ofOptions { o with constPolicy := policy }).register_eq doc
  have hright := (Context.ofOptions o).register_eq doc
  have hlexicons : ((Context.ofOptions { o with constPolicy := policy }).register doc).lexicons =
      ((Context.ofOptions o).register doc).lexicons := Context.lexicons_register rfl
  unfold contextAt
  rw [hleft, hlexicons]
  conv => rhs; rw [hright]
  rfl

/-- The constants that are compiled fit if those of all definitions do. -/
theorem constFits_of_all (hregistry : o.registry = {})
    (hdoc : ∀ e ∈ doc.defs, e.2.All fun d => d.Proper ∧ d.ConstFits)
    (hdict : Dictionary.All (fun doc => ∀ e ∈ doc.defs, e.2.All fun d => d.Proper ∧ d.ConstFits)
      o.lexicons) {x : Occurrence} {e : Definition} (hx : doc.Occurs o x)
    (he : x.context.Views x.definition e) : e.ConstFits := by
  have hshape : ∀ {d : Definition} {s}, (d.Proper ∧ d.ConstFits) → s ∈ d.shapes →
      (Definition.object s).Proper ∧ (Definition.object s).ConstFits :=
    fun hd hs => ⟨hd.1.shape hs, nofun⟩
  have hx' := hx.all (fun _ => And.left) hshape (fun _ _ => ⟨⟨nofun, nofun⟩, nofun⟩) hregistry hdoc
    hdict
  have hbuiltin : x.context.registry = .builtin := by
    rw [hx.registry, hregistry, Registry.overlaid_empty]
  exact (all_of_views (fun _ => And.left) hshape hbuiltin hx' he).here.2

inductive UnderBoth (doc : Document) (o : CompileOptions) : Compile.NodeRelation
  | intro {x : Occurrence} (hx : doc.Occurs o x) (hoverride : o.table.override? x.address = none) :
    UnderBoth doc o (x.context.under .enforce) (x.context.under .default) x.definition x.definition
      x.address

theorem simulation_underBoth
    (hconst : ∀ x e, doc.Occurs o x → o.table.override? x.address = none →
      x.context.Views x.definition e → e.ConstFits) :
    Compile.Simulation o.table Validator.Refines (UnderBoth doc o) where
  beside := by
    rintro _ _ _ _ _ ⟨_, _⟩
    exact ⟨rfl, rfl, rfl⟩
  equipped := by
    rintro _ _ _ _ _ ⟨hx, _⟩
    exact .of_overlaid hx.registry
  matching := by
    rintro _ _ _ _ _ ⟨hx, hoverride⟩
    refine .self ⟨rfl, rfl, rfl⟩ (fun hview hslot hinside => ?_) fun s hview hfollow =>
      .self rfl rfl fun target e hlookup hscope he => ?_
    · exact .intro (hx.inside hoverride hview hslot) hinside
    · exact .intro (hx.referent hoverride hview hfollow hlookup hscope he) hoverride
  leaf := by
    intro ctx ctx' d e a h hview
    generalize hd : d = d' at h
    cases h with
    | intro hx hoverride =>
      subst hd
      exact Definition.valued_refines (hconst _ e hx hoverride hview)

/-- Enforcing constants and not enforcing them run in parallel. -/
theorem related_enforced
    (hconst : ∀ x e, doc.Occurs o x → o.table.override? x.address = none →
      x.context.Views x.definition e → e.ConstFits) :
    CompiledLexicon.Related (Compile.Eased o.table) Validator.Refines
      (doc.compile { o with constPolicy := .enforce })
      (doc.compile { o with constPolicy := .default }) := by
  have hsame : Compile.Eased o.table ⟨o.table, []⟩ ⟨o.table, []⟩ :=
    ⟨fun _ => .inl rfl, fun _ => rfl, rfl⟩
  have hsimulation : Compile.Simulation o.table Validator.Refines (UnderBoth doc o) :=
    simulation_underBoth hconst
  refine compile_parallel (Compile.respects_refines o.table) hsimulation rfl rfl rfl hsame
    (List.forall₂_same.mpr fun e he => ⟨rfl, fun hoverride => ?_⟩)
  rw [contextAt_under doc o .enforce, contextAt_under doc o .default]
  refine .self (fun hprimary => ?_) fun {facet e'} hslot hfacet => ?_
  · have hplain : e.2.isPrimary = true → o.table.override? e.1 ≠ none := fun h =>
      absurd (hprimary.symm.trans h) (by decide)
    have hx : doc.Occurs o { context := _, definition := e.2, address := e.1, place := _ } :=
      .definition he hplain
    exact .intro hx hoverride
  · have hx : doc.Occurs o
        { context := _, definition := e', address := Address.property e.1 facet, place := _ } :=
      .facet he hoverride hslot
    exact .intro hx hfacet

/-- If each constant that is compiled fits its definition, what a document accepts where constants
are enforced it accepts where they are defaults. -/
theorem compile_enforced {c₀ : CompiledLexicon}
    (hconst : ∀ x e, doc.Occurs o x → o.table.override? x.address = none →
      x.context.Views x.definition e → e.ConstFits)
    (hc : doc.compile o = .ok c₀) :
    ∃ c c', doc.compile { o with constPolicy := .enforce } = .ok c ∧
      doc.compile { o with constPolicy := .default } = .ok c' ∧ c.Within c' := by
  -- One of the two is the compilation that succeeds.
  have hone : doc.compile { o with constPolicy := .enforce } = .ok c₀ ∨
      doc.compile { o with constPolicy := .default } = .ok c₀ := by
    cases hpolicy : o.constPolicy with
    | enforce =>
      left
      rwa [← hpolicy]
    | default =>
      right
      rwa [← hpolicy]
  obtain ⟨c, c', hleft, hright, hdefs⟩ := (related_enforced hconst).exists_of_ok hone
  exact ⟨c, c', hleft, hright, CompiledLexicon.within_of_refines hdefs⟩

def badge : Document where
  id := some "app.badge"
  defs := [("main", .object {
    properties := [
      ("kind", .string { maxLength := some 8, const := some (.string "gold") }),
      ("level", .integer { minimum := some 1, const := some (.number (.integer 3)) })] })]

theorem constFits_badge :
    ∀ e ∈ badge.defs, e.2.All fun d => d.Proper ∧ d.ConstFits := by
  have hkind : (Definition.string
      { maxLength := some 8, const := some (.string "gold") }).ConstFits := by
    rintro x ⟨⟩
    rfl
  have hlevel : (Definition.integer
      { minimum := some 1, const := some (.number (.integer 3)) }).ConstFits := by
    rintro x ⟨⟩
    decide +kernel
  intro e he
  obtain rfl := List.mem_singleton.mp he
  refine .intro ⟨⟨?_, nofun⟩, nofun⟩ fun p hp => ?_
  · intro s hs
    obtain rfl := List.mem_singleton.mp hs
    decide
  · rcases Definition.mem_parts.mp hp with ⟨s, hs, hp⟩ | hp
    · obtain rfl := List.mem_singleton.mp hs
      rcases List.mem_cons.mp hp with rfl | hp
      · exact .intro ⟨⟨nofun, nofun⟩, hkind⟩ nofun
      · obtain rfl := List.mem_singleton.mp hp
        exact .intro ⟨⟨nofun, nofun⟩, hlevel⟩ nofun
    · exact nomatch hp

theorem compile_enforced_sample :
    ∃ c c', badge.compile { constPolicy := .enforce } = .ok c ∧
      badge.compile { constPolicy := .default } = .ok c' ∧ c.Within c' ∧
      (c.at? { name := "main" }).map (·.accepts (.object [("kind", .string "silver")])) =
        some false ∧
      (c'.at? { name := "main" }).map (·.accepts (.object [("kind", .string "silver")])) =
        some true := by
  obtain ⟨c₀, hc⟩ : ∃ c, badge.compile {} = .ok c := ⟨_, rfl⟩
  obtain ⟨c, c', hleft, hright, hwithin⟩ := compile_enforced (o := {})
    (fun x e hx _ he => constFits_of_all rfl constFits_badge (by rintro _ _ ⟨⟩) hx he) hc
  have henforced : (badge.compile { constPolicy := .enforce }).toOption.map (fun c =>
      (c.at? { name := "main" }).map (·.accepts (.object [("kind", .string "silver")]))) =
        some (some false) := by decide +kernel
  have hdefault : (badge.compile { constPolicy := .default }).toOption.map (fun c =>
      (c.at? { name := "main" }).map (·.accepts (.object [("kind", .string "silver")]))) =
        some (some true) := by decide +kernel
  rw [hleft] at henforced
  rw [hright] at hdefault
  exact ⟨c, c', hleft, hright, hwithin, Option.some.inj henforced, Option.some.inj hdefault⟩

end Document
end Lexicon
