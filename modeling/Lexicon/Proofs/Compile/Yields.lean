import Lexicon.Proofs.Compile.Places

/-!
# Results with a property

`Yields t P c` says that the results of `c` have the property `P` on all tables that have what the
options `t` say, and that the tables keep it. Where nothing is replaced, a property of validators
that depends on their kind passes from the nodes that are dispatched to fields, branches and facets,
and a union is left without branches only if the options omit all of them (`yields_branchesWith`).
-/

namespace Lexicon

namespace Compile

/-- On tables that have what the options say, and keep it, the results have the property. -/
def Yields (t : OptionTable) {α : Type} (P : α → Prop) (c : Compile α) : Prop :=
  ∀ s s' x, Keeps t s → c.runOn s = (.ok x, s') → P x ∧ Keeps t s'

variable {t : OptionTable}

namespace Yields

variable {α β : Type} {P : α → Prop} {Q : β → Prop} {c : Compile α} {f : α → Compile β} {a : Address}

theorem pure {x : α} (h : P x) : Yields t P (Pure.pure x : Compile α) := by
  intro s s' y hs hrun
  cases hrun
  exact ⟨h, hs⟩

theorem throw (e : CompileError) : Yields t P (MonadExcept.throw e : Compile α) :=
  fun _ _ _ _ hrun => nomatch hrun

theorem of_mirrors (h : Mirrors Eq c c) : Yields t (fun _ => True) c :=
  fun _ _ _ hs hrun => ⟨trivial, hs.run h hrun⟩

theorem mono {P' : α → Prop} (hc : Yields t P c) (h : ∀ x, P x → P' x) : Yields t P' c :=
  fun s s' x hs hrun => (hc s s' x hs hrun).imp (h x) id

theorem bind (hc : Yields t P c) (hf : ∀ x, P x → Yields t Q (f x)) : Yields t Q (c >>= f) := by
  intro s s' y hs hrun
  obtain ⟨x, s₁, hfirst, hrest⟩ := runOn_bind_eq_ok.mp hrun
  obtain ⟨hx, hs₁⟩ := hc s s₁ x hs hfirst
  exact hf x hx s₁ s' y hs₁ hrest

theorem map {g : α → β} (hc : Yields t P c) (hg : ∀ x, P x → Q (g x)) :
    Yields t Q (c >>= fun x => Pure.pure (g x)) :=
  hc.bind fun x hx => .pure (hg x hx)

theorem lift_bind {x : Except CompileError α} (hf : ∀ y, x = .ok y → Yields t Q (f y)) :
    Yields t Q (liftM x >>= f) := by
  cases x with
  | error e => exact .throw e
  | ok y => exact hf y rfl

theorem override?_bind {f : Option Override → Compile β} (hf : Yields t Q (f (t.override? a))) :
    Yields t Q (override? a >>= f) := by
  intro s s' y hs hrun
  rw [runOn_bind_of_ok (runOn_override? a), (hs a).1] at hrun
  exact hf s s' y hs hrun

theorem optionsAt_bind {f : PathOptions → Compile β}
    (hf : ∀ options, options.additional = (t.getD a).additional → Yields t Q (f options)) :
    Yields t Q (optionsAt a >>= f) := by
  intro s s' y hs hrun
  rw [runOn_bind_of_ok (runOn_optionsAt a)] at hrun
  exact hf _ (hs a).2 s s' y hs hrun

theorem extend {P : Validator → Prop} {v : Validator} (hkind : ∀ {v w}, P v → w.kind = v.kind → P w)
    (hv : P v) (description : Option String) (default : Option Json) :
    Yields t P (Compile.extend v description default a) := by
  intro s s' w hs hrun
  refine ⟨hkind hv ?_, hs.run (.extend v description default rfl) hrun⟩
  rw [eq_of_runOn_extend hrun]
  rfl

end Yields

/-! ## Nodes -/

section
variable {P : Validator → Prop} {apply : Apply} {ctx : Context} {d : Definition} {a : Address}

def Outcome (t : OptionTable) (P : Validator → Prop) (a : Address) (result : Option Validator) :
    Prop :=
  (∀ v ∈ result, P v) ∧ result.isSome = !t.omits a

theorem Outcome.getD_never {result : Option Validator} (h : Outcome t P a result)
    (hnever : P .never) : P (result.getD .never) := by
  cases result with
  | none => exact hnever
  | some v => exact h.1 v rfl

variable (hkind : ∀ {v w}, P v → w.kind = v.kind → P w)
  (hreplace : ∀ a v, t.override? a ≠ some (.replace v))

section
include hkind

theorem yields_extendedWith (h : Yields t P (dispatchWith apply ctx d a)) :
    Yields t P (extendedWith apply ctx d a) :=
  h.bind fun _ hv => .extend hkind hv _ _

include hreplace

theorem yields_nodeWith (h : t.override? a = none → Yields t P (dispatchWith apply ctx d a)) :
    Yields t (Outcome t P a) (nodeWith apply ctx d a) := by
  refine .override?_bind ?_
  unfold Outcome OptionTable.omits
  rcases hoverride : t.override? a with _ | _ | v
  · refine (yields_extendedWith hkind (h hoverride)).map fun v hv => ⟨?_, rfl⟩
    rintro _ ⟨⟩
    exact hv
  · exact .pure ⟨nofun, rfl⟩
  · exact absurd hoverride (hreplace a v)

end

section
include hkind

theorem yields_fieldsWith {s : ObjectShape Definition} {properties : Entries Definition}
    (h : ∀ e ∈ properties, Yields t (Outcome t P (a.property e.1))
      (nodeWith apply ctx e.2 (a.property e.1))) :
    Yields t (fun fields => ∀ e ∈ fields, P e.2) (fieldsWith apply ctx s a properties) := by
  induction properties with
  | nil => exact .pure nofun
  | cons e rest ih =>
    obtain ⟨hfirst, hrest⟩ := List.forall_mem_cons.mp h
    have hrequire : Yields t (fun _ => True)
        (if s.required.contains e.1 then requireNode (a.property e.1) else pure ()) := by
      split
      · exact .of_mirrors (.requireNode rfl)
      · exact .pure trivial
    rw [fieldsWith_cons]
    refine hrequire.bind fun _ _ => hfirst.bind fun result hresult => ?_
    cases result with
    | none => exact ih hrest
    | some v =>
      have hv : P v := hresult.1 v rfl
      refine (ih hrest).map fun fields hfields => List.forall_mem_cons.mpr ⟨?_, hfields⟩
      dsimp only
      split
      · exact hkind hv rfl
      · exact hv

end

/-- A union is left without branches if all of them are omitted. -/
theorem yields_branchesWith {compiler : TypeCompiler}
    (hcompiler : ctx.registry.require "ref" = .ok compiler) {refs : List String} (index : Nat)
    (h : ∀ i r, refs[i]? = some r → Yields t (Outcome t P (a.branch (index + i)))
      (nodeWith apply ctx (.ref { target := r }) (a.branch (index + i)))) :
    Yields t (fun branches => (∀ e ∈ branches, P e.2) ∧
        (branches = [] ↔ ∀ i < refs.length, t.omits (a.branch (index + i)) = true))
      (branchesWith apply ctx compiler a index refs) := by
  induction refs generalizing index with
  | nil => exact .pure ⟨nofun, by simp⟩
  | cons r rest ih =>
    have hrest := ih (index + 1) fun i r hr => by
      rw [Nat.succ_add_eq_add_succ]
      exact h (i + 1) r hr
    have hall : (∀ i < (r :: rest).length, t.omits (a.branch (index + i)) = true) ↔
        t.omits (a.branch index) = true ∧
          ∀ i < rest.length, t.omits (a.branch (index + 1 + i)) = true := by
      rw [List.length_cons, Nat.forall_lt_succ_left]
      simp only [Nat.succ_add_eq_add_succ, Nat.add_zero, Nat.succ_eq_add_one]
    unfold branchesWith
    rw [branchWith_eq_nodeWith hcompiler]
    refine (h 0 r rfl).bind fun result hresult => ?_
    obtain ⟨hv, hsome⟩ := hresult
    rw [Nat.add_zero] at hsome
    cases result with
    | none =>
      have homits : t.omits (a.branch index) = true := by simpa using hsome
      refine hrest.mono fun branches hbranches => ⟨hbranches.1, ?_⟩
      rw [hall, hbranches.2, homits, eq_self, true_and]
    | some v =>
      have homits : t.omits (a.branch index) = false := by simpa using hsome
      refine hrest.map fun branches hbranches =>
        ⟨List.forall_mem_cons.mpr ⟨hv v rfl, hbranches.1⟩, ?_⟩
      rw [hall, homits]
      simp

theorem yields_facetsWith (hnever : P .never) {slots : List (String × Option Definition)}
    (h : ∀ facet e, (facet, some e) ∈ slots →
      Yields t (Outcome t P (a.property facet)) (nodeWith apply ctx e (a.property facet))) :
    Yields t (fun vs => ∀ e ∈ vs, P e.2) (facetsWith apply ctx a slots) := by
  induction slots with
  | nil => exact .pure nofun
  | cons x rest ih =>
    obtain ⟨facet, schema⟩ := x
    have hfacet : Yields t P (schemaFacetWith apply ctx schema (a.property facet)) := by
      cases schema with
      | none => exact .pure hnever
      | some e =>
        exact (Yields.of_mirrors (.requireNode rfl)).bind fun _ _ =>
          (h facet e (List.mem_cons_self ..)).map fun _ hresult => hresult.getD_never hnever
    refine hfacet.bind fun v hv =>
      (ih fun facet e he => h facet e (List.mem_cons_of_mem _ he)).map fun vs hvs => ?_
    exact List.forall_mem_cons.mpr ⟨hv, hvs⟩

end

end Compile
end Lexicon
