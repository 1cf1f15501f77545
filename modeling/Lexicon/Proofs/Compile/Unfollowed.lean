import Lexicon.Proofs.Compile.Errors
import Lexicon.Proofs.Compile.Parallel

/-!
# References that are not followed

Under the built-in registry a document as it can be read fails to compile only at a reference that
is followed (`Document.ofReference_compile`), so it compiles where none is. The dictionary and the
policy for cycles are consulted only where a reference is followed, so nothing of the result depends
on them (`Document.compile_unfollowed`).
-/

namespace Lexicon

namespace Compile

/-! ## Errors -/

section
variable {E : CompileError → Prop} {ctx : Context} {d : Definition} {a : Address}

theorem raises_dispatchWith (hctx : ctx.Raises E) (hd : d.All Definition.Proper) :
    Raises E (dispatchWith unbounded ctx d a) := by
  have hrank := ctx.rank_lt_depth d
  rw [← dispatchWith_congr fun compiler => compileAt_eq_unbounded hrank compiler]
  exact raises_compileAt _ hctx hd hrank

theorem raising_unbounded (E : CompileError → Prop) (n : Nat) : Raising E n unbounded :=
  fun hctx hd _ => raises_dispatchWith hctx hd

theorem raises_facetsWith (hctx : ctx.Raises E) {slots : List (String × Option Definition)}
    (hslots : ∀ facet e, (facet, some e) ∈ slots → e.All Definition.Proper) :
    Raises E (facetsWith unbounded ctx a slots) := by
  induction slots with
  | nil => exact (Steady.pure []).raises
  | cons x rest ih =>
    obtain ⟨name, schema⟩ := x
    have hrest := ih fun facet e he => hslots facet e (List.mem_cons_of_mem _ he)
    refine raises_bind ?_ fun v => raises_map _ hrest
    cases schema with
    | none => exact (Steady.pure _).raises
    | some e =>
      have he := hslots name e (List.mem_cons_self ..)
      exact raises_bind (Steady.requireNode _).raises fun _ =>
        raises_map _ (raises_nodeWith (raising_unbounded E _) hctx he (ctx.rank_lt_depth e))

theorem raises_definitionWith (hctx : ctx.Raises E) (hd : d.All Definition.Proper) :
    Raises E (definitionWith unbounded ctx d a) := by
  cases hprimary : d.isPrimary with
  | false =>
    rw [definitionWith_of_not_primary _ _ hprimary]
    exact raises_map _ (raises_bind (raises_dispatchWith hctx hd) fun v =>
      (Steady.extend v _ _ a).raises)
  | true =>
    obtain ⟨c, -, hc⟩ := definitionWith_of_primary unbounded (.of_builtin hctx.registry) hprimary a
    rw [hc]
    exact raises_map c (raises_facetsWith hctx fun _ _ he => hd.slot (fun h => h.shape) he)

theorem raises_definitions (hctx : ctx.Raises E) (nsid : String) {defs : Entries Definition}
    (hdefs : ∀ e ∈ defs, e.2.All Definition.Proper) : Raises E (definitions ctx nsid defs) := by
  induction defs with
  | nil => exact (Steady.pure []).raises
  | cons e rest ih =>
    rw [definitions_cons]
    refine raises_bind (raises_bind (Steady.override? _).raises fun o => ?_) fun c =>
      raises_map _ (ih fun e' he' => hdefs e' (List.mem_cons_of_mem _ he'))
    rcases o with _ | _ | v
    · rw [Context.compileDefinition_eq]
      exact raises_map some (raises_definitionWith (hctx.enter _) (hdefs e (List.mem_cons_self ..)))
    · exact (Steady.pure _).raises
    · exact (Steady.pure _).raises

end

/-! ## Nodes -/

/-- A node is compiled in contexts that may have other dictionaries and policies for cycles, but
follow no references. -/
structure Unfollowed (ctx ctx' : Context) (d d' : Definition) (a : Address) : Prop where
  definition : d' = d
  beside : ctx.Beside ctx'
  equipped : ctx.Equipped
  constPolicy : ctx'.constPolicy = ctx.constPolicy
  followRefs : ctx.followRefs = false

/-- The nodes inside such a node are compiled in the same contexts, and no reference leads to
another one. -/
theorem simulation_unfollowed (table : OptionTable) :
    Simulation table Eq (fun ctx ctx' d d' a => Unfollowed ctx ctx' d d' a) where
  beside h := h.beside
  equipped h := h.equipped
  matching h := by
    obtain ⟨rfl, hbeside, hequipped, hpolicy, hfollow⟩ := h
    refine .self hbeside (fun _ _ _ => ⟨rfl, hbeside, hequipped, hpolicy, hfollow⟩) fun _ _ h => ?_
    rw [hfollow] at h
    exact nomatch h
  leaf h _ := by rw [h.constPolicy]

end Compile

namespace Document

variable {doc : Document} {o : CompileOptions}

/-- Under the built-in registry a document fails to compile only at a reference that is followed. -/
theorem ofReference_compile (hdoc : doc.Proper) (hdict : o.lexicons.All Proper)
    (hregistry : o.registry = {}) {e : CompileError} (he : doc.compile o = .error e) :
    o.followRefs = true ∧ e.OfReference := by
  have hgiven : Dictionary.All Proper (Context.ofOptions o).lexicons := hdict
  have hjoined := hgiven.register hdoc
  have hctx : ((Context.ofOptions o).register doc).Raises
      fun e => o.followRefs = true ∧ e.OfReference := by
    rw [Context.register_eq]
    exact {
      registry := by
        change Registry.builtin.overlaid o.registry = Registry.builtin
        rw [hregistry, Registry.overlaid_empty]
      proper := fun r d hd => hjoined.definition (fun _ h => h.proper) hd
      references := fun hfollow _ h => ⟨hfollow, h⟩ }
  exact Compile.raises_definitions hctx _ hdoc.proper _ e (compile_eq_error.mp he)

/-- Other dictionaries and policies for cycles make no difference where no reference is followed. -/
theorem compile_eq_of_unfollowed (doc : Document) (hfollow : o.followRefs = false) (dict : Dictionary)
    (policy : CyclePolicy) :
    doc.compile { o with lexicons := dict, cyclePolicy := policy } = doc.compile o := by
  have hnode : ∀ (name : String) (d : Definition) (a : Address),
      Compile.Unfollowed (doc.contextAt o name)
        (doc.contextAt { o with lexicons := dict, cyclePolicy := policy } name) d d a := by
    intro name d a
    have hbeside : ((Context.ofOptions o).register doc).Beside
        ((Context.ofOptions { o with lexicons := dict, cyclePolicy := policy }).register doc) :=
      beside_register rfl rfl
    refine ⟨rfl, hbeside.enter _, .of_overlaid (registry_contextAt doc o name), ?_, ?_⟩
    · unfold contextAt
      rw [Context.register_eq, Context.register_eq (Context.ofOptions o)]
      rfl
    · unfold contextAt
      rw [Context.register_eq]
      exact hfollow
  have hsame : Compile.Same o.table ⟨o.table, []⟩ ⟨o.table, []⟩ := ⟨rfl, Compile.keeps_self _ _⟩
  have hparallel : CompiledLexicon.Related (Compile.Same o.table) Eq (doc.compile o)
      (doc.compile { o with lexicons := dict, cyclePolicy := policy }) :=
    compile_parallel (Compile.respects_eq o.table) (Compile.simulation_unfollowed o.table) rfl rfl rfl
      hsame (List.forall₂_same.mpr fun e _ => ⟨rfl, fun _ => .self (fun _ => hnode e.1 e.2 e.1)
        fun {facet e'} _ _ => hnode e.1 e' (Address.property e.1 facet)⟩)
  exact hparallel.eq

/-- Where no reference is followed a document compiles, whatever dictionary and policy for cycles
there are, and it compiles to the same. -/
theorem compile_unfollowed {x : Json} (hdoc : ofJson x = .ok doc) (hregistry : o.registry = {})
    (hfollow : o.followRefs = false) :
    ∃ c, ∀ dict policy,
      doc.compile { o with lexicons := dict, cyclePolicy := policy } = .ok c := by
  -- The empty dictionary has no document that could not have been read.
  have hdict : Dictionary.All Proper { o with lexicons := [] }.lexicons := nofun
  cases hc : doc.compile { o with lexicons := [] } with
  | error e =>
    have hfollowed := (ofReference_compile (proper_of_ofJson hdoc) hdict hregistry hc).1
    exact absurd (hfollowed.symm.trans hfollow) (by decide)
  | ok c =>
    refine ⟨c, fun dict policy => ?_⟩
    rw [compile_eq_of_unfollowed doc hfollow, ← compile_eq_of_unfollowed doc hfollow [] o.cyclePolicy]
    exact hc

theorem compile_unfollowed_sample :
    (∃ c, ∀ dict policy,
      album.compile { followRefs := false, lexicons := dict, cyclePolicy := policy } = .ok c) ∧
      ¬ ∃ c, album.compile {} = .ok c := by
  refine ⟨compile_unfollowed (o := { followRefs := false }) ofJson_album rfl rfl, ?_⟩
  -- Where references are followed, the photo is missed.
  obtain ⟨e, he⟩ : ∃ e, album.compile {} = .error e := ⟨_, rfl⟩
  rw [he]
  exact nofun

end Document
end Lexicon
