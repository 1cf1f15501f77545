import Lexicon.Proofs.Compile.Definitions
import Lexicon.Proofs.Compile.Nodes
import Lexicon.Proofs.Outline.Options

/-!
# Nodes are where options count

The options at an address count if others there change what comes of a compilation elsewhere. Where
nothing is omitted or replaced, that is so exactly at the nodes of the document (`counts_iff`): at
most of them other metadata come back, and an envelope can be omitted.
-/

namespace Lexicon

namespace Compile

variable {ctx : Context} {nsid : String} {e : String × Definition} {t t' : Tables}

theorem override?_definitionAt {c : Option Compiled}
    (hrun : (definitionAt ctx nsid e).runOn t = (.ok c, t')) (a : Address) :
    t'.options.override? a = t.options.override? a := by
  have hsame : ctx.lexicons.Alike ctx.lexicons := fun _ => rfl
  have hmirrors : Mirrors Eq (definitionAt ctx nsid e) (definitionAt ctx nsid e) :=
    mirrors_definitionAt nsid (fun _ _ key h => congrArg (Address.property · key) h) hsame rfl
  have heffect := hmirrors.effect t
  rw [hrun] at heffect
  exact (heffect.marked a).unchanged.1

theorem isSome_definitionAt {c : Option Compiled}
    (hrun : (definitionAt ctx nsid e).runOn t = (.ok c, t')) :
    c.isSome ↔ t.options.override? e.1 ≠ some .omit := by
  rw [definitionAt, runOn_bind_of_ok (runOn_override? _)] at hrun
  cases hoverride : t.options.override? e.1 with
  | none =>
    rw [hoverride] at hrun
    obtain ⟨compiled, s, -, hpure⟩ := runOn_bind_eq_ok.mp hrun
    cases hpure
    simp
  | some o =>
    rw [hoverride] at hrun
    cases o <;> cases hrun <;> simp

/-- The definitions that the options omit are left out, and the others keep their order. -/
theorem keys_definitions {defs : Entries Definition} {compiled : Entries Compiled}
    (hrun : (definitions ctx nsid defs).runOn t = (.ok compiled, t')) :
    compiled.keys = defs.keys.filter fun name => !t.options.omits name := by
  induction defs generalizing t compiled with
  | nil =>
    cases hrun
    rfl
  | cons e rest ih =>
    rw [definitions_cons] at hrun
    obtain ⟨c, s, hc, hrest⟩ := runOn_bind_eq_ok.mp hrun
    obtain ⟨others, s', hothers, hresult⟩ := runOn_bind_eq_ok.mp hrest
    cases hresult
    have hsome : c.isSome = !t.options.omits e.1 := by
      rw [Bool.eq_iff_iff, isSome_definitionAt hc, Bool.not_eq_true', ← Bool.not_eq_true,
        OptionTable.omits_iff]
    have homits : s.options.omits = t.options.omits := by
      funext name
      rw [OptionTable.omits, OptionTable.omits, override?_definitionAt hc]
    rw [Entries.keys_append, ih hothers, homits, Entries.keys_cons, List.filter_cons, ← hsome]
    cases c <;> rfl

/-- A top-level definition is there after a compilation unless the options omit it. -/
theorem mem_keys_definitions {defs : Entries Definition} {compiled : Entries Compiled}
    (hrun : (definitions ctx nsid defs).runOn t = (.ok compiled, t')) (name : String) :
    name ∈ compiled.keys ↔ name ∈ defs.keys ∧ t.options.override? name ≠ some .omit := by
  rw [keys_definitions hrun, List.mem_filter, Bool.not_eq_true', ← Bool.not_eq_true,
    OptionTable.omits_iff]

end Compile

namespace Document

open Outline (addresses TypeFlag)

variable {doc : Document} {o : CompileOptions} {c : CompiledLexicon} {p : Address}

/-- With other options at the address the document compiles to something else, or no more. -/
def Counts (doc : Document) (o : CompileOptions) (p : Address) : Prop :=
  ∃ table : OptionTable, (∀ q, q ≠ p → table.get? q = o.table.get? q) ∧
    ¬ Compile.SameOff p (doc.compile { o with table := table }) (doc.compile o)

/-- Other options at one address. -/
theorem counts_of_insert (options : PathOptions) (hc : doc.compile o = .ok c)
    (h : ∀ c', doc.compile { o with table := o.table.insert p options } = .ok c' →
      c'.defs.keys ≠ c.defs.keys ∨ c'.metadata ≠ c.metadata) : doc.Counts o p := by
  refine ⟨o.table.insert p options, fun q hq => ?_, fun hsame => ?_⟩
  · rw [OptionTable.get?_insert, if_neg hq.symm]
  · rw [hc] at hsame
    cases hc' : doc.compile { o with table := o.table.insert p options } with
    | error e =>
      rw [hc'] at hsame
      exact hsame
    | ok c' =>
      rw [hc'] at hsame
      rcases h c' hc' with hdefs | hmetadata
      · exact hdefs (congrArg Entries.keys hsame.defs)
      · exact hmetadata hsame.metadata

/-- A top-level definition of a document that compiles is not there if it is omitted. -/
theorem counts_of_mem_keys (hoverrides : ∀ q, o.table.override? q = none)
    (hc : doc.compile o = .ok c) (hp : p ∈ doc.defs.keys) : doc.Counts o p := by
  obtain ⟨defs, tables, hrun, rfl⟩ := compile_eq_ok.mp hc
  have hthere := (Compile.mem_keys_definitions hrun p).mpr ⟨hp, by rw [hoverrides]; exact nofun⟩
  refine counts_of_insert { override? := some .omit } hc fun c' hc' => .inl fun hkeys => ?_
  obtain ⟨defs', tables', hrun', rfl⟩ := compile_eq_ok.mp hc'
  have hgone := (Compile.mem_keys_definitions hrun' p).mp (hkeys ▸ hthere)
  refine hgone.2 ?_
  simp only [OptionTable.override?, OptionTable.getD, OptionTable.get?_insert, if_pos]
  rfl

section
variable (hdoc : doc.Proper) (hdict : Dictionary.All Proper o.lexicons)
  (hregistry : o.registry = {}) (hoverrides : ∀ q, o.table.override? q = none)
  (hc : doc.compile o = .ok c)
include hdoc hdict hregistry hoverrides hc

/-- A node that is extended returns metadata: give it some that have not come back yet. -/
theorem counts_of_mem_visited (hp : p ∈ doc.visited o) : doc.Counts o p := by
  obtain ⟨value, hvalue⟩ : ∃ value, ((c.metadata.find? p).getD []).find? "label" ≠ some value := by
    by_cases hbefore : ((c.metadata.find? p).getD []).find? "label" = some (.bool true)
    · exact ⟨.bool false, by simp [hbefore]⟩
    · exact ⟨.bool true, hbefore⟩
  let given : PathOptions := { o.table.getD p with metadata? := some [("label", value)] }
  have hinsert : ∀ q, (o.table.insert p given).getD q =
      if p = q then given else o.table.getD q := by
    intro q
    rw [OptionTable.getD, OptionTable.get?_insert]
    split <;> rfl
  have hnone : ∀ q, (o.table.insert p given).override? q = none := by
    intro q
    rw [OptionTable.override?, hinsert]
    split
    · exact hoverrides p
    · exact hoverrides q
  refine counts_of_insert given hc fun c' hc' => .inr fun hmetadata => ?_
  have hgiven : ((o.table.insert p given).getD p).metadata? = some [("label", value)] := by
    rw [hinsert, if_pos rfl]
  have hlabel : ¬ TypeFlag p "label" := fun h => absurd h.1 (by decide)
  have hfind : Entries.find? [("label", value)] "label" = some value := rfl
  let changed : CompileOptions := { o with table := o.table.insert p given }
  obtain ⟨recorded, hfound, hlabelled⟩ := recorded_of_mem_visited (o := changed) hdoc hdict
    hregistry hnone hp hgiven (List.pairwise_singleton ..) hfind hlabel hc'
  rw [hmetadata] at hfound
  rw [hfound] at hvalue
  exact hvalue hlabelled

/-- Options count exactly at the nodes. -/
theorem counts_iff : doc.Counts o p ↔ p ∈ addresses (doc.nodes o) := by
  constructor
  · rintro ⟨table, htable, hdiffers⟩
    by_contra hp
    exact hdiffers (sameOff_compile
      ((covers_definitions hdoc hdict hregistry).toConsults.ignores hp) htable)
  · intro hp
    by_cases hkey : p ∈ doc.defs.keys
    · exact counts_of_mem_keys hoverrides hc hkey
    · have hvisited := mem_visited hp fun e he h => absurd (h ▸ List.mem_map_of_mem he) hkey
      exact counts_of_mem_visited hdoc hdict hregistry hoverrides hc hvisited

end
end Document
end Lexicon
