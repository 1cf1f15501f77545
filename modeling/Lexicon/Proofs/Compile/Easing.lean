import Lexicon.Proofs.Compile.Flags
import Lexicon.Proofs.Compile.Parallel
import Lexicon.Proofs.Validator.Refines

/-!
# Nodes that are made optional

Options are eased where nodes are made optional, and a node that was made optional stays so, however
it is marked afterwards (`PathOptions.Eases.mandatory`). A compilation on tables that are eased runs
in parallel with the one on the tables as they were, and gives validators that accept at least the
same (`respects_refines`). So a document that compiles still does when nodes are made optional, and
no value is lost (`Document.compile_eased`).
-/

namespace Lexicon

def PathOptions.Eases (o o' : PathOptions) : Prop :=
  o' = o ∨ o' = { o with required? := some false }

namespace PathOptions.Eases

variable {o o' o'' : PathOptions}

theorem unchanged (h : o.Eases o') :
    o'.override? = o.override? ∧ o'.metadata? = o.metadata? ∧ o'.additional = o.additional := by
  rcases h with rfl | rfl
  · exact ⟨rfl, rfl, rfl⟩
  · exact ⟨rfl, rfl, rfl⟩

theorem trans (h : o.Eases o') (h' : o'.Eases o'') : o.Eases o'' := by
  rcases h with rfl | rfl
  · exact h'
  · rcases h' with rfl | rfl
    · exact .inr rfl
    · exact .inr rfl

/-- What was made optional is not made mandatory again. -/
theorem mandatory (h : o.Eases o') : o.mandatory.Eases o'.mandatory := by
  rcases h with rfl | rfl
  · exact .inl rfl
  · right
    unfold PathOptions.mandatory
    rw [if_pos rfl]
    split
    · rfl
    · rfl

/-- A field that was optional still is. -/
theorem optional (h : o.Eases o') (ho : (o.required? != some true) = true) :
    (o'.required? != some true) = true := by
  rcases h with rfl | rfl
  · exact ho
  · rfl

end PathOptions.Eases

namespace OptionTable

def easedAt (t : OptionTable) (a : Address) : OptionTable :=
  t.insert a { t.getD a with required? := some false }

def eased (t : OptionTable) (addresses : List Address) : OptionTable :=
  addresses.foldl easedAt t

theorem eases_easedAt (t : OptionTable) (a q : Address) : (t.getD q).Eases ((t.easedAt a).getD q) := by
  have hgetD : (t.easedAt a).getD q =
      if a = q then { t.getD a with required? := some false } else t.getD q := by
    unfold getD easedAt
    rw [get?_insert]
    split <;> rfl
  rw [hgetD]
  split
  · rename_i haq
    rw [haq]
    exact .inr rfl
  · exact .inl rfl

theorem eases_eased (t : OptionTable) (addresses : List Address) (q : Address) :
    (t.getD q).Eases ((t.eased addresses).getD q) := by
  induction addresses generalizing t with
  | nil => exact .inl rfl
  | cons a rest ih => exact (t.eases_easedAt a q).trans (ih (t.easedAt a))

end OptionTable

namespace Compile

variable {table : OptionTable} {t t' : Tables} {a : Address}

structure Eased (table : OptionTable) (t t' : Tables) : Prop where
  options : ∀ q, (t.options.getD q).Eases (t'.options.getD q)
  override? : ∀ q, t.options.override? q = table.override? q
  metadata : t'.metadata = t.metadata

namespace Eased

theorem markRequired (h : Eased table t t') (a : Address) :
    Eased table { t with options := t.options.markRequired a }
      { t' with options := t'.options.markRequired a } where
  options q := by
    rw [OptionTable.getD_markRequired, OptionTable.getD_markRequired]
    split
    · exact (h.options a).mandatory
    · exact h.options q
  override? q := by
    rw [← h.override? q, OptionTable.override?, OptionTable.override?,
      OptionTable.getD_markRequired]
    split
    · rename_i haq
      rw [PathOptions.override?_mandatory, haq]
    · rfl
  metadata := h.metadata

theorem requireNode (a : Address) :
    Parallel (Eased table) Eq (requireNode a) (requireNode a) := by
  intro t t' ht
  have hoverride : t'.options.override? a = t.options.override? a := (ht.options a).unchanged.1
  rw [runOn_requireNode, runOn_requireNode, hoverride]
  split
  · exact .ok rfl (ht.markRequired a)
  · exact .ok rfl ht

theorem recordMetadata (a : Address) (entries : Entries Json) :
    Parallel (Eased table) Eq (recordMetadata a entries) (recordMetadata a entries) := by
  intro t t' ht
  rw [runOn_recordMetadata, runOn_recordMetadata, ht.metadata]
  exact .ok rfl ⟨ht.options, ht.override?, rfl⟩

theorem extend {v w : Validator} (hv : v.Refines w) (description : Option String)
    (default : Option Json) (a : Address) :
    Parallel (Eased table) Validator.Refines (extend v description default a)
      (extend w description default a) := by
  intro t t' ht
  have heases := ht.options a
  rw [extend_eq, extend_eq, runOn_bind_of_ok (runOn_optionsAt a), runOn_bind_of_ok (runOn_optionsAt a),
    heases.unchanged.2.1]
  have hrefines := (hv.annotate description default).withOptional heases.optional
  cases (t.options.getD a).metadata? with
  | none => exact .ok hrefines ht
  | some metadata =>
    exact ((recordMetadata a metadata).map fun _ _ _ => hrefines) t t' ht

end Eased

/-- On eased tables validators come to accept more. -/
theorem respects_refines (table : OptionTable) :
    Respects table (Eased table) Validator.Refines where
  override? a ht := ⟨ht.override? a, (ht.options a).unchanged.1.trans (ht.override? a)⟩
  additional a ht := (ht.options a).unchanged.2.2
  requireNode := Eased.requireNode
  recordMetadata := Eased.recordMetadata
  extend description default a hv := Eased.extend hv description default a
  refl := .refl
  annotate description default hv := hv.annotate description default
  asNullable hv := hv.asNullable
  object added hfields := .object (List.rel_append hfields (Entries.Related.refl .refl added))
  array least greatest hv := by
    have hbounded : ∀ v : Validator,
        ((Validator.array v).bounded Validator.minLength least
          |>.bounded Validator.maxLength greatest) = { kind := .array v least greatest } := by
      intro v
      cases least <;> cases greatest <;> rfl
    rw [hbounded, hbounded]
    exact hv.array least greatest
  taggedUnion field closed hbranches := .taggedUnion hbranches field closed

end Compile

/-- The second document has the same definitions with the same facets, and each of them accepts at
least the values that it accepts in the first one. -/
def CompiledLexicon.Within (c c' : CompiledLexicon) : Prop :=
  c.defs.Related (Compiled.Related fun v w => ∀ x, v.accepts x = true → w.accepts x = true) c'.defs

theorem CompiledLexicon.within_of_refines {c c' : CompiledLexicon}
    (h : c.defs.Related (Compiled.Related Validator.Refines) c'.defs) : c.Within c' :=
  h.imp fun _ _ he => ⟨he.1, he.2.kind, he.2.facets.imp fun _ _ hv => ⟨hv.1, hv.2.accepts⟩⟩

namespace Document

open Compile (Simulation Matches Follows NodeRelation)

/-- Each node is related to itself. -/
theorem simulation_self (table : OptionTable) : Simulation table Validator.Refines
    fun ctx ctx' d d' _ => ctx' = ctx ∧ d' = d ∧ ctx.Equipped where
  beside := by
    rintro ctx _ d _ a ⟨rfl, rfl, -⟩
    exact ⟨rfl, rfl, rfl⟩
  equipped h := h.2.2
  matching := by
    rintro ctx _ d _ a ⟨rfl, rfl, hctx⟩
    exact .self ⟨rfl, rfl, rfl⟩ (fun _ _ _ => ⟨rfl, rfl, hctx⟩) fun s _ _ =>
      .self rfl rfl fun target e _ _ _ => ⟨rfl, rfl, hctx.object, hctx.ref⟩
  leaf := by
    rintro ctx _ d e a ⟨rfl, -⟩ -
    exact .refl _

/-- A document that compiles does so when nodes are made optional, and it accepts no less. -/
theorem compile_eased {doc : Document} {o : CompileOptions} {c : CompiledLexicon}
    (hc : doc.compile o = .ok c) (addresses : List Address) :
    ∃ c', doc.compile { o with table := o.table.eased addresses } = .ok c' ∧ c.Within c' := by
  have heased : Compile.Eased o.table ⟨o.table, []⟩ ⟨o.table.eased addresses, []⟩ :=
    ⟨o.table.eases_eased addresses, fun _ => rfl, rfl⟩
  have hequipped : ∀ name, (doc.contextAt o name).Equipped := fun name =>
    .of_overlaid (registry_contextAt doc o name)
  have hparallel : CompiledLexicon.Related (Compile.Eased o.table) Validator.Refines (doc.compile o)
      (doc.compile { o with table := o.table.eased addresses }) :=
    compile_parallel (Compile.respects_refines o.table) (simulation_self o.table) rfl rfl rfl heased
    (List.forall₂_same.mpr fun e _ => ⟨rfl, fun _ => .self (fun _ => ⟨rfl, rfl, hequipped e.1⟩)
      fun _ _ => ⟨rfl, rfl, hequipped e.1⟩⟩)
  obtain ⟨_, c', hleft, hright, hdefs⟩ := hparallel.exists_of_ok (.inl hc)
  obtain rfl := Except.ok.inj (hc.symm.trans hleft)
  exact ⟨c', hright, CompiledLexicon.within_of_refines hdefs⟩

def untitled : Json := .object [("cover", .object [])]

theorem compile_eased_sample :
    ∃ c c', album.compile entitled = .ok c ∧
      album.compile { entitled with table := entitled.table.eased ["main.cover.title"] } = .ok c' ∧
      c.Within c' ∧ (c.at? { name := "main" }).map (·.accepts untitled) = some false ∧
      (c'.at? { name := "main" }).map (·.accepts untitled) = some true := by
  obtain ⟨c, hc⟩ : ∃ c, album.compile entitled = .ok c := ⟨_, rfl⟩
  obtain ⟨c', hc', hwithin⟩ := compile_eased hc ["main.cover.title"]
  have hbefore : (album.compile entitled).map (fun c =>
      (c.at? { name := "main" }).map (·.accepts untitled)) = .ok (some false) := by rfl
  have hafter : (album.compile { entitled with
      table := entitled.table.eased ["main.cover.title"] }).map (fun c =>
        (c.at? { name := "main" }).map (·.accepts untitled)) = .ok (some true) := by rfl
  rw [hc] at hbefore
  rw [hc'] at hafter
  exact ⟨c, c', hc, hc', hwithin, Except.ok.inj hbefore, Except.ok.inj hafter⟩

end Document
end Lexicon
