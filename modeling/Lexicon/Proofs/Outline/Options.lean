import Lexicon.Proofs.Compile.Document
import Lexicon.Proofs.Outline.Coverage

/-!
# The outline lists where options count

Options at an address that the outline does not list change nothing of what a document compiles
to. Metadata given at an address that it lists are recorded there, but for primary definitions,
which are not nodes themselves.
-/

namespace Lexicon

structure CompiledLexicon.AgreeOff (p : Address) (c c' : CompiledLexicon) : Prop where
  id : c.id = c'.id
  defs : c.defs = c'.defs
  metadata : c.metadata = c'.metadata
  table : ∀ q, q ≠ p → c.table.get? q = c'.table.get? q

def Compile.SameOff (p : Address) : Except CompileError CompiledLexicon →
    Except CompileError CompiledLexicon → Prop
  | .ok c, .ok c' => c.AgreeOff p c'
  | .error e, .error e' => e = e'
  | _, _ => False

namespace Document

open Outline

variable {dict : Dictionary} {doc : Document} {o : CompileOptions} {p : Address}

def following (doc : Document) (o : CompileOptions) : Follow :=
  Outline.following ((Context.ofOptions o).register doc)
    (o.lexicons.joined doc).references.length

/-- The outline of a document as far as a compilation goes: where references are not followed, it
stops at them. -/
def nodes (doc : Document) (o : CompileOptions) : List Entry :=
  let outer := ({ lexicons := o.lexicons } : Context).register doc
  doc.defs.flatMap (entriesOf (doc.following o) outer (doc.id.getD ""))

/-- The addresses of the nodes, but for those of primary definitions. -/
def visited (doc : Document) (o : CompileOptions) : List Address :=
  let outer := ({ lexicons := o.lexicons } : Context).register doc
  doc.defs.flatMap (visitedOf (doc.following o) outer (doc.id.getD ""))

theorem followRefs_register : ((Context.ofOptions o).register doc).followRefs = o.followRefs := by
  rw [Context.register_eq]
  rfl

theorem nodes_of_follows (h : o.followRefs = true) : doc.nodes o = doc.outline o.lexicons := by
  rw [nodes, following, following_of_follows (followRefs_register.trans h)]
  rfl

/-- Without references, it does not matter in which dictionary they would be followed. -/
theorem nodes_subset_outline (h : o.followRefs = true → dict = o.lexicons) :
    addresses (doc.nodes o) ⊆ addresses (doc.outline dict) := by
  by_cases hfollows : o.followRefs = true
  · rw [nodes_of_follows hfollows, h hfollows]
    exact List.Subset.refl _
  · have hstop : doc.following o = stop :=
      following_of_not_follows fun h => hfollows (followRefs_register.symm.trans h)
    intro q hq
    obtain ⟨entry, hentry, rfl⟩ := List.mem_map.mp hq
    obtain ⟨e, he, hentry⟩ := List.mem_flatMap.mp hentry
    rw [hstop] at hentry
    obtain ⟨entry', hentry', haddress⟩ := List.mem_map.mp
      (entriesOf_stop_subset (followAt (dict.joined doc).references.length) _
        (({ lexicons := dict } : Context).register doc) _ e (List.mem_map_of_mem hentry))
    rw [← haddress]
    exact List.mem_map_of_mem (List.mem_flatMap.mpr ⟨e, he, hentry'⟩)

theorem mem_nodes_of_mem_keys (hp : p ∈ doc.defs.keys) : p ∈ addresses (doc.nodes o) := by
  obtain ⟨e, he, rfl⟩ := List.mem_map.mp hp
  exact List.mem_map.mpr
    ⟨⟨e.1, e.2.tag, none⟩, List.mem_flatMap.mpr ⟨e, he, List.mem_cons_self ..⟩, rfl⟩

theorem mem_visited (hp : p ∈ addresses (doc.nodes o))
    (hprimary : ∀ e ∈ doc.defs, e.1 = p → e.2.isPrimary = false) : p ∈ doc.visited o := by
  obtain ⟨entry, hentry, rfl⟩ := List.mem_map.mp hp
  obtain ⟨e, he, hentry⟩ := List.mem_flatMap.mp hentry
  refine List.mem_flatMap.mpr ⟨e, he, ?_⟩
  exact mem_visitedOf (List.mem_map_of_mem hentry) (hprimary e he)

/-- Compiling a document covers its nodes. -/
theorem covers_definitions (hdoc : doc.Proper) (hdict : Dictionary.All Proper o.lexicons)
    (hregistry : o.registry = {}) :
    Covers (addresses (doc.nodes o)) [] (doc.visited o)
      (Compile.definitions ((Context.ofOptions o).register doc) (doc.id.getD "") doc.defs) := by
  have hframe := Context.register_eq (Context.ofOptions o) doc
  have houter := Context.register_eq { lexicons := o.lexicons } doc
  have hfollows : Follows ((Context.ofOptions o).register doc)
      (({ lexicons := o.lexicons } : Context).register doc) := {
    registry := by rw [hframe, Context.ofOptions, hregistry, Registry.overlaid_empty]
    lexicons := Context.lexicons_register rfl
    scope := by
      rw [hframe, houter]
      rfl
    proper := fun r d hd =>
      (Dictionary.All.register hdict hdoc).definition (fun _ h => h.proper) hd }
  exact Outline.covers_definitions hfollows (Nat.le_refl _) _ hdoc.proper

/-- So it consults no other addresses than those of the outline. -/
theorem consults_definitions (hdoc : doc.Proper) (hdict : Dictionary.All Proper o.lexicons)
    (hregistry : o.registry = {}) :
    Compile.Consults (· ∈ addresses (doc.outline o.lexicons)) (fun _ _ => True)
      (Compile.definitions ((Context.ofOptions o).register doc) (doc.id.getD "") doc.defs) :=
  (covers_definitions hdoc hdict hregistry).toConsults.mono
    (fun _ hq => nodes_subset_outline (fun _ => rfl) hq) fun _ _ h => h

/-- A compilation that ignores the options at an address gives the same off it. -/
theorem sameOff_compile {table : OptionTable}
    (hignores : Compile.Ignores p
      (Compile.definitions ((Context.ofOptions o).register doc) (doc.id.getD "") doc.defs))
    (htable : ∀ q, q ≠ p → table.get? q = o.table.get? q) :
    Compile.SameOff p (doc.compile { o with table := table }) (doc.compile o) := by
  obtain ⟨hresult, hafter⟩ := hignores ⟨table, []⟩ ⟨o.table, []⟩ ⟨rfl, htable⟩
  have hcontext : Context.ofOptions { o with table := table } = Context.ofOptions o := rfl
  unfold compile
  simp only [hcontext]
  generalize (Compile.definitions ((Context.ofOptions o).register doc) (doc.id.getD "")
    doc.defs).runOn ⟨table, []⟩ = run at *
  generalize (Compile.definitions ((Context.ofOptions o).register doc) (doc.id.getD "")
    doc.defs).runOn ⟨o.table, []⟩ = run' at *
  obtain ⟨result, tables⟩ := run
  obtain ⟨result', tables'⟩ := run'
  obtain rfl : result = result' := hresult
  cases result with
  | error e => rfl
  | ok defs => exact ⟨rfl, rfl, hafter.metadata, hafter.options⟩

/-- Metadata that are given at a node come back, unless it stands where the type of a blob does. -/
theorem recorded_of_mem_visited {given : Entries Json} {key : String} {value : Json}
    {c : CompiledLexicon} (hdoc : doc.Proper) (hdict : Dictionary.All Proper o.lexicons)
    (hregistry : o.registry = {}) (hoverrides : ∀ q, o.table.override? q = none)
    (hp : p ∈ doc.visited o) (hgiven : (o.table.getD p).metadata? = some given)
    (hdistinct : given.Distinct) (hfind : given.find? key = some value)
    (hkey : ¬ TypeFlag p key) (hc : doc.compile o = .ok c) :
    ∃ recorded, c.metadata.find? p = some recorded ∧ recorded.find? key = some value := by
  obtain ⟨defs, tables, hrun, rfl⟩ := compile_eq_ok.mp hc
  have hown : ¬ (p ∈ [] ∨ TypeFlag p key) := not_or_intro List.not_mem_nil hkey
  exact (covers_definitions hdoc hdict hregistry).noted hdistinct hfind hown ⟨hgiven, hoverrides⟩
    hrun (.inl hp)

/-- Options count exactly at the addresses of the outline: elsewhere they change nothing, and
metadata that are given there are recorded. -/
theorem compile_of_outline {x : Json} {doc : Document} {dict : Dictionary}
    (hdoc : Document.ofJson x = .ok doc) (hdict : dict.All Proper) :
    (∀ (o : CompileOptions) (table : OptionTable) (p : Address),
      o.lexicons = dict → o.registry = {} →
      p ∉ (doc.outline dict).map Outline.Entry.address →
      (∀ q, q ≠ p → table.get? q = o.table.get? q) →
      Compile.SameOff p (doc.compile { o with table := table }) (doc.compile o)) ∧
    ∀ (o : CompileOptions) (p : Address) (given : Entries Json) (key : String) (value : Json)
      (c : CompiledLexicon),
      o.lexicons = dict → o.registry = {} → o.followRefs = true →
      (∀ q, o.table.override? q = none) →
      p ∈ (doc.outline dict).map Outline.Entry.address →
      (∀ e ∈ doc.defs, e.1 = p → e.2.isPrimary = false) →
      (o.table.getD p).metadata? = some given → given.Distinct →
      given.find? key = some value → key ∉ ["format", "knownValues", "readOnly"] →
      doc.compile o = .ok c →
      ∃ recorded, c.metadata.find? p = some recorded ∧ recorded.find? key = some value := by
  have hproper := proper_of_ofJson hdoc
  constructor
  · rintro o table p rfl hregistry hp htable
    have hconsults := consults_definitions hproper hdict hregistry
    exact sameOff_compile (hconsults.ignores hp) htable
  · rintro o p given key value c rfl hregistry hfollow hoverrides hp hprimary hgiven hdistinct
      hfind hkey hc
    rw [← nodes_of_follows hfollow] at hp
    have hown : ¬ TypeFlag p key := by
      rintro ⟨rfl, -⟩
      exact hkey (by decide)
    exact recorded_of_mem_visited hproper hdict hregistry hoverrides (mem_visited hp hprimary)
      hgiven hdistinct hfind hown hc

def note : Document where
  id := some "app.note"
  defs := [("main", .object { properties := [("author", .ref { target := "app.author" })] })]

def author : Document where
  id := some "app.author"
  defs := [("main", .object { properties := [("name", .string {})] })]

theorem ofJson_note :
    ofJson (.object [
      ("id", .string "app.note"),
      ("defs", .object [("main", .object [
        ("type", .string "object"),
        ("properties", .object [("author", .object [
          ("type", .string "ref"), ("ref", .string "app.author")])])])])]) = .ok note := by
  rfl

theorem ofJson_author :
    ofJson (.object [
      ("id", .string "app.author"),
      ("defs", .object [("main", .object [
        ("type", .string "object"),
        ("properties", .object [("name", .object [("type", .string "string")])])])])]) =
      .ok author := by
  rfl

def labelled : CompileOptions where
  lexicons := [("app.author", author)]
  table := .ofList [("main.author.name", { metadata? := some [("label", .string "Name")] })]

/-- The property to omit is not one of the note. -/
def misplaced : OptionTable := .ofList [("main.name", { override? := some .omit })]

theorem compile_of_outline_sample :
    Compile.SameOff "main.name"
      (note.compile { lexicons := [("app.author", author)], table := misplaced })
      (note.compile { lexicons := [("app.author", author)] }) ∧
    ∃ c recorded, note.compile labelled = .ok c ∧
      c.metadata.find? "main.author.name" = some recorded ∧
      recorded.find? "label" = some (.string "Name") := by
  have hdict : Dictionary.All Proper [("app.author", author)] := by
    intro id doc hfind
    have hmem := Entries.mem_of_find? hfind
    obtain ⟨rfl, rfl⟩ : id = "app.author" ∧ doc = author := by simpa using hmem
    exact proper_of_ofJson ofJson_author
  obtain ⟨hoff, hlisted⟩ := compile_of_outline ofJson_note hdict
  constructor
  · refine hoff { lexicons := [("app.author", author)] } _ "main.name" rfl rfl (by decide) ?_
    intro q hq
    exact (OptionTable.get?_insert {} "main.name" q _).trans (if_neg hq.symm)
  · obtain ⟨c, hc⟩ : ∃ c, note.compile labelled = .ok c := ⟨_, rfl⟩
    have hnone : ∀ q, labelled.table.override? q = none := by
      intro q
      have hget : labelled.table.get? q = if "main.author.name" = q then
          some { metadata? := some [("label", .string "Name")] } else none :=
        OptionTable.get?_insert {} "main.author.name" q _
      rw [OptionTable.override?, OptionTable.getD, hget]
      split <;> rfl
    obtain ⟨recorded, hrecorded⟩ := hlisted labelled "main.author.name" _ "label" (.string "Name") c
      rfl rfl rfl hnone (by decide) (by decide) rfl (by decide) rfl (by decide) hc
    exact ⟨c, recorded, hc, hrecorded⟩

end Document
end Lexicon
