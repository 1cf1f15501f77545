import Lexicon.Compile.Document
import Lexicon.Proofs.Definition.Read

/-!
# Compiling a document in its dictionary

A document joins the dictionary before it is compiled. Nothing else of the context changes, and what
holds of it and of the documents that are there holds of all (`Dictionary.All.register`).
-/

namespace Lexicon

def Dictionary.All (P : Document → Prop) (dict : Dictionary) : Prop :=
  ∀ id doc, Entries.find? dict id = some doc → P doc

/-- The dictionary in which a document is compiled: it joins, unless there is one with its id. -/
def Dictionary.joined (dict : Dictionary) (doc : Document) : Dictionary :=
  (({ lexicons := dict } : Context).register doc).lexicons

theorem Dictionary.all_singleton {P : Document → Prop} {id : String} {doc : Document} (h : P doc) :
    Dictionary.All P [(id, doc)] := by
  intro _ found hfound
  obtain ⟨rfl, rfl⟩ := Prod.mk.inj (List.mem_singleton.mp (Entries.mem_of_find? hfound))
  exact h

section
variable {dict : Dictionary} {doc : Document} {ctx ctx' : Context}

theorem Dictionary.All.definition {P : Document → Prop} {Q : Definition → Prop}
    (hdict : dict.All P) (hP : ∀ doc, P doc → ∀ e ∈ doc.defs, Q e.2) {r : Reference}
    {d : Definition} (hd : dict.definition? r = some d) : Q d := by
  obtain ⟨doc, hdoc, hd⟩ := Option.bind_eq_some_iff.mp hd
  exact hP doc (hdict _ _ hdoc) (r.name, d) (Entries.mem_of_find? hd)

theorem Dictionary.All.register {P : Document → Prop} (hdict : Dictionary.All P ctx.lexicons)
    (hdoc : P doc) : Dictionary.All P (ctx.register doc).lexicons := by
  unfold Context.register
  split
  · rename_i id hid
    split
    · exact hdict
    · intro other found hfound
      have hfound : Entries.find? (Entries.put ctx.lexicons id doc) other = some found := by
        simpa [Dictionary.add, hid] using hfound
      rw [Entries.find?_put] at hfound
      split at hfound
      · obtain rfl := Option.some.inj hfound
        exact hdoc
      · exact hdict other found hfound
  · exact hdict

theorem Context.lexicons_register (h : ctx.lexicons = ctx'.lexicons) :
    (ctx.register doc).lexicons = (ctx'.register doc).lexicons := by
  unfold register
  rw [h]
  split
  · split
    · exact h
    · rfl
  · exact h

/-- Nothing else of a context changes. -/
theorem Context.register_eq (ctx : Context) (doc : Document) :
    ctx.register doc = { ctx with lexicons := (ctx.register doc).lexicons } := by
  unfold register
  split
  · split
    · rfl
    · rfl
  · rfl

theorem Document.compile_eq_ok {o : CompileOptions} {c : CompiledLexicon} :
    doc.compile o = .ok c ↔ ∃ defs tables,
      (Compile.definitions ((Context.ofOptions o).register doc) (doc.id.getD "") doc.defs).runOn
        ⟨o.table, []⟩ = (.ok defs, tables) ∧
      c = ⟨doc.id, defs, tables.metadata, tables.options⟩ := by
  simp only [compile]
  generalize (Compile.definitions ((Context.ofOptions o).register doc) (doc.id.getD "")
    doc.defs).runOn ⟨o.table, []⟩ = run
  obtain ⟨result, tables⟩ := run
  cases result with
  | error e => simp
  | ok defs =>
    constructor
    · exact fun h => ⟨defs, tables, rfl, (Except.ok.inj h).symm⟩
    · rintro ⟨_, _, hrun, rfl⟩
      cases hrun
      rfl

theorem Document.compile_eq_error {o : CompileOptions} {e : CompileError} :
    doc.compile o = .error e ↔
      ((Compile.definitions ((Context.ofOptions o).register doc) (doc.id.getD "") doc.defs).runOn
        ⟨o.table, []⟩).1 = .error e := by
  simp only [compile]
  generalize (Compile.definitions ((Context.ofOptions o).register doc) (doc.id.getD "")
    doc.defs).runOn ⟨o.table, []⟩ = run
  obtain ⟨result, tables⟩ := run
  cases result <;> simp

end
end Lexicon
