import Lexicon.Proofs.Compile.Balance
import Lexicon.Proofs.Compile.Failures

/-!
# The scope of a compilation

Every compilation leaves the stack as it found it, whether it succeeds or fails. While a document is
compiled no definition is on the stack twice and all but the outermost one are in the dictionary, so
the stack is never higher than the dictionary is large, and the compilation ends by itself
(`scope_discipline`).
-/

namespace Lexicon

open Stacked

/-- From every stack the machine gives the result and the tables that `f` gives in the scope on the
stack, and the stack is left as it was, after a failure too. -/
def Stacked.Balanced {α : Type} (ctx : Context) (c : Stacked α) (f : Context → Compile α) : Prop :=
  ∀ m : Machine,
    ((c.runOn m).1, (c.runOn m).2.tables) = (f (ctx.inScope m.scope)).runOn m.tables ∧
      (c.runOn m).2.scope = m.scope

theorem Stacked.balanced {α : Type} {ctx : Context} {c : Stacked α} {f : Context → Compile α}
    (h : ∀ scope, Follows ctx scope c (f (ctx.inScope scope))) : Balanced ctx c f := by
  intro m
  have hm := h m.scope
  rw [hm.result m rfl, hm.tables m rfl]
  exact ⟨rfl, (hm.machine m rfl).scope⟩

theorem Document.compileStacked_eq (doc : Document) (o : CompileOptions) :
    (doc.compileStacked o).1 = doc.compile o := by
  have h := follows_definitions ((Context.ofOptions o).register doc) (doc.id.getD "") doc.defs
  have hscope : ((Context.ofOptions o).register doc).inScope [] =
      (Context.ofOptions o).register doc := by
    rw [Context.register_eq]
    rfl
  rw [hscope] at h
  have hresult := h.result { tables := ⟨o.table, []⟩ } rfl
  have htables := h.tables { tables := ⟨o.table, []⟩ } rfl
  simp only [compileStacked, compile, hresult, htables]
  generalize (Compile.definitions ((Context.ofOptions o).register doc) (doc.id.getD "")
    doc.defs).runOn ⟨o.table, []⟩ = run
  obtain ⟨result, tables⟩ := run
  cases result <;> rfl

/-- What the machine has written down when a document is compiled. -/
theorem Document.becomes_compileStacked (doc : Document) (o : CompileOptions) :
    ({ tables := ⟨o.table, []⟩ } : Machine).Becomes ((Context.ofOptions o).register doc)
      (doc.compileStacked o).2 :=
  (follows_definitions ((Context.ofOptions o).register doc) (doc.id.getD "") doc.defs).machine _ rfl

/-- Each way to compile leaves the stack as it was. Compiling a document, cycles or not, never puts
a definition on the stack twice nor, above the outermost one, a reference to no definition; so the
stack is at most one higher than the dictionary is large, and the bound on nesting is never met. -/
theorem scope_discipline :
    (∀ (ctx : Context) (d : Definition) (a : Address),
      Balanced ctx (compileNode ctx d a) (fun ctx => ctx.compileNode d a) ∧
        Balanced ctx (compileExtended ctx d a) (fun ctx => ctx.compileExtended d a) ∧
          Balanced ctx (compileDefinition ctx d a) (fun ctx => ctx.compileDefinition d a)) ∧
    (∀ (ctx : Context) (n : Nat) (a : Address),
      (∀ s, Balanced ctx (refWith (compileAt ctx n) ctx s a)
        (fun ctx => Compile.refWith (Compile.compileAt n) ctx s a)) ∧
      (∀ s, Balanced ctx (unionWith (compileAt ctx n) ctx s a)
        (fun ctx => Compile.unionWith (Compile.compileAt n) ctx s a)) ∧
      (∀ s, Balanced ctx (objectWith (compileAt ctx n) ctx s a)
        (fun ctx => Compile.objectWith (Compile.compileAt n) ctx s a)) ∧
      ∀ s, Balanced ctx (arrayWith (compileAt ctx n) ctx s a)
        (fun ctx => Compile.arrayWith (Compile.compileAt n) ctx s a)) ∧
    ∀ (doc : Document) (o : CompileOptions),
      (doc.compileStacked o).1 = doc.compile o ∧ (doc.compileStacked o).2.scope = [] ∧
        (∀ scope ∈ (doc.compileStacked o).2.scopes, scope.Nodup ∧
          (∀ r ∈ scope.dropLast, ∃ d, (o.lexicons.joined doc).definition? r = some d) ∧
            scope.length ≤ (o.lexicons.joined doc).references.length + 1) ∧
          doc.compile o ≠ .error .tooDeep := by
  refine ⟨fun ctx d a => ?_, fun ctx n a => ?_, fun doc o => ?_⟩
  · have h := follow_compileAt ctx (ctx.depth d)
    exact ⟨balanced fun _ => follows_nodeWith h, balanced fun _ => follows_extendedWith h,
      balanced fun _ => follows_definitionWith h d a⟩
  · have h := follow_compileAt ctx n
    exact ⟨fun s => balanced fun _ => follows_refWith h s,
      fun s => balanced fun _ => follows_unionWith h s,
      fun s => balanced fun _ => follows_objectWith h s,
      fun s => balanced fun _ => follows_arrayWith h s⟩
  · have hmachine := doc.becomes_compileStacked o
    have hdict : ((Context.ofOptions o).register doc).lexicons = o.lexicons.joined doc :=
      Context.lexicons_register rfl
    refine ⟨doc.compileStacked_eq o, hmachine.scope, fun scope hscope => ?_,
      fun h => Document.compile_error h⟩
    have hnests : (o.lexicons.joined doc).Nests scope := by
      rw [← hdict]
      exact (hmachine.scopes .nil scope hscope).resolve_left (List.not_mem_nil)
    exact ⟨hnests.nodup, hnests.known, hnests.length_le⟩

/-- Two definitions that refer to each other, with cycles permitted: each is entered from the other
one, and not once more from there. -/
example :
    let doc : Document := { id := some "a", defs := [("main", .ref { target := "#x" }),
      ("x", .array { items := .ref { target := "#main" } })] }
    (doc.compileStacked { cyclePolicy := .permissive }).2.scopes.reverse =
      [[⟨"a", "main"⟩], [⟨"a", "x"⟩, ⟨"a", "main"⟩], [⟨"a", "main"⟩], [],
        [⟨"a", "x"⟩], [⟨"a", "main"⟩, ⟨"a", "x"⟩], [⟨"a", "x"⟩], []] := by
  decide +kernel

end Lexicon
