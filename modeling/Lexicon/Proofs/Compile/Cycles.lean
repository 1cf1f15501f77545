import Lexicon.Proofs.Compile.Detects
import Lexicon.Proofs.Compile.Document

/-!
# Cycle detection is exact

Where cycles are an error, a document whose references resolve compiles unless they run into a
cycle, and then the error reports one (`Document.compile_cycles`). A primary definition is followed
only where it stands alone: as a node inside another definition it accepts anything, and what it
refers to does not count (`Document.compile_inlineLoop`).
-/

namespace Lexicon

open Definition (innerNodes)

namespace Document

variable {doc : Document} {o : CompileOptions}

/-- The context in which a document is compiled follows its references and reports cycles. -/
theorem tracks_register (hdoc : doc.Proper) (hdict : o.lexicons.All Proper)
    (hregistry : o.registry = {}) (hrefs : o.followRefs = true) (hpolicy : o.cyclePolicy = .fail)
    (r : Reference) :
    Tracks (((Context.ofOptions o).register doc).enter r) (o.lexicons.joined doc) r := by
  have hcontext := Context.register_eq (Context.ofOptions o) doc
  have hlexicons : ((Context.ofOptions o).register doc).lexicons = o.lexicons.joined doc :=
    Context.lexicons_register rfl
  rw [hlexicons] at hcontext
  rw [hcontext]
  have hall : (o.lexicons.joined doc).All Proper := Dictionary.All.register hdict hdoc
  exact {
    registry := by
      change Registry.builtin.overlaid o.registry = Registry.builtin
      rw [hregistry, Registry.overlaid_empty]
    lexicons := rfl
    followRefs := hrefs
    cyclePolicy := hpolicy
    current := rfl
    proper := fun r d hd => hall.definition (fun _ h => h.proper) hd }

theorem compile_cases (hdoc : doc.Proper) (hdict : o.lexicons.All Proper)
    (htable : ∀ a, o.table.override? a = none) (hregistry : o.registry = {})
    (hrefs : o.followRefs = true) (hpolicy : o.cyclePolicy = .fail)
    (hresolves : doc.ReferencesResolve innerNodes (o.lexicons.joined doc)) :
    (∃ c, doc.compile o = .ok c ∧ ∀ path, ¬ doc.Cyclic innerNodes (o.lexicons.joined doc) path) ∨
      ∃ path, doc.compile o = .error (.cycle path) ∧
        doc.Cyclic innerNodes (o.lexicons.joined doc) path := by
  have hscope : ((Context.ofOptions o).register doc).scope = [] := by
    rw [Context.register_eq]
    rfl
  have hdetects := Compile.detects_definitions
    (fun name => tracks_register hdoc hdict hregistry hrefs hpolicy (doc.reference name))
    hdoc.proper hresolves
  rw [hscope] at hdetects
  obtain ⟨_, hresult⟩ := hdetects ⟨o.table, []⟩ htable
  cases hrun : (Compile.definitions ((Context.ofOptions o).register doc) (doc.id.getD "")
    doc.defs).runOn ⟨o.table, []⟩ with
  | mk result tables =>
    rw [hrun] at hresult
    cases result with
    | ok defs =>
      refine .inl ⟨_, compile_eq_ok.mpr ⟨defs, tables, hrun, rfl⟩, fun path hcyclic => ?_⟩
      -- The walk would have come back, though maybe along another path.
      obtain ⟨e, he, path, hmeets⟩ := hcyclic.exists_meets
      exact hresult path ⟨e, he, hmeets⟩
    | error error =>
      obtain ⟨path, rfl, e, he, hmeets⟩ := hresult
      exact .inr ⟨path, compile_eq_error.mpr (congrArg Prod.fst hrun), cyclic_of_meets he hmeets⟩

/-- A document whose references resolve compiles unless they run into a cycle. Then the error
reports one, as a path from a definition of the document. -/
theorem compile_cycles (hdoc : doc.Proper) (hdict : o.lexicons.All Proper)
    (htable : ∀ a, o.table.override? a = none) (hregistry : o.registry = {})
    (hrefs : o.followRefs = true) (hpolicy : o.cyclePolicy = .fail)
    (hresolves : doc.ReferencesResolve innerNodes (o.lexicons.joined doc)) :
    ((∃ path, doc.compile o = .error (.cycle path)) ↔
      ∃ path, doc.Cyclic innerNodes (o.lexicons.joined doc) path) ∧
    ((∃ c, doc.compile o = .ok c) ↔
      ¬ ∃ path, doc.Cyclic innerNodes (o.lexicons.joined doc) path) ∧
    ∀ e, doc.compile o = .error e →
      ∃ path, doc.Cyclic innerNodes (o.lexicons.joined doc) path ∧ e = .cycle path ∧
        e.message = "reference cycle: " ++ " -> ".intercalate (path.map Reference.text) := by
  rcases compile_cases hdoc hdict htable hregistry hrefs hpolicy hresolves with
    ⟨c, hc, hacyclic⟩ | ⟨path, hpath, hcyclic⟩
  · rw [hc]
    refine ⟨⟨nofun, fun ⟨path, hcyclic⟩ => absurd hcyclic (hacyclic path)⟩, ?_, nofun⟩
    exact ⟨fun _ ⟨path, hcyclic⟩ => hacyclic path hcyclic, fun _ => ⟨c, rfl⟩⟩
  · rw [hpath]
    refine ⟨⟨fun _ => ⟨path, hcyclic⟩, fun _ => ⟨path, rfl⟩⟩, ?_, fun e he => ?_⟩
    · exact ⟨nofun, fun hacyclic => absurd ⟨path, hcyclic⟩ hacyclic⟩
    · obtain rfl := Except.error.inj he
      exact ⟨path, hcyclic, rfl, rfl⟩

def thread : Document where
  id := some "app.thread"
  defs := [("main", .object { properties := [("reply", .ref { target := "app.reply" })] })]

def reply : Document where
  id := some "app.reply"
  defs := [("main", .object { properties := [("thread", .ref { target := "app.thread" })] })]

theorem compile_cycles_sample :
    ∃ path, thread.compile { lexicons := [("app.reply", reply)] } = .error (.cycle path) := by
  have hthread : ofJson (.object [
      ("id", .string "app.thread"),
      ("defs", .object [("main", .object [
        ("type", .string "object"),
        ("properties", .object [("reply", .object [
          ("type", .string "ref"), ("ref", .string "app.reply")])])])])]) = .ok thread := rfl
  have hreply : ofJson (.object [
      ("id", .string "app.reply"),
      ("defs", .object [("main", .object [
        ("type", .string "object"),
        ("properties", .object [("thread", .object [
          ("type", .string "ref"), ("ref", .string "app.thread")])])])])]) = .ok reply := rfl
  have hdict : Dictionary.All Proper [("app.reply", reply)] := fun id found hfind => by
    obtain ⟨_, rfl⟩ := Prod.mk.inj (List.mem_singleton.mp (Entries.mem_of_find? hfind))
    exact proper_of_ofJson hreply
  have hleads : ∀ (here t : Reference) (key target : String),
      Leads innerNodes here [.object { properties := [(key, .ref { target := target })] }] t ↔
        here.resolve target = t := fun here t key target =>
    Iff.trans (leads_inside rfl) (leads_ref rfl)
  have hthreadLeads : Leads innerNodes ⟨"app.thread", "main"⟩ [_] ⟨"app.reply", "main"⟩ :=
    (hleads _ _ "reply" "app.reply").mpr rfl
  have hreplyLeads : Leads innerNodes ⟨"app.reply", "main"⟩ [_] ⟨"app.thread", "main"⟩ :=
    (hleads _ _ "thread" "app.thread").mpr rfl
  have hresolves : thread.ReferencesResolve innerNodes
      (Dictionary.joined [("app.reply", reply)] thread) := by
    intro e he
    obtain rfl := List.mem_singleton.mp he
    refine resolves_of_closed [⟨"app.thread", "main"⟩, ⟨"app.reply", "main"⟩] (fun t ht => ?_) ?_
    · obtain rfl := (hleads _ _ "reply" "app.reply").mp ht
      decide
    · simp only [List.mem_cons, List.not_mem_nil, or_false, forall_eq_or_imp, forall_eq]
      refine ⟨⟨_, rfl, fun t ht => ?_⟩, ⟨_, rfl, fun t ht => ?_⟩⟩
      · obtain rfl := (hleads _ _ "reply" "app.reply").mp ht
        exact .inr rfl
      · obtain rfl := (hleads _ _ "thread" "app.thread").mp ht
        exact .inl rfl
  refine (compile_cycles (proper_of_ofJson hthread) hdict (fun _ => rfl) rfl rfl rfl
    hresolves).1.mpr ⟨_, _, List.mem_singleton_self _, ⟨"app.reply", "main"⟩,
      [⟨"app.thread", "main"⟩], rfl, hthreadLeads, ?_, ?_⟩
  · exact .cons_cons ⟨_, rfl, hreplyLeads⟩ (.singleton _)
  · exact ⟨[⟨"app.thread", "main"⟩, ⟨"app.reply", "main"⟩], _, rfl, List.mem_cons_self ..⟩

/-- A record with a record inside it, which refers back to the outer one. -/
def inlineLoop : Document where
  id := some "com.example.loop"
  defs := [("main", .record { record := some { properties := [("p", .record {
    record := some { properties := [("q", .ref { target := "#main" })] } })] } })]

/-- Counted through the inner record, the references of the document run into a cycle. Inside
another definition a record accepts anything, so its references are not followed. -/
theorem compile_inlineLoop :
    inlineLoop.Proper ∧
      inlineLoop.ReferencesResolve Definition.parts (Dictionary.joined [] inlineLoop) ∧
      (∃ path, inlineLoop.Cyclic Definition.parts (Dictionary.joined [] inlineLoop) path) ∧
      ¬ ∃ path, inlineLoop.compile {} = .error (.cycle path) := by
  have hread : ofJson (.object [
      ("id", .string "com.example.loop"),
      ("defs", .object [("main", .object [
        ("type", .string "record"),
        ("record", .object [("properties", .object [("p", .object [
          ("type", .string "record"),
          ("record", .object [("properties", .object [("q", .object [
            ("type", .string "ref"), ("ref", .string "#main")])])])])])])])])]) =
      .ok inlineLoop := rfl
  let main : Reference := ⟨"com.example.loop", "main"⟩
  have hleads : ∀ t, Leads Definition.parts main [.object { properties := [("p", .record {
      record := some { properties := [("q", .ref { target := "#main" })] } })] }] t ↔ main = t :=
    fun t => Iff.trans (leads_inside rfl) (Iff.trans (leads_inside rfl) (leads_ref rfl))
  refine ⟨proper_of_ofJson hread, fun e he => ?_, ?_, ?_⟩
  · obtain rfl := List.mem_singleton.mp he
    refine resolves_of_closed [main] (fun t ht => ?_) ?_
    · obtain rfl := (hleads t).mp ht
      exact List.mem_singleton_self _
    · rw [List.forall_mem_singleton]
      refine ⟨_, rfl, fun t ht => ?_⟩
      obtain rfl := (hleads t).mp ht
      exact List.mem_singleton_self _
  · refine ⟨[main, main], _, List.mem_singleton_self _, main, [], rfl, (hleads main).mpr rfl,
      .singleton _, [main], main, rfl, List.mem_singleton_self _⟩
  · obtain ⟨c, hc⟩ : ∃ c, inlineLoop.compile {} = .ok c := ⟨_, rfl⟩
    rw [hc]
    exact nofun

end Document
end Lexicon
