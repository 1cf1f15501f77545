import Lexicon.Proofs.Compile.Scope

/-!
# Local references

A document with an id joins the dictionary before it is compiled, unless a document with its id is
there. If that is no other one, a reference `#k` from inside one of its definitions leads to its own
definition `k` or back to it while it is under way (`Document.resolved_local`). Where the dictionary
has another document with the id, the reference leads into that one, and without an id nowhere.
-/

namespace Lexicon

theorem Reference.parse_local {k : String} (hk : k ≠ "") : parse ("#" ++ k) = ⟨"", k⟩ := by
  have htext : ("#" ++ k).toList = '#' :: k.toList := by
    rw [String.toList_append]
    rfl
  have hne : k.toList ≠ [] := fun h => hk (String.toList_eq_nil_iff.mp h)
  unfold parse
  rw [htext]
  cases hcs : k.toList with
  | nil => exact absurd hcs hne
  | cons c rest =>
    have hk' : String.ofList (c :: rest) = k := by rw [← hcs, String.ofList_toList]
    simp [withoutScheme, Text.cut?, hk']

namespace Context

variable {ctx : Context} {doc : Document} {here : Reference} {k : String} {d : Definition}

theorem qualify_local (hhere : ctx.current? = some here) (hk : k ≠ "") :
    ctx.qualify ("#" ++ k) = ⟨here.nsid, k⟩ := by
  unfold qualify base
  rw [Reference.parse_local hk, hhere]
  exact Reference.within_of_local rfl _

theorem lookup_local (hhere : ctx.current? = some here) (hk : k ≠ "")
    (hdoc : Entries.find? ctx.lexicons here.nsid = some doc) (hd : doc.definition? k = some d) :
    ctx.lookup ("#" ++ k) = .ok d := by
  simp only [lookup, qualify_local hhere hk, hdoc, hd]

/-- Inside a document of the dictionary `#k` leads to the definition `k` of the document, unless
that is under way. -/
theorem resolve_local (hhere : ctx.current? = some here) (hk : k ≠ "")
    (hdoc : Entries.find? ctx.lexicons here.nsid = some doc) (hd : doc.definition? k = some d) :
    ctx.resolve ("#" ++ k) = .ok (some (⟨here.nsid, k⟩, d)) ∨
      ⟨here.nsid, k⟩ ∈ ctx.scope ∧
        (ctx.cyclePolicy = .permissive ∧ ctx.resolve ("#" ++ k) = .ok none ∨
          ctx.cyclePolicy = .fail ∧
            ctx.resolve ("#" ++ k) = .error (.cycle (ctx.scope.reverse ++ [⟨here.nsid, k⟩]))) := by
  unfold resolve
  rw [lookup_local hhere hk hdoc hd, qualify_local hhere hk]
  by_cases hscope : (⟨here.nsid, k⟩ : Reference) ∈ ctx.scope
  · refine .inr ⟨hscope, ?_⟩
    unfold follow?
    rw [if_pos (by simpa using hscope)]
    cases ctx.cyclePolicy with
    | permissive => exact .inl ⟨rfl, rfl⟩
    | fail => exact .inr ⟨rfl, rfl⟩
  · rw [follow?_of_not_mem hscope]
    exact .inl rfl

end Context

namespace Document

variable {doc : Document} {o : CompileOptions} {id : String}

theorem find?_joined (hid : doc.id = some id)
    (hdict : Entries.find? o.lexicons id = none ∨ Entries.find? o.lexicons id = some doc) :
    Entries.find? (o.lexicons.joined doc) id = some doc := by
  unfold Dictionary.joined Context.register
  rw [hid]
  simp only [Entries.contains]
  rcases hdict with hnone | hsome
  · simp [hnone, Dictionary.add, hid, Entries.find?_put]
  · simp [hsome]

/-- While a document is compiled, a reference `#k` inside one of its definitions leads to its own
definition `k`, or it is a cycle and `k` is under way. So no such reference is reported as one that
leads nowhere. -/
theorem resolved_local (hid : doc.id = some id)
    (hdict : Entries.find? o.lexicons id = none ∨ Entries.find? o.lexicons id = some doc)
    {k : String} (hk : k ≠ "") {d : Definition} (hd : doc.definition? k = some d) :
    (doc.compileStacked o).1 = doc.compile o ∧
      (∀ l ∈ (doc.compileStacked o).2.resolved, l.reference = "#" ++ k →
        (∃ here, l.scope.head? = some here ∧ here.nsid = id) →
          l.result = .ok (some (⟨id, k⟩, d)) ∨
            ⟨id, k⟩ ∈ l.scope ∧
              (o.cyclePolicy = .permissive ∧ l.result = .ok none ∨
                o.cyclePolicy = .fail ∧
                  l.result = .error (.cycle (l.scope.reverse ++ [⟨id, k⟩])))) ∧
      ∀ reference, doc.compile o ≠ .error (.unknownDocument reference id) ∧
        doc.compile o ≠ .error (.unknownDefinition reference ⟨id, k⟩) := by
  have hjoined := find?_joined hid hdict
  refine ⟨doc.compileStacked_eq o, ?_, fun reference => ⟨fun h => ?_, fun h => ?_⟩⟩
  · rintro l hl hreference ⟨here, hhere, rfl⟩
    have hlexicons : ((Context.ofOptions o).register doc).lexicons = o.lexicons.joined doc :=
      Context.lexicons_register rfl
    have hpolicy : ((Context.ofOptions o).register doc).cyclePolicy = o.cyclePolicy := by
      rw [Context.register_eq]
      rfl
    have hresult := ((doc.becomes_compileStacked o).resolved l hl).resolve_left List.not_mem_nil
    rw [← hlexicons] at hjoined
    rw [← hresult, hreference, ← hpolicy]
    let ctx := ((Context.ofOptions o).register doc).inScope l.scope
    have hcurrent : ctx.current? = some here := hhere
    exact Context.resolve_local hcurrent hk hjoined hd
  · have hnone : Entries.find? (o.lexicons.joined doc) id = none := compile_error h
    rw [hjoined] at hnone
    cases hnone
  · obtain ⟨found, hfound, hmissing⟩ := compile_error h
    rw [hjoined] at hfound
    cases hfound
    rw [hd] at hmissing
    cases hmissing

/-- The reference in this document is resolved, and leads to the text below it. -/
theorem resolved_local_text :
    let doc : Document := { id := some "app.note", defs := [("main", .ref { target := "#k" }),
      ("k", .string {})] }
    (doc.compileStacked {}).2.resolved.map (fun l => (l.scope, l.reference)) =
        [([⟨"app.note", "main"⟩], "#k")] ∧
      ∀ l ∈ (doc.compileStacked {}).2.resolved, l.reference = "#" ++ "k" →
        (∃ here, l.scope.head? = some here ∧ here.nsid = "app.note") →
          l.result = .ok (some (⟨"app.note", "k"⟩, .string {})) ∨ ⟨"app.note", "k"⟩ ∈ l.scope := by
  intro doc
  have hk : doc.definition? "k" = some (.string {}) := rfl
  have h := resolved_local (o := {}) rfl (.inl rfl) (by decide) hk
  refine ⟨by decide +kernel, fun l hl hreference hhere => ?_⟩
  exact (h.2.1 l hl hreference hhere).imp_right fun hcycle => hcycle.1

/-- The same reference leads nowhere when the dictionary has another document with the id, and when
the document has no id. -/
theorem compile_shadowed :
    let doc : Document := { id := some "app.note", defs := [("main", .ref { target := "#k" }),
      ("k", .string {})] }
    let other : Document := { id := some "app.note", defs := [("main", .null {})] }
    doc.definition? "k" = some (.string {}) ∧
      doc.compile { lexicons := Dictionary.ofList [other] } =
        .error (.unknownDefinition "#k" ⟨"app.note", "k"⟩) ∧
      ({ doc with id := none } : Document).compile {} = .error (.unknownDocument "#k" "") :=
  ⟨rfl, rfl, rfl⟩

end Document
end Lexicon
