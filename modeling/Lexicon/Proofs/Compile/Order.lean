import Lexicon.Proofs.Compile.Definitions

/-!
# The order of definitions does not matter

Every definition of a document compiles by itself on the given tables, and those tables are the same
for every order of the definitions (`Document.compile_perm`). The dictionary has the document with
its definitions in another order, which is not seen by looking them up.
-/

namespace Lexicon

open Address (IsPart Moves Within)
open Compile (Compiles definitionAt definitions)

def Document.withDefs (doc : Document) (defs : Entries Definition) : Document :=
  { doc with defs := defs }

theorem Context.alike_register {ctx : Context} {doc : Document} {defs : Entries Definition}
    (hdefs : ∀ name, doc.defs.find? name = defs.find? name) :
    (ctx.register doc).lexicons.Alike (ctx.register (doc.withDefs defs)).lexicons := by
  have hid : (doc.withDefs defs).id = doc.id := rfl
  have hdefinition : doc.definition? = (doc.withDefs defs).definition? := funext hdefs
  intro nsid
  unfold register
  rw [hid]
  cases hdoc : doc.id with
  | none => rfl
  | some id =>
    cases hcontains : Entries.contains ctx.lexicons id with
    | true => simp only [hcontains, if_pos]
    | false =>
      simp only [hcontains, Bool.false_eq_true, if_false, Dictionary.add, hid, hdoc,
        Entries.find?_put]
      split
      · rw [Option.map_some, Option.map_some, hdefinition]
      · rfl

theorem Context.register_withDefs (ctx : Context) (doc : Document) (defs : Entries Definition) :
    ctx.register (doc.withDefs defs) =
      (ctx.register doc).reading (ctx.register (doc.withDefs defs)).lexicons := by
  have hleft := ctx.register_eq (doc.withDefs defs)
  have hright := ctx.register_eq doc
  rw [hright]
  exact hleft

namespace Compile

variable {ctx : Context} {dict : Dictionary} {nsid : String} {defs defs' : Entries Definition}
  {t s s' : Tables} {compiled compiled' : Entries Compiled}

section
variable (hdict : ctx.lexicons.Alike dict) (hperm : defs.Perm defs') (hdistinct : defs.Distinct)
  (hparts : ∀ e ∈ defs, IsPart e.1)
  (hrun : (definitions ctx nsid defs).runOn t = (.ok compiled, s))
include hdict hperm hdistinct hparts hrun

/-- Definitions compile in every order if they compile in one. -/
theorem exists_definitions_perm :
    ∃ compiled' s', (definitions (ctx.reading dict) nsid defs').runOn t = (.ok compiled', s') := by
  have hcompiles := compiles_definitions hdistinct hparts hrun
  refine exists_definitions ((hperm.map Prod.fst).nodup_iff.mp hdistinct)
    (fun e he => hparts e (hperm.mem_iff.mpr he)) fun e he => ?_
  have he := hperm.mem_iff.mpr he
  obtain ⟨u, hu, -⟩ := hcompiles.each e he
  have hresult := (definitionAt_congr nsid (hparts e he).1 hdict (.refl t)).1
  rw [hu] at hresult
  exact ⟨_, ((definitionAt (ctx.reading dict) nsid e).runOn t).2, Prod.ext hresult.symm rfl⟩

/-- Both orders give the same under every name and at every address. -/
theorem agree_definitions_perm
    (hrun' : (definitions (ctx.reading dict) nsid defs').runOn t = (.ok compiled', s')) :
    (∀ name, compiled.find? name = compiled'.find? name) ∧
      ∀ q, s.options.get? q = s'.options.get? q ∧ s.metadata.find? q = s'.metadata.find? q := by
  have hcompiles := compiles_definitions hdistinct hparts hrun
  have hcompiles' := compiles_definitions ((hperm.map Prod.fst).nodup_iff.mp hdistinct)
    (fun e he => hparts e (hperm.mem_iff.mpr he)) hrun'
  have heach : ∀ e ∈ defs, compiled.find? e.1 = compiled'.find? e.1 ∧
      Corresponds (Moves e.1 e.1) s s' := by
    intro e he
    obtain ⟨u, hu, hagree⟩ := hcompiles.each e he
    obtain ⟨u', hu', hagree'⟩ := hcompiles'.each e (hperm.mem_iff.mp he)
    obtain ⟨hresult, hsame⟩ := definitionAt_congr nsid (hparts e he).1 hdict (.refl t)
    rw [hu, hu'] at hresult hsame
    exact ⟨Except.ok.inj hresult, (hagree.symm_self.trans_self hsame).trans_self hagree'⟩
  constructor
  · intro name
    by_cases hname : name ∈ Entries.keys defs
    · obtain ⟨e, he, rfl⟩ := List.mem_map.mp hname
      exact (heach e he).1
    · have hname' : name ∉ Entries.keys defs' := fun h =>
        hname ((hperm.map Prod.fst).mem_iff.mpr h)
      rw [(Entries.find?_eq_none_iff _ _).mpr fun h => hname (hcompiles.keys name h),
        (Entries.find?_eq_none_iff _ _).mpr fun h => hname' (hcompiles'.keys name h)]
  · intro q
    by_cases hq : ∃ e ∈ defs, Within e.1 q
    · obtain ⟨e, he, hq⟩ := hq
      exact corresponds_self_iff.mp (heach e he).2 q hq
    · have hq' : ¬ ∃ e ∈ defs', Within e.1 q := fun ⟨e, he, hwithin⟩ =>
        hq ⟨e, hperm.mem_iff.mpr he, hwithin⟩
      rw [hcompiles.effect.options q hq, hcompiles'.effect.options q hq',
        hcompiles.effect.metadata q hq, hcompiles'.effect.metadata q hq']
      exact ⟨rfl, rfl⟩

end
end Compile

namespace Document

variable {doc : Document} {defs : Entries Definition} {o : CompileOptions}

theorem exists_compile_perm {c : CompiledLexicon} (hperm : doc.defs.Perm defs)
    (hdistinct : doc.defs.Distinct) (hparts : ∀ e ∈ doc.defs, IsPart e.1)
    (hc : doc.compile o = .ok c) : ∃ c', (doc.withDefs defs).compile o = .ok c' := by
  obtain ⟨compiled, s, hrun, -⟩ := compile_eq_ok.mp hc
  have hdict := (Context.ofOptions o).alike_register (Entries.find?_eq_of_perm hperm hdistinct)
  obtain ⟨compiled', s', hrun'⟩ :=
    Compile.exists_definitions_perm hdict hperm hdistinct hparts hrun
  rw [← Context.register_withDefs] at hrun'
  exact ⟨_, compile_eq_ok.mpr ⟨compiled', s', hrun', rfl⟩⟩

/-- Definition order does not matter: a document compiles if it does with its definitions in another
order, and then to the same definitions, metadata and options. -/
theorem compile_perm (hperm : doc.defs.Perm defs) (hdistinct : doc.defs.Distinct)
    (hparts : ∀ e ∈ doc.defs, IsPart e.1) :
    ((∃ c, doc.compile o = .ok c) ↔ ∃ c', (doc.withDefs defs).compile o = .ok c') ∧
      ∀ c c', doc.compile o = .ok c → (doc.withDefs defs).compile o = .ok c' →
        (∀ name, c.defs.find? name = c'.defs.find? name) ∧ c.metadata = c'.metadata ∧
          (∀ q, c.table.get? q = c'.table.get? q) ∧
          (o.table.entries.Sorted → c.table = c'.table) := by
  have hdistinct' : defs.Distinct := (hperm.map Prod.fst).nodup_iff.mp hdistinct
  have hparts' : ∀ e ∈ defs, IsPart e.1 := fun e he => hparts e (hperm.mem_iff.mpr he)
  refine ⟨⟨?_, ?_⟩, ?_⟩
  · rintro ⟨c, hc⟩
    exact exists_compile_perm hperm hdistinct hparts hc
  · rintro ⟨c', hc'⟩
    have hback : ∃ c, ((doc.withDefs defs).withDefs doc.defs).compile o = .ok c :=
      exists_compile_perm hperm.symm hdistinct' hparts' hc'
    exact hback
  · intro c c' hc hc'
    obtain ⟨compiled, s, hrun, rfl⟩ := compile_eq_ok.mp hc
    obtain ⟨compiled', s', hrun', rfl⟩ := compile_eq_ok.mp hc'
    have heffect := (Compile.compiles_definitions hdistinct hparts hrun).effect
    have heffect' := (Compile.compiles_definitions hdistinct' hparts' hrun').effect
    rw [Context.register_withDefs] at hrun'
    have hdict := (Context.ofOptions o).alike_register (Entries.find?_eq_of_perm hperm hdistinct)
    obtain ⟨hnames, htables⟩ :=
      Compile.agree_definitions_perm hdict hperm hdistinct hparts hrun hrun'
    refine ⟨hnames, ?_, fun q => (htables q).1, fun hsorted => ?_⟩
    · exact Entries.eq_of_sorted (heffect.sortedMetadata Entries.sorted_nil)
        (heffect'.sortedMetadata Entries.sorted_nil) fun q => (htables q).2
    · exact congrArg OptionTable.mk (Entries.eq_of_sorted (heffect.sortedOptions hsorted)
        (heffect'.sortedOptions hsorted) fun q => (htables q).1)

def gallery : Document where
  id := some "app.gallery"
  defs := [
    ("main", .object {
      required := ["cover"]
      properties := [("cover", .ref { target := "#picture" })] }),
    ("picture", .object {
      required := ["file"]
      properties := [("file", .blob {})] })]

theorem compile_perm_sample :
    ∃ c c', gallery.compile {} = .ok c ∧
      (gallery.withDefs gallery.defs.reverse).compile {} = .ok c' ∧
      c.defs.keys = ["main", "picture"] ∧ c'.defs.keys = ["picture", "main"] ∧
      c.defs.find? "main" = c'.defs.find? "main" ∧
      c.metadata.find? "main.cover.file.$type" ≠ none ∧ c.metadata = c'.metadata ∧
      c.table = c'.table := by
  obtain ⟨c, hc, hkeys, hblob⟩ : ∃ c, gallery.compile {} = .ok c ∧
      c.defs.keys = ["main", "picture"] ∧ c.metadata.find? "main.cover.file.$type" ≠ none :=
    ⟨_, rfl, rfl, nofun⟩
  have hreverse : gallery.defs.Perm gallery.defs.reverse := gallery.defs.reverse_perm.symm
  have hparts : ∀ e ∈ gallery.defs, IsPart e.1 := by simp [gallery, IsPart]
  obtain ⟨hiff, hsame⟩ := compile_perm hreverse (by decide) hparts
  obtain ⟨c', hc'⟩ := hiff.mp ⟨c, hc⟩
  obtain ⟨hdefs, hmetadata, -, htable⟩ := hsame c c' hc hc'
  have hkeys' : c'.defs.keys = ["picture", "main"] := by
    cases hc'
    rfl
  exact ⟨c, c', hc, hc', hkeys, hkeys', hdefs "main", hblob, hmetadata, htable Entries.sorted_nil⟩

end Document
end Lexicon
