import Lexicon.Command
import Lexicon.Proofs.Catalog
import Lexicon.Proofs.Config
import Lexicon.Proofs.Outline.Counts

/-!
# Listed addresses and compilations

One command lists the addresses of a document and another one compiles it, from the same settings.
All nodes that the compilation visits are listed. Where it does not follow references, the listing
goes on behind them: behind those from a document to itself, and behind all of them where it is the
configuration alone that keeps the compilation from following them.
-/

namespace Lexicon

def Config.Plain (c : Config) : Prop :=
  ∀ e ∈ c.addresses, e.2.omitted = false ∧ e.2.replacement? = none

instance (c : Config) : Decidable c.Plain := inferInstanceAs (Decidable (∀ e ∈ c.addresses, _))

namespace Settings

variable {s : Settings} {files : Files} {config : Config} {lexicons : Dictionary}
  {o : CompileOptions}

theorem proper_of_loadConfig (h : s.loadConfig files = .ok config) : config.Proper := by
  unfold loadConfig at h
  split at h
  · exact Config.proper_of_load (mapError_eq_ok.mp h)
  · obtain rfl := Except.ok.inj h
    exact ⟨List.nodup_nil, nofun⟩

theorem proper_of_loadFolders {c c' : Catalog} {paths : List Path} (hc : c.Proper)
    (h : loadFolders files c paths = .ok c') : c'.Proper := by
  induction paths generalizing c with
  | nil =>
    obtain rfl : c = c' := Except.ok.inj h
    exact hc
  | cons path rest ih =>
    have hafter := Catalog.keeps_addFolder files path c hc
    rw [loadFolders] at h
    split at h
    · rename_i hrun
      rw [hrun] at hafter
      exact ih hafter h
    · exact nomatch h

theorem proper_of_loadDictionary (h : s.loadDictionary files config = .ok lexicons) :
    lexicons.All Document.Proper := by
  obtain ⟨c, hc, rfl⟩ := bind_pure_eq_ok.mp h
  exact proper_of_loadFolders Catalog.proper_empty hc

/-- The options of a compilation, where the configuration omits and replaces nothing. No node is
omitted or replaced then, and the metadata at an address are those of the configuration. -/
structure Assembled (s : Settings) (files : Files) (config : Config) (o : CompileOptions) :
    Prop where
  lexicons : s.loadDictionary files config = .ok o.lexicons
  registry : o.registry = {}
  followRefs : o.followRefs = (!s.noFollowRefs && config.followRefs)
  override? : ∀ a, o.table.override? a = none
  metadata? : ∀ e ∈ config.addresses, (o.table.getD e.1).metadata? = e.2.metadata?

theorem assembled_of_compileOptions (hconfig : s.loadConfig files = .ok config)
    (hplain : config.Plain) (h : s.compileOptions files = .ok o) : s.Assembled files config o := by
  obtain ⟨loaded, hloaded, h⟩ := bind_eq_ok.mp h
  obtain rfl : config = loaded := Except.ok.inj (hconfig.symm.trans hloaded)
  obtain ⟨lexicons, hlexicons, h⟩ := bind_eq_ok.mp h
  have hproper := proper_of_loadConfig hconfig
  obtain ⟨ho, htable⟩ := Config.options_eq_ok hproper.distinct (mapError_eq_ok.mp h)
  refine ⟨?_, ?_, ?_, fun a => ?_, fun e he => ?_⟩
  · rw [ho]
    exact hlexicons
  · rw [ho]
    rfl
  · rw [ho]
    rfl
  · rcases htable a with ⟨-, hnone⟩ | ⟨entry, given, hentry, hgiven, hoptions⟩
    · rw [OptionTable.override?, OptionTable.getD, hnone]
      rfl
    · obtain ⟨homitted, hreplacement⟩ := hplain _ (Entries.mem_of_find? hentry)
      rw [OptionTable.override?, OptionTable.getD, hgiven]
      exact (Config.pathOptions_eq_ok hoptions).2.2 homitted hreplacement
  · have hfind := Entries.find?_of_mem hproper.distinct he
    rcases htable e.1 with ⟨hnone, -⟩ | ⟨entry, given, hentry, hgiven, hoptions⟩
    · exact absurd (hnone.symm.trans hfind) (Option.some_ne_none e.2).symm
    · obtain rfl := Option.some.inj (hentry.symm.trans hfind)
      rw [OptionTable.getD, hgiven]
      exact (Config.pathOptions_eq_ok hoptions).2.1

end Settings

namespace Command

open Outline (addresses TypeFlag)

variable {s : Settings} {files : Files} {config : Config} {lexicon : Path} {asJson asSchema : Bool}
  {target? : Option Path} {report listed compiled : Report}

theorem run_compile_eq_ok (h : run s files (.compile lexicon asSchema target?) = .ok report) :
    ∃ doc o c, loadLexicon files lexicon = .ok doc ∧ s.compileOptions files = .ok o ∧
      doc.compile o = .ok c := by
  obtain ⟨c, hc, -⟩ := bind_pure_eq_ok.mp h
  obtain ⟨doc, hdoc, hc⟩ := bind_eq_ok.mp hc
  obtain ⟨o, ho, hc⟩ := bind_eq_ok.mp hc
  exact ⟨doc, o, c, hdoc, ho, mapError_eq_ok.mp hc⟩

def listing (asJson : Bool) (entries : List Outline.Entry) : String :=
  (if asJson then (Outline.toJson entries).pretty else Outline.render entries) ++ "\n"

theorem run_paths_eq_ok {doc : Document} {o : CompileOptions}
    (hconfig : s.loadConfig files = .ok config) (hdoc : loadLexicon files lexicon = .ok doc)
    (hlexicons : s.loadDictionary files config = .ok o.lexicons)
    (h : run s files (.paths lexicon asJson) = .ok report) :
    report.text = listing asJson (doc.outline (if s.noFollowRefs then [] else o.lexicons)) := by
  simp only [run, hdoc, hconfig, bind, Except.bind, hlexicons] at h
  split at h
  · rename_i hflag
    obtain rfl := Except.ok.inj h
    rw [if_pos hflag]
    rfl
  · rename_i hflag
    obtain rfl := Except.ok.inj h
    rw [if_neg hflag]
    rfl

/-- Where a configuration omits and replaces nothing, options count exactly at the nodes that are
compiled. They are all listed, and if references are followed nothing else is. The metadata of the
configuration at a node come back, but for a flag where the type of a blob is. -/
theorem paths_of_compile (hconfig : s.loadConfig files = .ok config) (hplain : config.Plain)
    (hlisted : run s files (.paths lexicon asJson) = .ok listed)
    (hcompiled : run s files (.compile lexicon asSchema target?) = .ok compiled) :
    ∃ doc o c, loadLexicon files lexicon = .ok doc ∧ s.compileOptions files = .ok o ∧
      doc.compile o = .ok c ∧
      let entries := doc.outline (if s.noFollowRefs then [] else o.lexicons)
      listed.text = listing asJson entries ∧
      (∀ p, doc.Counts o p ↔ p ∈ addresses (doc.nodes o)) ∧
      addresses (doc.nodes o) ⊆ addresses entries ∧
      (s.noFollowRefs = false → config.followRefs = true → doc.nodes o = entries) ∧
      ∀ e ∈ config.addresses, e.1 ∈ addresses (doc.nodes o) →
        (∀ d ∈ doc.defs, d.1 = e.1 → d.2.isPrimary = false) →
        ∀ metadata ∈ e.2.metadata?, ∀ key value, (key, value) ∈ metadata →
          (key = "readOnly" → ∀ a, e.1 ≠ Address.property a "$type") →
          ∃ recorded, c.metadata.find? e.1 = some recorded ∧ recorded.find? key = some value := by
  obtain ⟨doc, o, c, hdoc, ho, hc⟩ := run_compile_eq_ok hcompiled
  have hassembled := Settings.assembled_of_compileOptions hconfig hplain ho
  have hproper : doc.Proper := Document.proper_of_load (mapError_eq_ok.mp hdoc)
  have hdict := Settings.proper_of_loadDictionary hassembled.lexicons
  refine ⟨doc, o, c, hdoc, ho, hc, ?_, fun p => ?_, ?_, fun hflag hfollow => ?_, ?_⟩
  · exact run_paths_eq_ok hconfig hdoc hassembled.lexicons hlisted
  · exact Document.counts_iff hproper hdict hassembled.registry hassembled.override? hc
  · refine Document.nodes_subset_outline fun hfollow => ?_
    rw [hassembled.followRefs] at hfollow
    simp_all
  · rw [hflag]
    exact Document.nodes_of_follows (by rw [hassembled.followRefs, hflag, hfollow]; rfl)
  · intro e he hnode hprimary metadata hmetadata key value hmem hkey
    have hdistinct := (Settings.proper_of_loadConfig hconfig).metadata e he metadata hmetadata
    exact Document.recorded_of_mem_visited hproper hdict hassembled.registry hassembled.override?
      (Document.mem_visited hnode hprimary) ((hassembled.metadata? e he).trans hmetadata) hdistinct
      (Entries.find?_of_mem hdistinct hmem) (fun h => h.2.elim (hkey h.1)) hc

def note : Json := .object [
  ("id", .string "note"),
  ("defs", .object [
    ("main", .object [("type", .string "ref"), ("ref", .string "#tags")]),
    ("tags", .object [
      ("type", .string "array"),
      ("items", .object [("type", .string "token")])])])]

def labelled : Json := .object [
  ("paths", .object [
    ("main", .object [
      ("metadata", .object [("label", .string "Note")])])])]

def noteFiles : Files := fun path =>
  if path = "note.json" then .ok (.file note.compact)
  else if path = "lexc.json" then .ok (.file labelled.compact)
  else .error .missing

theorem paths_of_compile_note :
    let s : Settings := { config? := some "lexc.json" }
    ∃ doc o c recorded, loadLexicon noteFiles "note.json" = .ok doc ∧
      s.compileOptions noteFiles = .ok o ∧ doc.compile o = .ok c ∧
      (∀ p, doc.Counts o p ↔ p ∈ addresses (doc.outline o.lexicons)) ∧
      c.metadata.find? "main" = some recorded ∧ recorded.find? "label" ≠ none := by
  intro s
  have hconfig : (s.loadConfig noteFiles).toOption.any (fun config => decide (config.Plain ∧
      config.followRefs = true ∧ ∃ e ∈ config.addresses, e.1 = "main" ∧
        ∃ metadata ∈ e.2.metadata?, ∃ f ∈ metadata, f.1 = "label")) = true := by
    decide +kernel
  obtain ⟨config, hconfig, htest⟩ := exists_of_any hconfig
  obtain ⟨hplain, hfollow, e, he, hmain, metadata, hsome, ⟨key, value⟩, hvalue, rfl⟩ :=
    of_decide_eq_true htest
  have hlisted : (run s noteFiles (.paths "note.json" false)).toOption.any
      (fun _ => true) = true := by
    decide +kernel
  obtain ⟨listed, hlisted, -⟩ := exists_of_any hlisted
  have hcompiled : (run s noteFiles (.compile "note.json" false none)).toOption.any
      (fun _ => true) = true := by
    decide +kernel
  obtain ⟨compiled, hcompiled, -⟩ := exists_of_any hcompiled
  obtain ⟨doc, o, c, hdoc, ho, hc, -, hcounts, -, hnodes, hmetadata⟩ :=
    paths_of_compile hconfig hplain hlisted hcompiled
  have hdefs : (loadLexicon noteFiles "note.json").toOption.any (fun doc => decide
      ("main" ∈ doc.defs.keys ∧ ∀ d ∈ doc.defs, d.1 = "main" → d.2.isPrimary = false)) = true := by
    decide +kernel
  obtain ⟨loaded, hloaded, htest⟩ := exists_of_any hdefs
  obtain rfl : doc = loaded := Except.ok.inj (hdoc.symm.trans hloaded)
  obtain ⟨hkey, hprimary⟩ := of_decide_eq_true htest
  obtain ⟨recorded, hfound, hfind⟩ := hmetadata e he (hmain ▸ Document.mem_nodes_of_mem_keys hkey)
    (hmain ▸ hprimary) metadata hsome _ value hvalue nofun
  refine ⟨doc, o, c, recorded, hdoc, ho, hc, fun p => (hnodes rfl hfollow) ▸ hcounts p,
    hmain ▸ hfound, ?_⟩
  rw [hfind]
  exact Option.some_ne_none value

/-- The elements of the tags are listed behind the note, but do not count without references. -/
theorem paths_beyond_nodes :
    let s : Settings := { noFollowRefs := true }
    ∃ doc c, loadLexicon noteFiles "note.json" = .ok doc ∧
      s.compileOptions noteFiles = .ok { followRefs := false } ∧
      doc.compile { followRefs := false } = .ok c ∧
      run s noteFiles (.paths "note.json" false) = .ok { text := listing false (doc.outline []) } ∧
      "main.__array__" ∈ addresses (doc.outline []) ∧
      ¬ doc.Counts { followRefs := false } "main.__array__" := by
  intro s
  have hdoc : (loadLexicon noteFiles "note.json").toOption.any (fun doc => decide
      ("main.__array__" ∈ addresses (doc.outline []) ∧
        "main.__array__" ∉ addresses (doc.nodes { followRefs := false }) ∧
        (doc.compile { followRefs := false }).toOption.isSome = true)) = true := by
    decide +kernel
  obtain ⟨doc, hdoc, htest⟩ := exists_of_any hdoc
  obtain ⟨hlisted, hunvisited, hcompiles⟩ := of_decide_eq_true htest
  cases hc : doc.compile { followRefs := false } with
  | error e => exact nomatch (hc ▸ hcompiles)
  | ok c =>
    refine ⟨doc, c, hdoc, rfl, hc, ?_, hlisted, ?_⟩
    · simp only [run, hdoc]
      rfl
    · have hproper : doc.Proper := Document.proper_of_load (mapError_eq_ok.mp hdoc)
      have hdict : Dictionary.All Document.Proper [] := fun _ _ h => by cases h
      rw [Document.counts_iff hproper hdict rfl (fun _ => rfl) hc]
      exact hunvisited

end Command
end Lexicon
