import Lexicon.Command
import Lexicon.Proofs.Catalog
import Lexicon.Proofs.Entries

/-!
# Loading keeps every document

A load of folders goes through the files below them, whatever the folders around them are named.
`Catalog.Adds` says what it does for a list of paths: it succeeds exactly if their files hold
documents with different ids, and then the catalog has these documents and their files under the
ids, and nothing else. A file adds its path, and two loads one after the other add what both add. So
a folder adds all paths below it, and several folders add theirs together.
-/

namespace Lexicon

mutual

def FileTree.paths (path : Path) : FileTree → List Path
  | .file _ => [path]
  | .folder entries => FileTree.pathsIn path entries

def FileTree.pathsIn (path : Path) : List (String × FileTree) → List Path
  | [] => []
  | (name, tree) :: rest => tree.paths (path.join name) ++ FileTree.pathsIn path rest

end

namespace Files

/-- The tree stands at the path, and all that is inside it can be read where it stands. -/
inductive Shows (files : Files) : Path → FileTree → Prop
  | file {path : Path} {text : String} (here : files path = .ok (.file text)) :
      Shows files path (.file text)
  | folder {path : Path} {entries : List (String × FileTree)}
      (here : files path = .ok (.folder entries))
      (inside : ∀ e ∈ entries, Shows files (path.join e.1) e.2) : Shows files path (.folder entries)

def Readable (files : Files) (folder : Path) : Prop :=
  ∃ entries, files.Shows folder (.folder entries)

def below (files : Files) (folder : Path) : List Path :=
  match files folder with
  | .ok tree => tree.paths folder
  | .error _ => []

def Gives (files : Files) (path : Path) (doc : Document) : Prop :=
  Catalog.holdsDocument path = true ∧ Document.load files path = .ok doc

/-- All files for documents hold one, and no two of these have the same id. A path that is listed
twice counts twice. -/
structure Loadable (files : Files) (paths : List Path) : Prop where
  reads : ∀ path ∈ paths, Catalog.holdsDocument path = true →
    ∃ doc, Document.load files path = .ok doc
  apart : paths.Pairwise fun path other => ∀ doc doc', files.Gives path doc →
    files.Gives other doc' → ∀ id, doc.id = some id → doc'.id ≠ some id

variable {files : Files} {path : Path} {doc : Document}

theorem load_eq_ofFile {text : String} (h : files path = .ok (.file text)) :
    Document.load files path = Document.ofFile path text := by
  unfold Document.load Files.text
  rw [h]
  rfl

theorem below_eq_pathsIn {entries : List (String × FileTree)}
    (h : files path = .ok (.folder entries)) :
    files.below path = FileTree.pathsIn path entries := by
  unfold below
  rw [h]
  rfl

theorem Gives.eq {doc' : Document} (h : files.Gives path doc) (h' : files.Gives path doc') :
    doc = doc' :=
  Except.ok.inj (h.2.symm.trans h'.2)

theorem loadable_nil : files.Loadable [] := ⟨nofun, .nil⟩

theorem Loadable.left {paths others : List Path} (h : files.Loadable (paths ++ others)) :
    files.Loadable paths :=
  ⟨fun path hpath => h.reads path (List.mem_append_left _ hpath),
    (List.pairwise_append.mp h.apart).1⟩

theorem Loadable.concat {done : List Path} (h : files.Loadable done)
    (hreads : Catalog.holdsDocument path = true → ∃ doc, Document.load files path = .ok doc)
    (hapart : ∀ first ∈ done, ∀ doc doc', files.Gives first doc → files.Gives path doc' →
      ∀ id, doc.id = some id → doc'.id ≠ some id) : files.Loadable (done ++ [path]) := by
  refine ⟨fun other hother => ?_, List.pairwise_append.mpr ⟨h.apart, ?_, ?_⟩⟩
  · rcases List.mem_append.mp hother with hdone | hpath
    · exact h.reads other hdone
    · obtain rfl := List.mem_singleton.mp hpath
      exact hreads
  · exact List.pairwise_singleton _ path
  · intro first hfirst other hother
    obtain rfl := List.mem_singleton.mp hother
    exact hapart first hfirst

end Files

namespace Catalog

/-- The catalog has the documents with an id in the files at some paths, each with its file, and
nothing else. -/
structure Holds (c : Catalog) (files : Files) (paths : List Path) : Prop where
  sameKeys : c.documents.keys = c.sources.keys
  find?_iff : ∀ id path doc,
    c.documents.find? id = some doc ∧ c.sources.find? id = some path ↔
      path ∈ paths ∧ files.Gives path doc ∧ doc.id = some id

variable {files : Files} {c : Catalog} {path : Path} {done paths others : List Path}
  {doc : Document} {id : String}

theorem holds_empty : Holds {} files [] := ⟨rfl, fun _ _ _ => by simp⟩

theorem Holds.find?_sources (h : c.Holds files done) (hsource : c.sources.find? id = some path) :
    ∃ doc, path ∈ done ∧ files.Gives path doc ∧ doc.id = some id := by
  have hkey : c.documents.find? id ≠ none := by
    rw [Ne, Entries.find?_eq_none_iff, h.sameKeys, ← Entries.find?_eq_none_iff, hsource]
    exact Option.some_ne_none path
  obtain ⟨doc, hdoc⟩ := Option.ne_none_iff_exists'.mp hkey
  exact ⟨doc, (h.find?_iff id path doc).mp ⟨hdoc, hsource⟩⟩

theorem Holds.concat_of_forall_ne (h : c.Holds files done)
    (hid : ∀ doc id, files.Gives path doc → doc.id ≠ some id) : c.Holds files (done ++ [path]) := by
  refine ⟨h.sameKeys, fun id other doc => (h.find?_iff id other doc).trans ?_⟩
  rw [List.mem_append, List.mem_singleton]
  constructor
  · exact fun ⟨hmem, hgives⟩ => ⟨.inl hmem, hgives⟩
  · rintro ⟨hmem | rfl, hgives, hdoc⟩
    · exact ⟨hmem, hgives, hdoc⟩
    · exact absurd hdoc (hid doc id hgives)

/-- A document with a new id joins under this id. -/
theorem Holds.concat_put (h : c.Holds files done) (hgives : files.Gives path doc)
    (hid : doc.id = some id) (hnew : c.sources.find? id = none) :
    Holds ⟨c.documents.put id doc, c.sources.put id path⟩ files (done ++ [path]) := by
  refine ⟨Entries.keys_put_congr h.sameKeys id doc path, fun key other found => ?_⟩
  rw [Entries.find?_put, Entries.find?_put, List.mem_append, List.mem_singleton]
  by_cases hkey : id = key
  · subst hkey
    rw [if_pos rfl, if_pos rfl]
    constructor
    · rintro ⟨hfound, hother⟩
      obtain rfl := Option.some.inj hfound
      obtain rfl := Option.some.inj hother
      exact ⟨.inr rfl, hgives, hid⟩
    · rintro ⟨hmem | rfl, hother, hdoc⟩
      · have hold := ((h.find?_iff id other found).mpr ⟨hmem, hother, hdoc⟩).2
        exact absurd (hold.symm.trans hnew) (Option.some_ne_none other)
      · rw [hgives.eq hother]
        exact ⟨rfl, rfl⟩
  · rw [if_neg hkey, if_neg hkey, h.find?_iff key other found]
    constructor
    · exact fun ⟨hmem, hother⟩ => ⟨.inl hmem, hother⟩
    · rintro ⟨hmem | rfl, hother, hdoc⟩
      · exact ⟨hmem, hother, hdoc⟩
      · rw [← hgives.eq hother] at hdoc
        exact absurd (Option.some.inj (hid.symm.trans hdoc)) hkey

def Outcome (files : Files) (paths : List Path) {ε : Type} : Except ε Catalog → Prop
  | .ok c => files.Loadable paths ∧ c.Holds files paths
  | .error _ => ¬ files.Loadable paths

theorem Outcome.ok_iff {ε : Type} {result : Except ε Catalog} (h : Outcome files paths result) :
    ((∃ c, result = .ok c) ↔ files.Loadable paths) ∧
      ∀ c, result = .ok c → c.Holds files paths := by
  cases result with
  | error e => exact ⟨⟨nofun, fun hloadable => absurd hloadable h⟩, nofun⟩
  | ok c =>
    refine ⟨⟨fun _ => h.1, fun _ => ⟨c, rfl⟩⟩, fun c' hc => ?_⟩
    obtain rfl := Except.ok.inj hc
    exact h.2

def loaded (load : Load Unit) (c : Catalog) : Except CatalogError Catalog :=
  match runOn c load with
  | (.ok _, c') => .ok c'
  | (.error e, _) => .error e

/-- Where all is well so far, the load goes on with the files at some more paths. -/
def Adds (files : Files) (paths : List Path) (load : Load Unit) : Prop :=
  ∀ c done, files.Loadable done → c.Holds files done →
    Outcome files (done ++ paths) (loaded load c)

theorem loaded_bind (load next : Load Unit) (c : Catalog) :
    loaded (load >>= fun _ => next) c = loaded load c >>= loaded next := by
  unfold loaded
  rw [runOn_bind]
  cases runOn c load with
  | mk result c' => cases result <;> rfl

/-- A file that gives no document with an id changes nothing. -/
theorem outcome_unchanged (hloadable : files.Loadable done) (hc : c.Holds files done)
    (hreads : holdsDocument path = true → ∃ doc, Document.load files path = .ok doc)
    (hid : ∀ doc id, files.Gives path doc → doc.id ≠ some id) :
    Outcome files (done ++ [path]) (.ok c : Except CatalogError Catalog) :=
  ⟨hloadable.concat hreads fun _ _ _ doc _ hdoc id _ => hid doc id hdoc,
    hc.concat_of_forall_ne hid⟩

theorem adds_nothing : Adds files [] (pure ()) := by
  intro c done hloadable hc
  rw [List.append_nil]
  exact ⟨hloadable, hc⟩

theorem adds_append {load next : Load Unit} (hload : Adds files paths load)
    (hnext : Adds files others next) : Adds files (paths ++ others) (load >>= fun _ => next) := by
  intro c done hloadable hc
  have hfirst := hload c done hloadable hc
  rw [loaded_bind, ← List.append_assoc]
  cases hresult : loaded load c with
  | error e =>
    rw [hresult] at hfirst
    exact fun hall => hfirst hall.left
  | ok c' =>
    rw [hresult] at hfirst
    exact hnext c' (done ++ paths) hfirst.1 hfirst.2

theorem loaded_insert (path : Path) (doc : Document) (c : Catalog) :
    loaded (insert path doc) c = match doc.id with
      | none => .ok c
      | some id =>
        match c.sources.find? id with
        | some first => .error (.duplicate path id first)
        | none => .ok ⟨c.documents.put id doc, c.sources.put id path⟩ := by
  unfold insert
  cases doc.id with
  | none => rfl
  | some id =>
    change loaded (match c.sources.find? id with
      | some first => throw (.duplicate path id first)
      | none => modify fun c => ⟨c.documents.put id doc, c.sources.put id path⟩) c = _
    dsimp only
    cases c.sources.find? id <;> rfl

theorem adds_insert (hgives : files.Gives path doc) : Adds files [path] (insert path doc) := by
  intro c done hloadable hc
  have hreads : holdsDocument path = true → ∃ doc, Document.load files path = .ok doc :=
    fun _ => ⟨doc, hgives.2⟩
  rw [loaded_insert]
  cases hid : doc.id with
  | none =>
    refine outcome_unchanged hloadable hc hreads fun doc' id hdoc' => ?_
    rw [← hgives.eq hdoc', hid]
    exact (Option.some_ne_none id).symm
  | some id =>
    dsimp only
    cases hsource : c.sources.find? id with
    | some first =>
      -- The id is taken, so one of the files before gives a document with it.
      obtain ⟨doc', hfirst, hdoc', hid'⟩ := hc.find?_sources hsource
      intro hall
      have hapart := (List.pairwise_append.mp hall.apart).2.2 first hfirst path
        (List.mem_singleton_self path)
      exact hapart doc' doc hdoc' hgives id hid' hid
    | none =>
      -- If a file before gave the id, the catalog would have a source for it.
      refine ⟨hloadable.concat hreads ?_, hc.concat_put hgives hid hsource⟩
      intro first hfirst doc' doc'' hdoc' hdoc'' other hother
      rw [← hgives.eq hdoc'', hid]
      intro heq
      obtain rfl := Option.some.inj heq
      have hold := ((hc.find?_iff id first doc').mpr ⟨hfirst, hdoc', hother⟩).2
      exact absurd (hold.symm.trans hsource) (Option.some_ne_none first)

theorem adds_file {text : String} (h : files path = .ok (.file text)) :
    Adds files [path] (addTree path (.file text)) := by
  rw [addTree, ← files.load_eq_ofFile h]
  split
  · rename_i hholds
    cases hdoc : Document.load files path with
    | error e =>
      intro c done hloadable hc hall
      have hmem : path ∈ done ++ [path] := List.mem_append_right _ (List.mem_singleton_self path)
      obtain ⟨doc, hread⟩ := hall.reads path hmem hholds
      exact nomatch hdoc.symm.trans hread
    | ok doc => exact adds_insert ⟨hholds, hdoc⟩
  · rename_i hholds
    exact fun c done hloadable hc =>
      outcome_unchanged hloadable hc (fun h => absurd h hholds) fun _ _ h => absurd h.1 hholds

theorem adds_entries {entries : List (String × FileTree)}
    (h : ∀ e ∈ entries, Adds files (e.2.paths (path.join e.1)) (addTree (path.join e.1) e.2)) :
    Adds files (FileTree.pathsIn path entries) (addEntries path entries) := by
  induction entries with
  | nil =>
    rw [FileTree.pathsIn, addEntries]
    exact adds_nothing
  | cons e rest ih =>
    obtain ⟨name, tree⟩ := e
    rw [FileTree.pathsIn, addEntries]
    exact adds_append (h (name, tree) (List.mem_cons_self ..))
      (ih fun e he => h e (List.mem_cons_of_mem _ he))

theorem adds_tree {tree : FileTree} (h : files.Shows path tree) :
    Adds files (tree.paths path) (addTree path tree) := by
  induction h with
  | file here => exact adds_file here
  | folder here inside ih =>
    rw [FileTree.paths, addTree]
    exact adds_entries ih

theorem adds_folder (h : files.Readable path) :
    Adds files (files.below path) (addFolder files path) := by
  -- A folder that is given is loaded like one that is met on the way.
  obtain ⟨entries, hshows⟩ := h
  have hadds := adds_tree hshows
  cases hshows with
  | folder here _ =>
    rw [FileTree.paths, addTree] at hadds
    have hfolder : addFolder files path = addEntries path entries := by
      unfold addFolder Files.folder
      rw [here]
      rfl
    rw [files.below_eq_pathsIn here, hfolder]
    exact hadds

theorem loadFolders_cons (c : Catalog) (path : Path) (rest : List Path) :
    Settings.loadFolders files c (path :: rest) =
      ((loaded (addFolder files path) c).mapError (.directory path)) >>= fun c' =>
        Settings.loadFolders files c' rest := by
  rw [Settings.loadFolders]
  unfold loaded
  cases runOn c (addFolder files path) with
  | mk result c' => cases result <;> rfl

theorem outcome_loadFolders {folders : List Path} (h : ∀ folder ∈ folders, files.Readable folder)
    (hloadable : files.Loadable done) (hc : c.Holds files done) :
    Outcome files (done ++ folders.flatMap files.below) (Settings.loadFolders files c folders) := by
  induction folders generalizing c done with
  | nil =>
    rw [List.flatMap_nil, List.append_nil]
    exact ⟨hloadable, hc⟩
  | cons folder rest ih =>
    obtain ⟨hfolder, hrest⟩ := List.forall_mem_cons.mp h
    have hfirst := adds_folder hfolder c done hloadable hc
    rw [loadFolders_cons, List.flatMap_cons, ← List.append_assoc]
    cases hresult : loaded (addFolder files folder) c with
    | error e =>
      rw [hresult] at hfirst
      exact fun hall => hfirst hall.left
    | ok c' =>
      rw [hresult] at hfirst
      exact ih hrest hfirst.1 hfirst.2

theorem outcome_ofFolder (h : files.Readable path) :
    Outcome files (files.below path) (ofFolder files path) :=
  adds_folder h {} [] files.loadable_nil holds_empty

/-- A folder, or several folders one after the other, are loaded exactly if all files for documents
below them hold one and no two documents have the same id. Then the catalog has the documents with
an id, each with the file that it is read from, and nothing else. A folder that is given twice
counts twice. -/
theorem loads_iff_loadable (files : Files) :
    (∀ folder, files.Readable folder →
      ((∃ c, ofFolder files folder = .ok c) ↔ files.Loadable (files.below folder)) ∧
        ∀ c, ofFolder files folder = .ok c → c.Holds files (files.below folder)) ∧
      ∀ folders, (∀ folder ∈ folders, files.Readable folder) →
        ((∃ c, Settings.loadFolders files {} folders = .ok c) ↔
          files.Loadable (folders.flatMap files.below)) ∧
        ∀ c, Settings.loadFolders files {} folders = .ok c →
          c.Holds files (folders.flatMap files.below) :=
  ⟨fun _ h => (outcome_ofFolder h).ok_iff,
    fun _ h => (outcome_loadFolders h files.loadable_nil holds_empty).ok_iff⟩

def song : FileTree := .file "id: app.song\ndefs:\n  main:\n    type: token\n"

def note : FileTree := .file (Json.object [("defs", .object [])]).compact

def plan : FileTree := .file "Music and notes"

/-- A folder in it has the name of a file. -/
def shelf : FileTree :=
  .folder [("albums.json", .folder [("song.yaml", song)]), ("note.json", note), ("plan.txt", plan)]

def shelfFiles : Files := fun path =>
  (Entries.find? [("shelf", shelf), ("shelf/albums.json", .folder [("song.yaml", song)]),
    ("shelf/albums.json/song.yaml", song), ("shelf/note.json", note),
    ("shelf/plan.txt", plan)] path).elim (.error .missing) .ok

theorem readable_shelf : shelfFiles.Readable "shelf" := by
  have hsong : shelfFiles.Shows "shelf/albums.json/song.yaml" song := .file rfl
  have halbums : shelfFiles.Shows "shelf/albums.json" (.folder [("song.yaml", song)]) :=
    .folder rfl (List.forall_mem_singleton.mpr hsong)
  have hnote : shelfFiles.Shows "shelf/note.json" note := .file rfl
  have hplan : shelfFiles.Shows "shelf/plan.txt" plan := .file rfl
  refine ⟨_, .folder rfl fun e he => ?_⟩
  rcases List.mem_cons.mp he with rfl | he
  · exact halbums
  · rcases List.mem_pair.mp he with rfl | rfl
    · exact hnote
    · exact hplan

theorem loads_iff_loadable_shelf :
    ∃ c doc, ofFolder shelfFiles "shelf" = .ok c ∧
      c.sources = [("app.song", "shelf/albums.json/song.yaml")] ∧
      c.documents.find? "app.song" = some doc ∧
      Document.load shelfFiles "shelf/albums.json/song.yaml" = .ok doc ∧
      ∀ c', Settings.loadFolders shelfFiles {} ["shelf", "shelf"] ≠ .ok c' := by
  obtain ⟨hone, hseveral⟩ := loads_iff_loadable shelfFiles
  obtain ⟨-, hholds⟩ := hone "shelf" readable_shelf
  have hloaded : (ofFolder shelfFiles "shelf").toOption.any (fun c =>
      decide (c.sources = [("app.song", "shelf/albums.json/song.yaml")])) = true := by
    decide +kernel
  obtain ⟨c, hc, hsources⟩ := exists_of_any hloaded
  have hsources := of_decide_eq_true hsources
  have hsource : c.sources.find? "app.song" = some "shelf/albums.json/song.yaml" := by
    rw [hsources]
    rfl
  obtain ⟨doc, hmem, hgives, hid⟩ := (hholds c hc).find?_sources hsource
  have hdoc := ((hholds c hc).find?_iff _ _ doc).mpr ⟨hmem, hgives, hid⟩
  refine ⟨c, doc, hc, hsources, hdoc.1, hgives.2, fun c' hc' => ?_⟩
  obtain ⟨htwice, -⟩ := hseveral ["shelf", "shelf"] fun folder hfolder => by
    rcases List.mem_pair.mp hfolder with rfl | rfl
    · exact readable_shelf
    · exact readable_shelf
  have hapart := (List.pairwise_append.mp (htwice.mp ⟨c', hc'⟩).apart).2.2
  have hagain : "shelf/albums.json/song.yaml" ∈ ["shelf"].flatMap shelfFiles.below :=
    List.mem_flatMap.mpr ⟨"shelf", List.mem_singleton_self _, hmem⟩
  exact hapart _ hmem _ hagain doc doc hgives hgives "app.song" hid hid

end Catalog
end Lexicon
