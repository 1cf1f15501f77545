import Lexicon.Catalog
import Lexicon.Proofs.Compile.Document

/-!
# Documents of a catalog

Every document of a catalog has been read from a file, so it is proper like all that are read: those
that were there, and those that a folder adds until it is loaded or loading it fails
(`keeps_addFolder`).
-/

namespace Lexicon

theorem Document.proper_of_ofFile {path : Path} {text : String} {doc : Document}
    (h : Document.ofFile path text = .ok doc) : doc.Proper := by
  simp only [ofFile] at h
  split at h
  · cases h
  · exact proper_of_ofJson (mapError_eq_ok.mp h)

theorem Document.proper_of_load {files : Files} {path : Path} {doc : Document}
    (h : Document.load files path = .ok doc) : doc.Proper := by
  obtain ⟨text, -, hdoc⟩ := bind_eq_ok.mp h
  exact proper_of_ofFile hdoc

namespace Catalog

def Proper (c : Catalog) : Prop := c.dictionary.All Document.Proper

theorem proper_empty : Proper {} := fun _ _ h => by cases h

variable {α β : Type}

theorem runOn_bind (load : Load α) (next : α → Load β) (c : Catalog) :
    runOn c (load >>= next) = match runOn c load with
      | (.ok x, c') => runOn c' (next x)
      | (.error e, c') => (.error e, c') := by
  unfold runOn ExceptT.run StateT.run
  simp only [bind, ExceptT.bind, ExceptT.mk, StateT.bind]
  cases load c with
  | mk result c' => cases result <;> rfl

/-- The load adds proper documents only, also if it fails. -/
def Keeps (load : Load α) : Prop := ∀ c, Proper c → Proper (runOn c load).2

theorem keeps_pure (x : α) : Keeps (pure x : Load α) := fun _ h => h

theorem keeps_get : Keeps get := fun _ h => h

theorem keeps_throw (e : CatalogError) : Keeps (throw e : Load α) := fun _ h => h

theorem keeps_bind {load : Load α} {next : α → Load β} (hload : Keeps load)
    (hnext : ∀ x, Keeps (next x)) : Keeps (load >>= next) := by
  intro c hc
  have hafter := hload c hc
  rw [runOn_bind]
  cases hresult : runOn c load with
  | mk result c' =>
    rw [hresult] at hafter
    cases result with
    | error e => exact hafter
    | ok x => exact hnext x c' hafter

theorem keeps_lift_bind {x : Except CatalogError α} {next : α → Load β}
    (hnext : ∀ y, x = .ok y → Keeps (next y)) : Keeps (liftM x >>= next) := by
  cases x with
  | error e => exact keeps_throw e
  | ok y => exact hnext y rfl

theorem keeps_put {doc : Document} (path : Path) (id : String) (hdoc : doc.Proper) :
    Keeps (modify fun c => ⟨c.documents.put id doc, c.sources.put id path⟩) := by
  intro c hc other found hfound
  change (c.documents.put id doc).find? other = some found at hfound
  rw [Entries.find?_put] at hfound
  split at hfound
  · obtain rfl := Option.some.inj hfound
    exact hdoc
  · exact hc other found hfound

theorem keeps_insert {doc : Document} (path : Path) (hdoc : doc.Proper) :
    Keeps (insert path doc) := by
  unfold insert
  cases doc.id with
  | none => exact keeps_pure ()
  | some id =>
    refine keeps_bind keeps_get fun current => ?_
    split
    · exact keeps_throw _
    · exact keeps_put path id hdoc

mutual

theorem keeps_addTree : ∀ (path : Path) (tree : FileTree), Keeps (addTree path tree)
  | path, .folder entries => by
    rw [addTree]
    exact keeps_addEntries path entries
  | path, .file text => by
    rw [addTree]
    split
    · exact keeps_lift_bind fun doc hdoc => keeps_insert path (Document.proper_of_ofFile hdoc)
    · exact keeps_pure ()

theorem keeps_addEntries : ∀ (path : Path) (entries : List (String × FileTree)),
    Keeps (addEntries path entries)
  | _, [] => by
    rw [addEntries]
    exact keeps_pure ()
  | path, (name, tree) :: rest => by
    rw [addEntries]
    exact keeps_bind (keeps_addTree (path.join name) tree) fun _ => keeps_addEntries path rest

end

theorem keeps_addFolder (files : Files) (path : Path) : Keeps (addFolder files path) :=
  keeps_lift_bind fun entries _ => keeps_addEntries path entries

end Catalog
end Lexicon
