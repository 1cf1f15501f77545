import Lexicon.Proofs.Compile.Places
import Lexicon.Proofs.Definition.Sources
import Lexicon.Proofs.Outline.Counts
import Lexicon.Proofs.Validator.Output

/-!
# Declaration order

What a document declares keeps its order from the JSON value to the values that are put out. The
compiled definitions are in the order of `defs`; the fields of an object are in the order of its
`properties`, and the fields that the options add come after them (`OptionTable.fieldKeys`); the
keys of an output are in the order of the fields, whatever the order of the input is
(`Document.compile_keeps_order`).
-/

namespace Lexicon

namespace Definition

variable {P : Definition → Prop} {d e : Definition}

def Has : Definition → Definition → Prop := Relation.ReflTransGen fun d e => e ∈ d.parts

theorem All.of_has (h : d.All P) (he : d.Has e) : e.All P := by
  induction he with
  | refl => exact h
  | tail _ hp ih => exact ih.inside hp

theorem all_of_has (h : ∀ e, d.Has e → P e) : d.All P := by
  induction hweight : d.weight using Nat.strong_induction_on generalizing d with
  | _ n ih =>
    refine .intro (h d .refl) fun e he => ?_
    exact ih e.weight (hweight ▸ weight_lt_of_mem_parts he) (fun p hp => h p (.head he hp)) rfl

end Definition

def Document.Holds (doc : Document) (s : ObjectShape Definition) : Prop :=
  ∃ e ∈ doc.defs, ∃ d, e.2.Has d ∧ s ∈ d.shapes

theorem Document.Holds.readIn {doc : Document} {s : ObjectShape Definition} (h : doc.Holds s)
    {x : Json} (hread : Document.ofJson x = .ok doc) : s.ReadIn x := by
  obtain ⟨e, he, d, hd, hs⟩ := h
  exact ((readIn_of_ofJson hread e he).of_has hd).here s hs

/-- The properties are in the order of the value that they are read from, which is inside `x` or, if
a document of the dictionary has them, inside the value which that one is read from. -/
def ObjectShape.Sourced (s : ObjectShape Definition) (x : Json) (dict : Dictionary) : Prop :=
  s.ReadIn x ∨ ∃ id doc, Entries.find? dict id = some doc ∧ doc.Holds s ∧
    ∀ y, Document.ofJson y = .ok doc → s.ReadIn y

/-- The keys of an object at an address: the declared ones that the options do not omit, and then
those of the added fields that are not there yet. -/
def OptionTable.fieldKeys (t : OptionTable) (a : Address) (declared : List String) : List String :=
  let own := declared.filter fun key => !t.omits (a.property key)
  own ++ ((Entries.keys (t.getD a).additional).removeAll own).eraseDups

namespace Compile

variable {ctx : Context} {a : Address} {t : OptionTable} {s s' : Tables} {w : Validator}

theorem keys_of_objectWith (hs : Keeps t s) {shape : ObjectShape Definition}
    (hdistinct : Entries.Distinct shape.properties)
    (hrun : (objectWith unbounded ctx shape a).runOn s = (.ok w, s')) :
    ∃ fields, w.kind = .object fields ∧ Entries.Distinct fields ∧
      Entries.keys fields = t.fieldKeys a (Entries.keys shape.properties) := by
  rw [objectWith_eq] at hrun
  obtain ⟨fields, s₁, hfields, hrun⟩ := runOn_bind_eq_ok.mp hrun
  rw [runOn_bind_of_ok (runOn_optionsAt a)] at hrun
  cases hrun
  have hkeys := keys_of_fieldsWith hs hfields
  have hown : Entries.Distinct fields := (sublist_fieldsWith hfields).nodup hdistinct
  refine ⟨_, rfl, Entries.distinct_ofList _, ?_⟩
  rw [Entries.ofList, Entries.insertAll, List.foldl_append]
  change (Entries.insertAll (Entries.ofList fields) (s'.options.getD a).additional).keys = _
  rw [Entries.ofList_eq_self hown, Entries.keys_insertAll hown, hkeys,
    (hs.fields hfields a).2]
  rfl

end Compile

/-- A value that an object validator accepts has an output for every field that is there or has a
default, in the order of the fields. -/
theorem Validator.keys_of_parse {v : Validator} {fields : List (String × Validator)}
    (hkind : v.kind = .object fields) (hdistinct : Entries.Distinct fields) {values : Entries Json}
    {y : Json} (h : v.parse (.object values) = .ok y) :
    ∃ outputs, y = .object outputs ∧ Entries.keys outputs =
      Entries.keys (fields.filter fun e => values.contains e.1 || e.2.default.isSome) := by
  have hnull : (Json.object values).isNull = false := rfl
  rw [parse_eq_ok, convert?_eq, hnull, Bool.and_false, if_neg Bool.false_ne_true, hkind,
    Kind.convert?_object hdistinct] at h
  obtain ⟨_, outputs, ⟨⟩, rfl, houtputs⟩ := h
  exact ⟨outputs, rfl, keys_convertFields houtputs⟩

namespace Document

variable {doc : Document} {o : CompileOptions} {c : CompiledLexicon} {x : Json}

theorem Occurs.sourced (hread : Document.ofJson x = .ok doc)
    (hdict : Dictionary.All Proper o.lexicons) (hregistry : o.registry = {}) {y : Occurrence}
    (hy : doc.Occurs o y) {s : ObjectShape Definition} (hs : s ∈ y.definition.shapes) :
    Entries.Distinct s.properties ∧ s.Sourced x o.lexicons := by
  let P : Definition → Prop := fun d => d.Proper ∧ ∀ s ∈ d.shapes, s.Sourced x o.lexicons
  have hshape : ∀ {d s}, P d → s ∈ d.shapes → P (.object s) := by
    rintro d s ⟨hproper, hsourced⟩ hs
    refine ⟨hproper.shape hs, fun s' hs' => ?_⟩
    obtain rfl := List.mem_singleton.mp hs'
    exact hsourced s' hs
  have href : ∀ {u : UnionShape} {reference}, P (.union u) → reference ∈ u.refs →
      P (.ref { target := reference }) :=
    fun _ _ => ⟨⟨nofun, nofun⟩, nofun⟩
  have hown : ∀ e ∈ doc.defs, e.2.All P := fun e he =>
    ((proper_of_ofJson hread).proper e he).and
      ((readIn_of_ofJson hread e he).mono fun _ h s hs => .inl (h s hs))
  have hothers : Dictionary.All (fun doc => ∀ e ∈ doc.defs, e.2.All P) o.lexicons := by
    refine fun id found hfound e he => ((hdict id found hfound).proper e he).and ?_
    refine Definition.all_of_has fun d hd s hs => .inr ⟨id, found, hfound, ?_⟩
    have hholds : found.Holds s := ⟨e, he, d, hd, hs⟩
    exact ⟨hholds, fun y => hholds.readIn⟩
  have hall := hy.all (P := P) (fun _ h => h.1) hshape href hregistry hown hothers
  exact ⟨hall.here.1.distinct s hs, hall.here.2 s hs⟩

/-- Declaration order is kept. The compiled definitions are those of the value that are not omitted,
in its order. An object has its properties as fields in the order of the value that declares them,
less the omitted ones, and then the fields that the options add. What comes of a value that it
accepts has the keys of the fields that the value has or that have a default, in the order of the
fields. -/
theorem compile_keeps_order (hread : Document.ofJson x = .ok doc)
    (hdict : Dictionary.All Proper o.lexicons) (hregistry : o.registry = {})
    (hc : doc.compile o = .ok c) :
    c.defs.keys = (reader.keysUnder "defs" x).filter (fun name => !o.table.omits name) ∧
      ∀ y s, doc.Occurs o y → y.definition = .object s ∨ y.definition = .params s →
        o.table.override? y.address = none → s.Sourced x o.lexicons ∧
          ∃ fields, Entries.Distinct fields ∧
            Entries.keys fields = o.table.fieldKeys y.address (Entries.keys s.properties) ∧
            (∀ place ∈ y.place, ∃ v, c.at? place = some v ∧ v.kind = .object fields) ∧
            ∀ (v : Validator) (values : Entries Json) output, v.kind = .object fields →
              v.parse (.object values) = .ok output →
                ∃ outputs, output = .object outputs ∧ Entries.keys outputs =
                  Entries.keys (fields.filter fun e => values.contains e.1 || e.2.default.isSome) := by
  constructor
  · obtain ⟨compiled, tables, hrun, rfl⟩ := compile_eq_ok.mp hc
    rw [← keys_of_ofJson hread]
    exact Compile.keys_definitions hrun
  · intro y s hy hs hoverride
    obtain ⟨hdistinct, hsourced⟩ := hy.sourced hread hdict hregistry (Definition.mem_shapes hs)
    have hviews : y.context.Views y.definition (.object s) := by
      have hbuiltin : y.context.registry = .builtin := by
        rw [hy.registry, hregistry, Registry.overlaid_empty]
      rcases hs with hs | hs
      · exact ⟨.object, by rw [hbuiltin, hs]; rfl, by rw [hs]; rfl⟩
      · exact ⟨.object, by rw [hbuiltin, hs]; rfl, by rw [hs]; rfl⟩
    have hstands := hy.stands (proper_of_ofJson hread).distinct hc
    unfold Occurrence.Stands at hstands
    rw [hoverride] at hstands
    obtain ⟨s₁, s₂, w, hkeeps, hrun, hplaced⟩ := hstands
    rw [Compile.dispatchWith_unbounded, Compile.dispatchWith_of_views hviews] at hrun
    obtain ⟨fields, hkind, hfields, hkeys⟩ :=
      Compile.keys_of_objectWith hkeeps hdistinct hrun
    refine ⟨hsourced, fields, hfields, hkeys, fun place hplace => ?_,
      fun v values output hv hparse => ?_⟩
    · obtain ⟨v, hat, hv⟩ := hplaced place hplace
      exact ⟨v, hat, hv.trans hkind⟩
    · exact Validator.keys_of_parse hv hfields hparse

end Document

def Json.playlist : Json :=
  .object [("id", .string "app.playlist"), ("defs", .object [
    ("track", .object [("type", .string "object"), ("properties", .object [
      ("title", .object [("type", .string "string")]),
      ("length", .object [("type", .string "string"), ("default", .string "3:00")]),
      ("year", .object [("type", .string "integer")]),
      ("note", .object [("type", .string "string")])])]),
    ("draft", .object [("type", .string "token")]),
    ("album", .object [("type", .string "token")])])]

def ObjectShape.track : ObjectShape Definition where
  properties := [("title", .string {}), ("length", .string { default := some (.string "3:00") }),
    ("year", .integer {}), ("note", .string {})]

def Document.playlist : Document where
  id := some "app.playlist"
  defs := [("track", .object .track), ("draft", .token {}), ("album", .token {})]

def CompileOptions.rated : CompileOptions where
  table := .ofList [
    ("draft", { override? := some .omit }),
    ("track.note", { override? := some .omit }),
    ("track", { additional :=
      [("rating", .any), ("title", .string), ("rating", .string), ("note", .boolean)] })]

def yearlessTrack : Entries Json :=
  [("note", .bool true), ("rating", .string "fine"), ("title", .string "Blue")]

/-- A track without a year gets a length. -/
theorem Document.compile_keeps_order_playlist :
    Document.ofJson .playlist = .ok .playlist ∧ ∃ c v outputs,
      Document.playlist.compile .rated = .ok c ∧ c.defs.keys = ["track", "album"] ∧
      c.at? { name := "track" } = some v ∧
      Entries.keys v.fields = ["title", "length", "year", "rating", "note"] ∧
      v.parse (.object yearlessTrack) = .ok (.object outputs) ∧
      Entries.keys outputs = ["title", "length", "rating", "note"] := by
  have hread : Document.ofJson .playlist = .ok .playlist := rfl
  obtain ⟨c, hc, v, hat, output, hparse, hgiven⟩ : ∃ c,
      Document.playlist.compile .rated = .ok c ∧ ∃ v, c.at? { name := "track" } = some v ∧
      ∃ output, v.parse (.object yearlessTrack) = .ok output ∧
      Entries.keys (v.fields.filter fun e => yearlessTrack.contains e.1 || e.2.default.isSome) =
        ["title", "length", "rating", "note"] :=
    ⟨_, rfl, _, rfl, _, rfl, rfl⟩
  have hdict : Dictionary.All Proper CompileOptions.rated.lexicons := nofun
  obtain ⟨hdefs, hobjects⟩ := compile_keeps_order hread hdict rfl hc
  have hoccurs : Document.playlist.Occurs .rated
      { context := Document.playlist.contextAt .rated "track"
        definition := .object .track
        address := "track"
        place := some { name := "track" } } :=
    .definition (List.mem_cons_self ..) nofun
  obtain ⟨-, fields, hdistinct, hkeys, hplaced, houtput⟩ := hobjects _ _ hoccurs (.inl rfl) rfl
  obtain ⟨v', hat', hkind⟩ := hplaced _ rfl
  obtain rfl : v = v' := Option.some.inj (hat.symm.trans hat')
  obtain ⟨outputs, rfl, houtputs⟩ := houtput v yearlessTrack output hkind hparse
  have hfields : v.fields = fields := by
    unfold Validator.fields
    rw [hkind]
  rw [hfields] at hgiven
  refine ⟨hread, c, v, outputs, hc, ?_, hat, ?_, hparse, houtputs.trans hgiven⟩
  · rw [hdefs]
    decide +kernel
  · rw [hfields, hkeys]
    decide +kernel

end Lexicon
