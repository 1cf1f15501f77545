import Lexicon.Proofs.Definition.Read

/-!
# Where definitions are read

A reader of a record hands only values inside the given one to the reader of inner definitions
(`ReadInner.Local`), so a definition is read the way its inner definitions are
(`Definition.ofJson_eq`), and every list of properties in it is read from a value inside the one it
is read from (`Definition.all_readIn`). A map that is read keeps the keys of its object in the order
in which they first occur there, so properties and definitions are in the order of the value
(`ObjectShape.keys_of_ofJson`, `Document.keys_of_ofJson`).
-/

namespace Lexicon

namespace Json

inductive Has (x : Json) : Json → Prop
  | here : Has x x
  | field {fields : Entries Json} {e : String × Json} (h : Has x (.object fields))
    (he : e ∈ fields) : Has x e.2
  | element {elements : List Json} {y : Json} (h : Has x (.array elements)) (hy : y ∈ elements) :
    Has x y

variable {x y z : Json}

theorem Has.trans (hxy : x.Has y) (hyz : y.Has z) : x.Has z := by
  induction hyz with
  | here => exact hxy
  | field _ he ih => exact ih.field he
  | element _ hy ih => exact ih.element hy

theorem weight_le_weightElements {elements : List Json} (hy : y ∈ elements) :
    y.weight ≤ weightElements elements := by
  induction elements with
  | nil => exact nomatch hy
  | cons first rest ih =>
    rw [weightElements]
    rcases List.mem_cons.mp hy with rfl | hy
    · exact Nat.le_add_right _ _
    · have := ih hy
      omega

theorem Has.weight_le (h : x.Has y) : y.weight ≤ x.weight := by
  induction h with
  | here => exact Nat.le_refl _
  | field _ he ih =>
    have := weight_le_weightFields he
    rw [weight] at ih
    omega
  | element _ hy ih =>
    have := weight_le_weightElements hy
    rw [weight] at ih
    omega

/-- The keys of an object in the order in which they first occur. -/
def keys : Json → List String
  | object fields => (Entries.keys fields).eraseDups
  | _ => []

end Json

/-! ## Order of keys -/

namespace Read

variable {α : Type} {read : Read α} {x : Json}

theorem keys_of_mapM {fields : Entries Json} {pairs : Entries α}
    (h : fields.mapM (fun (key, x) => do return (key, ← read x)) = .ok pairs) :
    pairs.keys = fields.keys := by
  induction fields generalizing pairs with
  | nil =>
    obtain rfl : [] = pairs := Except.ok.inj h
    rfl
  | cons e rest ih =>
    rw [List.mapM_cons] at h
    obtain ⟨pair, hpair, h⟩ := bind_eq_ok.mp h
    obtain ⟨others, hothers, rfl⟩ := bind_pure_eq_ok.mp h
    obtain ⟨value, -, rfl⟩ := bind_pure_eq_ok.mp hpair
    rw [Entries.keys_cons, Entries.keys_cons, ih hothers]

/-- A map that is read has the keys of the object, in their order. -/
theorem keys_of_entries {entries : Entries α} (h : Read.entries read x = .ok entries) :
    entries.keys = x.keys := by
  cases x with
  | object fields =>
    obtain ⟨pairs, hpairs, rfl⟩ := bind_pure_eq_ok.mp h
    rw [Entries.keys_ofList, keys_of_mapM hpairs]
    rfl
  | _ => exact nomatch h

end Read

namespace FieldReader

variable {σ : Type} {r r' : FieldReader σ} {x : Json} {s : σ}

def given (r : FieldReader σ) : Json → Entries Json
  | .object fields => fields
  | .array elements => r.fields.zip elements
  | _ => []

def keysUnder (r : FieldReader σ) (key : String) (x : Json) : List String :=
  ((Entries.find? (r.given x).reverse key).map Json.keys).getD []

theorem has_of_mem_given {e : String × Json} (he : e ∈ r.given x) : x.Has e.2 := by
  cases x with
  | object fields => exact .field .here he
  | array elements => exact .element .here (List.of_mem_zip he).2
  | _ => exact nomatch he

theorem ofJson_eq_ok (h : r.ofJson x = .ok s) : r.ofFields (r.given x) = .ok s := by
  cases x with
  | object fields => exact h
  | array elements => exact r.ofElements_eq_ok h
  | _ => exact nomatch h

theorem keysUnder_of_ofJson {key : String} (get : σ → List String) (hblank : get r.blank = [])
    (hread : ∀ s k y t, r.read s k y = .ok t → get t = if k = key then y.keys else get s)
    (h : r.ofJson x = .ok s) : get s = r.keysUnder key x := by
  rw [last_of_ofFields get hread (ofJson_eq_ok h), hblank]
  rfl

end FieldReader

theorem ObjectShape.keys_read {inner : ReadInner} {s t : ObjectShape Definition} {key : String}
    {x : Json} (h : (ObjectShape.reader inner).read s key x = .ok t) :
    Entries.keys t.properties =
      if key = "properties" then x.keys else Entries.keys s.properties := by
  by_cases hkey : key = "properties"
  · subst hkey
    obtain ⟨properties, hproperties, rfl⟩ := bind_pure_eq_ok.mp h
    rw [if_pos rfl, Read.keys_of_entries hproperties]
  · rw [if_neg hkey]
    rcases read_properties h with heq | ⟨heq, -⟩
    · rw [heq]
    · exact absurd heq hkey

/-- Properties are in the order in which the value lists them. -/
theorem ObjectShape.keys_of_ofJson {inner : ReadInner} {s : ObjectShape Definition} {x : Json}
    (h : (ObjectShape.reader inner).ofJson x = .ok s) :
    Entries.keys s.properties = (ObjectShape.reader inner).keysUnder "properties" x :=
  FieldReader.keysUnder_of_ofJson (fun s => Entries.keys s.properties) rfl
    (fun _ _ _ _ => keys_read) h

theorem Document.keys_read {s t : Document} {key : String} {x : Json}
    (h : reader.read s key x = .ok t) :
    t.defs.keys = if key = "defs" then x.keys else s.defs.keys := by
  simp only [reader] at h
  split at h
  case h_5 =>
    obtain ⟨defs, hdefs, rfl⟩ := bind_pure_eq_ok.mp h
    rw [if_pos rfl, Read.keys_of_entries hdefs]
  case h_6 hkey =>
    obtain rfl := Except.ok.inj h
    rw [if_neg hkey]
  all_goals
    obtain ⟨_, _, rfl⟩ := bind_pure_eq_ok.mp h
    exact (if_neg (by decide)).symm

/-- Definitions are in the order in which the value lists them. -/
theorem Document.keys_of_ofJson {x : Json} {doc : Document} (h : ofJson x = .ok doc) :
    doc.defs.keys = reader.keysUnder "defs" x :=
  FieldReader.keysUnder_of_ofJson (fun doc => doc.defs.keys) rfl (fun _ _ _ _ => keys_read)
    (mapError_eq_ok.mp h)

/-! ## Readers of inner definitions -/

namespace ReadInner

variable {inner inner' : ReadInner} {x : Json}

def AgreeIn (inner inner' : ReadInner) (x : Json) : Prop := ∀ y, x.Has y → inner y = inner' y

theorem AgreeIn.inside {y : Json} (h : AgreeIn inner inner' x) (hy : x.Has y) :
    AgreeIn inner inner' y :=
  fun z hz => h z (hy.trans hz)

theorem AgreeIn.read (h : AgreeIn inner inner' x) : inner.read x = inner'.read x :=
  congrArg (Except.mapError Mismatch.definition) (h x .here)

structure Local {σ : Type} (reader : ReadInner → FieldReader σ) : Prop where
  name : ∀ inner inner', (reader inner).name = (reader inner').name
  fields : ∀ inner inner', (reader inner).fields = (reader inner').fields
  blank : ∀ inner inner', (reader inner).blank = (reader inner').blank
  read : ∀ {inner inner' x}, AgreeIn inner inner' x → ∀ s key,
    (reader inner).read s key x = (reader inner').read s key x

variable {σ : Type} {reader : ReadInner → FieldReader σ}

theorem Local.ofFields (hreader : Local reader) {fields : Entries Json}
    (h : ∀ e ∈ fields, AgreeIn inner inner' e.2) :
    (reader inner).ofFields fields = (reader inner').ofFields fields := by
  unfold FieldReader.ofFields
  rw [hreader.blank inner inner']
  generalize (reader inner').blank = start
  induction fields generalizing start with
  | nil => rfl
  | cons e rest ih =>
    obtain ⟨hfirst, hrest⟩ := List.forall_mem_cons.mp h
    rw [List.foldlM_cons, List.foldlM_cons, hreader.read hfirst]
    exact congrArg _ (funext (ih hrest))

theorem Local.ofJson (hreader : Local reader) (h : AgreeIn inner inner' x) :
    (reader inner).ofJson x = (reader inner').ofJson x := by
  cases x with
  | object fields => exact hreader.ofFields fun e he => h.inside (.field .here he)
  | array elements =>
    have hfields : (reader inner).ofFields ((reader inner').fields.zip elements) =
        (reader inner').ofFields ((reader inner').fields.zip elements) :=
      hreader.ofFields fun e he => h.inside (.element .here (List.of_mem_zip he).2)
    change (reader inner).ofElements elements = (reader inner').ofElements elements
    unfold FieldReader.ofElements
    rw [hreader.fields inner inner', hfields]
  | _ => simp only [FieldReader.ofJson, hreader.name inner inner']

theorem optional_congr {α : Type} {read read' : Read α} (h : read x = read' x) :
    Read.optional read x = Read.optional read' x := by
  cases x with
  | null => rfl
  | _ => exact congrArg (Except.map some) h

theorem entries_congr (h : AgreeIn inner inner' x) :
    Read.entries inner.read x = Read.entries inner'.read x := by
  cases x with
  | object fields =>
    have hfields : ∀ e ∈ fields, inner.read e.2 = inner'.read e.2 :=
      fun e he => (h.inside (.field .here he)).read
    have hmapM : fields.mapM (fun (key, x) => do return (key, ← inner.read x)) =
        fields.mapM (fun (key, x) => do return (key, ← inner'.read x)) := by
      clear h
      induction fields with
      | nil => rfl
      | cons e rest ih =>
        obtain ⟨hfirst, hrest⟩ := List.forall_mem_cons.mp hfields
        rw [List.mapM_cons, List.mapM_cons, ih hrest]
        dsimp only
        rw [hfirst]
    exact congrArg (· >>= fun pairs => pure (Entries.ofList pairs)) hmapM
  | _ => rfl

open Classical in
noncomputable def confined (inner : ReadInner) (P : Json → Prop) : ReadInner := fun y =>
  if P y then inner y else .error (.notAnObject y.kind)

theorem confined_of {P : Json → Prop} {y : Json} (h : P y) : inner.confined P y = inner y := if_pos h

theorem confined_eq_ok {P : Json → Prop} {y : Json} {d : Definition}
    (h : inner.confined P y = .ok d) : P y ∧ inner y = .ok d := by
  by_cases hy : P y
  · exact ⟨hy, (confined_of hy).symm.trans h⟩
  · rw [show inner.confined P y = _ from if_neg hy] at h
    exact nomatch h

/-- The values of a map are read from values inside the object. -/
theorem exists_of_mem_entries {entries : Entries Definition}
    (h : Read.entries inner.read x = .ok entries) {e : String × Definition} (he : e ∈ entries) :
    ∃ y, x.Has y ∧ inner y = .ok e.2 := by
  have hconfined : AgreeIn inner (inner.confined x.Has) x := fun _ hy => (confined_of hy).symm
  rw [entries_congr hconfined] at h
  obtain ⟨y, hy⟩ := (Read.entries_from h).parts e.2 (List.mem_map_of_mem he)
  exact ⟨y, confined_eq_ok hy⟩

end ReadInner

open ReadInner (Local optional_congr entries_congr)

theorem ObjectShape.local_reader : Local reader where
  name _ _ := rfl
  fields _ _ := rfl
  blank _ _ := rfl
  read h s key := by
    dsimp only [reader]
    rw [entries_congr h]

theorem ArrayShape.local_reader : Local reader where
  name _ _ := rfl
  fields _ _ := rfl
  blank _ _ := rfl
  read h s key := by
    dsimp only [reader]
    rw [h.read]

theorem RecordShape.local_reader : Local reader where
  name _ _ := rfl
  fields _ _ := rfl
  blank _ _ := rfl
  read h s key := by
    dsimp only [reader]
    rw [optional_congr (ObjectShape.local_reader.ofJson h)]

theorem Body.local_reader : Local reader where
  name _ _ := rfl
  fields _ _ := rfl
  blank _ _ := rfl
  read h s key := by
    dsimp only [reader]
    rw [optional_congr h.read]

theorem Message.local_reader : Local reader where
  name _ _ := rfl
  fields _ _ := rfl
  blank _ _ := rfl
  read h s key := by
    dsimp only [reader]
    rw [optional_congr h.read]

theorem QueryShape.local_reader : Local reader where
  name _ _ := rfl
  fields _ _ := rfl
  blank _ _ := rfl
  read h s key := by
    dsimp only [reader]
    rw [optional_congr (ObjectShape.local_reader.ofJson h),
      optional_congr (Body.local_reader.ofJson h)]

theorem ProcedureShape.local_reader : Local reader where
  name _ _ := rfl
  fields _ _ := rfl
  blank _ _ := rfl
  read h s key := by
    dsimp only [reader]
    rw [optional_congr (ObjectShape.local_reader.ofJson h),
      optional_congr (Body.local_reader.ofJson h)]

theorem SubscriptionShape.local_reader : Local reader where
  name _ _ := rfl
  fields _ _ := rfl
  blank _ _ := rfl
  read h s key := by
    dsimp only [reader]
    rw [optional_congr (ObjectShape.local_reader.ofJson h),
      optional_congr (Message.local_reader.ofJson h)]

namespace Definition

variable {inner inner' : ReadInner} {fields : Entries Json} {tag : String} {x : Json} {d : Definition}

theorem ofFields_congr (h : ∀ e ∈ fields, ReadInner.AgreeIn inner inner' e.2) :
    ofFields inner tag fields = ofFields inner' tag fields := by
  have harray : ArrayShape.ofFields inner fields = ArrayShape.ofFields inner' fields := by
    rw [ArrayShape.ofFields, ArrayShape.local_reader.ofFields h]
    rfl
  unfold ofFields
  rw [ObjectShape.local_reader.ofFields h, harray, RecordShape.local_reader.ofFields h,
    QueryShape.local_reader.ofFields h, ProcedureShape.local_reader.ofFields h,
    SubscriptionShape.local_reader.ofFields h]

theorem ofJsonAt_congr {depth depth' : Nat} (h : x.weight ≤ depth) (h' : x.weight ≤ depth') :
    ofJsonAt depth x = ofJsonAt depth' x := by
  induction depth generalizing depth' x with
  | zero => exact absurd h (Nat.not_le.mpr x.weight_pos)
  | succ depth ih =>
    cases depth' with
    | zero => exact absurd h' (Nat.not_le.mpr x.weight_pos)
    | succ depth' =>
      cases x with
      | object fields =>
        refine congrArg (Except.mapError _) (ofFields_congr fun e he y hy => ?_)
        have hweight := hy.weight_le
        have hfields := Json.weight_le_weightFields he
        rw [Json.weight] at h h'
        exact ih (by omega) (by omega)
      | _ => rfl

/-- Definitions inside a definition are read like definitions by themselves. -/
theorem ofJson_eq (x : Json) : ofJson x = ofJsonWith ofJson x := by
  unfold ofJson
  obtain ⟨depth, hdepth⟩ := Nat.exists_eq_succ_of_ne_zero x.weight_pos.ne'
  rw [hdepth]
  cases x with
  | object fields =>
    refine congrArg (Except.mapError _) (ofFields_congr fun e he y hy => ?_)
    have hweight := hy.weight_le
    have hfields := Json.weight_le_weightFields he
    rw [Json.weight] at hdepth
    exact ofJsonAt_congr (by omega) (Nat.le_refl _)
  | _ => rfl

/-! ## Sources -/

/-- What is inside a definition is read from a value inside one of its fields. -/
theorem exists_of_mem_parts_in (h : ofFields inner tag fields = .ok d) {e : Definition}
    (he : e ∈ d.parts) : ∃ f ∈ fields, ∃ y, f.2.Has y ∧ inner y = .ok e := by
  -- A reader that refuses everything outside the fields reads the same definition.
  have hconfined : ∀ f ∈ fields,
      ReadInner.AgreeIn inner (inner.confined fun y => ∃ f ∈ fields, f.2.Has y) f.2 :=
    fun f hf y hy => (ReadInner.confined_of ⟨f, hf, hy⟩).symm
  rw [ofFields_congr hconfined] at h
  obtain ⟨y, hy⟩ := exists_of_mem_parts h he
  obtain ⟨⟨f, hf, hhas⟩, hread⟩ := ReadInner.confined_eq_ok hy
  exact ⟨f, hf, y, hhas, hread⟩

end Definition

/-- The properties that a record gets from its fields are read from the value of one of them. -/
theorem FieldReader.exists_field {σ : Type} {r : FieldReader σ} {fields : Entries Json} {t : σ}
    (shape? : σ → Option (ObjectShape Definition)) {inner : ReadInner} (hblank : shape? r.blank = none)
    (hread : ∀ s key x t, r.read s key x = .ok t → shape? t = shape? s ∨
      Read.optional (ObjectShape.reader inner).ofJson x = .ok (shape? t))
    (h : r.ofFields fields = .ok t) {s : ObjectShape Definition} (hs : s ∈ shape? t) :
    ∃ f ∈ fields, (ObjectShape.reader inner).ofJson f.2 = .ok s := by
  refine r.ofFields_induct
    (P := fun t => ∀ s ∈ shape? t, ∃ f ∈ fields, (ObjectShape.reader inner).ofJson f.2 = .ok s)
    (by rw [hblank]; exact nofun) ?_ h s hs
  intro s₀ key x t hmem ih ht
  rcases hread s₀ key x t ht with heq | hoptional
  · rwa [heq]
  · exact fun s hs => ⟨(key, x), hmem, Read.optional_eq_ok hoptional hs⟩

/-- The shape is read from a value inside `x`, and its properties are in the order of that value. -/
inductive ObjectShape.ReadIn (s : ObjectShape Definition) (x : Json) : Prop
  | intro {y : Json} (inside : x.Has y)
    (read : (ObjectShape.reader Definition.ofJson).ofJson y = .ok s)
    (keys : Entries.keys s.properties =
      (ObjectShape.reader Definition.ofJson).keysUnder "properties" y) : ReadIn s x

namespace Definition

theorem exists_of_mem_shapes {inner : ReadInner} {tag : String} {fields : Entries Json}
    {d : Definition} (h : ofFields inner tag fields = .ok d) {s : ObjectShape Definition}
    (hs : s ∈ d.shapes) :
    ∃ y, (Json.object fields).Has y ∧ (ObjectShape.reader inner).ofJson y = .ok s := by
  have hfield : (∃ f ∈ fields, (ObjectShape.reader inner).ofJson f.2 = .ok s) →
      ∃ y, (Json.object fields).Has y ∧ (ObjectShape.reader inner).ofJson y = .ok s :=
    fun ⟨f, hf, hread⟩ => ⟨f.2, .field .here hf, hread⟩
  unfold ofFields at h
  split at h
  case h_1 | h_2 =>
    obtain ⟨s', hs', rfl⟩ := map_eq_ok.mp h
    obtain rfl : s = s' := List.mem_singleton.mp hs
    exact ⟨_, .here, hs'⟩
  case h_15 =>
    obtain ⟨t, ht, rfl⟩ := map_eq_ok.mp h
    exact hfield (FieldReader.exists_field RecordShape.record rfl
      (fun _ _ _ _ => RecordShape.read_record) ht (Option.mem_toList.mp hs))
  case h_16 =>
    obtain ⟨t, ht, rfl⟩ := map_eq_ok.mp h
    refine hfield (FieldReader.exists_field QueryShape.parameters rfl (fun _ _ _ _ hread => ?_) ht
      (Option.mem_toList.mp hs))
    exact (QueryShape.read_facets hread).elim And.left fun h => .inl h.1
  case h_17 =>
    obtain ⟨t, ht, rfl⟩ := map_eq_ok.mp h
    refine hfield (FieldReader.exists_field ProcedureShape.parameters rfl (fun _ _ _ _ hread => ?_) ht
      (Option.mem_toList.mp hs))
    exact (ProcedureShape.read_facets hread).elim And.left fun h => .inl h.1
  case h_18 =>
    obtain ⟨t, ht, rfl⟩ := map_eq_ok.mp h
    refine hfield (FieldReader.exists_field SubscriptionShape.parameters rfl
      (fun _ _ _ _ hread => ?_) ht (Option.mem_toList.mp hs))
    exact (SubscriptionShape.read_facets hread).elim And.left fun h => .inl h.1
  case h_19 =>
    obtain rfl := Except.ok.inj h
    exact nomatch hs
  all_goals
    obtain ⟨_, _, rfl⟩ := map_eq_ok.mp h
    exact nomatch hs

/-- All lists of properties in a definition are read from values inside the one it is read from. -/
theorem all_readIn {x y : Json} (hxy : x.Has y) {d : Definition} (h : ofJson y = .ok d) :
    d.All fun e => ∀ s ∈ e.shapes, s.ReadIn x := by
  induction hweight : y.weight using Nat.strong_induction_on generalizing y d with
  | _ n ih =>
    rw [ofJson_eq] at h
    cases y with
    | object fields =>
      have h := mapError_eq_ok.mp h
      refine .intro (fun s hs => ?_) fun e he => ?_
      · obtain ⟨z, hz, hread⟩ := exists_of_mem_shapes h hs
        exact .intro (hxy.trans hz) hread (ObjectShape.keys_of_ofJson hread)
      · obtain ⟨f, hf, z, hz, hread⟩ := exists_of_mem_parts_in h he
        have hinside := hz.weight_le
        have hfield := Json.weight_le_weightFields hf
        rw [Json.weight] at hweight
        exact ih z.weight (by omega) (hxy.trans ((Json.Has.here.field hf).trans hz)) hread rfl
    | _ => cases h

end Definition

theorem Document.readIn_of_ofJson {x : Json} {doc : Document} (h : Document.ofJson x = .ok doc) :
    ∀ e ∈ doc.defs, e.2.All fun d => ∀ s ∈ d.shapes, s.ReadIn x := by
  refine reader.ofFields_induct
    (P := fun doc => ∀ e ∈ doc.defs, e.2.All fun d => ∀ s ∈ d.shapes, s.ReadIn x) nofun ?_
    (FieldReader.ofJson_eq_ok (mapError_eq_ok.mp h))
  intro s key y t hy hs ht
  simp only [reader] at ht
  split at ht
  case h_5 =>
    obtain ⟨defs, hdefs, rfl⟩ := bind_pure_eq_ok.mp ht
    intro e he
    obtain ⟨z, hz, hread⟩ := ReadInner.exists_of_mem_entries hdefs he
    exact Definition.all_readIn ((FieldReader.has_of_mem_given hy).trans hz) hread
  case h_6 =>
    obtain rfl := Except.ok.inj ht
    exact hs
  all_goals
    obtain ⟨_, _, rfl⟩ := bind_pure_eq_ok.mp ht
    exact hs

end Lexicon
