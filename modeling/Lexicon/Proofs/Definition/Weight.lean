import Lexicon.Proofs.Definition.Read

/-!
# The weight of definitions that were read

A definition has no more nodes than the value it is read from (`weight_le_of_ofJson`). It follows
that the definitions inside one that is read again as a record of another kind are lighter than the
definition itself (`reread_object_lt`, `reread_array_lt`, `reread_union_lt`).
-/

namespace Lexicon

variable {inner : ReadInner}

namespace Definition

theorem weightProperties_insert_le (properties : Entries Definition) (key : String)
    (d : Definition) :
    weightProperties (properties.insert key d) ≤ weightProperties properties + d.weight := by
  induction properties with
  | nil => simp [Entries.insert, weightProperties]
  | cons p rest ih =>
    obtain ⟨k, e⟩ := p
    rw [Entries.insert]
    split
    · simp only [weightProperties]
      omega
    · simp only [weightProperties]
      omega

theorem weightProperties_insertAll_le (properties added : Entries Definition) :
    weightProperties (properties.insertAll added) ≤
      weightProperties properties + weightProperties added := by
  induction added generalizing properties with
  | nil => exact Nat.le_refl _
  | cons p rest ih =>
    have hinsert := weightProperties_insert_le properties p.1 p.2
    have hrest := ih (properties.insert p.1 p.2)
    simp only [Entries.insertAll, List.foldl_cons] at hrest ⊢
    rw [weightProperties]
    omega

end Definition

open Definition (weightProperties weightObject weightObject? weightBody? weightMessage?)

def ReadInner.Light (inner : ReadInner) : Prop := ∀ x e, inner x = .ok e → e.weight ≤ x.weight

theorem Read.weight_mapM_le (hinner : inner.Light) {fields : Entries Json}
    {pairs : List (String × Definition)}
    (h : (fields.mapM fun (key, x) => do return (key, ← inner.read x)) = .ok pairs) :
    weightProperties pairs ≤ Json.weightFields fields := by
  induction fields generalizing pairs with
  | nil =>
    obtain rfl : [] = pairs := Except.ok.inj h
    exact Nat.le_refl _
  | cons f rest ih =>
    rw [List.mapM_cons] at h
    obtain ⟨q, hq, h⟩ := bind_eq_ok.mp h
    obtain ⟨qs, hqs, rfl⟩ := bind_pure_eq_ok.mp h
    obtain ⟨d, hd, rfl⟩ := bind_pure_eq_ok.mp hq
    have hle := hinner _ _ (mapError_eq_ok.mp hd)
    have hrest := ih hqs
    simp only [weightProperties, Json.weightFields]
    omega

theorem Read.weight_entries_lt (hinner : inner.Light) {x : Json}
    {properties : List (String × Definition)}
    (h : Read.entries inner.read x = .ok properties) :
    weightProperties properties < x.weight := by
  cases x with
  | object fields =>
    obtain ⟨pairs, hpairs, rfl⟩ := bind_pure_eq_ok.mp h
    have hle := Definition.weightProperties_insertAll_le [] pairs
    have hfields := weight_mapM_le hinner hpairs
    simp only [weightProperties] at hle
    rw [Json.weight]
    exact Nat.lt_of_le_of_lt hle (by omega)
  | _ => cases h

theorem ObjectShape.weight_read_le (hinner : inner.Light) {s t : ObjectShape Definition}
    {key : String} {x : Json} (h : (ObjectShape.reader inner).read s key x = .ok t) :
    weightProperties t.properties ≤ weightProperties s.properties + x.weight := by
  rcases read_properties h with heq | ⟨_, hread⟩
  · rw [heq]
    exact Nat.le_add_right _ _
  · have := Read.weight_entries_lt hinner hread
    omega

theorem ObjectShape.weight_ofJson_le (hinner : inner.Light) {s : ObjectShape Definition} {x : Json}
    (h : (ObjectShape.reader inner).ofJson x = .ok s) : weightObject s ≤ x.weight := by
  have := (reader inner).ofJson_measure (fun s => weightProperties s.properties)
    (fun _ _ _ _ => weight_read_le hinner) h
  simp only [reader, weightProperties] at this
  rw [Definition.weightObject_eq]
  omega

theorem ObjectShape.weight_ofFields_le (hinner : inner.Light) {s : ObjectShape Definition}
    {fields : Entries Json} (h : (ObjectShape.reader inner).ofFields fields = .ok s)
    (hne : fields ≠ []) : weightObject s ≤ Json.weightFields fields := by
  have hfrom : s.properties = [] ∨ ∃ e ∈ fields, weightProperties s.properties < e.2.weight := by
    refine (reader inner).ofFields_induct
      (P := fun s => s.properties = [] ∨ ∃ e ∈ fields, weightProperties s.properties < e.2.weight)
      (.inl rfl) ?_ h
    intro s key x t hmem hs ht
    rcases read_properties ht with heq | ⟨_, hread⟩
    · rwa [heq]
    · exact .inr ⟨_, hmem, Read.weight_entries_lt hinner hread⟩
  rw [Definition.weightObject_eq]
  rcases hfrom with hnil | ⟨e, he, hlt⟩
  · obtain ⟨e, he⟩ := List.exists_mem_of_ne_nil fields hne
    have hpos := Json.weight_pos e.2
    have hle := Json.weight_le_weightFields he
    rw [hnil, weightProperties]
    omega
  · have hle := Json.weight_le_weightFields he
    omega

theorem ObjectShape.weight_optional_le (hinner : inner.Light) {x : Json}
    {o : Option (ObjectShape Definition)}
    (h : Read.optional (ObjectShape.reader inner).ofJson x = .ok o) :
    weightObject? o ≤ x.weight := by
  cases o with
  | none =>
    rw [weightObject?]
    exact Nat.zero_le _
  | some s =>
    rw [weightObject?]
    exact weight_ofJson_le hinner (Read.optional_eq_ok h rfl)

def Definition.weight? : Option Definition → Nat
  | none => 0
  | some d => d.weight

open Definition (weight?)

theorem Read.weight_optional_le (hinner : inner.Light) {x : Json} {o : Option Definition}
    (h : Read.optional inner.read x = .ok o) : weight? o ≤ x.weight := by
  cases o with
  | none => exact Nat.zero_le _
  | some d => exact hinner _ _ (mapError_eq_ok.mp (Read.optional_eq_ok h rfl))

theorem Body.weight_optional_le (hinner : inner.Light) {x : Json} {o : Option (Body Definition)}
    (h : Read.optional (Body.reader inner).ofJson x = .ok o) : weightBody? o ≤ x.weight := by
  cases o with
  | none =>
    rw [weightBody?]
    exact Nat.zero_le _
  | some b =>
    have hschema : weight? b.schema + 1 ≤ 0 + x.weight := by
      refine (reader inner).ofJson_measure (fun b => weight? b.schema) ?_
        (Read.optional_eq_ok h rfl)
      intro s key y t ht
      rcases read_schema ht with heq | hread
      · rw [heq]
        exact Nat.le_add_right _ _
      · have := Read.weight_optional_le hinner hread
        omega
    obtain ⟨_, _, schema⟩ := b
    cases schema with
    | none =>
      rw [weightBody?]
      exact Nat.zero_le _
    | some d =>
      rw [weight?] at hschema
      rw [weightBody?]
      omega

theorem Message.weight_optional_le (hinner : inner.Light) {x : Json}
    {o : Option (Message Definition)}
    (h : Read.optional (Message.reader inner).ofJson x = .ok o) : weightMessage? o ≤ x.weight := by
  cases o with
  | none =>
    rw [weightMessage?]
    exact Nat.zero_le _
  | some m =>
    have hschema : weight? m.schema + 1 ≤ 0 + x.weight := by
      refine (reader inner).ofJson_measure (fun m => weight? m.schema) ?_
        (Read.optional_eq_ok h rfl)
      intro s key y t ht
      rcases read_schema ht with heq | hread
      · rw [heq]
        exact Nat.le_add_right _ _
      · have := Read.weight_optional_le hinner hread
        omega
    obtain ⟨_, schema⟩ := m
    cases schema with
    | none =>
      rw [weightMessage?]
      exact Nat.zero_le _
    | some d =>
      rw [weight?] at hschema
      rw [weightMessage?]
      omega

theorem ArrayShape.weight_items_le (hinner : inner.Light) {s : ArrayShape Definition}
    {fields : Entries Json} (h : ArrayShape.ofFields inner fields = .ok s) :
    s.items.weight ≤ Json.weightFields fields := by
  obtain ⟨t, ht, h⟩ := bind_eq_ok.mp h
  have hle : weight? t.items ≤ 0 + Json.weightFields fields := by
    refine (reader inner).ofFields_measure (fun t => weight? t.items) ?_ ht
    intro s key x t ht
    rcases read_items ht with heq | ⟨_, e, heq, he⟩
    · rw [heq]
      exact Nat.le_add_right _ _
    · have := hinner _ _ he
      rw [heq, weight?]
      omega
  split at h
  · cases h
  · rename_i items heq
    obtain rfl := Except.ok.inj h
    rw [heq, weight?, Nat.zero_add] at hle
    exact hle

theorem RecordShape.weight_ofFields_le (hinner : inner.Light) {s : RecordShape Definition}
    {fields : Entries Json} (h : (RecordShape.reader inner).ofFields fields = .ok s) :
    weightObject? s.record ≤ Json.weightFields fields := by
  have hle : weightObject? s.record ≤ weightObject? none + Json.weightFields fields := by
    refine (reader inner).ofFields_measure (fun s => weightObject? s.record) ?_ h
    intro s key x t ht
    rcases read_record ht with heq | hread
    · rw [heq]
      exact Nat.le_add_right _ _
    · have := ObjectShape.weight_optional_le hinner hread
      omega
  rw [weightObject?] at hle
  omega

theorem QueryShape.weight_ofFields_le (hinner : inner.Light) {s : QueryShape Definition}
    {fields : Entries Json} (h : (QueryShape.reader inner).ofFields fields = .ok s) :
    weightObject? s.parameters + weightBody? s.output ≤ Json.weightFields fields := by
  have hle : weightObject? s.parameters + weightBody? s.output ≤
      weightObject? none + weightBody? none + Json.weightFields fields := by
    refine (reader inner).ofFields_measure
      (fun s => weightObject? s.parameters + weightBody? s.output) ?_ h
    intro s key x t ht
    rcases read_facets ht with ⟨heq | hread, hout⟩ | ⟨heq, hread⟩
    · rw [heq, hout]
      exact Nat.le_add_right _ _
    · have := ObjectShape.weight_optional_le hinner hread
      rw [hout]
      omega
    · have := Body.weight_optional_le hinner hread
      rw [heq]
      omega
  rw [weightObject?, weightBody?] at hle
  omega

theorem ProcedureShape.weight_ofFields_le (hinner : inner.Light) {s : ProcedureShape Definition}
    {fields : Entries Json} (h : (ProcedureShape.reader inner).ofFields fields = .ok s) :
    weightObject? s.parameters + weightBody? s.input + weightBody? s.output ≤
      Json.weightFields fields := by
  have hle : weightObject? s.parameters + weightBody? s.input + weightBody? s.output ≤
      weightObject? none + weightBody? none + weightBody? none + Json.weightFields fields := by
    refine (reader inner).ofFields_measure
      (fun s => weightObject? s.parameters + weightBody? s.input + weightBody? s.output)
      ?_ h
    intro s key x t ht
    rcases read_facets ht with ⟨heq | hread, hin, hout⟩ | ⟨heq, ⟨hread, hout⟩ | ⟨hin, hread⟩⟩
    · rw [heq, hin, hout]
      exact Nat.le_add_right _ _
    · have := ObjectShape.weight_optional_le hinner hread
      rw [hin, hout]
      omega
    · have := Body.weight_optional_le hinner hread
      rw [heq, hout]
      omega
    · have := Body.weight_optional_le hinner hread
      rw [heq, hin]
      omega
  rw [weightObject?, weightBody?] at hle
  omega

theorem SubscriptionShape.weight_ofFields_le (hinner : inner.Light)
    {s : SubscriptionShape Definition} {fields : Entries Json}
    (h : (SubscriptionShape.reader inner).ofFields fields = .ok s) :
    weightObject? s.parameters + weightMessage? s.message ≤ Json.weightFields fields := by
  have hle : weightObject? s.parameters + weightMessage? s.message ≤
      weightObject? none + weightMessage? none + Json.weightFields fields := by
    refine (reader inner).ofFields_measure
      (fun s => weightObject? s.parameters + weightMessage? s.message) ?_ h
    intro s key x t ht
    rcases read_facets ht with ⟨heq | hread, hmsg⟩ | ⟨heq, hread⟩
    · rw [heq, hmsg]
      exact Nat.le_add_right _ _
    · have := ObjectShape.weight_optional_le hinner hread
      rw [hmsg]
      omega
    · have := Message.weight_optional_le hinner hread
      rw [heq]
      omega
  rw [weightObject?, weightMessage?] at hle
  omega

namespace Definition

/-- A field is needed to tell what an object is. -/
theorem ne_nil_of_tagOf {fields : Entries Json} (h : tagOf fields ≠ "") : fields ≠ [] := by
  rintro rfl
  exact h rfl

theorem weight_ofFields_le (hinner : inner.Light) {fields : Entries Json} {d : Definition}
    (h : ofFields inner (tagOf fields) fields = .ok d) :
    d.weight ≤ 1 + Json.weightFields fields := by
  have hne : tagOf fields ≠ "" → 1 ≤ Json.weightFields fields := by
    intro htag
    obtain ⟨e, he⟩ := List.exists_mem_of_ne_nil fields (ne_nil_of_tagOf htag)
    have hpos := Json.weight_pos e.2
    have hle := Json.weight_le_weightFields he
    omega
  generalize hg : tagOf fields = tag at h hne
  unfold ofFields at h
  split at h
  case h_1 | h_2 =>
    obtain ⟨s, hs, rfl⟩ := map_eq_ok.mp h
    have := ObjectShape.weight_ofFields_le hinner hs (ne_nil_of_tagOf (by simp [hg]))
    rw [weight]
    omega
  case h_3 =>
    obtain ⟨⟨_, items, _, _⟩, hs, rfl⟩ := map_eq_ok.mp h
    have := ArrayShape.weight_items_le hinner hs
    rw [weight]
    exact Nat.add_le_add_left this 1
  case h_14 =>
    obtain ⟨s, _, rfl⟩ := map_eq_ok.mp h
    have := hne (by simp)
    rw [weight]
    omega
  case h_15 =>
    obtain ⟨⟨_, _, body⟩, hs, rfl⟩ := map_eq_ok.mp h
    have := RecordShape.weight_ofFields_le hinner hs
    rw [weight]
    exact Nat.add_le_add_left this 1
  case h_16 =>
    obtain ⟨⟨_, parameters, output, _⟩, hs, rfl⟩ := map_eq_ok.mp h
    have := QueryShape.weight_ofFields_le hinner hs
    rw [weight]
    simp only at this
    omega
  case h_17 =>
    obtain ⟨⟨_, parameters, input, output, _⟩, hs, rfl⟩ := map_eq_ok.mp h
    have := ProcedureShape.weight_ofFields_le hinner hs
    rw [weight]
    simp only at this
    omega
  case h_18 =>
    obtain ⟨⟨_, parameters, message, _⟩, hs, rfl⟩ := map_eq_ok.mp h
    have := SubscriptionShape.weight_ofFields_le hinner hs
    rw [weight]
    simp only at this
    omega
  case h_19 =>
    obtain rfl := Except.ok.inj h
    refine Nat.le_of_eq ?_
    rw [weight]
  all_goals
    obtain ⟨s, _, rfl⟩ := map_eq_ok.mp h
    simp only [weight]
    omega

theorem light_ofJsonAt (depth : Nat) : ReadInner.Light (ofJsonAt depth) := by
  induction depth with
  | zero =>
    intro x e h
    cases h
  | succ depth ih =>
    intro x e h
    cases x with
    | object fields =>
      rw [Json.weight]
      exact weight_ofFields_le ih (mapError_eq_ok.mp h)
    | _ => cases h

/-- A definition has no more nodes than the value it is read from has values. -/
theorem light_ofJson : ReadInner.Light ofJson := fun x e h => light_ofJsonAt x.weight x e h

def fieldNames : Definition → List String
  | object _ | params _ => "type" :: (ObjectShape.reader ofJson).fields
  | array _ => "type" :: (ArrayShape.reader ofJson).fields
  | string _ => "type" :: StringShape.reader.fields
  | integer _ => "type" :: IntegerShape.reader.fields
  | boolean _ => "type" :: BooleanShape.reader.fields
  | blob _ => "type" :: BlobShape.reader.fields
  | bytes _ => "type" :: BytesShape.reader.fields
  | cidLink _ | null _ | unknown _ | token _ => "type" :: BareShape.reader.fields
  | ref _ => "type" :: RefShape.reader.fields
  | union _ => "type" :: UnionShape.reader.fields
  | record _ => "type" :: (RecordShape.reader ofJson).fields
  | query _ => "type" :: (QueryShape.reader ofJson).fields
  | procedure _ => "type" :: (ProcedureShape.reader ofJson).fields
  | subscription _ => "type" :: (SubscriptionShape.reader ofJson).fields
  | unmodelled _ body => Entries.keys body

theorem keys_field?_subset {key : String} {names : List String} (h : key ∈ names)
    (x : Option Json) : Entries.keys (Json.field? key x) ⊆ names := by
  cases x with
  | none => exact List.nil_subset _
  | some x => simpa [Json.field?, Entries.keys] using h

theorem keys_texts?_subset {key : String} {names : List String} (h : key ∈ names)
    (xs : List String) : Entries.keys (Json.texts? key xs) ⊆ names := by
  unfold Json.texts?
  split
  · exact List.nil_subset _
  · simpa [Entries.keys] using h

theorem keys_objectField?_subset {key : String} {names : List String} (h : key ∈ names)
    (o : Option (ObjectShape Definition)) : Entries.keys (objectField? key o) ⊆ names := by
  cases o with
  | none => simp [objectField?, Entries.keys]
  | some s => simpa [objectField?, Entries.keys] using h

theorem keys_bodyField?_subset {key : String} {names : List String} (h : key ∈ names)
    (b : Option (Body Definition)) : Entries.keys (bodyField? key b) ⊆ names := by
  cases b with
  | none => simp [bodyField?, Entries.keys]
  | some b => simpa [bodyField?, Entries.keys] using h

theorem keys_messageField?_subset {key : String} {names : List String} (h : key ∈ names)
    (m : Option (Message Definition)) : Entries.keys (messageField? key m) ⊆ names := by
  cases m with
  | none => simp [messageField?, Entries.keys]
  | some m => simpa [messageField?, Entries.keys] using h

theorem keys_errors_subset {names : List String} (h : "errors" ∈ names)
    (errors : List NamedError) : Entries.keys (NamedError.fieldOf errors) ⊆ names := by
  unfold NamedError.fieldOf
  split
  · exact List.nil_subset _
  · simpa [Entries.keys] using h

/-- A definition is written with the fields that its reader knows. -/
theorem keys_toJson_subset {d : Definition} {fields : Entries Json}
    (h : d.toJson = .object fields) : Entries.keys fields ⊆ d.fieldNames := by
  cases d with
  | unmodelled tag body =>
    obtain rfl := Json.object.inj h
    exact List.Subset.refl _
  | object s | params s | array s | record s | query s | procedure s | subscription s =>
    obtain rfl := Json.object.inj h
    cases s
    simp [fieldNames, objectFields, arrayFields, recordFields, queryFields, procedureFields,
      subscriptionFields, ObjectShape.reader, ArrayShape.reader, RecordShape.reader,
      QueryShape.reader, ProcedureShape.reader, SubscriptionShape.reader, Json.text?, Json.nat?,
      keys_field?_subset, keys_texts?_subset, keys_objectField?_subset, keys_bodyField?_subset,
      keys_messageField?_subset, keys_errors_subset]
  | union s =>
    obtain rfl := Json.object.inj h
    simp only [UnionShape.fields]
    split <;> simp [fieldNames, UnionShape.reader, Json.text?, keys_field?_subset]
  | _ s =>
    obtain rfl := Json.object.inj h
    simp [fieldNames, StringShape.fields, IntegerShape.fields, BooleanShape.fields,
      BlobShape.fields, BytesShape.fields, BareShape.fields, RefShape.fields, StringShape.reader,
      IntegerShape.reader, BooleanShape.reader, BlobShape.reader, BytesShape.reader,
      BareShape.reader, RefShape.reader, Json.text?, Json.nat?, Json.int?, keys_field?_subset,
      keys_texts?_subset]

/-- Only objects are written with properties, only arrays with items, only unions with
references. -/
theorem owner_of_mem_fieldNames {d : Definition} (hd : d.isUnmodelled = false) :
    ("properties" ∈ d.fieldNames → ∃ s, d = object s ∨ d = params s) ∧
      ("items" ∈ d.fieldNames → ∃ s, d = array s) ∧
        ("refs" ∈ d.fieldNames → ∃ s, d = union s) := by
  cases d with
  | unmodelled tag body => exact nomatch hd
  | _ =>
    simp [fieldNames, ObjectShape.reader, ArrayShape.reader, RecordShape.reader,
      QueryShape.reader, ProcedureShape.reader, SubscriptionShape.reader, StringShape.reader,
      IntegerShape.reader, BooleanShape.reader, BlobShape.reader, BytesShape.reader,
      BareShape.reader, RefShape.reader, UnionShape.reader]

end Definition

theorem ObjectShape.properties_of_ofFields {s : ObjectShape Definition} {fields : Entries Json}
    (h : (ObjectShape.reader inner).ofFields fields = .ok s)
    (hkey : "properties" ∉ Entries.keys fields) : s.properties = [] := by
  refine (reader inner).ofFields_induct (P := fun s => s.properties = []) rfl ?_ h
  intro s key x t hmem hs ht
  rcases read_properties ht with heq | ⟨rfl, _⟩
  · rwa [heq]
  · exact absurd (List.mem_map.mpr ⟨_, hmem, rfl⟩) hkey

theorem ArrayShape.mem_keys_of_ofFields {s : ArrayShape Definition} {fields : Entries Json}
    (h : ArrayShape.ofFields inner fields = .ok s) : "items" ∈ Entries.keys fields := by
  obtain ⟨t, ht, h⟩ := bind_eq_ok.mp h
  refine Classical.byContradiction fun hkey => ?_
  have hnone : t.items = none := by
    refine (reader inner).ofFields_induct (P := fun t => t.items = none) rfl ?_ ht
    intro s key x t hmem hs ht
    rcases read_items ht with heq | ⟨rfl, _⟩
    · rwa [heq]
    · exact absurd (List.mem_map.mpr ⟨_, hmem, rfl⟩) hkey
  rw [hnone] at h
  exact nomatch h

theorem UnionShape.refs_of_ofFields {s : UnionShape} {fields : Entries Json}
    (h : UnionShape.reader.ofFields fields = .ok s) (hkey : "refs" ∉ Entries.keys fields) :
    s.refs = [] := by
  refine reader.ofFields_induct (P := fun s => s.refs = []) rfl ?_ h
  intro s key x t hmem hs ht
  rcases read_refs ht with heq | rfl
  · rwa [heq]
  · exact absurd (List.mem_map.mpr ⟨_, hmem, rfl⟩) hkey

namespace Definition

/-- A record that is read again comes from the fields that the definition is written with. -/
theorem reread_eq_ok {σ : Type} {read : Entries Json → Except Mismatch σ} {d : Definition} {s : σ}
    (h : d.reread read = .ok s) : ∃ fields, d.toJson = .object fields ∧ read fields = .ok s := by
  unfold reread at h
  split at h
  · rename_i fields hd
    exact ⟨fields, hd, mapError_eq_ok.mp h⟩
  · exact nomatch h

/-- Of the definitions that are no objects, only those that are not modelled have properties to
read, and these are lighter. -/
theorem weight_lt_of_reread_object {d : Definition} {s : ObjectShape Definition}
    (h : d.reread (ObjectShape.reader ofJson).ofFields = .ok s)
    (hobject : ¬ ∃ t, d = object t ∨ d = params t) {e : Definition} (he : e ∈ s.parts) :
    e.weight < d.weight := by
  obtain ⟨fields, hd, hs⟩ := reread_eq_ok h
  have hmem : "properties" ∈ Entries.keys fields := by
    refine Classical.byContradiction fun hkey => ?_
    have := ObjectShape.properties_of_ofFields hs hkey
    simp [ObjectShape.parts, this] at he
  cases hu : d.isUnmodelled with
  | false => exact absurd ((owner_of_mem_fieldNames hu).1 (keys_toJson_subset hd hmem)) hobject
  | true =>
    cases d with
    | unmodelled tag body =>
      obtain rfl := Json.object.inj hd
      have hne : body ≠ [] := by
        rintro rfl
        cases hmem
      have hle := ObjectShape.weight_ofFields_le light_ofJson hs hne
      have hlt := weight_lt_weightObject he
      rw [weight]
      omega
    | _ => cases hu

theorem weight_lt_of_reread_array {d : Definition} {s : ArrayShape Definition}
    (h : d.reread (ArrayShape.ofFields ofJson) = .ok s) (harray : ¬ ∃ t, d = array t) :
    s.items.weight < d.weight := by
  obtain ⟨fields, hd, hs⟩ := reread_eq_ok h
  have hmem := ArrayShape.mem_keys_of_ofFields hs
  cases hu : d.isUnmodelled with
  | false => exact absurd ((owner_of_mem_fieldNames hu).2.1 (keys_toJson_subset hd hmem)) harray
  | true =>
    cases d with
    | unmodelled tag body =>
      obtain rfl := Json.object.inj hd
      have hle := ArrayShape.weight_items_le light_ofJson hs
      rw [weight]
      omega
    | _ => cases hu

theorem one_lt_weight_of_reread_union {d : Definition} {s : UnionShape}
    (h : d.reread UnionShape.reader.ofFields = .ok s) (hunion : ¬ ∃ t, d = union t)
    (hrefs : s.refs ≠ []) : 1 < d.weight := by
  obtain ⟨fields, hd, hs⟩ := reread_eq_ok h
  have hmem : "refs" ∈ Entries.keys fields := by
    refine Classical.byContradiction fun hkey => ?_
    exact hrefs (UnionShape.refs_of_ofFields hs hkey)
  cases hu : d.isUnmodelled with
  | false => exact absurd ((owner_of_mem_fieldNames hu).2.2 (keys_toJson_subset hd hmem)) hunion
  | true =>
    cases d with
    | unmodelled tag body =>
      obtain rfl := Json.object.inj hd
      obtain ⟨e, he, _⟩ := List.mem_map.mp hmem
      have hpos := Json.weight_pos e.2
      have hle := Json.weight_le_weightFields he
      rw [weight]
      omega
    | _ => cases hu

end Definition
end Lexicon
