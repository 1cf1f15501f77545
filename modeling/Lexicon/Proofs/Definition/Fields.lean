import Lexicon.Proofs.Definition.Readable

/-!
# Reading the fields that were written

A record is written field by field, and its reader takes the fields back one after the other
(`FieldReader.Takes`). There is one lemma for each way to write a field, and from these one for each
shape; a shape with definitions inside asks that `inner` reads these back.
-/

namespace Lexicon

open Read (Yields optional)

namespace Read

variable {α : Type} {read : Read α} {write : α → Json}

/-- What was read is written as a value, never null, that is read back. -/
structure Undoes (read : Read α) (write : α → Json) : Prop where
  back : ∀ {x a}, read x = .ok a → read (write a) = .ok a
  ne_null : ∀ a, write a ≠ .null

theorem optional_of_ne_null {x : Json} {a : α} (hx : x ≠ .null) (h : read x = .ok a) :
    optional read x = .ok (some a) := by
  cases x with
  | null => exact absurd rfl hx
  | _ =>
    rw [optional, h]
    · rfl
    · exact nofun

/-- An absent value is written as nothing, which stands for null. -/
theorem Undoes.optional (hw : Undoes read write) {o : Option α} (ho : Yields (optional read) o) :
    optional read ((o.map write).getD .null) = .ok o := by
  cases o with
  | none => rfl
  | some a =>
    obtain ⟨x, hx⟩ := ho
    exact optional_of_ne_null (hw.ne_null a) (hw.back (optional_eq_ok hx rfl))

theorem string_string (s : String) : string (.string s) = .ok s := rfl

theorem optional_string (o : Option String) :
    optional string ((o.map Json.string).getD .null) = .ok o := by
  cases o <;> rfl

theorem optional_any {o : Option Json} (ho : Yields (optional any) o) :
    optional any (o.getD .null) = .ok o := by
  cases o with
  | none => rfl
  | some y =>
    obtain ⟨x, hx⟩ := ho
    obtain rfl : x = y := Except.ok.inj (optional_eq_ok hx rfl)
    exact hx

theorem integer_range {name : String} {low high n : Int} {x : Json}
    (h : integer name low high x = .ok n) : low ≤ n ∧ n < high := by
  unfold integer at h
  split at h
  · split at h
    · rename_i hn
      obtain rfl := Except.ok.inj h
      exact hn
    · exact nomatch h
  · exact nomatch h

theorem undoes_integer (name : String) (low high : Int) :
    Undoes (integer name low high) Json.integer where
  back h := by simp [integer, Json.integer, integer_range h]
  ne_null _ := nofun

theorem undoes_word (name : String) (bits : Nat) : Undoes (word name bits) Json.nat where
  back {x n} h := by
    obtain ⟨m, hm, rfl⟩ := bind_pure_eq_ok.mp h
    have hback := (undoes_integer name 0 (Word.size bits)).back hm
    have hnat : ((m.toNat : Nat) : Int) = m := Int.toNat_of_nonneg (integer_range hm).1
    exact bind_pure_eq_ok.mpr ⟨m, by rw [Json.nat, hnat, hback], rfl⟩
  ne_null _ := nofun

/-- Only the elements that the list has need to be read back. -/
theorem mapM_written {ε β : Type} {f : β → Except ε α} {g : α → β} {xs : List α}
    (h : ∀ a ∈ xs, f (g a) = .ok a) : (xs.map g).mapM f = .ok xs := by
  induction xs with
  | nil => rfl
  | cons a rest ih =>
    have hhead := h a (List.mem_cons_self ..)
    have htail := ih fun b hb => h b (List.mem_cons_of_mem _ hb)
    rw [List.map_cons, List.mapM_cons, hhead, htail]
    rfl

theorem undoes_list (hw : Undoes read write) :
    Undoes (list read) fun xs => .array (xs.map write) where
  back {x xs} h := by
    cases x with
    | array elements =>
      refine mapM_written fun a ha => ?_
      obtain ⟨y, -, hy⟩ := exists_of_mem_mapM h ha
      exact hw.back hy
    | _ => exact nomatch h
  ne_null _ := nofun

theorem list_strings (xs : List String) : list string (Json.strings xs) = .ok xs :=
  mapM_written fun _ _ => rfl

theorem optional_strings (o : Option (List String)) :
    optional (list string) ((o.map Json.strings).getD .null) = .ok o := by
  cases o with
  | none => rfl
  | some xs => exact optional_of_ne_null nofun (list_strings xs)

/-- Entries with distinct keys are read back in their order. -/
theorem entries_written {entries : Entries α} (hd : entries.Distinct)
    (h : ∀ e ∈ entries, read (write e.2) = .ok e.2) :
    Read.entries read (.object (entries.mapValues write)) = .ok entries := by
  refine bind_pure_eq_ok.mpr ⟨entries, ?_, Entries.ofList_eq_self hd⟩
  exact mapM_written fun e he => bind_pure_eq_ok.mpr ⟨e.2, h e he, rfl⟩

end Read

namespace FieldReader

variable {σ α : Type} (r : FieldReader σ) {s t u : σ} {key : String} {x : Json}

def Takes (s : σ) (fields : Entries Json) (t : σ) : Prop :=
  fields.foldlM (fun acc e => r.read acc e.1 e.2) s = .ok t

variable {r}

theorem Takes.append {a b : Entries Json} (ha : r.Takes s a t) (hb : r.Takes t b u) :
    r.Takes s (a ++ b) u := by
  rw [Takes, List.foldlM_append]
  exact bind_eq_ok.mpr ⟨t, ha, hb⟩

theorem Takes.then {fields : Entries Json} (ha : r.Takes s fields t) (h : r.read t key x = .ok u) :
    r.Takes s (fields ++ [(key, x)]) u :=
  ha.append (bind_eq_ok.mpr ⟨u, h, rfl⟩)

variable (r)

/-- A field that is always written. -/
theorem takes_field {read : Read α} (set : α → σ) {a : α} (hx : read x = .ok a)
    (hread : ∀ x, r.read s key x = (do return set (← read x))) : r.Takes s [(key, x)] (set a) := by
  have hstep : r.read s key x = .ok (set a) := by
    rw [hread, hx]
    rfl
  exact bind_eq_ok.mpr ⟨set a, hstep, rfl⟩

/-- A field that is written when it is there. -/
theorem takes_field? {read : Read α} (set : Option α → σ) {x? : Option Json} {o : Option α}
    (hx : optional read (x?.getD .null) = .ok o)
    (hread : ∀ x, r.read s key x = (do return set (← optional read x)))
    (hnone : set none = s) : r.Takes s (Json.field? key x?) (set o) := by
  cases x? with
  | none =>
    obtain rfl : none = o := Except.ok.inj hx
    rw [hnone]
    exact rfl
  | some x => exact r.takes_field set hx hread

/-- A list that is written unless it is empty. -/
theorem takes_list? {read : Read α} {write : α → Json} (set : List α → σ) {xs : List α}
    (h : ∀ a ∈ xs, read (write a) = .ok a)
    (hread : ∀ x, r.read s key x = (do return set (← Read.list read x))) (hnil : set [] = s) :
    r.Takes s (if xs.isEmpty then [] else [(key, .array (xs.map write))]) (set xs) := by
  cases xs with
  | nil =>
    rw [hnil]
    exact rfl
  | cons a rest => exact r.takes_field set (Read.mapM_written h) hread

theorem takes_text? (set : Option String → σ) (o : Option String)
    (hread : ∀ x, r.read s key x = (do return set (← optional Read.string x)))
    (hnone : set none = s) : r.Takes s (Json.text? key o) (set o) :=
  r.takes_field? set (Read.optional_string o) hread hnone

theorem takes_texts? (set : List String → σ) (xs : List String)
    (hread : ∀ x, r.read s key x = (do return set (← Read.list Read.string x)))
    (hnil : set [] = s) : r.Takes s (Json.texts? key xs) (set xs) :=
  r.takes_list? set (fun _ _ => rfl) hread hnil

end FieldReader

/-! One lemma for each shape: its reader takes the fields that are written. -/

theorem BareShape.takes_fields (s : BareShape) : reader.Takes reader.blank s.fields s :=
  reader.takes_text? (fun o => { description := o }) s.description (fun _ => rfl) rfl

theorem StringShape.takes_fields {s : StringShape} (h : s.Readable) :
    reader.Takes reader.blank s.fields s := by
  obtain ⟨description, default, format, minLength, maxLength, knownValues, oneOf, const⟩ := s
  have hsize := Read.undoes_word "usize" 64
  exact reader.takes_text? (fun o => { description := o }) _ (fun _ => rfl) rfl
    |>.append (reader.takes_field? (fun o => { description, default := o })
      (Read.optional_any h.default) (fun _ => rfl) rfl)
    |>.append (reader.takes_text? (fun o => { description, default, format := o }) _
      (fun _ => rfl) rfl)
    |>.append (reader.takes_field? (fun o => { description, default, format, minLength := o })
      (hsize.optional h.minLength) (fun _ => rfl) rfl)
    |>.append (reader.takes_field?
      (fun o => { description, default, format, minLength, maxLength := o })
      (hsize.optional h.maxLength) (fun _ => rfl) rfl)
    |>.append (reader.takes_texts?
      (fun xs => { description, default, format, minLength, maxLength, knownValues := xs })
      knownValues (fun _ => rfl) rfl)
    |>.append (reader.takes_field?
      (fun o => { description, default, format, minLength, maxLength, knownValues, oneOf := o })
      (Read.optional_strings oneOf) (fun _ => rfl) rfl)
    |>.append (reader.takes_field?
      (fun o => ⟨description, default, format, minLength, maxLength, knownValues, oneOf, o⟩)
      (Read.optional_any h.const) (fun _ => rfl) rfl)

theorem IntegerShape.takes_fields {s : IntegerShape} (h : s.Readable) :
    reader.Takes reader.blank s.fields s := by
  obtain ⟨description, default, minimum, maximum, oneOf, const⟩ := s
  have hint := Read.undoes_integer "i64" (-(Word.size 63 : Int)) (Word.size 63)
  exact reader.takes_text? (fun o => { description := o }) _ (fun _ => rfl) rfl
    |>.append (reader.takes_field? (fun o => { description, default := o })
      (Read.optional_any h.default) (fun _ => rfl) rfl)
    |>.append (reader.takes_field? (fun o => { description, default, minimum := o })
      (hint.optional h.minimum) (fun _ => rfl) rfl)
    |>.append (reader.takes_field? (fun o => { description, default, minimum, maximum := o })
      (hint.optional h.maximum) (fun _ => rfl) rfl)
    |>.append (reader.takes_field?
      (fun o => { description, default, minimum, maximum, oneOf := o })
      ((Read.undoes_list hint).optional h.oneOf) (fun _ => rfl) rfl)
    |>.append (reader.takes_field? (fun o => ⟨description, default, minimum, maximum, oneOf, o⟩)
      (Read.optional_any h.const) (fun _ => rfl) rfl)

theorem BooleanShape.takes_fields {s : BooleanShape} (h : s.Readable) :
    reader.Takes reader.blank s.fields s := by
  obtain ⟨description, default, const⟩ := s
  exact reader.takes_text? (fun o => { description := o }) _ (fun _ => rfl) rfl
    |>.append (reader.takes_field? (fun o => { description, default := o })
      (Read.optional_any h.default) (fun _ => rfl) rfl)
    |>.append (reader.takes_field? (fun o => ⟨description, default, o⟩)
      (Read.optional_any h.const) (fun _ => rfl) rfl)

theorem BlobShape.takes_fields {s : BlobShape} (h : Yields (optional Read.word64) s.maxSize) :
    reader.Takes reader.blank s.fields s := by
  obtain ⟨description, accept, maxSize⟩ := s
  exact reader.takes_text? (fun o => { description := o }) _ (fun _ => rfl) rfl
    |>.append (reader.takes_texts? (fun xs => { description, accept := xs }) _ (fun _ => rfl) rfl)
    |>.append (reader.takes_field? (fun o => ⟨description, accept, o⟩)
      ((Read.undoes_word "u64" 64).optional h) (fun _ => rfl) rfl)

theorem BytesShape.takes_fields {s : BytesShape} (h : s.Readable) :
    reader.Takes reader.blank s.fields s := by
  obtain ⟨description, minLength, maxLength⟩ := s
  have hsize := Read.undoes_word "usize" 64
  exact reader.takes_text? (fun o => { description := o }) _ (fun _ => rfl) rfl
    |>.append (reader.takes_field? (fun o => { description, minLength := o })
      (hsize.optional h.minLength) (fun _ => rfl) rfl)
    |>.append (reader.takes_field? (fun o => ⟨description, minLength, o⟩)
      (hsize.optional h.maxLength) (fun _ => rfl) rfl)

theorem RefShape.takes_fields (s : RefShape) :
    reader.Takes reader.blank s.fields (s.description, some s.target) :=
  reader.takes_text? (fun o => (o, none)) s.description (fun _ => rfl) rfl
    |>.append (reader.takes_field (fun t => (s.description, some t))
      (Read.string_string s.target) (fun _ => rfl))

theorem UnionShape.takes_fields (s : UnionShape) : reader.Takes reader.blank s.fields s := by
  obtain ⟨description, refs, closed⟩ := s
  have hrefs : reader.Takes reader.blank
      (Json.text? "description" description ++ [("refs", Json.strings refs)])
      { description, refs } :=
    reader.takes_text? (fun o => { description := o }) _ (fun _ => rfl) rfl
      |>.append (reader.takes_field (fun xs => { description, refs := xs })
        (Read.list_strings refs) (fun _ => rfl))
  cases closed with
  | false => simpa [UnionShape.fields] using hrefs
  | true => exact hrefs.then rfl

namespace NamedError

theorem ofJson_toJson (e : NamedError) : ofJson e.toJson = .ok e := by
  have hfields : reader.Takes reader.blank
      (("name", .string e.name) :: Json.text? "description" e.description)
      (some e.name, e.description) :=
    reader.takes_field (fun t => (some t, none)) (Read.string_string e.name) (fun _ => rfl)
      |>.append (reader.takes_text? (fun o => (some e.name, o)) _ (fun _ => rfl) rfl)
  exact bind_eq_ok.mpr ⟨_, hfields, rfl⟩

end NamedError

/-! The fields that hold definitions, as fields that are written when they are there. -/

def Body.fields (b : Body Definition) : Entries Json :=
  Json.text? "description" b.description ++ Json.text? "encoding" b.encoding ++
    Json.field? "schema" (b.schema.map Definition.toJson)

def Message.fields (m : Message Definition) : Entries Json :=
  Json.text? "description" m.description ++ Json.field? "schema" (m.schema.map Definition.toJson)

namespace Definition

theorem propertyFields_eq (properties : List (String × Definition)) :
    propertyFields properties = Entries.mapValues toJson properties := by
  induction properties with
  | nil =>
    rw [propertyFields]
    rfl
  | cons p rest ih =>
    obtain ⟨key, d⟩ := p
    rw [propertyFields, ih]
    rfl

theorem schemaField?_eq (schema : Option Definition) :
    schemaField? schema = Json.field? "schema" (schema.map toJson) := by
  cases schema <;> rw [schemaField?] <;> rfl

theorem objectField?_eq (key : String) (o : Option (ObjectShape Definition)) :
    objectField? key o = Json.field? key (o.map fun s => .object (objectFields s)) := by
  cases o <;> rw [objectField?] <;> rfl

theorem bodyField?_eq (key : String) (o : Option (Body Definition)) :
    bodyField? key o = Json.field? key (o.map fun b => .object b.fields) := by
  cases o with
  | none =>
    rw [bodyField?]
    rfl
  | some b =>
    obtain ⟨description, encoding, schema⟩ := b
    rw [bodyField?, schemaField?_eq]
    rfl

theorem messageField?_eq (key : String) (o : Option (Message Definition)) :
    messageField? key o = Json.field? key (o.map fun m => .object m.fields) := by
  cases o with
  | none =>
    rw [messageField?]
    rfl
  | some m =>
    obtain ⟨description, schema⟩ := m
    rw [messageField?, schemaField?_eq]
    rfl

end Definition

variable {inner : ReadInner}

def ReadInner.Back (inner : ReadInner) (d : Definition) : Prop := inner d.toJson = .ok d

theorem ReadInner.Back.read {d : Definition} (h : inner.Back d) : inner.read d.toJson = .ok d :=
  mapError_eq_ok.mpr h

theorem ReadInner.optional_back {o : Option Definition} (h : ∀ e ∈ o, inner.Back e) :
    optional inner.read ((o.map Definition.toJson).getD .null) = .ok o := by
  cases o with
  | none => rfl
  | some d =>
    have hnull : d.toJson ≠ .null := by
      cases d <;> rw [Definition.toJson] <;> exact nofun
    exact Read.optional_of_ne_null hnull (h d rfl).read

theorem ObjectShape.takes_fields {s : ObjectShape Definition} (hd : Entries.Distinct s.properties)
    (h : ∀ e ∈ s.parts, inner.Back e) :
    (reader inner).Takes (reader inner).blank (Definition.objectFields s) s := by
  obtain ⟨description, required, nullable, properties⟩ := s
  rw [Definition.objectFields, Definition.propertyFields_eq]
  have hproperties : Read.entries inner.read
      (.object (Entries.mapValues Definition.toJson properties)) = .ok properties :=
    Read.entries_written hd fun e he => (h e.2 (List.mem_map_of_mem he)).read
  exact (reader inner).takes_text? (fun o => { description := o }) _ (fun _ => rfl) rfl
    |>.append ((reader inner).takes_texts? (fun xs => { description, required := xs }) _
      (fun _ => rfl) rfl)
    |>.append ((reader inner).takes_texts? (fun xs => { description, required, nullable := xs }) _
      (fun _ => rfl) rfl)
    |>.append ((reader inner).takes_field (fun ps => ⟨description, required, nullable, ps⟩)
      hproperties (fun _ => rfl))

/-- What has to hold of a facet that is an object for it to be read back. -/
theorem ObjectShape.optional_back {o : Option (ObjectShape Definition)}
    (hd : ∀ s ∈ o, Entries.Distinct s.properties)
    (h : ∀ s ∈ o, ∀ e ∈ s.parts, inner.Back e) :
    optional (reader inner).ofJson
      ((o.map fun s => .object (Definition.objectFields s)).getD .null) = .ok o := by
  cases o with
  | none => rfl
  | some s => exact Read.optional_of_ne_null nofun (takes_fields (hd s rfl) (h s rfl))

theorem Body.optional_back {o : Option (Body Definition)}
    (h : ∀ e ∈ o.bind Body.schema, inner.Back e) :
    optional (reader inner).ofJson ((o.map fun b => .object b.fields).getD .null) = .ok o := by
  cases o with
  | none => rfl
  | some b =>
    obtain ⟨description, encoding, schema⟩ := b
    have hfields : (reader inner).Takes (reader inner).blank
        (Body.fields ⟨description, encoding, schema⟩) ⟨description, encoding, schema⟩ :=
      (reader inner).takes_text? (fun o => { description := o }) _ (fun _ => rfl) rfl
        |>.append ((reader inner).takes_text? (fun o => { description, encoding := o }) _
          (fun _ => rfl) rfl)
        |>.append ((reader inner).takes_field? (fun o => ⟨description, encoding, o⟩)
          (ReadInner.optional_back h) (fun _ => rfl) rfl)
    exact Read.optional_of_ne_null nofun hfields

theorem Message.optional_back {o : Option (Message Definition)}
    (h : ∀ e ∈ o.bind Message.schema, inner.Back e) :
    optional (reader inner).ofJson ((o.map fun m => .object m.fields).getD .null) = .ok o := by
  cases o with
  | none => rfl
  | some m =>
    obtain ⟨description, schema⟩ := m
    have hfields : (reader inner).Takes (reader inner).blank
        (Message.fields ⟨description, schema⟩) ⟨description, schema⟩ :=
      (reader inner).takes_text? (fun o => { description := o }) _ (fun _ => rfl) rfl
        |>.append ((reader inner).takes_field? (fun o => ⟨description, o⟩)
          (ReadInner.optional_back h) (fun _ => rfl) rfl)
    exact Read.optional_of_ne_null nofun hfields

theorem ArrayShape.takes_fields {s : ArrayShape Definition} (hs : s.Readable)
    (h : inner.Back s.items) :
    (reader inner).Takes (reader inner).blank (Definition.arrayFields s)
      ⟨s.description, some s.items, s.minLength, s.maxLength⟩ := by
  obtain ⟨description, items, minLength, maxLength⟩ := s
  rw [Definition.arrayFields]
  have hsize := Read.undoes_word "usize" 64
  exact (reader inner).takes_text? (fun o => { description := o, items := none }) _
      (fun _ => rfl) rfl
    |>.append ((reader inner).takes_field (fun e => { description, items := some e }) h.read
      (fun _ => rfl))
    |>.append ((reader inner).takes_field?
      (fun o => { description, items := some items, minLength := o })
      (hsize.optional hs.minLength) (fun _ => rfl) rfl)
    |>.append ((reader inner).takes_field? (fun o => ⟨description, some items, minLength, o⟩)
      (hsize.optional hs.maxLength) (fun _ => rfl) rfl)

theorem RecordShape.takes_fields {s : RecordShape Definition}
    (hd : ∀ o ∈ s.record, Entries.Distinct o.properties)
    (h : ∀ o ∈ s.record, ∀ e ∈ o.parts, inner.Back e) :
    (reader inner).Takes (reader inner).blank (Definition.recordFields s) s := by
  obtain ⟨description, key, record⟩ := s
  rw [Definition.recordFields, Definition.objectField?_eq]
  exact (reader inner).takes_text? (fun o => { description := o }) _ (fun _ => rfl) rfl
    |>.append ((reader inner).takes_text? (fun o => { description, key := o }) _ (fun _ => rfl) rfl)
    |>.append ((reader inner).takes_field? (fun o => ⟨description, key, o⟩)
      (ObjectShape.optional_back hd h) (fun _ => rfl) rfl)

theorem QueryShape.takes_fields {s : QueryShape Definition}
    (hd : ∀ o ∈ s.parameters, Entries.Distinct o.properties)
    (hp : ∀ o ∈ s.parameters, ∀ e ∈ o.parts, inner.Back e)
    (ho : ∀ e ∈ s.output.bind Body.schema, inner.Back e) :
    (reader inner).Takes (reader inner).blank (Definition.queryFields s) s := by
  obtain ⟨description, parameters, output, errors⟩ := s
  rw [Definition.queryFields, Definition.objectField?_eq, Definition.bodyField?_eq]
  exact (reader inner).takes_text? (fun o => { description := o }) _ (fun _ => rfl) rfl
    |>.append ((reader inner).takes_field? (fun o => { description, parameters := o })
      (ObjectShape.optional_back hd hp) (fun _ => rfl) rfl)
    |>.append ((reader inner).takes_field? (fun o => { description, parameters, output := o })
      (Body.optional_back ho) (fun _ => rfl) rfl)
    |>.append ((reader inner).takes_list? (fun es => ⟨description, parameters, output, es⟩)
      (fun e _ => e.ofJson_toJson) (fun _ => rfl) rfl)

theorem ProcedureShape.takes_fields {s : ProcedureShape Definition}
    (hd : ∀ o ∈ s.parameters, Entries.Distinct o.properties)
    (hp : ∀ o ∈ s.parameters, ∀ e ∈ o.parts, inner.Back e)
    (hi : ∀ e ∈ s.input.bind Body.schema, inner.Back e)
    (ho : ∀ e ∈ s.output.bind Body.schema, inner.Back e) :
    (reader inner).Takes (reader inner).blank (Definition.procedureFields s) s := by
  obtain ⟨description, parameters, input, output, errors⟩ := s
  rw [Definition.procedureFields, Definition.objectField?_eq, Definition.bodyField?_eq,
    Definition.bodyField?_eq]
  exact (reader inner).takes_text? (fun o => { description := o }) _ (fun _ => rfl) rfl
    |>.append ((reader inner).takes_field? (fun o => { description, parameters := o })
      (ObjectShape.optional_back hd hp) (fun _ => rfl) rfl)
    |>.append ((reader inner).takes_field? (fun o => { description, parameters, input := o })
      (Body.optional_back hi) (fun _ => rfl) rfl)
    |>.append ((reader inner).takes_field?
      (fun o => { description, parameters, input, output := o })
      (Body.optional_back ho) (fun _ => rfl) rfl)
    |>.append ((reader inner).takes_list?
      (fun es => ⟨description, parameters, input, output, es⟩)
      (fun e _ => e.ofJson_toJson) (fun _ => rfl) rfl)

theorem SubscriptionShape.takes_fields {s : SubscriptionShape Definition}
    (hd : ∀ o ∈ s.parameters, Entries.Distinct o.properties)
    (hp : ∀ o ∈ s.parameters, ∀ e ∈ o.parts, inner.Back e)
    (hm : ∀ e ∈ s.message.bind Message.schema, inner.Back e) :
    (reader inner).Takes (reader inner).blank (Definition.subscriptionFields s) s := by
  obtain ⟨description, parameters, message, errors⟩ := s
  rw [Definition.subscriptionFields, Definition.objectField?_eq, Definition.messageField?_eq]
  exact (reader inner).takes_text? (fun o => { description := o }) _ (fun _ => rfl) rfl
    |>.append ((reader inner).takes_field? (fun o => { description, parameters := o })
      (ObjectShape.optional_back hd hp) (fun _ => rfl) rfl)
    |>.append ((reader inner).takes_field? (fun o => { description, parameters, message := o })
      (Message.optional_back hm) (fun _ => rfl) rfl)
    |>.append ((reader inner).takes_list? (fun es => ⟨description, parameters, message, es⟩)
      (fun e _ => e.ofJson_toJson) (fun _ => rfl) rfl)

end Lexicon
