import Lexicon.Compile.Node
import Lexicon.Proofs.Definition.Fields

/-!
# Reading what was written

A definition that was read is read back from what it is written as, at every nesting bound that the
written value allows (`ofJsonAt_toJson`): its reader takes its fields back, and the definitions
inside it are written as lighter values, which carries the induction. `reading_undoes_writing` puts
this together for definitions and documents.
-/

namespace Lexicon

open Read (Yields)

variable {inner : ReadInner}

namespace Entries

variable {key other : String}

theorem find?_field?_of_ne (h : key ≠ other) (x : Option Json) :
    find? (Json.field? key x) other = none := by
  cases x with
  | none => rfl
  | some x => rw [Json.field?, find?_cons, if_neg h, find?_nil]

theorem find?_text?_of_ne (h : key ≠ other) (o : Option String) :
    find? (Json.text? key o) other = none :=
  find?_field?_of_ne h _

theorem find?_nat?_of_ne (h : key ≠ other) (o : Option Nat) :
    find? (Json.nat? key o) other = none :=
  find?_field?_of_ne h _

theorem find?_int?_of_ne (h : key ≠ other) (o : Option Int) :
    find? (Json.int? key o) other = none :=
  find?_field?_of_ne h _

theorem find?_texts?_of_ne (h : key ≠ other) (xs : List String) :
    find? (Json.texts? key xs) other = none := by
  unfold Json.texts?
  split
  · rfl
  · rw [find?_cons, if_neg h, find?_nil]

theorem find?_errors (h : "errors" ≠ other) (errors : List NamedError) :
    find? (NamedError.fieldOf errors) other = none := by
  unfold NamedError.fieldOf
  split
  · rfl
  · rw [find?_cons, if_neg h, find?_nil]

end Entries

namespace Definition

open Entries in
/-- Every definition is written as an object that names its tag, and one that is not modelled as it
was read. -/
theorem exists_toJson_eq {d : Definition} (hr : d.Readable) :
    ∃ fields, d.toJson = .object fields ∧ tagOf fields = d.tag := by
  cases d with
  | unmodelled tag body => exact ⟨body, by rw [toJson], hr⟩
  | union s =>
    refine ⟨_, by rw [toJson], ?_⟩
    simp only [tagOf, UnionShape.fields]
    split <;> simp [find?_append, find?_cons, find?_text?_of_ne, Json.string?, tag]
  | object s | params s | array s | record s | query s | procedure s | subscription s =>
    refine ⟨_, by rw [toJson], ?_⟩
    cases s
    simp [tagOf, objectFields, arrayFields, recordFields, queryFields, procedureFields,
      subscriptionFields, objectField?_eq, bodyField?_eq, messageField?_eq, find?_append,
      find?_cons, find?_text?_of_ne, find?_nat?_of_ne, find?_texts?_of_ne, find?_field?_of_ne,
      find?_errors, Json.string?, tag]
  | _ s =>
    refine ⟨_, by rw [toJson], ?_⟩
    simp [tagOf, BareShape.fields, StringShape.fields, IntegerShape.fields, BooleanShape.fields,
      BlobShape.fields, BytesShape.fields, RefShape.fields, find?_append, find?_cons,
      find?_text?_of_ne, find?_nat?_of_ne, find?_int?_of_ne, find?_texts?_of_ne,
      find?_field?_of_ne, Json.string?, tag]

/-- A definition is read back when the definitions directly inside it are. -/
theorem ofFields_toJson {d : Definition} (hp : d.Proper) (hr : d.Readable)
    (hinner : ∀ e ∈ d.parts, inner.Back e) {fields : Entries Json}
    (h : d.toJson = .object fields) : ofFields inner d.tag fields = .ok d := by
  have hobject : ∀ s ∈ d.shapes, (ObjectShape.reader inner).Takes (ObjectShape.reader inner).blank
      (objectFields s) s := fun s hs =>
    ObjectShape.takes_fields (hp.distinct s hs) fun e he =>
      hinner e (mem_parts.mpr (.inl ⟨s, hs, he⟩))
  have hshape : ∀ s ∈ d.shapes, ∀ e ∈ s.parts, inner.Back e := fun s hs e he =>
    hinner e (mem_parts.mpr (.inl ⟨s, hs, he⟩))
  have hnode : ∀ e ∈ d.nodes, inner.Back e := fun e he => hinner e (mem_parts.mpr (.inr he))
  cases d with
  | object s | params s =>
    cases h
    exact map_eq_ok.mpr ⟨s, (hobject s (List.mem_singleton.mpr rfl)).then rfl, rfl⟩
  | array s =>
    cases h
    have hitems := hnode s.items (List.mem_singleton.mpr rfl)
    refine map_eq_ok.mpr ⟨s, ?_, rfl⟩
    exact bind_eq_ok.mpr ⟨_, (ArrayShape.takes_fields hr hitems).then rfl, rfl⟩
  | string s =>
    cases h
    exact map_eq_ok.mpr ⟨s, (StringShape.takes_fields hr).then rfl, rfl⟩
  | integer s =>
    cases h
    exact map_eq_ok.mpr ⟨s, (IntegerShape.takes_fields hr).then rfl, rfl⟩
  | boolean s =>
    cases h
    exact map_eq_ok.mpr ⟨s, (BooleanShape.takes_fields hr).then rfl, rfl⟩
  | blob s =>
    cases h
    exact map_eq_ok.mpr ⟨s, (BlobShape.takes_fields hr).then rfl, rfl⟩
  | bytes s =>
    cases h
    exact map_eq_ok.mpr ⟨s, (BytesShape.takes_fields hr).then rfl, rfl⟩
  | cidLink s | null s | unknown s | token s =>
    cases h
    exact map_eq_ok.mpr ⟨s, (BareShape.takes_fields s).then rfl, rfl⟩
  | ref s =>
    cases h
    refine map_eq_ok.mpr ⟨s, ?_, rfl⟩
    exact bind_eq_ok.mpr ⟨_, (RefShape.takes_fields s).then rfl, rfl⟩
  | union s =>
    cases h
    exact map_eq_ok.mpr ⟨s, (UnionShape.takes_fields s).then rfl, rfl⟩
  | record s =>
    cases h
    have hfields := RecordShape.takes_fields (s := s)
      (fun o ho => hp.distinct o (Option.mem_toList.mpr ho))
      (fun o ho => hshape o (Option.mem_toList.mpr ho))
    exact map_eq_ok.mpr ⟨s, hfields.then rfl, rfl⟩
  | query s =>
    cases h
    have hfields := QueryShape.takes_fields (s := s)
      (fun o ho => hp.distinct o (Option.mem_toList.mpr ho))
      (fun o ho => hshape o (Option.mem_toList.mpr ho))
      (fun e he => hnode e (Option.mem_toList.mpr he))
    exact map_eq_ok.mpr ⟨s, hfields.then rfl, rfl⟩
  | procedure s =>
    cases h
    have hfields := ProcedureShape.takes_fields (s := s)
      (fun o ho => hp.distinct o (Option.mem_toList.mpr ho))
      (fun o ho => hshape o (Option.mem_toList.mpr ho))
      (fun e he => hnode e (List.mem_append_left _ (Option.mem_toList.mpr he)))
      (fun e he => hnode e (List.mem_append_right _ (Option.mem_toList.mpr he)))
    exact map_eq_ok.mpr ⟨s, hfields.then rfl, rfl⟩
  | subscription s =>
    cases h
    have hfields := SubscriptionShape.takes_fields (s := s)
      (fun o ho => hp.distinct o (Option.mem_toList.mpr ho))
      (fun o ho => hshape o (Option.mem_toList.mpr ho))
      (fun e he => hnode e (Option.mem_toList.mpr he))
    exact map_eq_ok.mpr ⟨s, hfields.then rfl, rfl⟩
  | unmodelled tag body =>
    rw [toJson] at h
    obtain rfl := Json.object.inj h
    have htag := hp.modelled tag body rfl
    change ofFields inner tag body = _
    unfold ofFields
    split
    case h_19 => rfl
    all_goals exact absurd (by decide) htag

end Definition

/-! The definitions inside a definition are written as lighter values. -/

namespace Json

theorem weightFields_append (a b : Entries Json) :
    weightFields (a ++ b) = weightFields a + weightFields b := by
  induction a with
  | nil => simp [weightFields]
  | cons e rest ih =>
    rw [List.cons_append, weightFields, weightFields, ih]
    omega

theorem weight_le_field? {key : String} {x : Json} {o : Option Json} (hx : x ∈ o) :
    x.weight ≤ weightFields (field? key o) := by
  obtain rfl : o = some x := hx
  exact weight_le_weightFields (e := (key, x)) (List.mem_singleton.mpr rfl)

end Json

theorem ObjectShape.weight_part_lt {s : ObjectShape Definition} {e : Definition}
    (he : e ∈ s.parts) : e.toJson.weight < Json.weightFields (Definition.objectFields s) := by
  obtain ⟨description, required, nullable, properties⟩ := s
  obtain ⟨p, hp, rfl⟩ := List.mem_map.mp he
  have hmem : (p.1, p.2.toJson) ∈ Entries.mapValues Definition.toJson properties :=
    List.mem_map_of_mem hp
  have hle : p.2.toJson.weight ≤ _ := Json.weight_le_weightFields hmem
  rw [Definition.objectFields, Definition.propertyFields_eq, Json.weightFields_append,
    Json.weightFields, Json.weight]
  omega

namespace Definition

theorem weight_objectField?_lt {o : Option (ObjectShape Definition)} {s : ObjectShape Definition}
    (hs : s ∈ o) {e : Definition} (he : e ∈ s.parts) (key : String) :
    e.toJson.weight < Json.weightFields (objectField? key o) := by
  obtain rfl : o = some s := hs
  have hlt := ObjectShape.weight_part_lt he
  rw [objectField?, Json.weightFields, Json.weight]
  omega

theorem weight_bodyField?_le {o : Option (Body Definition)} {e : Definition}
    (he : e ∈ o.bind Body.schema) (key : String) :
    e.toJson.weight ≤ Json.weightFields (bodyField? key o) := by
  obtain ⟨b, rfl, hb⟩ := Option.bind_eq_some_iff.mp he
  have hle : e.toJson.weight ≤ Json.weightFields (Json.field? "schema" (b.schema.map toJson)) :=
    Json.weight_le_field? (Option.mem_map_of_mem toJson hb)
  rw [bodyField?_eq, Option.map_some, Json.field?, Json.weightFields, Json.weight, Body.fields,
    Json.weightFields_append]
  omega

theorem weight_messageField?_le {o : Option (Message Definition)} {e : Definition}
    (he : e ∈ o.bind Message.schema) (key : String) :
    e.toJson.weight ≤ Json.weightFields (messageField? key o) := by
  obtain ⟨m, rfl, hm⟩ := Option.bind_eq_some_iff.mp he
  have hle : e.toJson.weight ≤ Json.weightFields (Json.field? "schema" (m.schema.map toJson)) :=
    Json.weight_le_field? (Option.mem_map_of_mem toJson hm)
  rw [messageField?_eq, Option.map_some, Json.field?, Json.weightFields, Json.weight,
    Message.fields, Json.weightFields_append]
  omega

theorem weight_shape_part_lt {d e : Definition} {s : ObjectShape Definition} (hs : s ∈ d.shapes)
    (hpart : e ∈ s.parts) : e.toJson.weight < d.toJson.weight := by
  cases d with
  | object t | params t =>
    obtain rfl : s = t := List.mem_singleton.mp hs
    have hlt := ObjectShape.weight_part_lt hpart
    rw [toJson, Json.weight, Json.weightFields_append]
    omega
  | record t =>
    obtain ⟨description, key, record⟩ := t
    have hlt := weight_objectField?_lt (o := record) (Option.mem_toList.mp hs) hpart "record"
    simp only [toJson, recordFields, Json.weight, Json.weightFields_append]
    omega
  | query t =>
    obtain ⟨description, parameters, output, errors⟩ := t
    have hlt := weight_objectField?_lt (o := parameters) (Option.mem_toList.mp hs) hpart
      "parameters"
    simp only [toJson, queryFields, Json.weight, Json.weightFields_append]
    omega
  | procedure t =>
    obtain ⟨description, parameters, input, output, errors⟩ := t
    have hlt := weight_objectField?_lt (o := parameters) (Option.mem_toList.mp hs) hpart
      "parameters"
    simp only [toJson, procedureFields, Json.weight, Json.weightFields_append]
    omega
  | subscription t =>
    obtain ⟨description, parameters, message, errors⟩ := t
    have hlt := weight_objectField?_lt (o := parameters) (Option.mem_toList.mp hs) hpart
      "parameters"
    simp only [toJson, subscriptionFields, Json.weight, Json.weightFields_append]
    omega
  | _ => cases hs

theorem weight_node_lt {d e : Definition} (hnode : e ∈ d.nodes) :
    e.toJson.weight < d.toJson.weight := by
  cases d with
  | array t =>
    obtain ⟨description, items, minLength, maxLength⟩ := t
    obtain rfl : e = items := List.mem_singleton.mp hnode
    simp only [toJson, arrayFields, Json.weight, Json.weightFields, Json.weightFields_append]
    omega
  | query t =>
    obtain ⟨description, parameters, output, errors⟩ := t
    have hle := weight_bodyField?_le (o := output) (Option.mem_toList.mp hnode) "output"
    simp only [toJson, queryFields, Json.weight, Json.weightFields_append]
    omega
  | procedure t =>
    obtain ⟨description, parameters, input, output, errors⟩ := t
    simp only [toJson, procedureFields, Json.weight, Json.weightFields_append]
    rcases List.mem_append.mp hnode with hnode | hnode
    · have hle := weight_bodyField?_le (o := input) (Option.mem_toList.mp hnode) "input"
      omega
    · have hle := weight_bodyField?_le (o := output) (Option.mem_toList.mp hnode) "output"
      omega
  | subscription t =>
    obtain ⟨description, parameters, message, errors⟩ := t
    have hle := weight_messageField?_le (o := message) (Option.mem_toList.mp hnode) "message"
    simp only [toJson, subscriptionFields, Json.weight, Json.weightFields_append]
    omega
  | _ => cases hnode

theorem weight_toJson_lt {d e : Definition} (he : e ∈ d.parts) :
    e.toJson.weight < d.toJson.weight := by
  rcases mem_parts.mp he with ⟨s, hs, hpart⟩ | hnode
  · exact weight_shape_part_lt hs hpart
  · exact weight_node_lt hnode

/-- A definition is read back at every bound that its written value allows. -/
theorem ofJsonAt_toJson {d : Definition} (hp : d.All Proper) (hr : d.All Readable) {depth : Nat}
    (hdepth : d.toJson.weight ≤ depth) : ofJsonAt depth d.toJson = .ok d := by
  induction depth generalizing d with
  | zero =>
    have := d.toJson.weight_pos
    omega
  | succ depth ih =>
    obtain ⟨fields, hfields, htag⟩ := exists_toJson_eq hr.here
    have hinner : ∀ e ∈ d.parts, ReadInner.Back (ofJsonAt depth) e := by
      intro e he
      have hlt := weight_toJson_lt he
      exact ih (hp.inside he) (hr.inside he) (by omega)
    rw [hfields, ofJsonAt, ofJsonWith, htag]
    exact mapError_eq_ok.mpr (ofFields_toJson hp.here hr.here hinner hfields)

theorem ofJson_toJson {d : Definition} (hp : d.All Proper) (hr : d.All Readable) :
    ofJson d.toJson = .ok d :=
  ofJsonAt_toJson hp hr (Nat.le_refl _)

/-- The record `s` that the definition holds is the one that its fields are read as again, so a
compiler that wants such a record gets it from the one or from the other. -/
structure Rereads {σ : Type} (d : Definition) (s : σ) (read : Entries Json → Except Mismatch σ) :
    Prop where
  reread : d.reread read = .ok s
  view (a : Address) : Compile.view none read d a = Compile.view (some s) read d a

def RereadsItself : Definition → Prop
  | object s => Rereads (object s) s (ObjectShape.reader ofJson).ofFields
  | params s => Rereads (params s) s (ObjectShape.reader ofJson).ofFields
  | array s => Rereads (array s) s (ArrayShape.ofFields ofJson)
  | string s => Rereads (string s) s StringShape.reader.ofFields
  | integer s => Rereads (integer s) s IntegerShape.reader.ofFields
  | boolean s => Rereads (boolean s) s BooleanShape.reader.ofFields
  | blob s => Rereads (blob s) s BlobShape.reader.ofFields
  | bytes s => Rereads (bytes s) s BytesShape.reader.ofFields
  | cidLink s => Rereads (cidLink s) s BareShape.reader.ofFields
  | null s => Rereads (null s) s BareShape.reader.ofFields
  | unknown s => Rereads (unknown s) s BareShape.reader.ofFields
  | token s => Rereads (token s) s BareShape.reader.ofFields
  | ref s => Rereads (ref s) s RefShape.ofFields
  | union s => Rereads (union s) s UnionShape.reader.ofFields
  | record s => Rereads (record s) s (RecordShape.reader ofJson).ofFields
  | query s => Rereads (query s) s (QueryShape.reader ofJson).ofFields
  | procedure s => Rereads (procedure s) s (ProcedureShape.reader ofJson).ofFields
  | subscription s => Rereads (subscription s) s (SubscriptionShape.reader ofJson).ofFields
  | unmodelled _ _ => True

theorem rereads_of_map {σ : Type} {read : Entries Json → Except Mismatch σ} {make : σ → Definition}
    (hmake : Function.Injective make) {s : σ} {fields : Entries Json}
    (hfields : (make s).toJson = .object fields) (h : make <$> read fields = .ok (make s)) :
    Rereads (make s) s read := by
  obtain ⟨t, ht, hst⟩ := map_eq_ok.mp h
  obtain rfl := hmake hst
  have hreread : (make t).reread read = .ok t := by
    rw [reread, hfields]
    exact mapError_eq_ok.mpr ht
  refine ⟨hreread, fun a => ?_⟩
  change liftM (((make t).reread read).mapError (CompileError.malformed a)) = _
  rw [hreread]
  rfl

theorem rereadsItself {d : Definition} (hp : d.All Proper) (hr : d.All Readable) :
    d.RereadsItself := by
  obtain ⟨fields, hfields, _⟩ := exists_toJson_eq hr.here
  have hinner : ∀ e ∈ d.parts, ReadInner.Back ofJson e := fun e he =>
    ofJson_toJson (hp.inside he) (hr.inside he)
  have h := ofFields_toJson hp.here hr.here hinner hfields
  cases d with
  | unmodelled tag body => trivial
  | _ s => exact rereads_of_map (fun _ _ heq => by cases heq; rfl) hfields h

end Definition

namespace Document

structure Readable (doc : Document) : Prop where
  lexicon : Yields (Read.optional Read.word32) doc.lexicon
  revision : Yields (Read.optional Read.word32) doc.revision
  definitions : ∀ e ∈ doc.defs, e.2.All Definition.Readable

theorem readable_of_ofJson {x : Json} {doc : Document} (h : ofJson x = .ok doc) :
    doc.Readable := by
  have blank : reader.blank.Readable := ⟨Read.yields_none _, Read.yields_none _, nofun⟩
  refine reader.ofJson_induct (P := Readable) blank ?_ (mapError_eq_ok.mp h)
  intro s key x t hs ht
  simp only [reader] at ht
  split at ht
  case h_1 =>
    obtain ⟨o, ho, rfl⟩ := bind_pure_eq_ok.mp ht
    exact ⟨⟨x, ho⟩, hs.revision, hs.definitions⟩
  case h_3 =>
    obtain ⟨o, ho, rfl⟩ := bind_pure_eq_ok.mp ht
    exact ⟨hs.lexicon, ⟨x, ho⟩, hs.definitions⟩
  case h_5 =>
    obtain ⟨defs, hdefs, rfl⟩ := bind_pure_eq_ok.mp ht
    refine ⟨hs.lexicon, hs.revision, fun e he => ?_⟩
    obtain ⟨y, hy⟩ := (Read.entries_from hdefs).parts e.2 (List.mem_map.mpr ⟨e, he, rfl⟩)
    exact Definition.all_readable_of_ofJson hy
  case h_6 =>
    obtain rfl := Except.ok.inj ht
    exact hs
  all_goals
    obtain ⟨_, _, rfl⟩ := bind_pure_eq_ok.mp ht
    exact ⟨hs.lexicon, hs.revision, hs.definitions⟩

theorem ofJson_toJson {doc : Document} (hp : doc.Proper) (hr : doc.Readable) :
    ofJson doc.toJson = .ok doc := by
  obtain ⟨lexicon, id, revision, description, defs⟩ := doc
  have hword := Read.undoes_word "u32" 32
  have hdefs : Read.entries (ReadInner.read Definition.ofJson)
      (.object (defs.mapValues Definition.toJson)) = .ok defs := by
    refine Read.entries_written hp.distinct fun e he => ?_
    have hback : ReadInner.Back Definition.ofJson e.2 :=
      Definition.ofJson_toJson (hp.proper e he) (hr.definitions e he)
    exact hback.read
  refine mapError_eq_ok.mpr ?_
  exact reader.takes_field? (fun o => { lexicon := o }) (hword.optional hr.lexicon)
      (fun _ => rfl) rfl
    |>.append (reader.takes_text? (fun o => { lexicon, id := o }) _ (fun _ => rfl) rfl)
    |>.append (reader.takes_field? (fun o => { lexicon, id, revision := o })
      (hword.optional hr.revision) (fun _ => rfl) rfl)
    |>.append (reader.takes_text? (fun o => { lexicon, id, revision, description := o }) _
      (fun _ => rfl) rfl)
    |>.append (reader.takes_field (fun ds => ⟨lexicon, id, revision, description, ds⟩) hdefs
      (fun _ => rfl))

end Document

/-- What is read is written as a value that is read as the same again, definitions and documents
alike. The written value of a definition names its tag, and a compiler that reads its fields once
more finds the record that it holds. -/
theorem reading_undoes_writing (x : Json) :
    (∀ d, Definition.ofJson x = .ok d →
      Definition.ofJson d.toJson = .ok d ∧
        (Definition.ofJson d.toJson).map Definition.toJson = .ok d.toJson ∧
        d.tag = ((d.toJson.get? "type").bind Json.string?).getD "" ∧ d.RereadsItself) ∧
      ∀ doc, Document.ofJson x = .ok doc → Document.ofJson doc.toJson = .ok doc := by
  constructor
  · intro d h
    have hp := Definition.all_proper_of_ofJson h
    have hr := Definition.all_readable_of_ofJson h
    have hback := Definition.ofJson_toJson hp hr
    obtain ⟨fields, hfields, htag⟩ := Definition.exists_toJson_eq hr.here
    refine ⟨hback, by rw [hback]; rfl, ?_, Definition.rereadsItself hp hr⟩
    rw [hfields, ← htag]
    rfl
  · intro doc h
    exact Document.ofJson_toJson (Document.proper_of_ofJson h) (Document.readable_of_ofJson h)

/-- An array that names its type first and gives null for a bound: it is written without the bound
and with its type last, and so is the document that holds it. -/
theorem reading_undoes_writing_array :
    let x : Json := .object [("type", .string "array"), ("minLength", .null),
      ("items", .object [("type", .string "string"), ("maxLength", .nat 3)])]
    let d : Definition := .array { items := .string { maxLength := some 3 } }
    let doc : Document := { lexicon := some 1, defs := [("main", d)] }
    Definition.ofJson x = .ok d ∧ Definition.ofJson d.toJson = .ok d ∧
      Document.ofJson (.array [.nat 1, .null, .null, .null, .object [("main", x)]]) = .ok doc ∧
        Document.ofJson doc.toJson = .ok doc := by
  intro x d doc
  have hd : Definition.ofJson x = .ok d := rfl
  have hdoc : Document.ofJson
    (.array [.nat 1, .null, .null, .null, .object [("main", x)]]) = .ok doc := rfl
  exact ⟨hd, ((reading_undoes_writing x).1 d hd).1, hdoc, (reading_undoes_writing _).2 doc hdoc⟩

end Lexicon
