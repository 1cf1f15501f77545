import Lexicon.Document.Basic
import Lexicon.Proofs.Definition.Parts
import Lexicon.Proofs.Entries
import Lexicon.Proofs.Typed

/-!
# Definitions that were read

A definition that is read from JSON is proper in all its parts (`all_proper_of_ofJson`), and it has
no more nodes than the value has values (`weight_le_of_ofJson`). Both hold of the definitions of a
document that was read.
-/

namespace Lexicon

theorem bind_pure_eq_ok {ε α β : Type} {x : Except ε α} {f : α → β} {b : β} :
    (do let a ← x; return f a) = Except.ok b ↔ ∃ a, x = .ok a ∧ f a = b := by
  rw [bind_eq_ok]
  exact exists_congr fun a => and_congr_right fun _ => ⟨Except.ok.inj, congrArg _⟩

theorem exists_of_mem_mapM {ε α β : Type} {f : α → Except ε β} {xs : List α} {ys : List β}
    (h : xs.mapM f = .ok ys) {y : β} (hy : y ∈ ys) : ∃ x ∈ xs, f x = .ok y := by
  induction xs generalizing ys with
  | nil =>
    obtain rfl : [] = ys := Except.ok.inj h
    exact absurd hy List.not_mem_nil
  | cons x rest ih =>
    rw [List.mapM_cons] at h
    obtain ⟨z, hz, h⟩ := bind_eq_ok.mp h
    obtain ⟨zs, hzs, rfl⟩ := bind_pure_eq_ok.mp h
    rcases List.mem_cons.mp hy with rfl | hy
    · exact ⟨x, List.mem_cons_self .., hz⟩
    · obtain ⟨x', hx', hread⟩ := ih hzs hy
      exact ⟨x', List.mem_cons_of_mem _ hx', hread⟩

/-- The keys of a map that is read are different, and its values are read one by one. -/
theorem Read.entries_eq_ok {α : Type} {read : Read α} {x : Json} {entries : Entries α}
    (h : Read.entries read x = .ok entries) :
    entries.Distinct ∧ ∀ e ∈ entries, ∃ y, read y = .ok e.2 := by
  cases x with
  | object fields =>
    obtain ⟨pairs, hpairs, rfl⟩ := bind_pure_eq_ok.mp h
    refine ⟨Entries.distinct_ofList pairs, fun e he => ?_⟩
    obtain ⟨field, -, hfield⟩ := exists_of_mem_mapM hpairs (Entries.mem_of_mem_ofList he)
    obtain ⟨value, hvalue, rfl⟩ := bind_pure_eq_ok.mp hfield
    exact ⟨field.2, hvalue⟩
  | _ => exact nomatch h

variable {inner : ReadInner}

/-! What one field does to the definitions inside a record. -/

theorem ObjectShape.read_properties {s t : ObjectShape Definition} {key : String} {x : Json}
    (h : (ObjectShape.reader inner).read s key x = .ok t) :
    t.properties = s.properties ∨
      key = "properties" ∧ Read.entries inner.read x = .ok t.properties := by
  simp only [reader] at h
  split at h
  · obtain ⟨_, _, rfl⟩ := bind_pure_eq_ok.mp h
    exact .inl rfl
  · obtain ⟨_, _, rfl⟩ := bind_pure_eq_ok.mp h
    exact .inl rfl
  · obtain ⟨_, _, rfl⟩ := bind_pure_eq_ok.mp h
    exact .inl rfl
  · obtain ⟨_, hp, rfl⟩ := bind_pure_eq_ok.mp h
    exact .inr ⟨rfl, hp⟩
  · obtain rfl := Except.ok.inj h
    exact .inl rfl

theorem ArrayShape.read_items {s t : ArrayShape (Option Definition)} {key : String} {x : Json}
    (h : (ArrayShape.reader inner).read s key x = .ok t) :
    t.items = s.items ∨ key = "items" ∧ ∃ e, t.items = some e ∧ inner x = .ok e := by
  simp only [reader] at h
  split at h
  · obtain ⟨_, _, rfl⟩ := bind_pure_eq_ok.mp h
    exact .inl rfl
  · obtain ⟨e, he, rfl⟩ := bind_pure_eq_ok.mp h
    exact .inr ⟨rfl, e, rfl, mapError_eq_ok.mp he⟩
  · obtain ⟨_, _, rfl⟩ := bind_pure_eq_ok.mp h
    exact .inl rfl
  · obtain ⟨_, _, rfl⟩ := bind_pure_eq_ok.mp h
    exact .inl rfl
  · obtain rfl := Except.ok.inj h
    exact .inl rfl

theorem UnionShape.read_refs {s t : UnionShape} {key : String} {x : Json}
    (h : UnionShape.reader.read s key x = .ok t) : t.refs = s.refs ∨ key = "refs" := by
  simp only [reader] at h
  split at h
  · obtain ⟨_, _, rfl⟩ := bind_pure_eq_ok.mp h
    exact .inl rfl
  · exact .inr rfl
  · obtain ⟨_, _, rfl⟩ := bind_pure_eq_ok.mp h
    exact .inl rfl
  · obtain rfl := Except.ok.inj h
    exact .inl rfl

theorem RecordShape.read_record {s t : RecordShape Definition} {key : String} {x : Json}
    (h : (RecordShape.reader inner).read s key x = .ok t) :
    t.record = s.record ∨ Read.optional (ObjectShape.reader inner).ofJson x = .ok t.record := by
  simp only [reader] at h
  split at h
  · obtain ⟨_, _, rfl⟩ := bind_pure_eq_ok.mp h
    exact .inl rfl
  · obtain ⟨_, _, rfl⟩ := bind_pure_eq_ok.mp h
    exact .inl rfl
  · obtain ⟨_, hr, rfl⟩ := bind_pure_eq_ok.mp h
    exact .inr hr
  · obtain rfl := Except.ok.inj h
    exact .inl rfl

theorem Body.read_schema {s t : Body Definition} {key : String} {x : Json}
    (h : (Body.reader inner).read s key x = .ok t) :
    t.schema = s.schema ∨ Read.optional inner.read x = .ok t.schema := by
  simp only [reader] at h
  split at h
  · obtain ⟨_, _, rfl⟩ := bind_pure_eq_ok.mp h
    exact .inl rfl
  · obtain ⟨_, _, rfl⟩ := bind_pure_eq_ok.mp h
    exact .inl rfl
  · obtain ⟨_, hr, rfl⟩ := bind_pure_eq_ok.mp h
    exact .inr hr
  · obtain rfl := Except.ok.inj h
    exact .inl rfl

theorem Message.read_schema {s t : Message Definition} {key : String} {x : Json}
    (h : (Message.reader inner).read s key x = .ok t) :
    t.schema = s.schema ∨ Read.optional inner.read x = .ok t.schema := by
  simp only [reader] at h
  split at h
  · obtain ⟨_, _, rfl⟩ := bind_pure_eq_ok.mp h
    exact .inl rfl
  · obtain ⟨_, hr, rfl⟩ := bind_pure_eq_ok.mp h
    exact .inr hr
  · obtain rfl := Except.ok.inj h
    exact .inl rfl

/-- One field changes the parameters, or the output, or neither. -/
theorem QueryShape.read_facets {s t : QueryShape Definition} {key : String} {x : Json}
    (h : (QueryShape.reader inner).read s key x = .ok t) :
    (t.parameters = s.parameters ∨
      Read.optional (ObjectShape.reader inner).ofJson x = .ok t.parameters) ∧
        t.output = s.output ∨
      t.parameters = s.parameters ∧
        Read.optional (Body.reader inner).ofJson x = .ok t.output := by
  simp only [reader] at h
  split at h
  · obtain ⟨_, _, rfl⟩ := bind_pure_eq_ok.mp h
    exact .inl ⟨.inl rfl, rfl⟩
  · obtain ⟨_, hr, rfl⟩ := bind_pure_eq_ok.mp h
    exact .inl ⟨.inr hr, rfl⟩
  · obtain ⟨_, hr, rfl⟩ := bind_pure_eq_ok.mp h
    exact .inr ⟨rfl, hr⟩
  · obtain ⟨_, _, rfl⟩ := bind_pure_eq_ok.mp h
    exact .inl ⟨.inl rfl, rfl⟩
  · obtain rfl := Except.ok.inj h
    exact .inl ⟨.inl rfl, rfl⟩

/-- One field changes the parameters, or the input, or the output, or none of them. -/
theorem ProcedureShape.read_facets {s t : ProcedureShape Definition} {key : String} {x : Json}
    (h : (ProcedureShape.reader inner).read s key x = .ok t) :
    (t.parameters = s.parameters ∨
      Read.optional (ObjectShape.reader inner).ofJson x = .ok t.parameters) ∧
        t.input = s.input ∧ t.output = s.output ∨
      t.parameters = s.parameters ∧
        (Read.optional (Body.reader inner).ofJson x = .ok t.input ∧ t.output = s.output ∨
          t.input = s.input ∧ Read.optional (Body.reader inner).ofJson x = .ok t.output) := by
  simp only [reader] at h
  split at h
  · obtain ⟨_, _, rfl⟩ := bind_pure_eq_ok.mp h
    exact .inl ⟨.inl rfl, rfl, rfl⟩
  · obtain ⟨_, hr, rfl⟩ := bind_pure_eq_ok.mp h
    exact .inl ⟨.inr hr, rfl, rfl⟩
  · obtain ⟨_, hr, rfl⟩ := bind_pure_eq_ok.mp h
    exact .inr ⟨rfl, .inl ⟨hr, rfl⟩⟩
  · obtain ⟨_, hr, rfl⟩ := bind_pure_eq_ok.mp h
    exact .inr ⟨rfl, .inr ⟨rfl, hr⟩⟩
  · obtain ⟨_, _, rfl⟩ := bind_pure_eq_ok.mp h
    exact .inl ⟨.inl rfl, rfl, rfl⟩
  · obtain rfl := Except.ok.inj h
    exact .inl ⟨.inl rfl, rfl, rfl⟩

theorem SubscriptionShape.read_facets {s t : SubscriptionShape Definition} {key : String}
    {x : Json} (h : (SubscriptionShape.reader inner).read s key x = .ok t) :
    (t.parameters = s.parameters ∨
      Read.optional (ObjectShape.reader inner).ofJson x = .ok t.parameters) ∧
        t.message = s.message ∨
      t.parameters = s.parameters ∧
        Read.optional (Message.reader inner).ofJson x = .ok t.message := by
  simp only [reader] at h
  split at h
  · obtain ⟨_, _, rfl⟩ := bind_pure_eq_ok.mp h
    exact .inl ⟨.inl rfl, rfl⟩
  · obtain ⟨_, hr, rfl⟩ := bind_pure_eq_ok.mp h
    exact .inl ⟨.inr hr, rfl⟩
  · obtain ⟨_, hr, rfl⟩ := bind_pure_eq_ok.mp h
    exact .inr ⟨rfl, hr⟩
  · obtain ⟨_, _, rfl⟩ := bind_pure_eq_ok.mp h
    exact .inl ⟨.inl rfl, rfl⟩
  · obtain rfl := Except.ok.inj h
    exact .inl ⟨.inl rfl, rfl⟩

/-! Where the definitions inside a record come from. -/

structure ObjectShape.From (inner : ReadInner) (s : ObjectShape Definition) : Prop where
  distinct : Entries.Distinct s.properties
  parts : ∀ e ∈ s.parts, ∃ x, inner x = .ok e

structure Definition.From (inner : ReadInner) (d : Definition) : Prop where
  shapes : ∀ s ∈ d.shapes, s.From inner
  nodes : ∀ e ∈ d.nodes, ∃ x, inner x = .ok e

theorem Read.entries_from {x : Json} {properties : List (String × Definition)}
    (h : Read.entries inner.read x = .ok properties) :
    ({ properties := properties } : ObjectShape Definition).From inner := by
  obtain ⟨hdistinct, hread⟩ := entries_eq_ok h
  refine ⟨hdistinct, fun e he => ?_⟩
  obtain ⟨p, hp, rfl⟩ := List.mem_map.mp he
  obtain ⟨y, hy⟩ := hread p hp
  exact ⟨y, mapError_eq_ok.mp hy⟩

theorem ObjectShape.from_of_ofJson {s : ObjectShape Definition} {x : Json}
    (h : (ObjectShape.reader inner).ofJson x = .ok s) : s.From inner := by
  refine (reader inner).ofJson_induct (P := fun s => s.From inner) ⟨List.nodup_nil, nofun⟩ ?_ h
  intro s key x t hs ht
  rcases read_properties ht with heq | ⟨_, hread⟩
  · exact ⟨heq ▸ hs.distinct, by simpa only [parts, heq] using hs.parts⟩
  · exact ⟨(Read.entries_from hread).distinct, (Read.entries_from hread).parts⟩

theorem ObjectShape.from_of_optional {x : Json} {o : Option (ObjectShape Definition)}
    (h : Read.optional (ObjectShape.reader inner).ofJson x = .ok o) : ∀ s ∈ o, s.From inner :=
  fun _ hs => from_of_ofJson (Read.optional_eq_ok h hs)

theorem Body.from_of_optional {x : Json} {o : Option (Body Definition)}
    (h : Read.optional (Body.reader inner).ofJson x = .ok o) :
    ∀ e ∈ o.bind Body.schema, ∃ y, inner y = .ok e := by
  intro e he
  obtain ⟨b, hb, he⟩ := Option.bind_eq_some_iff.mp he
  refine (reader inner).ofJson_induct (P := fun b => ∀ e ∈ b.schema, ∃ y, inner y = .ok e) nofun ?_
    (Read.optional_eq_ok h hb) e he
  intro s key y t hs ht
  rcases read_schema ht with heq | hread
  · rwa [heq]
  · exact fun e he => ⟨y, mapError_eq_ok.mp (Read.optional_eq_ok hread he)⟩

theorem Message.from_of_optional {x : Json} {o : Option (Message Definition)}
    (h : Read.optional (Message.reader inner).ofJson x = .ok o) :
    ∀ e ∈ o.bind Message.schema, ∃ y, inner y = .ok e := by
  intro e he
  obtain ⟨m, hm, he⟩ := Option.bind_eq_some_iff.mp he
  refine (reader inner).ofJson_induct (P := fun m => ∀ e ∈ m.schema, ∃ y, inner y = .ok e) nofun ?_
    (Read.optional_eq_ok h hm) e he
  intro s key y t hs ht
  rcases read_schema ht with heq | hread
  · rwa [heq]
  · exact fun e he => ⟨y, mapError_eq_ok.mp (Read.optional_eq_ok hread he)⟩

theorem ArrayShape.from_of_ofFields {s : ArrayShape Definition} {fields : Entries Json}
    (h : ArrayShape.ofFields inner fields = .ok s) : ∃ x, inner x = .ok s.items := by
  obtain ⟨t, ht, h⟩ := bind_eq_ok.mp h
  have hitems : ∀ e ∈ t.items, ∃ x, inner x = .ok e := by
    refine (reader inner).ofFields_induct (P := fun t => ∀ e ∈ t.items, ∃ x, inner x = .ok e) nofun
      ?_ ht
    intro s key x t _ hs ht
    rcases read_items ht with heq | ⟨_, e, heq, he⟩
    · rwa [heq]
    · intro e' he'
      obtain rfl : e = e' := by simpa [heq] using he'
      exact ⟨x, he⟩
  split at h
  · cases h
  · rename_i items heq
    obtain rfl := Except.ok.inj h
    exact hitems items heq

theorem RecordShape.from_of_ofFields {s : RecordShape Definition} {fields : Entries Json}
    (h : (RecordShape.reader inner).ofFields fields = .ok s) : ∀ o ∈ s.record, o.From inner := by
  refine (reader inner).ofFields_induct (P := fun s => ∀ o ∈ s.record, o.From inner) nofun ?_ h
  intro s key x t _ hs ht
  rcases read_record ht with heq | hread
  · rwa [heq]
  · exact ObjectShape.from_of_optional hread

theorem QueryShape.from_of_ofFields {s : QueryShape Definition} {fields : Entries Json}
    (h : (QueryShape.reader inner).ofFields fields = .ok s) :
    (∀ o ∈ s.parameters, o.From inner) ∧ ∀ e ∈ s.output.bind Body.schema, ∃ y, inner y = .ok e := by
  refine (reader inner).ofFields_induct (P := fun s => (∀ o ∈ s.parameters, o.From inner) ∧
    ∀ e ∈ s.output.bind Body.schema, ∃ y, inner y = .ok e) ⟨nofun, nofun⟩ ?_ h
  rintro s key x t _ ⟨hp, ho⟩ ht
  rcases read_facets ht with ⟨heq | hread, hout⟩ | ⟨heq, hread⟩
  · rw [heq, hout]
    exact ⟨hp, ho⟩
  · rw [hout]
    exact ⟨ObjectShape.from_of_optional hread, ho⟩
  · rw [heq]
    exact ⟨hp, Body.from_of_optional hread⟩

theorem ProcedureShape.from_of_ofFields {s : ProcedureShape Definition} {fields : Entries Json}
    (h : (ProcedureShape.reader inner).ofFields fields = .ok s) :
    (∀ o ∈ s.parameters, o.From inner) ∧ (∀ e ∈ s.input.bind Body.schema, ∃ y, inner y = .ok e) ∧
      ∀ e ∈ s.output.bind Body.schema, ∃ y, inner y = .ok e := by
  refine (reader inner).ofFields_induct (P := fun s => (∀ o ∈ s.parameters, o.From inner) ∧
    (∀ e ∈ s.input.bind Body.schema, ∃ y, inner y = .ok e) ∧
      ∀ e ∈ s.output.bind Body.schema, ∃ y, inner y = .ok e) ⟨nofun, nofun, nofun⟩ ?_ h
  rintro s key x t _ ⟨hp, hi, ho⟩ ht
  rcases read_facets ht with ⟨heq | hread, hin, hout⟩ | ⟨heq, ⟨hread, hout⟩ | ⟨hin, hread⟩⟩
  · rw [heq, hin, hout]
    exact ⟨hp, hi, ho⟩
  · rw [hin, hout]
    exact ⟨ObjectShape.from_of_optional hread, hi, ho⟩
  · rw [heq, hout]
    exact ⟨hp, Body.from_of_optional hread, ho⟩
  · rw [heq, hin]
    exact ⟨hp, hi, Body.from_of_optional hread⟩

theorem SubscriptionShape.from_of_ofFields {s : SubscriptionShape Definition}
    {fields : Entries Json} (h : (SubscriptionShape.reader inner).ofFields fields = .ok s) :
    (∀ o ∈ s.parameters, o.From inner) ∧
      ∀ e ∈ s.message.bind Message.schema, ∃ y, inner y = .ok e := by
  refine (reader inner).ofFields_induct (P := fun s => (∀ o ∈ s.parameters, o.From inner) ∧
    ∀ e ∈ s.message.bind Message.schema, ∃ y, inner y = .ok e) ⟨nofun, nofun⟩ ?_ h
  rintro s key x t _ ⟨hp, hm⟩ ht
  rcases read_facets ht with ⟨heq | hread, hmsg⟩ | ⟨heq, hread⟩
  · rw [heq, hmsg]
    exact ⟨hp, hm⟩
  · rw [hmsg]
    exact ⟨ObjectShape.from_of_optional hread, hm⟩
  · rw [heq]
    exact ⟨hp, Message.from_of_optional hread⟩

namespace Definition

theorem from_of_ofFields {tag : String} {fields : Entries Json} {d : Definition}
    (h : ofFields inner tag fields = .ok d) : d.From inner := by
  unfold ofFields at h
  split at h
  case h_1 | h_2 =>
    obtain ⟨s, hs, rfl⟩ := map_eq_ok.mp h
    refine ⟨?_, by simp [nodes]⟩
    simpa [shapes] using ObjectShape.from_of_ofJson (x := .object fields) hs
  case h_3 =>
    obtain ⟨s, hs, rfl⟩ := map_eq_ok.mp h
    refine ⟨by simp [shapes], ?_⟩
    simpa [nodes] using ArrayShape.from_of_ofFields hs
  case h_15 =>
    obtain ⟨s, hs, rfl⟩ := map_eq_ok.mp h
    refine ⟨?_, by simp [nodes]⟩
    simpa [shapes] using RecordShape.from_of_ofFields hs
  case h_16 =>
    obtain ⟨s, hs, rfl⟩ := map_eq_ok.mp h
    obtain ⟨hp, ho⟩ := QueryShape.from_of_ofFields hs
    exact ⟨by simpa [shapes] using hp, by simpa [nodes] using ho⟩
  case h_17 =>
    obtain ⟨s, hs, rfl⟩ := map_eq_ok.mp h
    obtain ⟨hp, hi, ho⟩ := ProcedureShape.from_of_ofFields hs
    refine ⟨by simpa [shapes] using hp, ?_⟩
    intro e he
    simp only [nodes, List.mem_append, Option.mem_toList] at he
    exact he.elim (hi e) (ho e)
  case h_18 =>
    obtain ⟨s, hs, rfl⟩ := map_eq_ok.mp h
    obtain ⟨hp, hm⟩ := SubscriptionShape.from_of_ofFields hs
    exact ⟨by simpa [shapes] using hp, by simpa [nodes] using hm⟩
  case h_19 =>
    obtain rfl := Except.ok.inj h
    exact ⟨by simp [shapes], by simp [nodes]⟩
  all_goals
    obtain ⟨s, _, rfl⟩ := map_eq_ok.mp h
    exact ⟨by simp [shapes], by simp [nodes]⟩

theorem modelled_of_ofFields {tag tag' : String} {fields body : Entries Json}
    (h : ofFields inner tag fields = .ok (unmodelled tag' body)) :
    tag' ∉ modelledTags ∧ tag' = tag ∧ body = fields := by
  unfold ofFields at h
  split at h
  case h_19 =>
    obtain ⟨rfl, rfl⟩ := unmodelled.inj (Except.ok.inj h)
    refine ⟨?_, rfl, rfl⟩
    simp only [modelledTags, List.mem_cons, List.not_mem_nil, or_false, not_or]
    refine ⟨?_, ?_, ?_, ?_, ?_, ?_, ?_, ?_, ?_, ?_, ?_, ?_, ?_, ?_, ?_, ?_, ?_, ?_⟩ <;> assumption
  all_goals
    obtain ⟨_, _, hs⟩ := map_eq_ok.mp h
    cases hs

theorem proper_of_ofFields {tag : String} {fields : Entries Json} {d : Definition}
    (h : ofFields inner tag fields = .ok d) : d.Proper where
  distinct s hs := ((from_of_ofFields h).shapes s hs).distinct
  modelled _ _ hd := (modelled_of_ofFields (hd ▸ h)).1

theorem exists_of_mem_parts {tag : String} {fields : Entries Json} {d : Definition}
    (h : ofFields inner tag fields = .ok d) {e : Definition} (he : e ∈ d.parts) :
    ∃ x, inner x = .ok e := by
  rcases mem_parts.mp he with ⟨s, hs, he⟩ | he
  · exact ((from_of_ofFields h).shapes s hs).parts e he
  · exact (from_of_ofFields h).nodes e he

/-- What holds of everything read from fields holds in all parts of what is read. -/
theorem all_of_ofJsonAt {P : Definition → Prop}
    (hP : ∀ inner fields d, ofFields inner (tagOf fields) fields = .ok d → P d) {depth : Nat}
    {x : Json} {d : Definition} (h : ofJsonAt depth x = .ok d) : d.All P := by
  induction depth generalizing x d with
  | zero => exact nomatch h
  | succ depth ih =>
    cases x with
    | object fields =>
      have h := mapError_eq_ok.mp h
      refine .intro (hP _ fields d h) fun e he => ?_
      obtain ⟨y, hy⟩ := exists_of_mem_parts h he
      exact ih hy
    | _ => exact nomatch h

theorem all_proper_of_ofJson {x : Json} {d : Definition} (h : ofJson x = .ok d) :
    d.All Proper :=
  all_of_ofJsonAt (fun _ _ _ => proper_of_ofFields) h

end Definition

namespace Document

/-- The definitions of the document have distinct names and are proper in all their parts, as those
of a document that was read are (`proper_of_ofJson`). -/
structure Proper (doc : Document) : Prop where
  distinct : doc.defs.Distinct
  proper : ∀ e ∈ doc.defs, e.2.All Definition.Proper

theorem proper_of_ofJson {x : Json} {doc : Document} (h : ofJson x = .ok doc) : doc.Proper := by
  refine reader.ofJson_induct (P := Proper) ⟨List.nodup_nil, nofun⟩ ?_ (mapError_eq_ok.mp h)
  intro s key x t hs ht
  simp only [reader] at ht
  split at ht
  case h_5 =>
    obtain ⟨defs, hdefs, rfl⟩ := bind_pure_eq_ok.mp ht
    have hfrom := Read.entries_from hdefs
    refine ⟨hfrom.distinct, ?_⟩
    intro e he
    obtain ⟨y, hy⟩ := hfrom.parts e.2 (List.mem_map.mpr ⟨e, he, rfl⟩)
    exact Definition.all_proper_of_ofJson hy
  case h_6 =>
    obtain rfl := Except.ok.inj ht
    exact hs
  all_goals
    obtain ⟨_, _, rfl⟩ := bind_pure_eq_ok.mp ht
    exact ⟨hs.distinct, hs.proper⟩

end Document
end Lexicon
