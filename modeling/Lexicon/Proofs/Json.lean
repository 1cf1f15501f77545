import Lexicon.Proofs.Definition.Sources

/-!
# Values that repeat no key

An object is a list of fields, so it could repeat a key. The values that are read from text do not
(`Json.distinctKeys_merged`), and such values are the same as themselves (`Json.same_self`).
-/

namespace Lexicon.Json

variable {x y z : Json} {elements : List Json} {fields : Entries Json}

def DistinctKeys (x : Json) : Prop :=
  ∀ fields : Entries Json, x.Has (.object fields) → fields.Distinct

theorem DistinctKeys.inside (hx : x.DistinctKeys) (hy : x.Has y) : y.DistinctKeys :=
  fun fields h => hx fields (hy.trans h)

/-- What is in a value is the value or is in one of its parts. -/
theorem Has.cases_head (h : x.Has y) :
    y = x ∨ (∃ fields : Entries Json, x = .object fields ∧ ∃ e ∈ fields, e.2.Has y) ∨
      ∃ elements, x = .array elements ∧ ∃ z ∈ elements, z.Has y := by
  induction h with
  | here => exact .inl rfl
  | field _ he ih =>
    rcases ih with rfl | ⟨fields', rfl, e', he', hin⟩ | ⟨elements, rfl, z, hz, hin⟩
    · exact .inr (.inl ⟨_, rfl, _, he, .here⟩)
    · exact .inr (.inl ⟨fields', rfl, e', he', hin.field he⟩)
    · exact .inr (.inr ⟨elements, rfl, z, hz, hin.field he⟩)
  | element _ hy ih =>
    rcases ih with rfl | ⟨fields, rfl, e, he, hin⟩ | ⟨elements', rfl, z, hz, hin⟩
    · exact .inr (.inr ⟨_, rfl, _, hy, .here⟩)
    · exact .inr (.inl ⟨fields, rfl, e, he, hin.element hy⟩)
    · exact .inr (.inr ⟨elements', rfl, z, hz, hin.element hy⟩)

theorem distinctKeys_array (h : ∀ x ∈ elements, x.DistinctKeys) :
    (array elements).DistinctKeys := by
  intro fields hin
  rcases hin.cases_head with heq | ⟨_, heq, -⟩ | ⟨_, heq, z, hz, hin⟩
  · exact nomatch heq
  · exact nomatch heq
  · obtain rfl := array.inj heq
    exact h z hz fields hin

theorem distinctKeys_object (hd : fields.Distinct) (h : ∀ e ∈ fields, e.2.DistinctKeys) :
    (object fields).DistinctKeys := by
  intro fields' hin
  rcases hin.cases_head with heq | ⟨_, heq, e, he, hin⟩ | ⟨_, heq, -⟩
  · obtain rfl := object.inj heq
    exact hd
  · obtain rfl := object.inj heq
    exact h e he fields' hin
  · exact nomatch heq

theorem distinctKeys_leaf (hobject : ∀ fields, x ≠ .object fields)
    (harray : ∀ elements, x ≠ .array elements) : x.DistinctKeys := by
  intro fields hin
  rcases hin.cases_head with heq | ⟨_, heq, -⟩ | ⟨_, heq, -⟩
  · exact absurd heq.symm (hobject fields)
  · exact absurd heq (hobject _)
  · exact absurd heq (harray _)

mutual

/-- Merging the fields of each key leaves no key repeated. -/
theorem distinctKeys_merged : ∀ x : Json, x.merged.DistinctKeys
  | array elements => by
    rw [merged]
    exact distinctKeys_array (distinctKeys_mergedElements elements)
  | object fields => by
    rw [merged]
    refine distinctKeys_object (Entries.distinct_ofList _) fun e he => ?_
    exact distinctKeys_mergedFields fields e (Entries.mem_of_mem_ofList he)
  | null | bool _ | number _ | string _ => by
    rw [merged]
    · exact distinctKeys_leaf nofun nofun
    all_goals exact nofun

theorem distinctKeys_mergedElements :
    ∀ elements : List Json, ∀ x ∈ mergedElements elements, x.DistinctKeys
  | [] => nofun
  | x :: rest => by
    rw [mergedElements]
    exact List.forall_mem_cons.mpr ⟨distinctKeys_merged x, distinctKeys_mergedElements rest⟩

theorem distinctKeys_mergedFields :
    ∀ fields : List (String × Json), ∀ e ∈ mergedFields fields, e.2.DistinctKeys
  | [] => nofun
  | (key, x) :: rest => by
    rw [mergedFields]
    exact List.forall_mem_cons.mpr ⟨distinctKeys_merged x, distinctKeys_mergedFields rest⟩

end

mutual

/-- A value that repeats no key is the same as itself. -/
theorem same_self : ∀ x : Json, x.DistinctKeys → x.same x = true
  | null, _ => rfl
  | bool b, _ => by simp [same]
  | number (.integer n), _ => by simp [same, Number.same]
  | number (.float x), _ => by
    rw [same, Number.same, Binary64.same_iff]
  | string s, _ => by simp [same]
  | array elements, h => by
    rw [same]
    exact sameElements_self elements fun x hx => h.inside (.element .here hx)
  | object fields, h => by
    rw [same, beq_self_eq_true, Bool.true_and]
    have hd : Entries.Distinct fields := h fields .here
    exact sameFields_self fields fields fun e he =>
      ⟨Entries.find?_of_mem hd he, h.inside (.field .here he)⟩

theorem sameElements_self :
    ∀ elements : List Json, (∀ x ∈ elements, x.DistinctKeys) → sameElements elements elements = true
  | [], _ => rfl
  | x :: rest, h => by
    obtain ⟨hx, hrest⟩ := List.forall_mem_cons.mp h
    rw [sameElements, same_self x hx, sameElements_self rest hrest, Bool.and_self]

theorem sameFields_self : ∀ (fields : List (String × Json)) (others : Entries Json),
    (∀ e ∈ fields, others.find? e.1 = some e.2 ∧ e.2.DistinctKeys) → sameFields fields others = true
  | [], _, _ => by rw [sameFields]
  | (key, x) :: rest, others, h => by
    obtain ⟨⟨hfind, hx⟩, hrest⟩ := List.forall_mem_cons.mp h
    rw [sameFields, hfind]
    dsimp only
    rw [same_self x hx, sameFields_self rest others hrest, Bool.and_self]

end

end Lexicon.Json
