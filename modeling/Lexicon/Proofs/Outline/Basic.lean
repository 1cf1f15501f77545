import Lexicon.Outline

/-!
# Addresses of an outline

What an outline lists depends on the way it follows references. Where they lead nowhere (`stop`), it
lists no more than any other outline does (`entriesOf_stop_subset`).
-/

namespace Lexicon.Outline

def addresses (entries : List Entry) : List Address := entries.map Entry.address

@[simp] theorem addresses_nil : addresses [] = [] := rfl

@[simp] theorem addresses_cons (e : Entry) (rest : List Entry) :
    addresses (e :: rest) = e.address :: addresses rest := rfl

@[simp] theorem addresses_append (a b : List Entry) :
    addresses (a ++ b) = addresses a ++ addresses b := List.map_append

@[simp] theorem address_ofNode (d : Definition) (a : Address) : (Entry.ofNode d a).address = a := by
  cases d <;> rfl

def stop : Follow := fun _ _ _ => []

def entriesOf (follow : Follow) (ctx : Context) (nsid : String) (e : String × Definition) :
    List Entry :=
  ⟨e.1, e.2.tag, none⟩ :: belowTop follow (ctx.enter ⟨nsid, e.1⟩) e.2 e.1

theorem append_subset_append {l l' m m' : List Address} (hl : l ⊆ l') (hm : m ⊆ m') :
    l ++ m ⊆ l' ++ m' :=
  List.append_subset.mpr ⟨fun _ h => List.mem_append_left _ (hl h),
    fun _ h => List.mem_append_right _ (hm h)⟩

variable (follow : Follow) (ctx ctx' : Context)

theorem branches_stop_subset (a : Address) (index : Nat) (refs : List String) :
    addresses (branches stop ctx a index refs) ⊆ addresses (branches follow ctx' a index refs) := by
  induction refs generalizing index with
  | nil => exact List.Subset.refl _
  | cons reference rest ih =>
    simp only [branches, addresses_cons, addresses_append]
    exact List.cons_subset_cons _ (append_subset_append (List.nil_subset _) (ih (index + 1)))

mutual

theorem below_stop_subset : ∀ (d : Definition) (a : Address),
    addresses (below stop ctx d a) ⊆ addresses (below follow ctx' d a)
  | .object s, a | .params s, a => by
    simp only [below]
    exact belowObject_stop_subset s a
  | .array ⟨_, items, _, _⟩, a => by
    simp only [below, addresses_cons]
    exact List.cons_subset_cons _ (below_stop_subset items a.element)
  | .union s, a => branches_stop_subset follow ctx ctx' a 0 s.refs
  | .ref _, _ | .string _, _ | .integer _, _ | .boolean _, _ | .null _, _ | .unknown _, _
  | .blob _, _ | .bytes _, _ | .cidLink _, _ | .token _, _ | .record _, _ | .query _, _
  | .procedure _, _ | .subscription _, _ | .unmodelled _ _, _ => List.nil_subset _

theorem belowObject_stop_subset : ∀ (s : ObjectShape Definition) (a : Address),
    addresses (belowObject stop ctx s a) ⊆ addresses (belowObject follow ctx' s a)
  | ⟨_, _, _, properties⟩, a => by
    simp only [belowObject]
    exact belowProperties_stop_subset properties a

theorem belowProperties_stop_subset : ∀ (properties : List (String × Definition)) (a : Address),
    addresses (belowProperties stop ctx properties a) ⊆
      addresses (belowProperties follow ctx' properties a)
  | [], _ => List.Subset.refl _
  | (key, d) :: rest, a => by
    simp only [belowProperties, addresses_cons, addresses_append, address_ofNode]
    exact List.cons_subset_cons _
      (append_subset_append (below_stop_subset d _) (belowProperties_stop_subset rest a))

end

theorem objectFacet_stop_subset (shape : Option (ObjectShape Definition)) (a : Address) :
    addresses (objectFacet stop ctx shape a) ⊆ addresses (objectFacet follow ctx' shape a) := by
  cases shape with
  | none => exact List.Subset.refl _
  | some s => exact List.cons_subset_cons _ (belowObject_stop_subset follow ctx ctx' s a)

theorem schemaFacet_stop_subset (schema : Option Definition) (a : Address) :
    addresses (schemaFacet stop ctx schema a) ⊆ addresses (schemaFacet follow ctx' schema a) := by
  cases schema with
  | none => exact List.Subset.refl _
  | some d => exact List.cons_subset_cons _ (below_stop_subset follow ctx ctx' d _)

theorem belowTop_stop_subset (d : Definition) (a : Address) :
    addresses (belowTop stop ctx d a) ⊆ addresses (belowTop follow ctx' d a) := by
  have hobject := objectFacet_stop_subset follow ctx ctx'
  have hschema := schemaFacet_stop_subset follow ctx ctx'
  cases d with
  | record s => exact hobject s.record _
  | query s =>
    simp only [belowTop, addresses_append]
    exact append_subset_append (hobject ..) (hschema ..)
  | procedure s =>
    simp only [belowTop, addresses_append]
    exact append_subset_append (append_subset_append (hobject ..) (hschema ..)) (hschema ..)
  | subscription s =>
    simp only [belowTop, addresses_append]
    exact append_subset_append (hobject ..) (hschema ..)
  | _ => exact below_stop_subset follow ctx ctx' _ a

theorem entriesOf_stop_subset (nsid : String) (e : String × Definition) :
    addresses (entriesOf stop ctx nsid e) ⊆ addresses (entriesOf follow ctx' nsid e) :=
  List.cons_subset_cons _ (belowTop_stop_subset follow _ _ e.2 e.1)

end Lexicon.Outline
