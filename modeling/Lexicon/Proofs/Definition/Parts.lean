import Mathlib
import Lexicon.Definition.Reader

/-!
# Parts of a definition

`Definition.parts` lists the definitions directly inside a definition, and `Definition.All P` says
that `P` holds of a definition and of everything inside it. A definition is `Proper` when the keys
of its properties are distinct and its tag is unmodelled only where no shape is known for the tag.
-/

namespace Lexicon

def ObjectShape.parts (s : ObjectShape Definition) : List Definition := s.properties.map Prod.snd

namespace Definition

def modelledTags : List String :=
  ["object", "params", "array", "string", "integer", "boolean", "blob", "bytes", "cid-link", "null",
    "unknown", "token", "ref", "union", "record", "query", "procedure", "subscription"]

def shapes : Definition → List (ObjectShape Definition)
  | object s | params s => [s]
  | record s => s.record.toList
  | query s => s.parameters.toList
  | procedure s => s.parameters.toList
  | subscription s => s.parameters.toList
  | _ => []

/-- The definitions directly inside a definition that are not properties. -/
def nodes : Definition → List Definition
  | array s => [s.items]
  | query s => (s.output.bind Body.schema).toList
  | procedure s => (s.input.bind Body.schema).toList ++ (s.output.bind Body.schema).toList
  | subscription s => (s.message.bind Message.schema).toList
  | _ => []

def parts (d : Definition) : List Definition := d.shapes.flatMap ObjectShape.parts ++ d.nodes

inductive All (P : Definition → Prop) : Definition → Prop
  | intro {d : Definition} (here : P d) (inside : ∀ e ∈ d.parts, All P e) : All P d

/-- Property keys are distinct, and no known shape is left unmodelled. -/
structure Proper (d : Definition) : Prop where
  distinct : ∀ s ∈ d.shapes, Entries.Distinct s.properties
  modelled : ∀ tag body, d = unmodelled tag body → tag ∉ modelledTags

variable {P Q : Definition → Prop} {d : Definition}

theorem All.here (h : d.All P) : P d := by
  cases h with
  | intro here _ => exact here

theorem All.inside (h : d.All P) {e : Definition} (he : e ∈ d.parts) : e.All P := by
  cases h with
  | intro _ inside => exact inside e he

theorem mem_parts {e : Definition} :
    e ∈ d.parts ↔ (∃ s ∈ d.shapes, e ∈ s.parts) ∨ e ∈ d.nodes := by
  simp [parts]

theorem mem_shapes {s : ObjectShape Definition} (hs : d = object s ∨ d = params s) :
    s ∈ d.shapes := by
  rcases hs with rfl | rfl <;> exact List.mem_singleton.mpr rfl

/-- The properties of a facet, taken as an object of their own. -/
theorem All.shape (h : d.All P) {s : ObjectShape Definition} (hs : s ∈ d.shapes)
    (hP : P (object s)) : (object s).All P :=
  .intro hP fun e he => by
    have he : e ∈ s.parts := by simpa [mem_parts, shapes, nodes] using he
    exact h.inside (mem_parts.mpr (.inl ⟨s, hs, he⟩))

theorem Proper.shape (h : d.Proper) {s : ObjectShape Definition} (hs : s ∈ d.shapes) :
    (object s).Proper where
  distinct t ht := by
    obtain rfl : t = s := by simpa [shapes] using ht
    exact h.distinct t hs
  modelled _ _ he := by cases he

theorem All.mono (h : d.All P) (hPQ : ∀ e, P e → Q e) : d.All Q := by
  induction h with
  | intro here _ ih => exact .intro (hPQ _ here) ih

theorem All.and (hP : d.All P) (hQ : d.All Q) : d.All fun e => P e ∧ Q e := by
  induction hP with
  | intro here _ ih => exact .intro ⟨here, hQ.here⟩ fun e he => ih e he (hQ.inside he)

theorem weight_le_weightProperties {properties : List (String × Definition)} {e : Definition}
    (he : e ∈ properties.map Prod.snd) : e.weight ≤ weightProperties properties := by
  induction properties with
  | nil => simp at he
  | cons p rest ih =>
    obtain ⟨key, c⟩ := p
    simp only [List.map_cons, List.mem_cons] at he
    rw [weightProperties]
    rcases he with rfl | he
    · exact Nat.le_add_right _ _
    · have := ih he
      omega

theorem weightObject_eq (s : ObjectShape Definition) :
    weightObject s = 1 + weightProperties s.properties := by
  cases s
  rw [weightObject]

theorem weight_ref (s : RefShape) : (ref s).weight = 1 := by
  rw [weight] <;> simp

theorem weight_union (s : UnionShape) : (union s).weight = 2 := by
  rw [weight]

theorem weight_lt_weightObject {s : ObjectShape Definition} {e : Definition} (he : e ∈ s.parts) :
    e.weight < weightObject s := by
  have := weight_le_weightProperties he
  rw [weightObject_eq]
  omega

theorem weight_le_weightBody {body : Option (Body Definition)} {e : Definition}
    (he : e ∈ body.bind Body.schema) : e.weight ≤ weightBody? body := by
  match body, he with
  | some ⟨_, _, some schema⟩, he =>
    obtain rfl : schema = e := by simpa using he
    refine Nat.le_of_eq ?_
    rw [weightBody?]

theorem weight_le_weightMessage {message : Option (Message Definition)} {e : Definition}
    (he : e ∈ message.bind Message.schema) : e.weight ≤ weightMessage? message := by
  match message, he with
  | some ⟨_, some schema⟩, he =>
    obtain rfl : schema = e := by simpa using he
    refine Nat.le_of_eq ?_
    rw [weightMessage?]

theorem weightObject_lt_of_mem_shapes {s : ObjectShape Definition} (hs : s ∈ d.shapes) :
    weightObject s < d.weight := by
  cases d with
  | object t | params t =>
    obtain rfl : s = t := by simpa [shapes] using hs
    rw [weight]
    omega
  | record t | query t | procedure t | subscription t =>
    cases t
    simp only [shapes, Option.mem_toList] at hs
    subst hs
    simp only [weight, weightObject?]
    omega
  | _ => simp [shapes] at hs

theorem weight_lt_of_mem_nodes {e : Definition} (he : e ∈ d.nodes) : e.weight < d.weight := by
  cases d with
  | array t =>
    cases t
    obtain rfl : e = _ := by simpa [nodes] using he
    rw [weight]
    omega
  | query t =>
    cases t
    have := weight_le_weightBody (by simpa [nodes] using he)
    rw [weight]
    omega
  | procedure t =>
    cases t
    simp only [nodes, List.mem_append, Option.mem_toList] at he
    rw [weight]
    rcases he with he | he
    · have := weight_le_weightBody he
      omega
    · have := weight_le_weightBody he
      omega
  | subscription t =>
    cases t
    have := weight_le_weightMessage (by simpa [nodes] using he)
    rw [weight]
    omega
  | _ => simp [nodes] at he

theorem weight_lt_of_mem_parts {e : Definition} (he : e ∈ d.parts) : e.weight < d.weight := by
  rcases mem_parts.mp he with ⟨s, hs, he⟩ | he
  · exact Nat.lt_trans (weight_lt_weightObject he) (weightObject_lt_of_mem_shapes hs)
  · exact weight_lt_of_mem_nodes he

end Definition
end Lexicon
