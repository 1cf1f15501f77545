import Lexicon.Proofs.Conformance
import Lexicon.Proofs.Definition.Parts

/-!
# The graph of references

A definition points to the definitions that its nodes refer to: a top-level definition through
`Definition.facets`, and one that a reference leads to through `Definition.referent`. What counts as
a node inside another one is a parameter of the graph. A walk that carries the definitions under way
(`Closes`) comes back to one of them exactly where a path of the graph repeats its last definition
(`Document.cyclic_of_meets`, `Document.Cyclic.exists_meets`).
-/

namespace Lexicon

namespace Definition

def ownReferences : Definition → List String
  | ref s => [s.target]
  | union s => s.refs
  | _ => []

/-- The nodes directly inside a node. A primary definition describes an exchange only where it
stands alone; as a node inside another definition it has none. -/
def innerNodes (d : Definition) : List Definition := if d.isPrimary then [] else d.parts

def facets (d : Definition) : List Definition :=
  if d.isPrimary then d.shapes.map object ++ d.nodes else [d]

/-- The nodes that a reference to the definition stands for: of a record, its object. -/
def referent : Definition → List Definition
  | record s => s.record.toList.map object
  | query _ | procedure _ | subscription _ => []
  | d => [d]

inductive Mentions (inside : Definition → List Definition) (reference : String) : Definition → Prop
  | own {d : Definition} (h : reference ∈ d.ownReferences) : Mentions inside reference d
  | inner {d e : Definition} (he : e ∈ inside d) (h : Mentions inside reference e) :
    Mentions inside reference d

end Definition

section
variable (inside : Definition → List Definition)

def Leads (here : Reference) (nodes : List Definition) (target : Reference) : Prop :=
  ∃ d ∈ nodes, ∃ reference, d.Mentions inside reference ∧ here.resolve reference = target

def Points (dict : Dictionary) (r target : Reference) : Prop :=
  ∃ d, dict.definition? r = some d ∧ Leads inside r d.referent target

def Resolves (dict : Dictionary) (here : Reference) (nodes : List Definition) : Prop :=
  ∀ t u, Leads inside here nodes t → Relation.ReflTransGen (Points inside dict) t u →
    ∃ d, dict.definition? u = some d

def Repeats (path : List Reference) : Prop := ∃ before last, path = before ++ [last] ∧ last ∈ before

/-- Following the reference `target` with the definitions `scope` under way, the innermost first,
comes back to one of them along a path. -/
inductive Closes (dict : Dictionary) : List Reference → Reference → List Reference → Prop
  | back {scope : List Reference} {target : Reference} (h : target ∈ scope) :
    Closes dict scope target (scope.reverse ++ [target])
  | forth {scope path : List Reference} {target next : Reference} (hscope : target ∉ scope)
    (hnext : Points inside dict target next) (h : Closes dict (target :: scope) next path) :
    Closes dict scope target path

def Meets (dict : Dictionary) (scope : List Reference) (here : Reference) (nodes : List Definition)
    (path : List Reference) : Prop :=
  ∃ target, Leads inside here nodes target ∧ Closes inside dict scope target path

def Document.reference (doc : Document) (name : String) : Reference := ⟨doc.id.getD "", name⟩

def Document.ReferencesResolve (doc : Document) (dict : Dictionary) : Prop :=
  ∀ e ∈ doc.defs, Resolves inside dict (doc.reference e.1) e.2.facets

/-- The path starts at a top-level definition of the document and follows references, and it leads
back to a definition that stands in it already. -/
def Document.Cyclic (doc : Document) (dict : Dictionary) (path : List Reference) : Prop :=
  ∃ e ∈ doc.defs, ∃ target rest, path = doc.reference e.1 :: target :: rest ∧
    Leads inside (doc.reference e.1) e.2.facets target ∧
    List.IsChain (Points inside dict) (target :: rest) ∧ Repeats path

end

open Definition (innerNodes)

section
variable {inside : Definition → List Definition} {dict : Dictionary} {here target : Reference}
  {d e : Definition} {nodes nodes' : List Definition} {scope path rest : List Reference}

theorem leads_append :
    Leads inside here (nodes ++ nodes') target ↔
      Leads inside here nodes target ∨ Leads inside here nodes' target := by
  simp only [Leads, List.mem_append, or_and_right, exists_or]

/-- A node leads to its own references and to those of the nodes inside it. -/
theorem leads_singleton :
    Leads inside here [d] target ↔
      (∃ reference ∈ d.ownReferences, here.resolve reference = target) ∨
        Leads inside here (inside d) target := by
  constructor
  · rintro ⟨e, he, reference, hmentions, htarget⟩
    obtain rfl := List.mem_singleton.mp he
    cases hmentions with
    | own h => exact .inl ⟨reference, h, htarget⟩
    | inner he h => exact .inr ⟨_, he, reference, h, htarget⟩
  · rintro (⟨reference, h, htarget⟩ | ⟨e, he, reference, h, htarget⟩)
    · exact ⟨d, List.mem_singleton_self d, reference, .own h, htarget⟩
    · exact ⟨d, List.mem_singleton_self d, reference, .inner he h, htarget⟩

theorem leads_inside (hown : d.ownReferences = []) :
    Leads inside here [d] target ↔ Leads inside here (inside d) target := by
  rw [leads_singleton, hown]
  simp

theorem leads_ref {s : RefShape} (hinside : inside (.ref s) = []) :
    Leads inside here [.ref s] target ↔ here.resolve s.target = target := by
  rw [leads_singleton, hinside]
  constructor
  · rintro (⟨reference, hmem, htarget⟩ | ⟨e, he, _⟩)
    · obtain rfl := List.mem_singleton.mp hmem
      exact htarget
    · exact nomatch he
  · exact fun h => .inl ⟨s.target, List.mem_singleton_self _, h⟩

theorem Resolves.mono (h : Resolves inside dict here nodes)
    (hleads : ∀ t, Leads inside here nodes' t → Leads inside here nodes t) :
    Resolves inside dict here nodes' := fun t u ht => h t u (hleads t ht)

/-- The definition that is referred to is there, and the references in it resolve as well. -/
theorem Resolves.follow (h : Resolves inside dict here nodes)
    (htarget : Leads inside here nodes target) :
    ∃ d, dict.definition? target = some d ∧ Resolves inside dict target d.referent := by
  obtain ⟨d, hd⟩ := h target target htarget .refl
  exact ⟨d, hd, fun t u ht hu => h target u htarget (.head ⟨d, hd, ht⟩ hu)⟩

theorem meets_congr (h : ∀ t, Leads inside here nodes t ↔ Leads inside here nodes' t) :
    Meets inside dict scope here nodes path ↔ Meets inside dict scope here nodes' path :=
  exists_congr fun t => and_congr_left fun _ => h t

theorem meets_append :
    Meets inside dict scope here (nodes ++ nodes') path ↔
      Meets inside dict scope here nodes path ∨ Meets inside dict scope here nodes' path := by
  simp only [Meets, leads_append, or_and_right, exists_or]

theorem meets_cons :
    Meets inside dict scope here (d :: nodes) path ↔
      Meets inside dict scope here [d] path ∨ Meets inside dict scope here nodes path := by
  rw [← meets_append]
  rfl

theorem not_meets_nil : ¬ Meets inside dict scope here [] path := by
  rintro ⟨t, ⟨d, hd, _⟩, _⟩
  exact nomatch hd

/-- A definition that is not under way is entered. -/
theorem closes_iff_of_not_mem (h : target ∉ scope) (hd : dict.definition? target = some d) :
    Closes inside dict scope target path ↔
      Meets inside dict (target :: scope) target d.referent path := by
  constructor
  · intro hcloses
    cases hcloses with
    | back hscope => exact absurd hscope h
    | forth _ hnext hrest =>
      obtain ⟨e, he, hleads⟩ := hnext
      obtain rfl := Option.some.inj (he.symm.trans hd)
      exact ⟨_, hleads, hrest⟩
  · rintro ⟨next, hleads, hrest⟩
    exact .forth h ⟨d, hd, hleads⟩ hrest

/-- The path runs from the outermost definition under way, and it repeats its last definition. -/
theorem Closes.exists_path (h : Closes inside dict scope target path) :
    ∃ rest, path = scope.reverse ++ target :: rest ∧
      List.IsChain (Points inside dict) (target :: rest) ∧ Repeats path := by
  induction h with
  | back hmem =>
    exact ⟨[], rfl, .singleton _, _, _, rfl, List.mem_reverse.mpr hmem⟩
  | @forth scope path target next _ hnext _ ih =>
    obtain ⟨rest, hpath, hchain, hrepeats⟩ := ih
    refine ⟨next :: rest, ?_, hchain.cons_cons hnext, hrepeats⟩
    rw [hpath, List.reverse_cons, List.append_assoc]
    rfl

/-- Where a path from the definitions under way repeats one, the walk comes back. It may do so
earlier than the path. -/
theorem closes_of_repeats (hchain : List.IsChain (Points inside dict) (target :: rest))
    (hrepeats : Repeats (scope.reverse ++ target :: rest)) :
    ∃ path, Closes inside dict scope target path := by
  induction rest generalizing target scope with
  | nil =>
    -- The path ends here, so what it repeats is under way.
    obtain ⟨before, last, heq, hmem⟩ := hrepeats
    obtain ⟨rfl, heq⟩ := List.append_inj' heq rfl
    obtain rfl : target = last := by simpa using heq
    exact ⟨_, .back (List.mem_reverse.mp hmem)⟩
  | cons next rest ih =>
    by_cases hscope : target ∈ scope
    · exact ⟨_, .back hscope⟩
    · obtain ⟨hnext, hchain⟩ := List.isChain_cons_cons.mp hchain
      have hrepeats : Repeats ((target :: scope).reverse ++ next :: rest) := by
        rwa [List.reverse_cons, List.append_assoc]
      obtain ⟨path, hpath⟩ := ih hchain hrepeats
      exact ⟨path, .forth hscope hnext hpath⟩

/-! ## Nodes that are compiled -/

theorem Definition.mem_facets (he : e ∈ d.facets) :
    e = d ∨ (∃ s ∈ d.shapes, e = .object s) ∨ e ∈ d.nodes := by
  unfold facets at he
  split at he
  · rcases List.mem_append.mp he with he | he
    · obtain ⟨s, hs, rfl⟩ := List.mem_map.mp he
      exact .inr (.inl ⟨s, hs, rfl⟩)
    · exact .inr (.inr he)
  · exact .inl (List.mem_singleton.mp he)

theorem meets_ref {s : RefShape} :
    Meets innerNodes dict scope here [.ref s] path ↔
      Closes innerNodes dict scope (here.resolve s.target) path := by
  simp only [Meets, @leads_ref innerNodes _ _ _ rfl, exists_eq_left']

theorem not_meets_of_bare (hown : d.ownReferences = []) (hinner : d.innerNodes = []) :
    ¬ Meets innerNodes dict scope here [d] path := by
  rw [meets_congr fun _ => leads_inside hown, hinner]
  exact not_meets_nil

/-- A union leads to what its branches lead to. -/
theorem leads_union {s : UnionShape} :
    Leads innerNodes here [.union s] target ↔
      Leads innerNodes here (s.refs.map fun reference => .ref { target := reference }) target := by
  have hunion : Leads innerNodes here [.union s] target ↔
      ∃ reference ∈ s.refs, here.resolve reference = target := by
    rw [leads_singleton]
    refine or_iff_left ?_
    rintro ⟨e, he, _⟩
    exact nomatch he
  have hbranch : ∀ reference, Leads innerNodes here [.ref { target := reference }] target ↔
      here.resolve reference = target := fun reference => leads_ref rfl
  rw [hunion]
  constructor
  · rintro ⟨reference, hmem, htarget⟩
    obtain ⟨e, he, hleads⟩ := (hbranch reference).mpr htarget
    obtain rfl := List.mem_singleton.mp he
    exact ⟨_, List.mem_map_of_mem hmem, hleads⟩
  · rintro ⟨e, he, hleads⟩
    obtain ⟨reference, hmem, rfl⟩ := List.mem_map.mp he
    exact ⟨reference, hmem, (hbranch reference).mp ⟨_, List.mem_singleton_self _, hleads⟩⟩

/-- Apart from records, what a reference leads to counts as the node that it is. -/
theorem leads_referent (hd : ∀ s, d ≠ .record s) :
    Leads innerNodes here [d] target ↔ Leads innerNodes here d.referent target := by
  cases d with
  | record s => exact absurd rfl (hd s)
  | query s | procedure s | subscription s => exact leads_inside rfl
  | _ => rfl

/-! ## Documents -/

/-- Every reference resolves where a set of references is closed under following them. -/
theorem resolves_of_closed (S : List Reference) (hstart : ∀ t, Leads inside here nodes t → t ∈ S)
    (hstep : ∀ r ∈ S, ∃ d, dict.definition? r = some d ∧
      ∀ t, Leads inside r d.referent t → t ∈ S) : Resolves inside dict here nodes := by
  intro t u ht hu
  have hmem : u ∈ S := by
    induction hu with
    | refl => exact hstart t ht
    | tail _ hpoints ih =>
      obtain ⟨d, hd, hleads⟩ := hstep _ ih
      obtain ⟨e, he, hpoints⟩ := hpoints
      obtain rfl := Option.some.inj (he.symm.trans hd)
      exact hleads _ hpoints
  obtain ⟨d, hd, _⟩ := hstep u hmem
  exact ⟨d, hd⟩

namespace Document

variable {doc : Document} {e : String × Definition}

theorem cyclic_of_meets (he : e ∈ doc.defs)
    (h : Meets inside dict [doc.reference e.1] (doc.reference e.1) e.2.facets path) :
    doc.Cyclic inside dict path := by
  obtain ⟨target, hleads, hcloses⟩ := h
  obtain ⟨rest, hpath, hchain, hrepeats⟩ := hcloses.exists_path
  exact ⟨e, he, target, rest, hpath, hleads, hchain, hrepeats⟩

theorem Cyclic.exists_meets (h : doc.Cyclic inside dict path) :
    ∃ e ∈ doc.defs, ∃ path,
      Meets inside dict [doc.reference e.1] (doc.reference e.1) e.2.facets path := by
  obtain ⟨e, he, target, rest, rfl, hleads, hchain, hrepeats⟩ := h
  obtain ⟨path, hcloses⟩ := @closes_of_repeats _ _ _ [doc.reference e.1] _ hchain hrepeats
  exact ⟨e, he, path, target, hleads, hcloses⟩

end Document
end
end Lexicon
