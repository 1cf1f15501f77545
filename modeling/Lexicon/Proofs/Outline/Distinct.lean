import Lexicon.Proofs.Compile.Correctness
import Lexicon.Proofs.Outline.Basic

/-!
# The addresses of an outline are distinct

An address is listed once, in whatever way references, cycles and unions are arranged
(`Document.nodup_outline`). What stands below a node is `Fresh`: without repetition and below the
address of the node. The children of a node have addresses that nothing shares (`Apart`), so that
fresh lists under them can be put together (`fresh_flatMap`). A reference lists nothing at its own
address again, only what is below its target, and this is fresh however often the target is entered.
-/

namespace Lexicon

namespace Address

def Apart (a b : Address) : Prop := ∀ q, Within a q → ¬ Within b q

structure Fresh (a : Address) (addresses : List Address) : Prop where
  nodup : addresses.Nodup
  below : ∀ q ∈ addresses, Below a q

structure Rooted (a : Address) (addresses : List Address) : Prop where
  nodup : addresses.Nodup
  within : ∀ q ∈ addresses, Within a q

variable {a : Address}

theorem fresh_nil (a : Address) : Fresh a [] := ⟨List.nodup_nil, nofun⟩

theorem rooted_nil (a : Address) : Rooted a [] := ⟨List.nodup_nil, nofun⟩

theorem Fresh.rooted {l : List Address} (h : Fresh a l) : Rooted a (a :: l) where
  nodup := List.nodup_cons.mpr ⟨fun ha => ne_of_below (h.below a ha) rfl, h.nodup⟩
  within q hq := by
    rcases List.mem_cons.mp hq with rfl | hq
    · exact within_self q
    · exact .inr (h.below q hq)

theorem apart_property {key key' : String} (ha : a ≠ "")
    (h : key.toList.takeWhile (· ≠ '.') ≠ key'.toList.takeWhile (· ≠ '.')) :
    Apart (a.property key) (a.property key') :=
  fun _ hq hq' => h (firstPart_eq_of_within_property ha hq hq')

theorem apart_branch {index index' : Nat} (h : index ≠ index') :
    Apart (a.branch index) (a.branch index') :=
  fun _ hq hq' => h (eq_of_within_branch hq hq')

section
variable {α : Type} {xs : List α} {root : α → Address} {block : α → List Address}

theorem nodup_flatMap (hblocks : ∀ x ∈ xs, Rooted (root x) (block x))
    (hroots : xs.Pairwise fun x y => Apart (root x) (root y)) : (xs.flatMap block).Nodup := by
  refine List.nodup_flatMap.mpr ⟨fun x hx => (hblocks x hx).nodup, ?_⟩
  refine hroots.imp_of_mem fun {x y} hx hy hapart => List.disjoint_left.mpr fun q hq hq' => ?_
  exact hapart q ((hblocks x hx).within q hq) ((hblocks y hy).within q hq')

/-- What is listed under children that are apart is fresh below their parent. -/
theorem fresh_flatMap {key : α → String} (ha : a ≠ "")
    (hblocks : ∀ x ∈ xs, Rooted (a.property (key x)) (block x))
    (hroots : xs.Pairwise fun x y => Apart (a.property (key x)) (a.property (key y))) :
    Fresh a (xs.flatMap block) where
  nodup := nodup_flatMap hblocks hroots
  below q hq := by
    obtain ⟨x, hx, hq⟩ := List.mem_flatMap.mp hq
    exact below_of_within ha ((hblocks x hx).within q hq)

end

end Address

/-- The keys of the properties are single parts of addresses, and each of them occurs once. -/
structure Definition.Keyed (d : Definition) : Prop where
  distinct : ∀ s ∈ d.shapes, Entries.Distinct s.properties
  parts : ∀ s ∈ d.shapes, ∀ p ∈ s.properties, Address.IsPart p.1

structure Document.Keyed (doc : Document) : Prop where
  distinct : doc.defs.Distinct
  names : ∀ e ∈ doc.defs, Address.IsPart e.1
  definitions : ∀ e ∈ doc.defs, e.2.All Definition.Keyed

/-- Documents that were read have each key once. -/
theorem Document.PlainKeys.keyed {doc : Document} (hproper : doc.Proper) (h : doc.PlainKeys) :
    doc.Keyed where
  distinct := hproper.distinct
  names := h.names
  definitions e he := ((hproper.proper e he).and (h.properties e he)).mono
    fun _ ⟨hproper, hparts⟩ => ⟨hproper.distinct, hparts⟩

theorem Definition.Keyed.shape {d : Definition} (h : d.Keyed) {s : ObjectShape Definition}
    (hs : s ∈ d.shapes) : (object s).Keyed where
  distinct t ht := by
    obtain rfl : t = s := by simpa [shapes] using ht
    exact h.distinct t hs
  parts t ht := by
    obtain rfl : t = s := by simpa [shapes] using ht
    exact h.parts t hs

namespace Outline

open Address (Apart Fresh Rooted)

/-! ## Children by their addresses -/

section
variable (follow : Follow) (ctx : Context) (a : Address)

theorem addresses_branches (index : Nat) (refs : List String) :
    addresses (branches follow ctx a index refs) = (refs.zipIdx index).flatMap fun r =>
      a.branch r.2 :: addresses (follow ctx r.1 (a.branch r.2)) := by
  induction refs generalizing index with
  | nil => rfl
  | cons reference rest ih =>
    simp only [branches, addresses_cons, addresses_append, ih, List.zipIdx_cons,
      List.flatMap_cons, List.cons_append]

theorem addresses_belowProperties (properties : List (String × Definition)) :
    addresses (belowProperties follow ctx properties a) = properties.flatMap fun p =>
      a.property p.1 :: addresses (below follow ctx p.2 (a.property p.1)) := by
  induction properties with
  | nil => rfl
  | cons p rest ih =>
    simp only [belowProperties, addresses_cons, addresses_append, address_ofNode, ih,
      List.flatMap_cons, List.cons_append]

theorem belowObject_eq (s : ObjectShape Definition) :
    belowObject follow ctx s a = belowProperties follow ctx s.properties a := by
  cases s
  rfl

def slotAddresses (slot : String × Option Definition) : List Address :=
  match slot.2 with
  | none => []
  | some d => a.property slot.1 :: addresses (below follow ctx d (a.property slot.1))

theorem addresses_objectFacet (name : String) (shape : Option (ObjectShape Definition)) :
    addresses (objectFacet follow ctx shape (a.property name)) =
      slotAddresses follow ctx a (name, shape.map .object) := by
  cases shape <;> rfl

theorem addresses_schemaFacet {name : String} (hname : name ≠ "") (schema : Option Definition) :
    addresses (schemaFacet follow ctx schema (a.property name)) =
      slotAddresses follow ctx a (name ++ "." ++ "schema", schema) := by
  cases schema with
  | none => rfl
  | some d =>
    simp only [schemaFacet, slotAddresses, addresses_cons, address_ofNode,
      Address.property_property hname]

theorem addresses_belowTop {d : Definition} (hprimary : d.isPrimary = true) :
    addresses (belowTop follow ctx d a) = d.slots.flatMap (slotAddresses follow ctx a) := by
  cases d with
  | record s => simp [belowTop, Definition.slots, addresses_objectFacet]
  | query s =>
    simp (disch := decide) [belowTop, Definition.slots, bodyFacet, addresses_objectFacet,
      addresses_schemaFacet]
  | procedure s =>
    simp (disch := decide) [belowTop, Definition.slots, bodyFacet, addresses_objectFacet,
      addresses_schemaFacet]
  | subscription s =>
    simp (disch := decide) [belowTop, Definition.slots, addresses_objectFacet,
      addresses_schemaFacet]
  | _ => cases hprimary

end

/-! ## The walk lists fresh addresses -/

def Follow.Fresh (dict : Dictionary) (follow : Follow) : Prop :=
  ∀ ctx reference a, ctx.lexicons = dict → a ≠ "" →
    Address.Fresh a (addresses (follow ctx reference a))

variable {follow : Follow} {dict : Dictionary} {ctx : Context} {a : Address}

theorem fresh_branches (hfollow : follow.Fresh dict) (hctx : ctx.lexicons = dict) (ha : a ≠ "")
    (refs : List String) : Fresh a (addresses (branches follow ctx a 0 refs)) := by
  rw [addresses_branches]
  refine Address.fresh_flatMap ha
    (fun r _ => (hfollow ctx r.1 _ hctx (Address.branch_ne ha r.2)).rooted) ?_
  have hindices : (refs.zipIdx.map Prod.snd).Nodup := by
    rw [List.zipIdx_map_snd]
    exact List.nodup_range'
  exact (List.pairwise_map.mp hindices).imp fun h => Address.apart_branch h

theorem fresh_belowProperties {properties : List (String × Definition)} (ha : a ≠ "")
    (hdistinct : Entries.Distinct properties) (hparts : ∀ p ∈ properties, Address.IsPart p.1)
    (hbelow : ∀ p ∈ properties, ∀ b, b ≠ "" → Fresh b (addresses (below follow ctx p.2 b))) :
    Fresh a (addresses (belowProperties follow ctx properties a)) := by
  rw [addresses_belowProperties]
  refine Address.fresh_flatMap ha
    (fun p hp => (hbelow p hp _ (Address.property_ne ha p.1)).rooted) ?_
  refine (List.pairwise_map.mp hdistinct).imp_of_mem fun {p p'} hp hp' hne q hq hq' => hne ?_
  exact Address.eq_of_within_property ha (hparts p hp).2 (hparts p' hp').2 hq hq'

theorem fresh_below (hfollow : follow.Fresh dict) (hctx : ctx.lexicons = dict) {d : Definition}
    (hd : d.All Definition.Keyed) (ha : a ≠ "") : Fresh a (addresses (below follow ctx d a)) := by
  induction hd generalizing a with
  | @intro d here _ ih =>
    -- The properties of the object are what is inside it.
    have hobject : ∀ s ∈ d.shapes, Fresh a (addresses (belowObject follow ctx s a)) := by
      intro s hs
      rw [belowObject_eq]
      refine fresh_belowProperties ha (here.distinct s hs) (here.parts s hs) fun p hp b hb => ?_
      exact ih p.2 (Definition.mem_parts.mpr (.inl ⟨s, hs, List.mem_map_of_mem hp⟩)) hb
    cases d with
    | object s | params s => exact hobject s (List.mem_singleton.mpr rfl)
    | array s =>
      obtain ⟨_, items, _, _⟩ := s
      have hitems := ih items (List.mem_singleton.mpr rfl) (Address.element_ne ha)
      have helement := @Address.fresh_flatMap a Unit [()]
        (fun _ => a.element :: addresses (below follow ctx items a.element))
        (fun _ => Address.elementMark) ha (fun _ _ => hitems.rooted) (List.pairwise_singleton ..)
      simpa [below] using helement
    | union s => exact fresh_branches hfollow hctx ha s.refs
    | ref s => exact hfollow ctx s.target a hctx ha
    | _ => exact Address.fresh_nil a

theorem fresh_belowTarget (hfollow : follow.Fresh dict) (hctx : ctx.lexicons = dict)
    {d : Definition} (hd : d.All Definition.Keyed) (ha : a ≠ "") :
    Fresh a (addresses (belowTarget follow ctx d a)) := by
  cases d with
  | record s =>
    cases hrecord : s.record with
    | none =>
      simp only [belowTarget, hrecord]
      exact Address.fresh_nil a
    | some body =>
      have hmem : body ∈ (Definition.record s).shapes := Option.mem_toList.mpr hrecord
      simp only [belowTarget, hrecord]
      exact fresh_below hfollow hctx (hd.shape hmem (hd.here.shape hmem)) ha
  | _ => exact fresh_below hfollow hctx hd ha

/-- The induction is on the references that can still be followed: one more leads from below its
target to references with less room. -/
theorem fresh_followAt (hdict : dict.All Document.Keyed) (room : Nat) :
    (followAt room).Fresh dict := by
  induction room with
  | zero => exact fun _ _ a _ _ => Address.fresh_nil a
  | succ room ih =>
    intro ctx reference a hctx ha
    simp only [followAt]
    split
    · rename_i d inner hlookup hinner
      obtain ⟨rfl, -⟩ := Context.follow?_eq_some hinner
      have hd : ctx.lexicons.definition? _ = some d := Context.definition?_of_lookup hlookup
      rw [hctx] at hd
      have hinner : (ctx.enter (ctx.qualify reference)).lexicons = dict := hctx
      exact fresh_belowTarget ih hinner (hdict.definition (fun _ h => h.definitions) hd) ha
    · exact Address.fresh_nil a

theorem fresh_belowTop (hfollow : follow.Fresh dict) (hctx : ctx.lexicons = dict) {d : Definition}
    (hd : d.All Definition.Keyed) (ha : a ≠ "") : Fresh a (addresses (belowTop follow ctx d a)) := by
  cases hprimary : d.isPrimary with
  | true =>
    rw [addresses_belowTop follow ctx a hprimary]
    refine Address.fresh_flatMap ha (fun slot hslot => ?_)
      (d.slots_apart.imp fun h => Address.apart_property ha h)
    obtain ⟨name, schema⟩ := slot
    cases schema with
    | none => exact Address.rooted_nil _
    | some e =>
      have he : e.All Definition.Keyed := hd.slot (fun h hs => h.shape hs) hslot
      exact (fresh_below hfollow hctx he (Address.property_ne ha name)).rooted
  | false =>
    cases d <;> first | exact fresh_below hfollow hctx hd ha | exact nomatch hprimary

theorem rooted_entriesOf (hfollow : follow.Fresh dict) (hctx : ctx.lexicons = dict) (nsid : String)
    {e : String × Definition} (hd : e.2.All Definition.Keyed) (hname : e.1 ≠ "") :
    Rooted e.1 (addresses (entriesOf follow ctx nsid e)) := by
  have hctx : (ctx.enter ⟨nsid, e.1⟩).lexicons = dict := hctx
  exact (fresh_belowTop hfollow hctx hd hname).rooted

end Outline

namespace Document

open Outline (addresses)

variable {doc : Document} {dict : Dictionary}

/-- No two nodes of an outline have the same address. -/
theorem nodup_outline (hdoc : doc.Keyed) (hdict : dict.All Keyed) :
    (addresses (doc.outline dict)).Nodup := by
  let ctx : Context := { lexicons := dict }
  have hjoined : (ctx.register doc).lexicons.All Keyed := Dictionary.All.register hdict hdoc
  have hfollow := Outline.fresh_followAt hjoined (ctx.register doc).lexicons.references.length
  have hentries : addresses (doc.outline dict) = doc.defs.flatMap fun e =>
      addresses (Outline.entriesOf (Outline.followAt (ctx.register doc).lexicons.references.length)
        (ctx.register doc) (doc.id.getD "") e) := List.map_flatMap
  have hnames : doc.defs.Pairwise fun e e' => Address.Apart e.1 e'.1 := by
    refine (List.pairwise_map.mp hdoc.distinct).imp_of_mem fun {e e'} he he' hne q hq hq' => hne ?_
    exact Address.eq_of_within (hdoc.names e he).2 (hdoc.names e' he').2 hq hq'
  rw [hentries]
  refine Address.nodup_flatMap (fun e he => ?_) hnames
  exact Outline.rooted_entriesOf hfollow rfl _ (hdoc.definitions e he) (hdoc.names e he).1

def forum : Document where
  id := some "app.forum"
  defs := [
    ("thread", .object { properties := [
      ("first", .ref { target := "#post" }),
      ("last", .ref { target := "#post" })] }),
    ("post", .object { properties := [("embed", .union { refs := ["#thread", "app.photo"] })] })]

theorem proper_forum : forum.Proper :=
  @proper_of_ofJson (.object [
    ("id", .string "app.forum"),
    ("defs", .object [
      ("thread", .object [
        ("type", .string "object"),
        ("properties", .object [
          ("first", .object [("type", .string "ref"), ("ref", .string "#post")]),
          ("last", .object [("type", .string "ref"), ("ref", .string "#post")])])]),
      ("post", .object [
        ("type", .string "object"),
        ("properties", .object [
          ("embed", .object [
            ("type", .string "union"),
            ("refs", .array [.string "#thread", .string "app.photo"])])])])])]) forum rfl

theorem plainKeys_forum : forum.PlainKeys := by
  have hleaf : ∀ (key : String) (d : Definition), Address.IsPart key → d.shapes = [] →
      d.nodes = [] → Address.IsPart key ∧ d.PlainKeys :=
    fun _ _ hkey hshapes hnodes => ⟨hkey, Definition.plainKeys_of_parts_eq_nil hshapes hnodes⟩
  refine ⟨by simp [forum, Address.IsPart], fun e he => ?_⟩
  simp only [forum, List.mem_cons, List.not_mem_nil, or_false] at he
  rcases he with rfl | rfl
  all_goals
    refine Definition.plainKeys_object fun p hp => ?_
    simp only [List.mem_cons, List.not_mem_nil, or_false] at hp
  · rcases hp with rfl | rfl
    · exact hleaf _ _ (by simp [Address.IsPart]) rfl rfl
    · exact hleaf _ _ (by simp [Address.IsPart]) rfl rfl
  · obtain rfl := hp
    exact hleaf _ _ (by simp [Address.IsPart]) rfl rfl

theorem nodup_outline_sample :
    addresses (forum.outline [("app.photo", photo)]) = [
      "thread",
      "thread.first",
      "thread.first.embed",
      "thread.first.embed.__union__.0",
      "thread.first.embed.__union__.1",
      "thread.first.embed.__union__.1.title",
      "thread.last",
      "thread.last.embed",
      "thread.last.embed.__union__.0",
      "thread.last.embed.__union__.1",
      "thread.last.embed.__union__.1.title",
      "post",
      "post.embed",
      "post.embed.__union__.0",
      "post.embed.__union__.0.first",
      "post.embed.__union__.0.last",
      "post.embed.__union__.1",
      "post.embed.__union__.1.title"] ∧
    (addresses (forum.outline [("app.photo", photo)])).Nodup :=
  ⟨by decide, nodup_outline (plainKeys_forum.keyed proper_forum)
    (Dictionary.all_singleton (plainKeys_photo.keyed proper_photo))⟩

end Document
end Lexicon
