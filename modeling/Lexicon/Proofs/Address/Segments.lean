import Lexicon.Proofs.Address
import Lexicon.Proofs.Address.Positions

/-!
# Addresses and their steps

The parts of an address are read from left to right, a branch from two parts and any other step
from one (`ofParts_induct`). Keys may be spelled like other steps, so not all steps can be read back
from their address; `segments_ofSegments_iff` says which can. The steps of an address can, unless it
begins with a dot, and writing them again changes only the spelling of positions
(`ofSegments_segments_iff`).
-/

namespace Lexicon.Address

variable {part next : List Char} {rest : List (List Char)} {n : Nat}

/-! ## Reading parts as steps -/

theorem ofParts_branch (h : index? next = some n) :
    ofParts (branchMark.toList :: next :: rest) = .branch n :: ofParts rest := by
  rw [ofParts, if_pos rfl, h]

/-- A part that does not begin a branch is a step by itself. -/
theorem ofParts_cons (h : part = branchMark.toList → rest.head?.bind index? = none) :
    ofParts (part :: rest) = ofPart part :: ofParts rest := by
  cases rest with
  | nil => rfl
  | cons next rest =>
    rw [ofParts]
    split
    · rename_i hpart
      have hnext : index? next = none := h hpart
      rw [hnext]
    · rfl

/-- The parts are read from left to right: a branch takes two of them, any other step one. -/
theorem ofParts_induct {P : List (List Char) → Prop} (hnil : P [])
    (hbranch : ∀ next rest n, index? next = some n → P rest →
      P (branchMark.toList :: next :: rest))
    (hcons : ∀ part rest, (part = branchMark.toList → rest.head?.bind index? = none) → P rest →
      P (part :: rest)) (parts : List (List Char)) : P parts := by
  induction parts using ofParts.induct with
  | case1 => exact hnil
  | case2 part => exact hcons part [] (fun _ => rfl) hnil
  | case3 next rest n hn ih => exact hbranch next rest n hn ih
  | case4 next rest hn ih => exact hcons _ _ (fun _ => hn) ih
  | case5 part next rest hpart ih => exact hcons _ _ (fun h => absurd h hpart) ih

theorem ofParts_ne_nil {parts : List (List Char)} (h : parts ≠ []) : ofParts parts ≠ [] := by
  cases parts using ofParts_induct with
  | hnil => exact absurd rfl h
  | hbranch next rest n hn _ =>
    rw [ofParts_branch hn]
    exact List.cons_ne_nil _ _
  | hcons part rest hpart _ =>
    rw [ofParts_cons hpart]
    exact List.cons_ne_nil _ _

def Segment.parts : Segment → List (List Char)
  | .key name => [name.toList]
  | .element => [elementMark.toList]
  | .branch index => [branchMark.toList, (toString index).toList]

structure Readable (steps : List Segment) : Prop where
  /-- A dot would divide the key. -/
  noDot : ∀ key, .key key ∈ steps → '.' ∉ key.toList
  /-- The key would be taken for the elements of an array. -/
  noElementMark : .key elementMark ∉ steps
  /-- The two keys would be taken for a branch of a union. -/
  noIndex : ∀ key n, [.key branchMark, .key key] <:+: steps → ¬ Spells key.toList n

variable {steps : List Segment} {step : Segment}

theorem readable_nil : Readable [] where
  noDot := nofun
  noElementMark := nofun
  noIndex key n h := by simp at h

theorem readable_cons : Readable (step :: steps) ↔
    (∀ key, step = .key key → '.' ∉ key.toList ∧ key ≠ elementMark ∧
      (key = branchMark → ∀ next n, steps.head? = some (.key next) → ¬ Spells next.toList n)) ∧
    Readable steps := by
  constructor
  · intro h
    refine ⟨?_, fun key hkey => h.noDot key (List.mem_cons_of_mem _ hkey), fun hmark =>
      h.noElementMark (List.mem_cons_of_mem _ hmark), fun key n hinfix =>
      h.noIndex key n (List.infix_cons hinfix)⟩
    rintro key rfl
    refine ⟨h.noDot key (List.mem_cons_self ..), ?_, ?_⟩
    · rintro rfl
      exact h.noElementMark (List.mem_cons_self ..)
    · rintro rfl next n hnext
      obtain ⟨rest, rfl⟩ : ∃ rest, steps = .key next :: rest := List.head?_eq_some_iff.mp hnext
      exact h.noIndex next n ⟨[], rest, rfl⟩
  · rintro ⟨hstep, h⟩
    constructor
    · rintro key hkey
      rcases List.mem_cons.mp hkey with heq | hkey
      · exact (hstep key heq.symm).1
      · exact h.noDot key hkey
    · intro hmark
      rcases List.mem_cons.mp hmark with heq | hmark
      · exact (hstep elementMark heq.symm).2.1 rfl
      · exact h.noElementMark hmark
    · intro key n hinfix
      rcases List.infix_cons_iff.mp hinfix with hprefix | hinfix
      · obtain ⟨heq, hrest⟩ := List.cons_prefix_cons.mp hprefix
        obtain ⟨rest, rfl⟩ := hrest
        exact (hstep branchMark heq.symm).2.2 rfl key n rfl
      · exact h.noIndex key n hinfix

theorem ofPart_key {key : String} (h : key ≠ elementMark) : ofPart key.toList = .key key := by
  rw [ofPart, if_neg (fun heq => h (String.toList_inj.mp heq)), String.ofList_toList]

theorem ofPart_eq_key {key : String} (h : ofPart part = .key key) :
    key.toList = part ∧ key ≠ elementMark := by
  unfold ofPart at h
  split at h
  · exact nomatch h
  · rename_i hpart
    obtain rfl := Segment.key.inj h
    exact ⟨String.toList_ofList, fun heq => hpart (by rw [← heq, String.toList_ofList])⟩

/-- Readable steps are read from their parts. -/
theorem ofParts_flatMap_parts (h : Readable steps)
    (hindex : ∀ index, .branch index ∈ steps → index < Word.size 64) :
    ofParts (steps.flatMap Segment.parts) = steps := by
  induction steps with
  | nil => rfl
  | cons step steps ih =>
    obtain ⟨hstep, hsteps⟩ := readable_cons.mp h
    have hrest := ih hsteps fun index hmem => hindex index (List.mem_cons_of_mem _ hmem)
    rw [List.flatMap_cons]
    cases step with
    | element =>
      have hmark : elementMark.toList ≠ branchMark.toList := by decide
      rw [Segment.parts, List.singleton_append, ofParts_cons (fun heq => absurd heq hmark), hrest]
      rfl
    | branch index =>
      have hread := index?_toString (hindex index (List.mem_cons_self ..))
      rw [Segment.parts, List.cons_append, List.singleton_append, ofParts_branch hread, hrest]
    | key key =>
      obtain ⟨-, hmark, hnext⟩ := hstep key rfl
      rw [Segment.parts, List.singleton_append, ofParts_cons, hrest, ofPart_key hmark]
      -- What follows a branch mark is no number, as it is a mark or a key that is none.
      intro hkey
      cases steps with
      | nil => rfl
      | cons next steps =>
        cases next with
        | key name =>
          have hname := hnext (String.toList_inj.mp hkey) name
          rw [List.flatMap_cons]
          change index? name.toList = none
          cases hread : index? name.toList with
          | none => rfl
          | some n => exact absurd (index?_eq_some_iff.mp hread) (hname n rfl)
        | element => rfl
        | branch index => rfl

/-- The first step is a key only if the first part is. -/
theorem head?_ofParts {parts : List (List Char)} {key : String}
    (h : (ofParts parts).head? = some (.key key)) : parts.head? = some key.toList := by
  induction parts using ofParts_induct with
  | hnil => exact nomatch h
  | hbranch next rest n hn _ =>
    rw [ofParts_branch hn] at h
    exact nomatch h
  | hcons part rest hpart _ =>
    rw [ofParts_cons hpart] at h
    obtain ⟨hkey, -⟩ := ofPart_eq_key (Option.some.inj h)
    rw [hkey]
    rfl

theorem readable_ofParts {parts : List (List Char)} (h : ∀ part ∈ parts, '.' ∉ part) :
    Readable (ofParts parts) := by
  induction parts using ofParts_induct with
  | hnil => exact readable_nil
  | hbranch next rest n hn ih =>
    rw [ofParts_branch hn]
    refine readable_cons.mpr ⟨nofun, ih fun part hpart => h part ?_⟩
    exact List.mem_cons_of_mem _ (List.mem_cons_of_mem _ hpart)
  | hcons part rest hpart ih =>
    rw [ofParts_cons hpart]
    refine readable_cons.mpr ⟨fun key hkey => ?_,
      ih fun part hmem => h part (List.mem_cons_of_mem _ hmem)⟩
    obtain ⟨rfl, hmark⟩ := ofPart_eq_key hkey
    refine ⟨h _ (List.mem_cons_self ..), hmark, ?_⟩
    rintro rfl next n hnext hspells
    have hnone := hpart rfl
    rw [head?_ofParts hnext, Option.bind_some, index?_eq_some_iff.mpr hspells] at hnone
    exact nomatch hnone

/-- The positions that are read fit a word. -/
theorem lt_size_of_mem_ofParts {parts : List (List Char)} {index : Nat}
    (h : .branch index ∈ ofParts parts) : index < Word.size 64 := by
  induction parts using ofParts_induct with
  | hnil => exact nomatch h
  | hbranch next rest n hn ih =>
    rw [ofParts_branch hn] at h
    rcases List.mem_cons.mp h with heq | h
    · obtain rfl := Segment.branch.inj heq
      obtain ⟨_, _, _, _, _, hlt⟩ := index?_eq_some_iff.mp hn
      exact hlt
    · exact ih h
  | hcons part rest hpart ih =>
    rw [ofParts_cons hpart] at h
    rcases List.mem_cons.mp h with heq | h
    · unfold ofPart at heq
      split at heq <;> exact nomatch heq
    · exact ih h

/-! ## Addresses and their parts -/

variable {a address : Address} {key : String}

theorem step_eq (a : Address) (step : Segment) : a.step step = a.property step.text := by
  cases step <;> rfl

theorem split_property (ha : a ≠ "") (key : String) :
    Text.split '.' (a.property key).toList =
      Text.split '.' a.toList ++ Text.split '.' key.toList := by
  rw [property_of_ne ha, String.toList_append, String.toList_append, List.append_assoc]
  exact Text.split_append '.' a.toList key.toList

theorem split_text (h : ∀ key, step = .key key → '.' ∉ key.toList) :
    Text.split '.' step.text.toList = step.parts := by
  cases step with
  | key key => exact Text.split_of_not_mem (h key rfl)
  | element => decide
  | branch index =>
    have htext : (Segment.branch index).text = property branchMark (toString index) :=
      (property_of_ne (by decide) _).symm
    rw [htext, split_property (by decide), Text.split_of_not_mem (dot_not_mem_toString index)]
    rfl

theorem text_ne_empty (h : step ≠ .key "") : step.text ≠ "" := by
  cases step with
  | key key => exact fun heq => h (congrArg Segment.key heq)
  | element => decide
  | branch index =>
    rw [Segment.text, ← property_of_ne (by decide)]
    exact property_ne (by decide) (toString index)

theorem foldl_step_ne (ha : a ≠ "") (steps : List Segment) : steps.foldl Address.step a ≠ "" := by
  induction steps generalizing a with
  | nil => exact ha
  | cons step steps ih =>
    refine ih ?_
    rw [step_eq]
    exact property_ne ha _

theorem split_foldl_step (ha : a ≠ "") (h : Readable steps) :
    Text.split '.' (steps.foldl Address.step a).toList =
      Text.split '.' a.toList ++ steps.flatMap Segment.parts := by
  induction steps generalizing a with
  | nil => simp
  | cons step steps ih =>
    obtain ⟨hstep, hsteps⟩ := readable_cons.mp h
    rw [List.foldl_cons, step_eq, ih (property_ne ha _) hsteps, split_property ha,
      split_text fun key hkey => (hstep key hkey).1, List.flatMap_cons, List.append_assoc]

/-- The parts of an address are those of its steps, unless the first of them is an empty key. -/
theorem split_ofSegments (h : Readable (step :: steps)) (hstep : step ≠ .key "") :
    ofSegments (step :: steps) ≠ "" ∧
      Text.split '.' (ofSegments (step :: steps)).toList =
        (step :: steps).flatMap Segment.parts := by
  obtain ⟨hfirst, hsteps⟩ := readable_cons.mp h
  have hne := text_ne_empty hstep
  have hroot : ofSegments (step :: steps) = steps.foldl Address.step step.text := by
    rw [ofSegments, List.foldl_cons, step_eq, property_empty]
  rw [hroot]
  refine ⟨foldl_step_ne hne steps, ?_⟩
  rw [split_foldl_step hne hsteps, split_text fun key hkey => (hfirst key hkey).1,
    List.flatMap_cons]

theorem segments_of_ne (h : a ≠ "") : segments a = ofParts (Text.split '.' a.toList) := by
  simp [segments, h]

theorem segments_ne_nil (h : a ≠ "") : segments a ≠ [] := by
  rw [segments_of_ne h]
  exact ofParts_ne_nil (Text.split_ne_nil '.' a.toList)

theorem readable_segments (a : Address) : Readable (segments a) := by
  by_cases ha : a = ""
  · subst ha
    exact readable_nil
  · rw [segments_of_ne ha]
    exact readable_ofParts fun part hpart => Text.not_mem_of_mem_split hpart

theorem lt_size_of_mem_segments {index : Nat} (h : .branch index ∈ segments a) :
    index < Word.size 64 := by
  by_cases ha : a = ""
  · subst ha
    exact nomatch h
  · rw [segments_of_ne ha] at h
    exact lt_size_of_mem_ofParts h

/-- The first step is an empty key only if the address begins with a dot. -/
theorem head?_segments_ne (h : a.toList.head? ≠ some '.') :
    (segments a).head? ≠ some (.key "") := by
  by_cases ha : a = ""
  · subst ha
    exact nofun
  · rw [segments_of_ne ha]
    intro hkey
    have hpart := head?_ofParts hkey
    cases hlist : a.toList with
    | nil => exact ha (String.toList_eq_nil_iff.mp hlist)
    | cons c rest =>
      rw [hlist] at h hpart
      have hc : c ≠ '.' := fun heq => h (congrArg some heq)
      rw [Text.split, if_neg hc] at hpart
      split at hpart <;> exact absurd (Option.some.inj hpart) (List.cons_ne_nil _ _)

/-- No address of readable steps begins with a dot. -/
theorem head?_foldl_step_ne (ha : a.toList.head? ≠ some '.') (h : Readable steps) :
    (steps.foldl Address.step a).toList.head? ≠ some '.' := by
  induction steps generalizing a with
  | nil => exact ha
  | cons step steps ih =>
    obtain ⟨hstep, hsteps⟩ := readable_cons.mp h
    refine ih ?_ hsteps
    rw [step_eq]
    by_cases hroot : a = ""
    · rw [hroot, property_empty]
      cases step with
      | key key => exact fun hdot => (hstep key rfl).1 (List.mem_of_mem_head? hdot)
      | element => decide
      | branch index =>
        rw [Segment.text, String.append_assoc, String.toList_append]
        exact (by decide : branchMark.toList.head? ≠ some '.')
    · rw [property_of_ne hroot, String.append_assoc, String.toList_append]
      cases hlist : a.toList with
      | nil => exact absurd (String.toList_eq_nil_iff.mp hlist) hroot
      | cons c rest => rwa [hlist] at ha

theorem segments_ofSegments (h : Readable steps) (hstart : steps.head? ≠ some (.key ""))
    (hindex : ∀ index, .branch index ∈ steps → index < Word.size 64) :
    segments (ofSegments steps) = steps := by
  cases steps with
  | nil => rfl
  | cons step steps =>
    obtain ⟨hne, hsplit⟩ := split_ofSegments h fun heq => hstart (congrArg some heq)
    rw [segments_of_ne hne, hsplit, ofParts_flatMap_parts h hindex]

/-- Steps are read back from their address exactly when they are readable and do not begin with an
empty key. -/
theorem segments_ofSegments_iff (hindex : ∀ index, .branch index ∈ steps → index < Word.size 64) :
    segments (ofSegments steps) = steps ↔ Readable steps ∧ steps.head? ≠ some (.key "") := by
  constructor
  · intro h
    have hreadable : Readable steps := h ▸ readable_segments (ofSegments steps)
    have hstart := head?_segments_ne (head?_foldl_step_ne (a := "") nofun hreadable)
    exact ⟨hreadable, by rwa [← h]⟩
  · rintro ⟨hreadable, hstart⟩
    exact segments_ofSegments hreadable hstart hindex

def embedded : List Segment := [.key "main", .key "embed", .branch 1, .key "images", .element]

theorem segments_ofSegments_embedded :
    (∀ index, .branch index ∈ embedded → index < Word.size 64) ∧
      ofSegments embedded = "main.embed.__union__.1.images.__array__" ∧
      segments (ofSegments embedded) = embedded ∧ Readable embedded := by
  have hindex : ∀ index, .branch index ∈ embedded → index < Word.size 64 := by
    intro index hmem
    obtain rfl : index = 1 := by simpa [embedded] using hmem
    decide
  have hback : segments (ofSegments embedded) = embedded := by decide +kernel
  exact ⟨hindex, by decide +kernel, hback, ((segments_ofSegments_iff hindex).mp hback).1⟩

/-! ## Canonical addresses -/

def indexParts : List (List Char) → List (List Char)
  | part :: next :: rest =>
    if part = branchMark.toList then
      if (index? next).isSome then next :: indexParts rest else indexParts (next :: rest)
    else indexParts (next :: rest)
  | _ => []

theorem indexParts_branch (h : index? next = some n) :
    indexParts (branchMark.toList :: next :: rest) = next :: indexParts rest := by
  rw [indexParts, if_pos rfl, if_pos (by rw [h]; rfl)]

theorem indexParts_cons (h : part = branchMark.toList → rest.head?.bind index? = none) :
    indexParts (part :: rest) = indexParts rest := by
  cases rest with
  | nil => rfl
  | cons next rest =>
    rw [indexParts]
    split
    · rename_i hpart
      have hnext : index? next = none := h hpart
      rw [hnext]
      rfl
    · rfl

def Segment.position? : Segment → Option Nat
  | .branch index => some index
  | _ => none

/-- They spell the positions of the branches one by one. -/
theorem forall₂_spells_indexParts (parts : List (List Char)) :
    List.Forall₂ Spells (indexParts parts) ((ofParts parts).filterMap Segment.position?) := by
  induction parts using ofParts_induct with
  | hnil => exact .nil
  | hbranch next rest n hn ih =>
    rw [ofParts_branch hn, indexParts_branch hn]
    exact .cons (index?_eq_some_iff.mp hn) ih
  | hcons part rest hpart ih =>
    have hnone : (ofPart part).position? = none := by
      unfold ofPart
      split <;> rfl
    rw [ofParts_cons hpart, indexParts_cons hpart, List.filterMap_cons, hnone]
    exact ih

theorem parts_ofPart (part : List Char) : (ofPart part).parts = [part] := by
  unfold ofPart
  split
  · rename_i hpart
    rw [hpart, Segment.parts]
  · rw [Segment.parts, String.toList_ofList]

/-- Writing the steps again changes the positions that are not canonical, and nothing else. -/
theorem flatMap_parts_ofParts_eq_iff {parts : List (List Char)} :
    (ofParts parts).flatMap Segment.parts = parts ↔ ∀ part ∈ indexParts parts, Canonical part := by
  induction parts using ofParts_induct with
  | hnil => exact ⟨fun _ => nofun, fun _ => rfl⟩
  | hbranch next rest n hn ih =>
    have hnext := (index?_eq_some_iff.mp hn).toString_eq_iff
    rw [ofParts_branch hn, indexParts_branch hn, List.forall_mem_cons, List.flatMap_cons,
      Segment.parts, ← hnext, ← ih]
    simp
  | hcons part rest hpart ih =>
    rw [ofParts_cons hpart, indexParts_cons hpart, List.flatMap_cons, parts_ofPart, ← ih]
    simp

/-- Writing the steps of an address gives its canonical form: it has the same steps, and it is the
address itself exactly when all positions in that are canonical. -/
theorem ofSegments_segments_iff (h : address.toList.head? ≠ some '.') :
    segments (ofSegments (segments address)) = segments address ∧
      (ofSegments (segments address) = address ↔
        ∀ part ∈ indexParts (Text.split '.' address.toList), Canonical part) := by
  refine ⟨segments_ofSegments (readable_segments address) (head?_segments_ne h)
    fun index => lt_size_of_mem_segments, ?_⟩
  by_cases haddress : address = ""
  · subst haddress
    exact ⟨fun _ => nofun, fun _ => rfl⟩
  · rw [← flatMap_parts_ofParts_eq_iff, ← segments_of_ne haddress, ← String.toList_inj,
      ← Text.split_inj]
    have hreadable := readable_segments address
    have hstart := head?_segments_ne h
    cases hsteps : segments address with
    | nil => exact absurd hsteps (segments_ne_nil haddress)
    | cons step steps =>
      rw [hsteps] at hreadable hstart
      rw [(split_ofSegments hreadable fun heq => hstart (congrArg some heq)).2]

theorem ofSegments_segments_signed :
    segments (ofSegments (segments "main.__union__.+1")) = segments "main.__union__.+1" ∧
      ofSegments (segments "main.__union__.+1") ≠ "main.__union__.+1" := by
  have hstart : "main.__union__.+1".toList.head? ≠ some '.' := by decide
  obtain ⟨hsteps, hsame⟩ := ofSegments_segments_iff hstart
  exact ⟨hsteps, fun h => absurd (hsame.mp h ['+', '1'] (by decide)) (by decide)⟩

end Lexicon.Address
