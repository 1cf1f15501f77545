import Lexicon.Proofs.Validator.Output

/-!
# Outputs are accepted again

Parsing an output succeeds when no object declares a discriminator of the tree
(`parse_again`). A union may choose another branch for an output than for the value. A tagged union
may not, since an output has no discriminator that the value does not have (`KeepsTags`). As for
schemas, the invariant allows for fields that the output has dropped (`Reaccepts`). Without unions
the output is a fixed point (`Fixes`).
-/

namespace Lexicon

namespace Validator

def discriminator? (v : Validator) : Option String :=
  match v.kind with
  | .tagged field _ _ => some field
  | _ => none

inductive Discriminates (field : String) : Validator → Prop
  | here {v : Validator} (h : v.discriminator? = some field) : Discriminates field v
  | inside {v w : Validator} (hw : w ∈ v.kind.parts) (h : Discriminates field w) :
    Discriminates field v

def isUnion (v : Validator) : Bool :=
  match v.kind with
  | .union _ | .tagged _ _ _ => true
  | _ => false

variable {tags : String → Prop} {v : Validator} {x y : Json}

/-- The fields are distinct and apart from the tags, which the discriminator is one of. -/
structure Separate (tags : String → Prop) (v : Validator) : Prop where
  distinct : Entries.Distinct v.fields
  undeclared : ∀ key ∈ Entries.keys v.fields, ¬ tags key
  tagged : ∀ field, v.discriminator? = some field → tags field

def KeepsTags (tags : String → Prop) (v : Validator) : Prop :=
  ∀ {x y : Json}, v.convert? x = some y →
    ∀ key, tags key → ∀ z, y.get? key = some z → x.get? key = some z

/-- An output is accepted again, also with fields that it has dropped. -/
def Reaccepts (v : Validator) : Prop :=
  ∀ {x y : Json} (dropped : Entries Json), v.convert? x = some y → Json.Dropped x y dropped →
    (v.convert? (y.extend dropped)).isSome

def Fixes (v : Validator) : Prop := ∀ {x y : Json}, v.convert? x = some y → v.convert? y = some y

/-- The discriminators of the tree are apart from the fields everywhere in it. -/
theorem All.separate {w : Validator} (h : w.All fun u => Entries.Distinct u.fields ∧
    ∀ key ∈ Entries.keys u.fields, ¬ tags key)
    (htags : ∀ field, w.Discriminates field → tags field) : w.All (Separate tags) := by
  induction h with
  | @intro w here _ ih =>
    refine .intro ⟨here.1, here.2, fun field hfield => htags field (.here hfield)⟩ fun u hu => ?_
    exact ih u hu fun field hfield => htags field (.inside hu hfield)

theorem not_discriminates {w : Validator} {field : String}
    (h : w.All (·.discriminator? ≠ some field)) : ¬ w.Discriminates field := by
  intro hfield
  induction hfield with
  | here hw => exact h.here hw
  | inside hu _ ih => exact ih (h.inside hu)

end Validator

open Validator (KeepsTags Reaccepts Fixes Separate)

section Steps

variable {tags : String → Prop} {optional nullable : Bool} {default : Option Json}
  {description : Option String} {x y : Json}

theorem Kind.keepsTags {kind : Kind Validator} (hparts : ∀ w ∈ kind.parts, w.KeepsTags tags)
    (hseparate : Validator.Separate tags ⟨kind, optional, nullable, default, description⟩)
    (h : kind.convert? x = some y) {key : String} (hkey : tags key) {z : Json}
    (hz : y.get? key = some z) : x.get? key = some z := by
  cases kind with
  | any | unknown =>
    obtain rfl := Option.some.inj h
    exact hz
  | never => exact nomatch h
  | null =>
    rw [Kind.convert?] at h
    split_ifs at h
    obtain rfl := Option.some.inj h
    exact nomatch hz
  | boolean | string rules | literal expected =>
    rw [Kind.convert?] at h
    split_ifs at h
    obtain rfl := Option.some.inj h
    exact hz
  | number rules =>
    obtain ⟨b, n, -, rfl, -⟩ := NumberRules.exists_of_convert h
    exact nomatch hz
  | array items minItems maxItems =>
    obtain ⟨elements, outputs, -, rfl, -⟩ := Kind.convert?_array.mp h
    exact nomatch hz
  | object fields =>
    obtain ⟨values, outputs, rfl, rfl, houtputs⟩ := (Kind.convert?_object hseparate.distinct).mp h
    have hmem : key ∉ Entries.keys fields := fun hmem => hseparate.undeclared key hmem hkey
    rw [Json.get?_object, find?_of_convertFields_of_not_mem houtputs hmem] at hz
    exact nomatch hz
  | union branches =>
    rw [Kind.convert?] at h
    obtain ⟨v, hv, hconvert⟩ := exists_of_convertBranch h
    exact hparts v hv hconvert key hkey z hz
  | tagged field branches closed =>
    rcases Kind.convert?_tagged_cases h with
      ⟨-, -, hbranch⟩ | ⟨tag, v, output, added, -, -, hv, hconvert, rfl, hadded⟩
    · obtain ⟨v, hv, hconvert⟩ := exists_of_convertBranch hbranch
      exact hparts v hv hconvert key hkey z hz
    · rcases Json.get?_extend_cases hz with houtput | hmem
      · exact hparts v hv hconvert key hkey z houtput
      · exact (hadded _ hmem).1

theorem reaccepts_array {items : Validator} {minItems maxItems : Option Nat}
    (hitems : items.Reaccepts) (h : (Kind.array items minItems maxItems).convert? x = some y)
    (dropped : Entries Json) :
    ((Kind.array items minItems maxItems).convert? (y.extend dropped)).isSome := by
  obtain ⟨elements, outputs, rfl, rfl, hmin, hmax, houtputs⟩ := Kind.convert?_array.mp h
  have hagain : (outputs.mapM items.convert?).isSome := by
    refine isSome_mapM fun output houtput => ?_
    obtain ⟨element, -, hconvert⟩ := exists_of_mem_outputs houtputs houtput
    have hitem := hitems [] hconvert (Json.dropped_nil element output)
    rwa [Json.extend_nil] at hitem
  change ((Kind.array items minItems maxItems).convert? (.array outputs)).isSome
  rw [Kind.convert?, ← length_outputs houtputs, hmin, hmax, Bool.and_self, if_pos rfl,
    Option.isSome_map]
  exact hagain

theorem reaccepts_object {fields : List (String × Validator)} (hd : Entries.Distinct fields)
    (hfields : ∀ e ∈ fields, e.2.Reaccepts) (h : (Kind.object fields).convert? x = some y)
    {dropped : Entries Json} (hdropped : Json.Dropped x y dropped) :
    ((Kind.object fields).convert? (y.extend dropped)).isSome := by
  obtain ⟨values, outputs, rfl, rfl, houtputs⟩ := (Kind.convert?_object hd).mp h
  have hagain : (convertFields fields (outputs ++ dropped)).isSome := by
    refine isSome_convertFields fun e he => ?_
    rw [find?_append_dropped hd houtputs hdropped he]
    rcases Validator.convertField?_cases (find?_of_convertFields hd houtputs he) with
      ⟨hnone, hmissing⟩ | ⟨x, y, hsome, hconvert⟩
    · rw [hnone, hmissing]
      rfl
    · have hy := hfields e he [] hconvert (Json.dropped_nil x y)
      rw [Json.extend_nil] at hy
      rw [hsome, e.2.convertField?_some, Option.isSome_map]
      exact hy
  change ((Kind.object fields).convert? (.object (outputs ++ dropped))).isSome
  rw [Kind.convert?, Option.isSome_map]
  exact hagain

/-- An output without the tag of the value fits the branch that has put it out. -/
theorem reaccepts_tagged {field : String} {branches : List (String × Validator)} {closed : Bool}
    (hbranches : ∀ v ∈ branches.map Prod.snd, v.Reaccepts)
    (h : (Kind.tagged field branches closed).convert? x = some y) {dropped : Entries Json}
    (hdropped : Json.Dropped x y dropped)
    (htag : ∀ tag, (y.extend dropped).tag? field = some tag → x.tag? field = some tag) :
    ((Kind.tagged field branches closed).convert? (y.extend dropped)).isSome := by
  rcases Kind.convert?_tagged_cases h with
    ⟨hnone, hclosed, hbranch⟩ | ⟨tag, v, z, added, hx, hfind, hv, hconvert, rfl, hadded⟩
  · obtain ⟨v, hv, hconvert⟩ := exists_of_convertBranch hbranch
    have hopen : (((y.extend dropped).tag? field).isSome && closed) = false := by
      cases hy : (y.extend dropped).tag? field with
      | none => rfl
      | some tag =>
        rw [htag tag hy] at hclosed
        exact hclosed
    rw [Kind.convert?_noBranch fun tag hy => hnone tag (htag tag hy), hopen,
      if_neg Bool.false_ne_true]
    exact isSome_convertBranch hv (hbranches v hv dropped hconvert hdropped)
  · have hagain := hbranches v hv _ hconvert (hadded.append hdropped)
    rw [← Json.extend_extend] at hagain
    cases hy : ((z.extend added).extend dropped).tag? field with
    | none =>
      have hnone : ∀ tag, ((z.extend added).extend dropped).tag? field = some tag →
          Entries.find? branches tag = none := fun tag htag => nomatch hy.symm.trans htag
      rw [Kind.convert?_noBranch hnone, hy, Option.isSome_none, Bool.false_and,
        if_neg Bool.false_ne_true]
      exact isSome_convertBranch hv hagain
    | some other =>
      obtain rfl : tag = other := Option.some.inj (hx.symm.trans (htag other hy))
      rw [Kind.convert?_branch hy hfind]
      obtain ⟨output, houtput⟩ := Option.isSome_iff_exists.mp hagain
      obtain ⟨more, hmore, -⟩ := restoreTag_some field tag output
      rw [houtput, hmore]
      rfl

theorem Kind.reaccepts {kind : Kind Validator} (hparts : ∀ w ∈ kind.parts, w.Reaccepts)
    (hkeeps : ∀ w ∈ kind.parts, w.KeepsTags tags)
    (hseparate : Validator.Separate tags ⟨kind, optional, nullable, default, description⟩)
    (h : kind.convert? x = some y) {dropped : Entries Json} (hdropped : Json.Dropped x y dropped) :
    (kind.convert? (y.extend dropped)).isSome := by
  cases kind with
  | any | unknown =>
    rw [Kind.convert?]
    rfl
  | never => exact nomatch h
  | null =>
    rw [Kind.convert?] at h
    split_ifs at h
    obtain rfl := Option.some.inj h
    rfl
  | boolean | string rules | literal expected =>
    have hconvert := h
    rw [Kind.convert?] at h
    split_ifs at h
    obtain rfl := Option.some.inj h
    rw [hdropped.eq_nil, Json.extend_nil, hconvert]
    rfl
  | number rules =>
    obtain ⟨b, n, -, rfl, -, hadmits⟩ := NumberRules.exists_of_convert h
    change ((Kind.number rules).convert? (.number n)).isSome
    rw [Kind.convert?, if_pos hadmits]
    rfl
  | array items minItems maxItems =>
    exact reaccepts_array (hparts items (List.mem_singleton_self _)) h dropped
  | object fields =>
    exact reaccepts_object hseparate.distinct
      (fun e he => hparts e.2 (List.mem_map_of_mem he)) h hdropped
  | union branches =>
    rw [Kind.convert?] at h ⊢
    obtain ⟨v, hv, hconvert⟩ := exists_of_convertBranch h
    exact isSome_convertBranch hv (hparts v hv dropped hconvert hdropped)
  | tagged field branches closed =>
    refine reaccepts_tagged hparts h hdropped fun tag htag => ?_
    rw [Json.tag?_eq_some] at htag ⊢
    rcases Json.get?_extend_cases htag with houtput | hmem
    · exact Kind.keepsTags hkeeps hseparate h (hseparate.tagged field rfl) houtput
    · exact (hdropped _ hmem).1

theorem Kind.fixes {kind : Kind Validator} (hparts : ∀ w ∈ kind.parts, w.Fixes)
    (hd : Entries.Distinct (Validator.fields ⟨kind, optional, nullable, default, description⟩))
    (hunion : Validator.isUnion ⟨kind, optional, nullable, default, description⟩ = false)
    (h : kind.convert? x = some y) : kind.convert? y = some y := by
  cases kind with
  | any | unknown => rw [Kind.convert?]
  | never => exact nomatch h
  | null =>
    rw [Kind.convert?] at h
    split_ifs at h
    obtain rfl := Option.some.inj h
    rfl
  | boolean | string rules | literal expected =>
    have hconvert := h
    rw [Kind.convert?] at h
    split_ifs at h
    obtain rfl := Option.some.inj h
    exact hconvert
  | number rules =>
    obtain ⟨b, n, -, rfl, houtput, hadmits⟩ := NumberRules.exists_of_convert h
    have hvalue : rules.valueOf? (.number n) = some n.toBinary64 := rfl
    rw [Kind.convert?, if_pos hadmits, hvalue, Option.map_some, NumberRules.output_of_output houtput,
      houtput]
  | array items minItems maxItems =>
    obtain ⟨elements, outputs, rfl, rfl, hmin, hmax, houtputs⟩ := Kind.convert?_array.mp h
    rw [length_outputs houtputs] at hmin hmax
    refine Kind.convert?_array.mpr ⟨outputs, outputs, rfl, rfl, hmin, hmax, ?_⟩
    refine List.map_congr_left fun output houtput => ?_
    obtain ⟨element, -, hconvert⟩ := exists_of_mem_outputs houtputs houtput
    exact hparts items (List.mem_singleton_self _) hconvert
  | object fields =>
    have hd : Entries.Distinct fields := hd
    obtain ⟨values, outputs, rfl, rfl, houtputs⟩ := (Kind.convert?_object hd).mp h
    have hfirst := convertFields_eq_some _ fun e he => find?_of_convertFields hd houtputs he
    have hagain : ∀ e ∈ fields,
        e.2.convertField? (Entries.find? outputs e.1) = some (Entries.find? outputs e.1) := by
      intro e he
      rcases Validator.convertField?_cases (find?_of_convertFields hd houtputs he) with
        ⟨hnone, hmissing⟩ | ⟨x, y, hsome, hconvert⟩
      · rw [hnone, hmissing]
      · rw [hsome, e.2.convertField?_some, hparts e.2 (List.mem_map_of_mem he) hconvert]
        rfl
    have hsecond := convertFields_eq_some _ hagain
    refine (Kind.convert?_object hd).mpr ⟨outputs, outputs, rfl, rfl, ?_⟩
    exact hsecond.trans (hfirst.symm.trans houtputs)
  | union | tagged => exact nomatch hunion

end Steps

namespace Validator

variable {tags : String → Prop} {v : Validator} {x y : Json}

theorem keepsTags (hv : v.All (Separate tags)) : v.KeepsTags tags := by
  induction hv with
  | @intro v here _ ih =>
    obtain ⟨kind, optional, nullable, default, description⟩ := v
    intro x y h key hkey z hz
    rw [convert?_eq] at h
    split_ifs at h with hnull
    · obtain rfl := Option.some.inj h
      exact hz
    · exact Kind.keepsTags ih here h hkey hz

theorem reaccepts (hv : v.All (Separate tags)) : v.Reaccepts := by
  induction hv with
  | @intro v here inside ih =>
    obtain ⟨kind, optional, nullable, default, description⟩ := v
    intro x y dropped h hdropped
    have hkeeps : ∀ w ∈ kind.parts, w.KeepsTags tags := fun w hw => keepsTags (inside w hw)
    rw [convert?_eq] at h ⊢
    split_ifs with hagain
    · rfl
    · split_ifs at h with hnull
      · obtain rfl := Option.some.inj h
        rw [hdropped.eq_nil, Json.extend_nil] at hagain
        exact absurd hnull hagain
      · exact Kind.reaccepts ih hkeeps here h hdropped

theorem fixes (hv : v.All fun w => Entries.Distinct w.fields) (hunion : v.All (·.isUnion = false)) :
    v.Fixes := by
  induction hv with
  | @intro v here _ ih =>
    obtain ⟨kind, optional, nullable, default, description⟩ := v
    intro x y h
    rw [convert?_eq] at h ⊢
    split_ifs with hagain
    · rfl
    · split_ifs at h with hnull
      · obtain rfl := Option.some.inj h
        exact absurd hnull hagain
      · exact Kind.fixes (fun w hw => ih w hw (hunion.inside hw)) here hunion.here h

/-- Parsing an output succeeds, and gives the same output where there are no unions. -/
theorem parse_output (hv : v.All fun w => Entries.Distinct w.fields ∧
      ∀ key ∈ Entries.keys w.fields, ¬ v.Discriminates key) (h : v.parse x = .ok y) :
    (∃ z, v.parse y = .ok z) ∧ ((v.All fun w => w.isUnion = false) → v.parse y = .ok y) := by
  rw [parse_eq_ok] at h
  constructor
  · have hagain := reaccepts (hv.separate fun _ hfield => hfield) [] h (Json.dropped_nil x y)
    rw [Json.extend_nil] at hagain
    obtain ⟨z, hz⟩ := Option.isSome_iff_exists.mp hagain
    exact ⟨z, parse_eq_ok.mpr hz⟩
  · intro hunion
    exact parse_eq_ok.mpr (fixes (hv.mono fun _ h => h.1) hunion h)

theorem parse_output_sample :
    (noteUnion.All fun w => Entries.Distinct w.fields ∧
        ∀ key ∈ Entries.keys w.fields, ¬ noteUnion.Discriminates key) ∧
      (∃ z, noteUnion.parse
        (.object [("count", .integer 7), ("lang", .string "en"), ("kind", .string "note")]) = .ok z) ∧
      (object noteFields).parse (.object [("count", .integer 7), ("lang", .string "en")]) =
        .ok (.object [("count", .integer 7), ("lang", .string "en")]) := by
  have hunion : ∀ key ∈ Entries.keys noteFields, ¬ noteUnion.Discriminates key := fun key hkey =>
    not_discriminates (.intro (fun h => by
      obtain rfl : "kind" = key := Option.some.inj h
      exact absurd hkey (by decide)) (List.forall_mem_singleton.mpr (all_noteFields nofun nofun nofun)))
  have hseparate : noteUnion.All fun w => Entries.Distinct w.fields ∧
      ∀ key ∈ Entries.keys w.fields, ¬ noteUnion.Discriminates key :=
    .intro ⟨by decide, nofun⟩ (List.forall_mem_singleton.mpr
      (all_noteFields ⟨by decide, hunion⟩ ⟨by decide, nofun⟩ ⟨by decide, nofun⟩))
  have hplain : (object noteFields).All fun w => Entries.Distinct w.fields ∧
      ∀ key ∈ Entries.keys w.fields, ¬ (object noteFields).Discriminates key :=
    all_noteFields ⟨by decide, fun key _ => not_discriminates (all_noteFields nofun nofun nofun)⟩
      ⟨by decide, nofun⟩ ⟨by decide, nofun⟩
  exact ⟨hseparate, (parse_output hseparate parse_noteUnion).1,
    (parse_output hplain parse_noteFields).2 (all_noteFields rfl rfl rfl)⟩

end Validator
end Lexicon
