import Lexicon.Proofs.Compile.Nodes
import Lexicon.Proofs.Compile.Places
import Lexicon.Proofs.Validator.TaggedUnions

/-!
# Branches of unions

A union that compiles has a branch for every reference that is not omitted, tagged with the
discriminator of the reference (`runOn_unionWith_iff`, `BranchRuns.isSome`). The id of a document
has no `#`, so different references have different discriminators (`Reference.discriminator_inj`),
and a value with a tag is accepted as by the branch of that tag alone (`tags_tell_apart`).
-/

namespace Lexicon

namespace Reference

variable {r r' : Reference} {text base : String}

theorem hash_not_mem_parse (text : String) : '#' ∉ (parse text).nsid.toList := by
  unfold parse
  dsimp only
  cases hcut : Text.cut? '#' (withoutScheme text.toList) with
  | none => simpa using (Text.cut?_eq_none_iff _ _).mp hcut
  | some cut =>
    obtain ⟨before, after⟩ := cut
    have hbefore := ((Text.cut?_eq_some_iff _ _ _ _).mp hcut).2
    cases after with
    | nil => simpa using hbefore
    | cons c rest => simpa using hbefore

theorem hash_not_mem_within (hbase : '#' ∉ base.toList) (text : String) :
    '#' ∉ ((parse text).within base).nsid.toList := by
  cases hlocal : (parse text).isLocal with
  | true => rwa [within_of_local hlocal]
  | false =>
    rw [within_of_not_local hlocal]
    exact hash_not_mem_parse text

theorem cut?_text (h : '#' ∉ r.nsid.toList) :
    Text.cut? '#' r.text.toList = some (r.nsid.toList, r.name.toList) := by
  rw [Text.cut?_eq_some_iff]
  refine ⟨?_, h⟩
  simp [text]

/-- The discriminator of a reference has a `#` unless it leads to the main definition. -/
theorem hash_mem_discriminator_iff (h : '#' ∉ r.nsid.toList) :
    '#' ∈ r.discriminator.toList ↔ r.name ≠ mainName := by
  unfold discriminator
  split
  · rename_i hname
    exact iff_of_false h (not_not.mpr hname)
  · rename_i hname
    exact iff_of_true (by simp [text]) hname

/-- Different references have different discriminators. -/
theorem discriminator_inj (h : '#' ∉ r.nsid.toList) (h' : '#' ∉ r'.nsid.toList) :
    r.discriminator = r'.discriminator ↔ r = r' := by
  refine ⟨fun heq => ?_, congrArg discriminator⟩
  have hmain : r.name ≠ mainName ↔ r'.name ≠ mainName := by
    rw [← hash_mem_discriminator_iff h, heq, hash_mem_discriminator_iff h']
  obtain ⟨nsid, name⟩ := r
  obtain ⟨nsid', name'⟩ := r'
  by_cases hname : name = mainName
  · obtain rfl : name' = mainName := not_not.mp fun hne => hmain.mpr hne hname
    subst hname
    rw [discriminator_main, discriminator_main] at heq
    rw [heq]
  · rw [discriminator, if_neg hname, discriminator, if_neg (hmain.mp hname)] at heq
    have hcut := cut?_text h
    rw [heq, cut?_text h', Option.some.injEq, Prod.mk.injEq, String.toList_inj,
      String.toList_inj] at hcut
    obtain ⟨rfl, rfl⟩ : nsid' = nsid ∧ name' = name := hcut
    rfl

end Reference

namespace Context

variable {ctx : Context} {reference : String} {refs : List String} {v : Option Validator}
  {vs : List (Option Validator)}

def tag (ctx : Context) (reference : String) : String := (ctx.qualify reference).discriminator

/-- The branches of a union whose references have the given validators. One that is omitted has
none. -/
def branches (ctx : Context) (refs : List String) (vs : List (Option Validator)) :
    List (String × Validator) :=
  (refs.zip vs).filterMap fun e => e.2.map (Prod.mk (ctx.tag e.1))

theorem branches_cons : ctx.branches (reference :: refs) (v :: vs) =
    (v.map (Prod.mk (ctx.tag reference))).toList ++ ctx.branches refs vs := by
  cases v <;> rfl

theorem keys_branches_sublist (ctx : Context) (refs : List String) (vs : List (Option Validator)) :
    (Entries.keys (ctx.branches refs vs)).Sublist (refs.map ctx.tag) := by
  induction refs generalizing vs with
  | nil => exact List.Sublist.refl _
  | cons reference rest ih =>
    cases vs with
    | nil => exact List.nil_sublist _
    | cons v others =>
      rw [branches_cons]
      cases v with
      | none => exact (ih others).cons _
      | some v => exact (ih others).cons_cons _

theorem mem_branches {i : Nat} {w : Validator} (hreference : refs[i]? = some reference)
    (hw : vs[i]? = some (some w)) : (ctx.tag reference, w) ∈ ctx.branches refs vs := by
  refine List.mem_filterMap.mpr ⟨(reference, some w), ?_, rfl⟩
  refine List.mem_of_getElem? (i := i) ?_
  rw [List.getElem?_zip_eq_some]
  exact ⟨hreference, hw⟩

/-- References that qualify to different ones have different tags. -/
theorem nodup_tags (hscope : ∀ r ∈ ctx.scope, '#' ∉ r.nsid.toList)
    (hrefs : (refs.map ctx.qualify).Nodup) : (refs.map ctx.tag).Nodup := by
  have hbase : '#' ∉ ctx.base.toList := by
    unfold base current?
    cases hhead : ctx.scope.head? with
    | none => simp
    | some r => exact hscope r (List.mem_of_mem_head? hhead)
  rw [List.Nodup, List.pairwise_map] at hrefs ⊢
  refine hrefs.imp fun hne heq => hne ?_
  exact (Reference.discriminator_inj (Reference.hash_not_mem_within hbase _)
    (Reference.hash_not_mem_within hbase _)).mp heq

end Context

open Context (branches_cons)

namespace Compile

variable {ctx : Context} {compiler : TypeCompiler} {s : UnionShape} {a : Address} {t t' : Tables}
  {w : Validator} {index : Nat} {refs : List String} {vs : List (Option Validator)}

inductive BranchRuns (ctx : Context) (a : Address) :
    Nat → List String → Tables → List (Option Validator) → Tables → Prop
  | nil {index : Nat} {t : Tables} : BranchRuns ctx a index [] t [] t
  | cons {index : Nat} {reference : String} {refs : List String} {t t₁ t' : Tables}
    {v : Option Validator} {vs : List (Option Validator)}
    (hfirst : (nodeWith unbounded ctx (.ref { target := reference }) (a.branch index)).runOn t =
      (.ok v, t₁))
    (hrest : BranchRuns ctx a (index + 1) refs t₁ vs t') :
    BranchRuns ctx a index (reference :: refs) t (v :: vs) t'

/-- There is a validator for every reference that is not omitted. -/
theorem BranchRuns.isSome (h : BranchRuns ctx a index refs t vs t') :
    vs.map Option.isSome =
      (List.range' index refs.length).map fun i => !t.options.omits (a.branch i) := by
  induction h with
  | nil => rfl
  | @cons index reference refs t t₁ t' v vs hfirst _ ih =>
    simp only [List.map_cons, List.length_cons, List.range'_succ, ih, omits_nodeWith hfirst,
      isSome_nodeWith hfirst]

theorem runOn_branchesWith_iff {branches : List (String × Validator)}
    (hcompiler : ctx.registry.require "ref" = .ok compiler) :
    (branchesWith unbounded ctx compiler a index refs).runOn t = (.ok branches, t') ↔
      ∃ vs, BranchRuns ctx a index refs t vs t' ∧ branches = ctx.branches refs vs := by
  induction refs generalizing index t branches with
  | nil =>
    constructor
    · intro hrun
      cases hrun
      exact ⟨[], .nil, rfl⟩
    · rintro ⟨vs, ⟨⟩, rfl⟩
      rfl
  | cons reference rest ih =>
    constructor
    · intro hrun
      obtain ⟨v, others, t₁, hfirst, hrest, rfl⟩ := runOn_branchesWith_cons hcompiler hrun
      obtain ⟨vs, hruns, rfl⟩ := ih.mp hrest
      exact ⟨v :: vs, .cons hfirst hruns, branches_cons.symm⟩
    · rintro ⟨_, @⟨⟩ | @⟨_, _, _, _, t₁, _, v, vs, hfirst, hruns⟩, rfl⟩
      have hrest := ih.mpr ⟨vs, hruns, rfl⟩
      rw [branchesWith, branchWith_eq_nodeWith hcompiler, runOn_bind_of_ok hfirst, branches_cons]
      cases v with
      | none => exact hrest
      | some v => exact runOn_bind_of_ok hrest

theorem runOn_unionWith_iff (hcompiler : ctx.registry.require "ref" = .ok compiler) :
    (unionWith unbounded ctx s a).runOn t = (.ok w, t') ↔
      ∃ vs, BranchRuns ctx a 0 s.refs t vs t' ∧
        w = .taggedUnion typeField (ctx.branches s.refs vs) s.closed := by
  rw [unionWith, hcompiler, runOn_bind_of_ok (runOn_lift_ok compiler), runOn_bind_eq_ok]
  constructor
  · rintro ⟨branches, t₁, hbranches, hw⟩
    cases hw
    obtain ⟨vs, hruns, rfl⟩ := (runOn_branchesWith_iff hcompiler).mp hbranches
    exact ⟨vs, hruns, rfl⟩
  · rintro ⟨vs, hruns, rfl⟩
    exact ⟨_, t', (runOn_branchesWith_iff hcompiler).mpr ⟨vs, hruns, rfl⟩, rfl⟩

theorem exists_of_runOn_unionWith (hrun : (unionWith unbounded ctx s a).runOn t = (.ok w, t')) :
    ∃ compiler, ctx.registry.require "ref" = .ok compiler := by
  obtain ⟨compiler, t₁, hlift, -⟩ := runOn_bind_eq_ok.mp hrun
  exact ⟨compiler, (runOn_lift_eq_ok.mp hlift).1⟩

theorem apply_union_eq (ctx : Context) (s : UnionShape) (a : Address) :
    ctx.apply (.union s) a (.node .union) = unionWith unbounded ctx s a :=
  unbounded_eq (.node .union) ctx (.union s) a

end Compile

open Compile (typeField)

/-- The branches of a union are told apart by their tags. References have the same discriminator
only if they are the same, so a union of different references has a tag for each branch of its own,
and a value with the tag of a branch is accepted as by that branch, whatever the others accept. -/
theorem tags_tell_apart :
    (∀ text text' base base' : String, '#' ∉ base.toList → '#' ∉ base'.toList →
      (((Reference.parse text).within base).discriminator =
          ((Reference.parse text').within base').discriminator ↔
        (Reference.parse text).within base = (Reference.parse text').within base')) ∧
    ∀ (ctx : Context) (s : UnionShape) (a : Address) (t t' : Tables) (w : Validator),
      (∀ r ∈ ctx.scope, '#' ∉ r.nsid.toList) → (s.refs.map ctx.qualify).Nodup →
      (ctx.apply (.union s) a (.node .union)).runOn t = (.ok w, t') →
      ∃ vs : List (Option Validator),
        vs.map Option.isSome =
          (List.range s.refs.length).map (fun i => !t.options.omits (a.branch i)) ∧
        w = .taggedUnion typeField (ctx.branches s.refs vs) s.closed ∧
        (Entries.keys (ctx.branches s.refs vs)).Nodup ∧
        ∀ (i : Nat) (reference : String) (v : Validator) (fields : Entries Json),
          s.refs[i]? = some reference → vs[i]? = some (some v) →
          fields.find? typeField = some (.string (ctx.tag reference)) →
          w.accepts (.object fields) = v.accepts (.object fields) := by
  refine ⟨fun text text' base base' hbase hbase' => ?_, fun ctx s a t t' w hscope hrefs hrun => ?_⟩
  · exact Reference.discriminator_inj (Reference.hash_not_mem_within hbase text)
      (Reference.hash_not_mem_within hbase' text')
  · rw [Compile.apply_union_eq] at hrun
    obtain ⟨compiler, hcompiler⟩ := Compile.exists_of_runOn_unionWith hrun
    obtain ⟨vs, hruns, rfl⟩ := (Compile.runOn_unionWith_iff hcompiler).mp hrun
    have hsome := hruns.isSome
    rw [← List.range_eq_range'] at hsome
    have hdistinct : (Entries.keys (ctx.branches s.refs vs)).Nodup :=
      (ctx.keys_branches_sublist s.refs vs).nodup (Context.nodup_tags hscope hrefs)
    refine ⟨vs, hsome, rfl, hdistinct, fun i reference v fields hreference hv htag => ?_⟩
    have hmem : (ctx.tag reference, v) ∈ ctx.branches s.refs vs :=
      Context.mem_branches hreference hv
    exact Validator.accepts_taggedUnion (Entries.find?_of_mem hdistinct hmem) htag

def ObjectShape.photo : ObjectShape Definition := { properties := [("title", .string {})] }

def ObjectShape.film : ObjectShape Definition where
  required := ["length"]
  properties := [("length", .integer {}), ("title", .string {})]

def Document.archive : Document where
  id := some "app.archive"
  defs := [("photo", .object .photo), ("film", .object .film)]

def Context.inArchive : Context where
  lexicons := [("app.archive", .archive)]
  scope := [⟨"app.archive", "main"⟩]

def UnionShape.work : UnionShape := { refs := ["#photo", "lex:app.archive#film"] }

/-- A film without a length is refused, though the first branch accepts the value. -/
theorem tags_tell_apart_work :
    ∃ w t, (Context.inArchive.apply (.union .work) "main.work" (.node .union)).runOn {} = (.ok w, t) ∧
      ∃ photo film : Validator, w = .taggedUnion typeField
        [("app.archive#photo", photo), ("app.archive#film", film)] false ∧
      photo.accepts (.object [("$type", .string "app.archive#film")]) = true ∧
      film.accepts (.object [("$type", .string "app.archive#film")]) = false ∧
      w.accepts (.object [("$type", .string "app.archive#film")]) = false := by
  obtain ⟨w, t, hrun, photo, film, hw, hphoto, hfilm⟩ : ∃ w t,
      (Context.inArchive.apply (.union .work) "main.work" (.node .union)).runOn {} = (.ok w, t) ∧
      ∃ photo film : Validator, w = .taggedUnion typeField
        [("app.archive#photo", photo), ("app.archive#film", film)] false ∧
      photo.accepts (.object [("$type", .string "app.archive#film")]) = true ∧
      film.accepts (.object [("$type", .string "app.archive#film")]) = false :=
    ⟨_, _, rfl, _, _, rfl, by decide +kernel, by decide +kernel⟩
  have hscope : ∀ r ∈ Context.inArchive.scope, '#' ∉ r.nsid.toList := by decide +kernel
  have hrefs : (UnionShape.work.refs.map Context.inArchive.qualify).Nodup := by decide +kernel
  obtain ⟨vs, hsome, hvs, -, haccepts⟩ :=
    tags_tell_apart.2 Context.inArchive .work "main.work" {} t w hscope hrefs hrun
  obtain ⟨photo', film', rfl⟩ : ∃ photo' film', vs = [some photo', some film'] := by
    rcases vs with _ | ⟨_ | photo', _ | ⟨_ | film', _ | ⟨_, _⟩⟩⟩
    all_goals first | exact ⟨_, _, rfl⟩ | exact nomatch hsome
  have hbranches : [photo', film'] = [photo, film] :=
    congrArg (fun w => w.branches.map Prod.snd) (hvs.symm.trans hw)
  obtain ⟨rfl, rfl⟩ : photo' = photo ∧ film' = film := by simpa using hbranches
  refine ⟨w, t, hrun, photo', film', hw, hphoto, hfilm, ?_⟩
  rw [← hfilm]
  exact haccepts 1 _ film' _ rfl rfl rfl

end Lexicon
