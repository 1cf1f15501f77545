import Lexicon.Proofs.Compile.Branches

/-!
# Leaving nodes out

Tables that omit nodes are read only at the addresses of these nodes (`Mirrors.overlooks`). An
object whose properties are omitted is therefore compiled like the object without them, and a union
whose branches are omitted keeps the others as they are (`BranchRuns.omitting`), since no two
properties and no two branches share addresses. `compile_omitting` states both.
-/

namespace Lexicon

open Address (IsPart Moves Within)

structure Tables.Omitting (t : Tables) (addresses : List Address) (t' : Tables) : Prop where
  metadata : t'.metadata = t.metadata
  omitted : ∀ q ∈ addresses, t'.options.override? q = some .omit
  options : ∀ q ∉ addresses, t'.options.get? q = t.options.get? q

namespace Tables.Omitting

variable {addresses : List Address} {a : Address} {t t' : Tables}

theorem getD (ht : t.Omitting addresses t') (ha : a ∉ addresses) :
    t'.options.getD a = t.options.getD a := by
  unfold OptionTable.getD
  rw [ht.options a ha]

theorem markRequired (ht : t.Omitting addresses t') (ha : a ∉ addresses) :
    Omitting { t with options := t.options.markRequired a } addresses
      { t' with options := t'.options.markRequired a } where
  metadata := ht.metadata
  omitted q hq := by
    have hne : a ≠ q := fun he => ha (he ▸ hq)
    rw [OptionTable.override?, OptionTable.getD_markRequired, if_neg hne]
    exact ht.omitted q hq
  options q hq := by
    rw [OptionTable.get?_markRequired, OptionTable.get?_markRequired, ht.getD ha, ht.options q hq]

end Tables.Omitting

/-- The second object is the first one without some properties. Whether it still says that these are
mandatory or nullable does not matter. -/
structure ObjectShape.Without (s : ObjectShape Definition) (keys : List String)
    (s' : ObjectShape Definition) : Prop where
  properties : s'.properties = s.properties.filter fun e => e.1 ∉ keys
  required : ∀ key ∉ keys, s'.required.contains key = s.required.contains key
  nullable : ∀ key ∉ keys, s'.nullable.contains key = s.nullable.contains key

namespace Compile

variable {α β : Type} {c c' : Compile α} {f f' : α → Compile β} {R : Address → Address → Prop}
  {addresses : List Address} {a p : Address} {ctx : Context} {t t' t₁ t₁' : Tables}

/-! ## Properties -/

/-- Where nodes are left out, the second compilation does what the first one does otherwise. -/
def Overlooks (addresses : List Address) (c c' : Compile α) : Prop :=
  ∀ t t', t.Omitting addresses t' →
    (c'.runOn t').1 = (c.runOn t).1 ∧ (c.runOn t).2.Omitting addresses (c'.runOn t').2

theorem overlooks_pure (x : α) : Overlooks addresses (pure x : Compile α) (pure x) :=
  fun _ _ ht => ⟨rfl, ht⟩

theorem overlooks_bind (hc : Overlooks addresses c c')
    (hf : ∀ x, Overlooks addresses (f x) (f' x)) : Overlooks addresses (c >>= f) (c' >>= f') := by
  intro t t' ht
  obtain ⟨hresult, hafter⟩ := hc t t' ht
  rw [runOn_bind, runOn_bind]
  cases hrun : c.runOn t with
  | mk result s =>
    cases hrun' : c'.runOn t' with
    | mk result' s' =>
      rw [hrun, hrun'] at hresult hafter
      obtain rfl : result' = result := hresult
      cases result' with
      | error e => exact ⟨rfl, hafter⟩
      | ok x => exact hf x s s' hafter

/-- A compilation that works elsewhere does not see what is left out. -/
theorem Mirrors.overlooks (h : Mirrors R c c') (hR : ∀ a b, R a b → a = b ∧ a ∉ addresses) :
    Overlooks addresses c c' := by
  induction h with
  | pure x => exact overlooks_pure x
  | throw e => exact fun _ _ ht => ⟨rfl, ht⟩
  | malformed h e =>
    obtain ⟨rfl, -⟩ := hR _ _ h
    exact fun _ _ ht => ⟨rfl, ht⟩
  | bind _ _ hc hf => exact overlooks_bind hc hf
  | optionsAt h =>
    obtain ⟨rfl, ha⟩ := hR _ _ h
    intro t t' ht
    rw [runOn_optionsAt, runOn_optionsAt, ht.getD ha]
    exact ⟨rfl, ht⟩
  | @requireNode a b h =>
    obtain ⟨rfl, ha⟩ := hR a b h
    intro t t' ht
    have hsame : t'.options.override? a = t.options.override? a := by
      rw [OptionTable.override?, ht.getD ha, OptionTable.override?]
    rw [runOn_requireNode, runOn_requireNode, hsame]
    refine ⟨rfl, ?_⟩
    by_cases hoverride : (t.options.override? a).isNone = true
    · rw [if_pos hoverride, if_pos hoverride]
      exact ht.markRequired ha
    · rw [if_neg hoverride, if_neg hoverride]
      exact ht
  | recordMetadata h entries =>
    obtain ⟨rfl, ha⟩ := hR _ _ h
    intro t t' ht
    refine ⟨rfl, ?_, ht.omitted, ht.options⟩
    rw [runOn_recordMetadata, runOn_recordMetadata, ht.metadata]

theorem overlooks_of_within (hapart : ∀ q ∈ addresses, ¬ Within p q)
    (h : Mirrors (Moves p p) c c') : Overlooks addresses c c' := by
  refine h.overlooks fun a b hab => ?_
  obtain ⟨rfl, hwithin⟩ := Address.moves_self_iff.mp hab
  exact ⟨rfl, fun ha => hapart a ha hwithin⟩

theorem runOn_nodeWith_of_omit {apply : Apply} {d : Definition}
    (h : t.options.override? a = some .omit) :
    (nodeWith apply ctx d a).runOn t = (.ok none, t) := by
  rw [nodeWith, runOn_bind_of_ok (runOn_override? a), h]
  rfl

/-- A property that is left out is passed over. -/
theorem runOn_fieldsWith_of_omit {apply : Apply} {s : ObjectShape Definition} {key : String}
    {d : Definition} {rest : List (String × Definition)}
    (h : t.options.override? (a.property key) = some .omit) :
    (fieldsWith apply ctx s a ((key, d) :: rest)).runOn t =
      (fieldsWith apply ctx s a rest).runOn t := by
  have hrequire : (if s.required.contains key then requireNode (a.property key) else pure () :
      Compile Unit).runOn t = (.ok (), t) := by
    split
    · exact runOn_requireNode_of_some h
    · rfl
  rw [fieldsWith_cons, runOn_bind_of_ok hrequire, runOn_bind_of_ok (runOn_nodeWith_of_omit h)]

section
variable {s s' : ObjectShape Definition} {keys : List String}
variable (hs : s.Without keys s') (hkeys : ∀ key ∈ keys, IsPart key)
include hs hkeys

theorem overlooks_fieldsWith {properties : List (String × Definition)}
    (hproperties : ∀ e ∈ properties, IsPart e.1) :
    Overlooks (keys.map a.property)
      (fieldsWith unbounded ctx s' a (properties.filter fun e => e.1 ∉ keys))
      (fieldsWith unbounded ctx s a properties) := by
  induction properties with
  | nil => exact overlooks_pure []
  | cons e rest ih =>
    obtain ⟨key, d⟩ := e
    have hrest := ih fun e he => hproperties e (List.mem_cons_of_mem _ he)
    by_cases hkey : key ∈ keys
    · rw [List.filter_cons_of_neg (by simpa using hkey)]
      intro t t' ht
      rw [runOn_fieldsWith_of_omit (ht.omitted _ (List.mem_map_of_mem hkey))]
      exact hrest t t' ht
    · have hpart := hproperties (key, d) (List.mem_cons_self ..)
      have hp : a.property key ≠ "" := Address.property_ne_of_key hpart.1 a
      have hapart : ∀ q ∈ keys.map a.property, ¬ Within (a.property key) q := by
        intro q hq hwithin
        obtain ⟨other, hother, rfl⟩ := List.mem_map.mp hq
        obtain rfl : key = other :=
          hpart.eq_of_within (hkeys other hother) hwithin (Address.within_self _)
        exact hkey hother
      have hbase := Address.moves_base (a.property key) (a.property key)
      rw [List.filter_cons_of_pos (by simpa using hkey), fieldsWith_cons, fieldsWith_cons,
        hs.required key hkey, hs.nullable key hkey]
      refine overlooks_bind ?_ fun _ => overlooks_bind ?_ fun v => ?_
      · split
        · exact overlooks_of_within hapart (.requireNode hbase)
        · exact overlooks_pure ()
      · refine overlooks_of_within hapart (mirrors_self (closed_moves hp hp) ?_ ctx d hbase)
        exact fun _ _ h => (Address.moves_self_iff.mp h).1
      · cases v with
        | none => exact hrest
        | some v => exact overlooks_bind hrest fun _ => overlooks_pure _

/-- An object without some properties is compiled like the one where they are omitted. -/
theorem overlooks_objectWith (hproperties : ∀ e ∈ s.properties, IsPart e.1) :
    Overlooks (keys.map a.property) (objectWith unbounded ctx s' a)
      (objectWith unbounded ctx s a) := by
  have ha : a ∉ keys.map a.property := by
    intro hmem
    obtain ⟨key, hkey, heq⟩ := List.mem_map.mp hmem
    exact (hkeys key hkey).property_ne_self a heq
  rw [objectWith_eq, objectWith_eq, hs.properties]
  refine overlooks_bind (overlooks_fieldsWith hs hkeys hproperties) fun fields => ?_
  refine overlooks_bind (fun t t' ht => ?_) fun o => overlooks_pure _
  rw [runOn_optionsAt, runOn_optionsAt, ht.getD ha]
  exact ⟨rfl, ht⟩

end

theorem apply_object_eq_objectWith (ctx : Context) (s : ObjectShape Definition) (a : Address) :
    ctx.apply (.object s) a (.node .object) = objectWith unbounded ctx s a :=
  unbounded_eq (.node .object) ctx (.object s) a

/-! ## Branches -/

structure Spares (positions : List Nat) (a : Address) (index : Nat) (t t' : Tables) : Prop where
  omitted : ∀ i ∈ positions, index ≤ i → t'.options.override? (a.branch i) = some .omit
  others : ∀ i ∉ positions, index ≤ i → Corresponds (Moves (a.branch i) (a.branch i)) t t'

section
variable {positions : List Nat} {index : Nat}

theorem Spares.of_omitting (ht : t.Omitting (positions.map a.branch) t') :
    Spares positions a 0 t t' where
  omitted i hi _ := ht.omitted _ (List.mem_map_of_mem hi)
  others i hi _ q q' hq := by
    obtain ⟨rfl, hwithin⟩ := Address.moves_self_iff.mp hq
    have hmem : q ∉ positions.map a.branch := by
      intro hmem
      obtain ⟨j, hj, rfl⟩ := List.mem_map.mp hmem
      obtain rfl := Address.eq_of_within_branch hwithin (Address.within_self _)
      exact hi hj
    rw [ht.options q hmem, ht.metadata]
    exact ⟨rfl, rfl⟩

/-- A branch leaves the tables of those after it as they are. -/
theorem Spares.after (h : Spares positions a index t t')
    (heffect : Effect (Within (a.branch index)) t t₁)
    (heffect' : Effect (Within (a.branch index)) t' t₁') : Spares positions a (index + 1) t₁ t₁' where
  omitted i hi hle := by
    rw [heffect'.override?]
    exact h.omitted i hi (by omega)
  others i hi hle q q' hq := by
    obtain ⟨rfl, hwithin⟩ := Address.moves_self_iff.mp hq
    have hapart : ¬ Within (a.branch index) q := by
      intro hindex
      have := Address.eq_of_within_branch hindex hwithin
      omega
    rw [heffect.options q hapart, heffect'.options q hapart, heffect.metadata q hapart,
      heffect'.metadata q hapart]
    exact h.others i hi (by omega) q q hq

/-- The branches that are not omitted get the same validators. -/
theorem BranchRuns.omitting {refs : List String} {vs : List (Option Validator)}
    (h : BranchRuns ctx a index refs t vs t₁) (ht : Spares positions a index t t') :
    ∃ t₁', BranchRuns ctx a index refs t'
      (vs.mapIdx fun i v => if index + i ∈ positions then none else v) t₁' := by
  induction h generalizing t' with
  | nil => exact ⟨t', .nil⟩
  | @cons index reference refs t t₁ _ v vs hfirst _ ih =>
    have hp : a.branch index ≠ "" := Address.property_ne_of_key (by simp [Address.branchMark]) a
    have hmirrors := mirrors_self (closed_moves hp hp)
      (fun _ _ h => (Address.moves_self_iff.mp h).1) ctx (.ref { target := reference })
      (Address.moves_base _ _)
    have heffect : ∀ s : Tables, Effect (Within (a.branch index)) s
        ((nodeWith unbounded ctx (.ref { target := reference }) (a.branch index)).runOn s).2 :=
      fun s => (hmirrors.effect s).mono fun _ => Address.exists_moves_iff.mp
    have hbase := heffect t
    rw [hfirst] at hbase
    have hnext : (fun i (v : Option Validator) => if index + (i + 1) ∈ positions then none else v) =
        fun i v => if index + 1 + i ∈ positions then none else v := by
      funext i v
      rw [Nat.add_right_comm, Nat.add_assoc]
    rw [List.mapIdx_cons, Nat.add_zero, hnext]
    by_cases hindex : index ∈ positions
    · rw [if_pos hindex]
      obtain ⟨t₁', hruns⟩ := ih (ht.after hbase (.refl _ t'))
      exact ⟨t₁', .cons (runOn_nodeWith_of_omit (ht.omitted index hindex le_rfl)) hruns⟩
    · rw [if_neg hindex]
      have hresult := (hmirrors.run (Address.moves_biUnique _ _) (ht.others index hindex le_rfl)).1
      have hafter := heffect t'
      cases hrun :
        (nodeWith unbounded ctx (.ref { target := reference }) (a.branch index)).runOn t' with
      | mk result t₂ =>
        rw [hfirst, hrun] at hresult
        rw [hrun] at hafter
        cases hresult
        obtain ⟨t₁', hruns⟩ := ih (ht.after hbase hafter)
        exact ⟨t₁', .cons hrun hruns⟩

end
end Compile

open Compile (typeField)

/-- Omission removes what is omitted and nothing else. An object whose properties are omitted at
some keys has the result, the metadata and the options of the object without these properties, but
for the options that omit them. A union that compiles keeps all branches that are not omitted, in
order and with the same tags and validators. -/
theorem compile_omitting :
    (∀ (ctx : Context) (s s' : ObjectShape Definition) (a : Address) (keys : List String)
        (t t' : Tables),
      (∀ e ∈ s.properties, IsPart e.1) → (∀ key ∈ keys, IsPart key) → s.Without keys s' →
      t.Omitting (keys.map a.property) t' →
      ((ctx.apply (.object s) a (.node .object)).runOn t').1 =
          ((ctx.apply (.object s') a (.node .object)).runOn t).1 ∧
        ((ctx.apply (.object s') a (.node .object)).runOn t).2.Omitting (keys.map a.property)
          ((ctx.apply (.object s) a (.node .object)).runOn t').2) ∧
    ∀ (ctx : Context) (s : UnionShape) (a : Address) (positions : List Nat) (t t' t₁ : Tables)
        (w : Validator),
      t.Omitting (positions.map a.branch) t' →
      (ctx.apply (.union s) a (.node .union)).runOn t = (.ok w, t₁) →
      ∃ vs : List (Option Validator),
        vs.map Option.isSome =
          (List.range s.refs.length).map (fun i => !t.options.omits (a.branch i)) ∧
        w = .taggedUnion typeField (ctx.branches s.refs vs) s.closed ∧
        ((ctx.apply (.union s) a (.node .union)).runOn t').1 = .ok (.taggedUnion typeField
          (ctx.branches s.refs (vs.mapIdx fun i v => if i ∈ positions then none else v)) s.closed) := by
  constructor
  · intro ctx s s' a keys t t' hproperties hkeys hs ht
    rw [Compile.apply_object_eq_objectWith, Compile.apply_object_eq_objectWith]
    exact Compile.overlooks_objectWith hs hkeys hproperties t t' ht
  · intro ctx s a positions t t' t₁ w ht hrun
    rw [Compile.apply_union_eq] at hrun ⊢
    obtain ⟨compiler, hcompiler⟩ := Compile.exists_of_runOn_unionWith hrun
    obtain ⟨vs, hruns, rfl⟩ := (Compile.runOn_unionWith_iff hcompiler).mp hrun
    have hsome := hruns.isSome
    rw [← List.range_eq_range'] at hsome
    obtain ⟨t₁', hruns'⟩ := hruns.omitting (.of_omitting ht)
    simp only [Nat.zero_add] at hruns'
    refine ⟨vs, hsome, rfl, ?_⟩
    rw [(Compile.runOn_unionWith_iff hcompiler).mpr ⟨_, hruns', rfl⟩]

def Tables.leavingOut (a : Address) : Tables where
  options := .ofList [(a, { override? := some .omit })]

theorem Tables.omitting_leavingOut (a : Address) : Omitting {} [a] (leavingOut a) where
  metadata := rfl
  omitted q hq := by
    obtain rfl := List.mem_singleton.mp hq
    simp [leavingOut, OptionTable.ofList, OptionTable.override?, OptionTable.getD,
      OptionTable.get?_insert]
  options q hq := by
    have hne : a ≠ q := fun he => hq (he ▸ List.mem_singleton_self a)
    simp [leavingOut, OptionTable.ofList, OptionTable.get?_insert, hne]

/-- A film whose length is omitted is a photo, and without photos a work is a film. -/
theorem compile_omitting_film :
    (∃ v, ((Context.inArchive.apply (.object .film) "main" (.node .object)).runOn
          (.leavingOut "main.length")).1 = .ok v ∧
        ((Context.inArchive.apply (.object .photo) "main" (.node .object)).runOn {}).1 = .ok v) ∧
      ∃ film, ((Context.inArchive.apply (.union .work) "main" (.node .union)).runOn
        (.leavingOut "main.__union__.0")).1 =
          .ok (.taggedUnion typeField [("app.archive#film", film)] false) := by
  have hfilm : ∀ e ∈ ObjectShape.film.properties, IsPart e.1 := by
    simp [ObjectShape.film, IsPart]
  have hlength : ∀ key ∈ ["length"], IsPart key := by simp [IsPart]
  have hwithout : ObjectShape.film.Without ["length"] .photo := by
    constructor <;> simp [ObjectShape.film, ObjectShape.photo]
  obtain ⟨hobject, -⟩ := compile_omitting.1 Context.inArchive .film .photo "main" ["length"] {}
    (.leavingOut "main.length") hfilm hlength hwithout (Tables.omitting_leavingOut _)
  obtain ⟨v, t, hphoto⟩ : ∃ v t,
      (Context.inArchive.apply (.object .photo) "main" (.node .object)).runOn {} = (.ok v, t) :=
    ⟨_, _, rfl⟩
  obtain ⟨w, t', hunion⟩ : ∃ w t',
      (Context.inArchive.apply (.union .work) "main" (.node .union)).runOn {} = (.ok w, t') :=
    ⟨_, _, rfl⟩
  obtain ⟨vs, hsome, -, hkept⟩ := compile_omitting.2 Context.inArchive .work "main" [0] {}
    (.leavingOut "main.__union__.0") t' w (Tables.omitting_leavingOut _) hunion
  obtain ⟨photo, film, rfl⟩ : ∃ photo film, vs = [some photo, some film] := by
    rcases vs with _ | ⟨_ | photo, _ | ⟨_ | film, _ | ⟨_, _⟩⟩⟩
    all_goals first | exact ⟨_, _, rfl⟩ | cases hsome
  have hvs : ([some photo, some film].mapIdx fun i v => if i ∈ [0] then none else v) =
      [none, some film] := by simp
  have htag : Context.inArchive.tag "lex:app.archive#film" = "app.archive#film" := by decide +kernel
  rw [hvs] at hkept
  rw [hphoto] at hobject
  refine ⟨⟨v, hobject, congrArg Prod.fst hphoto⟩, film, ?_⟩
  rw [← htag]
  exact hkept

end Lexicon
