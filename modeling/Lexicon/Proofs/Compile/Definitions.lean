import Lexicon.Proofs.Compile.Document
import Lexicon.Proofs.Compile.Effects

/-!
# Top-level definitions are compiled apart

Names without a dot share no addresses, so each definition of a document compiles as it would by
itself on the tables at the start, and at its addresses the tables at the end hold what it leaves
there (`compiles_definitions`). If every definition compiles by itself, the document compiles
(`exists_definitions`).
-/

namespace Lexicon

open Address (IsPart Moves Within)

namespace Compile

variable {ctx : Context} {dict : Dictionary} {nsid name : String} {e : String × Definition}
  {t t' s : Tables}

def definitionAt (ctx : Context) (nsid : String) (e : String × Definition) :
    Compile (Option Compiled) := do
  match ← override? e.1 with
  | some .omit => return none
  | some (.replace v) => return some (.schema v)
  | none => return some (← (ctx.enter ⟨nsid, e.1⟩).compileDefinition e.2 e.1)

theorem definitions_cons (e : String × Definition) (rest : List (String × Definition)) :
    definitions ctx nsid (e :: rest) = (do
      let c ← definitionAt ctx nsid e
      let compiled ← definitions ctx nsid rest
      return (c.map (Prod.mk e.1)).toList ++ compiled) := by
  rw [definitionAt, bind_assoc, definitions]
  congr
  funext o
  rcases o with _ | _ | v
  · rw [bind_assoc]
    rfl
  · exact (bind_pure _).symm
  · rfl

theorem mirrors_definitionAt {R : Address → Address → Prop} (nsid : String) (hR : Closed R)
    (hdict : ctx.lexicons.Alike dict) (h : R e.1 e.1) :
    Mirrors R (definitionAt ctx nsid e) (definitionAt (ctx.reading dict) nsid e) := by
  refine .bind (.override? h) fun o => ?_
  rcases o with _ | _ | v
  · rw [Context.compileDefinition_eq, Context.compileDefinition_eq]
    have hinner : (ctx.enter ⟨nsid, e.1⟩).lexicons.Alike dict := hdict
    exact .map some
      (mirrors_definitionWith (mirrors_unbounded hR) hinner (.inl (List.cons_ne_nil _ _)) hR h)
  · exact .pure none
  · exact .pure (some (Compiled.schema v))

theorem mirrors_definitions {R : Address → Address → Prop} (nsid : String) (hR : Closed R)
    (hdict : ctx.lexicons.Alike dict) {defs : Entries Definition} (h : ∀ e ∈ defs, R e.1 e.1) :
    Mirrors R (definitions ctx nsid defs) (definitions (ctx.reading dict) nsid defs) := by
  induction defs with
  | nil => exact .pure []
  | cons e rest ih =>
    rw [definitions_cons, definitions_cons]
    exact .bind (mirrors_definitionAt nsid hR hdict (h e (List.mem_cons_self ..))) fun _ =>
      .map _ (ih fun e' he' => h e' (List.mem_cons_of_mem _ he'))

/-- Whatever the names of the definitions are, compiling them only makes nodes mandatory. -/
theorem marked_definitions {defs : Entries Definition} {compiled : Entries Compiled}
    (hrun : (definitions ctx nsid defs).runOn t = (.ok compiled, t')) (q : Address) :
    PathOptions.Marked (t.options.get? q) (t'.options.get? q) := by
  have hsame : ctx.lexicons.Alike ctx.lexicons := fun _ => rfl
  have hmirrors : Mirrors Eq (definitions ctx nsid defs) (definitions ctx nsid defs) :=
    mirrors_definitions nsid (fun _ _ key h => congrArg (Address.property · key) h) hsame
      fun _ _ => rfl
  have heffect := hmirrors.effect t
  rw [hrun] at heffect
  exact heffect.marked q

theorem effect_definitionAt (ctx : Context) (nsid : String) (hname : e.1 ≠ "") (t : Tables) :
    Effect (Within e.1) t ((definitionAt ctx nsid e).runOn t).2 := by
  have hsame : ctx.lexicons.Alike ctx.lexicons := fun _ => rfl
  have hmirrors := mirrors_definitionAt nsid (closed_moves hname hname) hsame
    (Address.moves_base e.1 e.1)
  exact (hmirrors.effect t).mono fun _ => Address.exists_moves_iff.mp

/-- A definition reads nothing but the tables at its own addresses. -/
theorem definitionAt_congr (nsid : String) (hname : e.1 ≠ "")
    (hdict : ctx.lexicons.Alike dict) (ht : Corresponds (Moves e.1 e.1) t t') :
    ((definitionAt ctx nsid e).runOn t).1 = ((definitionAt (ctx.reading dict) nsid e).runOn t').1 ∧
      Corresponds (Moves e.1 e.1) ((definitionAt ctx nsid e).runOn t).2
        ((definitionAt (ctx.reading dict) nsid e).runOn t').2 := by
  obtain ⟨hresult, hafter⟩ := (mirrors_definitionAt nsid (closed_moves hname hname) hdict
    (Address.moves_base e.1 e.1)).run (Address.moves_biUnique e.1 e.1) ht
  refine ⟨?_, hafter⟩
  generalize ((definitionAt ctx nsid e).runOn t).1 = left at hresult
  generalize ((definitionAt (ctx.reading dict) nsid e).runOn t').1 = right at hresult
  cases hresult with
  | same => rfl
  | malformed h _ => rw [(Address.moves_self_iff.mp h).1]

theorem corresponds_self_iff {p : Address} :
    Corresponds (Moves p p) t t' ↔ ∀ q, Within p q →
      t.options.get? q = t'.options.get? q ∧ t.metadata.find? q = t'.metadata.find? q := by
  constructor
  · exact fun h q hq => h q q (Address.moves_self_iff.mpr ⟨rfl, hq⟩)
  · intro h q q' hmoves
    obtain ⟨rfl, hq⟩ := Address.moves_self_iff.mp hmoves
    exact h q hq

theorem Corresponds.refl {p : Address} (t : Tables) : Corresponds (Moves p p) t t :=
  corresponds_self_iff.mpr fun _ _ => ⟨rfl, rfl⟩

theorem Corresponds.trans_self {p : Address} (h : Corresponds (Moves p p) t t')
    (h' : Corresponds (Moves p p) t' s) : Corresponds (Moves p p) t s :=
  corresponds_self_iff.mpr fun q hq =>
    ⟨(corresponds_self_iff.mp h q hq).1.trans (corresponds_self_iff.mp h' q hq).1,
      (corresponds_self_iff.mp h q hq).2.trans (corresponds_self_iff.mp h' q hq).2⟩

theorem Corresponds.symm_self {p : Address} (h : Corresponds (Moves p p) t t') :
    Corresponds (Moves p p) t' t :=
  corresponds_self_iff.mpr fun q hq =>
    ⟨(corresponds_self_iff.mp h q hq).1.symm, (corresponds_self_iff.mp h q hq).2.symm⟩

/-- What a compilation does elsewhere is not seen. -/
theorem Effect.corresponds {M : Address → Prop} {p : Address} (h : Effect M t t')
    (hM : ∀ q, Within p q → ¬ M q) : Corresponds (Moves p p) t t' :=
  corresponds_self_iff.mpr fun q hq => ⟨(h.options q (hM q hq)).symm, (h.metadata q (hM q hq)).symm⟩

structure Compiles (ctx : Context) (nsid : String) (defs : Entries Definition) (t : Tables)
    (compiled : Entries Compiled) (t' : Tables) : Prop where
  /-- At its addresses a definition leaves what it would leave by itself. -/
  each : ∀ e ∈ defs, ∃ s, (definitionAt ctx nsid e).runOn t = (.ok (compiled.find? e.1), s) ∧
    Corresponds (Moves e.1 e.1) s t'
  /-- They come in the order of the definitions, less the omitted ones. -/
  entries : compiled = defs.filterMap fun e => (compiled.find? e.1).map (Prod.mk e.1)
  effect : Effect (fun q => ∃ e ∈ defs, Within e.1 q) t t'

theorem Compiles.keys {defs : Entries Definition} {compiled : Entries Compiled}
    (h : Compiles ctx nsid defs t compiled t') : ∀ name ∈ compiled.keys, name ∈ defs.keys := by
  intro name hname
  rw [h.entries] at hname
  obtain ⟨_, hmem, rfl⟩ := List.mem_map.mp hname
  obtain ⟨e, he, hfound⟩ := List.mem_filterMap.mp hmem
  obtain ⟨c, -, rfl⟩ := Option.map_eq_some_iff.mp hfound
  exact List.mem_map_of_mem he

section
variable {e : String × Definition} {rest : Entries Definition}
  (hdistinct : Entries.Distinct (e :: rest)) (hparts : ∀ e' ∈ e :: rest, IsPart e'.1)
include hdistinct hparts

/-- The first of some definitions shares no address with another one. -/
theorem not_within_head {e' : String × Definition} (he' : e' ∈ rest) {q : Address}
    (h' : Within e'.1 q) : ¬ Within e.1 q := fun h =>
  Entries.ne_of_distinct_cons hdistinct he' (Address.eq_of_within
    (hparts e' (List.mem_cons_of_mem _ he')).2 (hparts e (List.mem_cons_self ..)).2 h' h)

/-- The others do not see what the first one has done. -/
theorem definitionAt_after (ctx : Context) (nsid : String) {e' : String × Definition}
    (he' : e' ∈ rest) (t : Tables) :
    ((definitionAt ctx nsid e').runOn t).1 =
        ((definitionAt ctx nsid e').runOn ((definitionAt ctx nsid e).runOn t).2).1 ∧
      Corresponds (Moves e'.1 e'.1) ((definitionAt ctx nsid e').runOn t).2
        ((definitionAt ctx nsid e').runOn ((definitionAt ctx nsid e).runOn t).2).2 := by
  have heffect := effect_definitionAt ctx nsid (hparts e (List.mem_cons_self ..)).1 t
  have hsame : ctx.lexicons.Alike ctx.lexicons := fun _ => rfl
  exact definitionAt_congr nsid (hparts e' (List.mem_cons_of_mem _ he')).1 hsame
    (heffect.corresponds fun q hq => not_within_head hdistinct hparts he' hq)

end

theorem find?_placed {α : Type} (name : String) (c : Option α) (key : String) :
    Entries.find? (c.map (Prod.mk name)).toList key = if name = key then c else none := by
  cases c with
  | none => exact (ite_self none).symm
  | some c => rfl

/-- A definition that compiles in front of others, whose names are different. -/
theorem Compiles.cons {e : String × Definition} {rest : Entries Definition} {c : Option Compiled}
    {tail : Entries Compiled} (hdistinct : Entries.Distinct (e :: rest))
    (hparts : ∀ e' ∈ e :: rest, IsPart e'.1)
    (hfirst : (definitionAt ctx nsid e).runOn t = (.ok c, s))
    (hrest : Compiles ctx nsid rest s tail t') :
    Compiles ctx nsid (e :: rest) t ((c.map (Prod.mk e.1)).toList ++ tail) t' := by
  have hname : Entries.find? tail e.1 = none := by
    rw [Entries.find?_eq_none_iff]
    intro hmem
    obtain ⟨e', he', hname⟩ := List.mem_map.mp (hrest.keys e.1 hmem)
    exact Entries.ne_of_distinct_cons hdistinct he' hname
  have hhead : Entries.find? ((c.map (Prod.mk e.1)).toList ++ tail) e.1 = c := by
    rw [Entries.find?_append, find?_placed, if_pos rfl, hname, Option.or_none]
  have hother : ∀ e' ∈ rest,
      Entries.find? ((c.map (Prod.mk e.1)).toList ++ tail) e'.1 = Entries.find? tail e'.1 := by
    intro e' he'
    rw [Entries.find?_append, find?_placed,
      if_neg (Entries.ne_of_distinct_cons hdistinct he').symm, Option.none_or]
  constructor
  · intro e' he'
    rcases List.mem_cons.mp he' with rfl | he'
    · rw [hhead]
      refine ⟨s, hfirst, hrest.effect.corresponds ?_⟩
      rintro q hq ⟨e'', he'', hq'⟩
      exact not_within_head hdistinct hparts he'' hq' hq
    · rw [hother e' he']
      obtain ⟨s', hafter, hagree⟩ := hrest.each e' he'
      obtain ⟨hresult, hcorresponds⟩ := definitionAt_after hdistinct hparts ctx nsid he' t
      rw [hfirst, hafter] at hresult hcorresponds
      exact ⟨((definitionAt ctx nsid e').runOn t).2, Prod.ext hresult rfl,
        hcorresponds.trans_self hagree⟩
  · have hlist : (rest.filterMap fun e' =>
        (Entries.find? ((c.map (Prod.mk e.1)).toList ++ tail) e'.1).map (Prod.mk e'.1)) = tail := by
      rw [List.filterMap_congr fun e' he' => by rw [hother e' he']]
      exact hrest.entries.symm
    rw [List.filterMap_cons, hhead, hlist]
    cases c <;> rfl
  · have heffect := effect_definitionAt ctx nsid (hparts e (List.mem_cons_self ..)).1 t
    rw [hfirst] at heffect
    refine (heffect.mono fun q hq => ?_).trans (hrest.effect.mono fun q hq => ?_)
    · exact ⟨e, List.mem_cons_self .., hq⟩
    · obtain ⟨e', he', hq⟩ := hq
      exact ⟨e', List.mem_cons_of_mem _ he', hq⟩

theorem compiles_definitions {defs : Entries Definition} {compiled : Entries Compiled}
    (hdistinct : defs.Distinct) (hparts : ∀ e ∈ defs, IsPart e.1)
    (hrun : (definitions ctx nsid defs).runOn t = (.ok compiled, t')) :
    Compiles ctx nsid defs t compiled t' := by
  induction defs generalizing t compiled with
  | nil =>
    cases hrun
    exact ⟨nofun, rfl, .refl _ _⟩
  | cons e rest ih =>
    rw [definitions_cons] at hrun
    obtain ⟨c, s, hfirst, hrun⟩ := runOn_bind_eq_ok.mp hrun
    obtain ⟨tail, s', hrest, hcompiled⟩ := runOn_bind_eq_ok.mp hrun
    cases hcompiled
    exact .cons hdistinct hparts hfirst
      (ih hdistinct.tail (fun e' he' => hparts e' (List.mem_cons_of_mem _ he')) hrest)

theorem exists_definitions {defs : Entries Definition} (hdistinct : defs.Distinct)
    (hparts : ∀ e ∈ defs, IsPart e.1)
    (h : ∀ e ∈ defs, ∃ c s, (definitionAt ctx nsid e).runOn t = (.ok c, s)) :
    ∃ compiled t', (definitions ctx nsid defs).runOn t = (.ok compiled, t') := by
  induction defs generalizing t with
  | nil => exact ⟨[], t, rfl⟩
  | cons e rest ih =>
    obtain ⟨c, s, hfirst⟩ := h e (List.mem_cons_self ..)
    obtain ⟨tail, t', hrest⟩ : ∃ tail t', (definitions ctx nsid rest).runOn s = (.ok tail, t') := by
      refine ih hdistinct.tail (fun e' he' => hparts e' (List.mem_cons_of_mem _ he')) ?_
      intro e' he'
      obtain ⟨c', s', hrun⟩ := h e' (List.mem_cons_of_mem _ he')
      have hresult := (definitionAt_after hdistinct hparts ctx nsid he' t).1
      rw [hfirst, hrun] at hresult
      exact ⟨c', ((definitionAt ctx nsid e').runOn s).2, Prod.ext hresult.symm rfl⟩
    refine ⟨(c.map (Prod.mk e.1)).toList ++ tail, t', ?_⟩
    rw [definitions_cons, runOn_bind_of_ok hfirst, runOn_bind_of_ok hrest]
    rfl

end Compile
end Lexicon
