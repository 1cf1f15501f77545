import Lexicon.Config.File
import Lexicon.Proofs.Definition.Read

/-!
# The options that a configuration gives

A configuration that is read has one entry for each address (`Config.proper_of_load`). The options
that it gives have the policies of the configuration, and at each address what the entry there says
(`Config.options_eq_ok`).
-/

namespace Lexicon

theorem Entries.find?_of_mapM {ε α β : Type} {f : String → α → Except ε β} {entries : Entries α}
    {table : Entries β}
    (h : (entries.mapM fun (key, x) => do return (key, ← f key x)) = .ok table) :
    table.keys = entries.keys ∧ ∀ key, entries.find? key = none ∧ table.find? key = none ∨
      ∃ x y, entries.find? key = some x ∧ table.find? key = some y ∧ f key x = .ok y := by
  induction entries generalizing table with
  | nil =>
    obtain rfl : [] = table := Except.ok.inj h
    exact ⟨rfl, fun _ => .inl ⟨rfl, rfl⟩⟩
  | cons e rest ih =>
    obtain ⟨k, x⟩ := e
    rw [List.mapM_cons] at h
    obtain ⟨p, hp, h⟩ := bind_eq_ok.mp h
    obtain ⟨ps, hps, rfl⟩ := bind_pure_eq_ok.mp h
    obtain ⟨y, hy, rfl⟩ := bind_pure_eq_ok.mp hp
    obtain ⟨hkeys, hfind⟩ := ih hps
    refine ⟨congrArg (k :: ·) hkeys, fun key => ?_⟩
    rw [find?_cons, find?_cons]
    by_cases hk : k = key
    · rw [if_pos hk, if_pos hk]
      exact .inr ⟨x, y, rfl, rfl, hk ▸ hy⟩
    · rw [if_neg hk, if_neg hk]
      exact hfind key

theorem OptionTable.get?_ofList {pairs : List (Address × PathOptions)}
    (h : Entries.Distinct pairs) (a : Address) :
    (OptionTable.ofList pairs).get? a = Entries.find? pairs a := by
  have hfold : ∀ t : OptionTable, (pairs.foldl (fun t e => t.insert e.1 e.2) t).get? a =
      (Entries.find? pairs a).or (t.get? a) := by
    induction pairs with
    | nil => exact fun t => rfl
    | cons e rest ih =>
      intro t
      obtain ⟨k, o⟩ := e
      rw [List.foldl_cons, ih h.tail, get?_insert, Entries.find?_cons]
      split
      · rename_i hk
        rw [(Entries.find?_eq_none_iff rest a).mpr (hk ▸ (List.nodup_cons.mp h).1)]
        rfl
      · rfl
  rw [ofList, hfold]
  cases Entries.find? pairs a <;> rfl

theorem AddressConfig.distinct_metadata {x : Json} {entry : AddressConfig}
    (h : reader.ofJson x = .ok entry) :
    ∀ metadata ∈ entry.metadata?, Entries.Distinct metadata := by
  refine reader.ofJson_induct
    (P := fun entry => ∀ metadata ∈ entry.metadata?, Entries.Distinct metadata) nofun ?_ h
  intro s key x t hs ht
  simp only [reader] at ht
  split at ht
  · obtain ⟨_, _, rfl⟩ := bind_pure_eq_ok.mp ht
    exact hs
  · obtain ⟨_, _, rfl⟩ := bind_pure_eq_ok.mp ht
    exact hs
  · obtain ⟨o, ho, rfl⟩ := bind_pure_eq_ok.mp ht
    exact fun metadata hmetadata => (Read.entries_eq_ok (Read.optional_eq_ok ho hmetadata)).1
  · obtain ⟨_, _, rfl⟩ := bind_pure_eq_ok.mp ht
    exact hs
  · obtain ⟨_, _, rfl⟩ := bind_pure_eq_ok.mp ht
    exact hs
  · exact nomatch ht

namespace Config

/-- There is one entry for each address, and one value for each key of its metadata. -/
structure Proper (c : Config) : Prop where
  distinct : c.addresses.Distinct
  metadata : ∀ e ∈ c.addresses, ∀ metadata ∈ e.2.metadata?, Entries.Distinct metadata

section
variable {α : Type}

theorem sorted_sorted (entries : Entries α) : (sorted entries).Sorted := by
  have hfold : ∀ acc : Entries α, acc.Sorted →
      (entries.foldl (fun acc e => acc.put e.1 e.2) acc).Sorted := by
    induction entries with
    | nil => exact fun _ h => h
    | cons e rest ih => exact fun acc h => ih _ (Entries.sorted_put h e.1 e.2)
  exact hfold [] Entries.sorted_nil

theorem mem_of_mem_sorted {entries : Entries α} {e : String × α} (h : e ∈ sorted entries) :
    e ∈ entries := by
  have hfold : ∀ acc : Entries α, e ∈ entries.foldl (fun acc e => acc.put e.1 e.2) acc →
      e ∈ acc ∨ e ∈ entries := by
    clear h
    induction entries with
    | nil => exact fun _ h => .inl h
    | cons f rest ih =>
      intro acc h
      rcases ih _ h with h | h
      · rcases Entries.mem_of_mem_put h with rfl | h
        · exact .inr (List.mem_cons_self ..)
        · exact .inl h
      · exact .inr (List.mem_cons_of_mem _ h)
  exact (hfold [] h).resolve_left List.not_mem_nil

end

theorem proper_of_ofJson {x : Json} {c : Config} (h : ofJson x = .ok c) : c.Proper := by
  refine reader.ofJson_induct (P := Proper) ⟨List.nodup_nil, nofun⟩ ?_ h
  intro s key x t hs ht
  simp only [reader] at ht
  split at ht
  · obtain ⟨_, _, rfl⟩ := bind_pure_eq_ok.mp ht
    exact ⟨hs.distinct, hs.metadata⟩
  · obtain ⟨_, _, rfl⟩ := bind_pure_eq_ok.mp ht
    exact ⟨hs.distinct, hs.metadata⟩
  · obtain ⟨_, _, rfl⟩ := bind_pure_eq_ok.mp ht
    exact ⟨hs.distinct, hs.metadata⟩
  · obtain ⟨_, _, rfl⟩ := bind_pure_eq_ok.mp ht
    exact ⟨hs.distinct, hs.metadata⟩
  · obtain ⟨entries, hentries, rfl⟩ := bind_pure_eq_ok.mp ht
    refine ⟨(sorted_sorted entries).distinct, fun e he => ?_⟩
    obtain ⟨y, hy⟩ := (Read.entries_eq_ok hentries).2 e (mem_of_mem_sorted he)
    exact AddressConfig.distinct_metadata hy
  · exact nomatch ht

theorem proper_of_load {files : Files} {path : Path} {c : Config} (h : load files path = .ok c) :
    c.Proper := by
  obtain ⟨text, -, h⟩ := bind_eq_ok.mp h
  simp only [ofFile] at h
  split at h
  · cases h
  · split at h
    · cases h
    · rename_i read hread
      obtain rfl := Except.ok.inj h
      have hproper := proper_of_ofJson hread
      exact ⟨hproper.distinct, hproper.metadata⟩

/-- The options for an address say what its entry says. -/
theorem pathOptions_eq_ok {o : CompileOptions} {a : Address} {entry : AddressConfig}
    {given : PathOptions} (h : pathOptions o a entry = .ok given) :
    given.required? = entry.required? ∧ given.metadata? = entry.metadata? ∧
      (entry.omitted = false → entry.replacement? = none → given.override? = none) := by
  simp only [pathOptions, pure_bind] at h
  split at h
  · rename_i homitted
    obtain ⟨additional, -, rfl⟩ := bind_pure_eq_ok.mp h
    exact ⟨rfl, rfl, fun hfalse => absurd homitted (by simp [hfalse])⟩
  · split at h
    · obtain ⟨additional, -, rfl⟩ := bind_pure_eq_ok.mp h
      exact ⟨rfl, rfl, fun _ _ => rfl⟩
    · rename_i x hx
      obtain ⟨v, -, h⟩ := bind_eq_ok.mp h
      obtain ⟨additional, -, rfl⟩ := bind_pure_eq_ok.mp h
      exact ⟨rfl, rfl, fun _ hnone => absurd (hx.symm.trans hnone) (Option.some_ne_none x)⟩

def base (c : Config) (lexicons : Dictionary) (followRefs : Bool) : CompileOptions :=
  { followRefs, lexicons, cyclePolicy := c.cyclePolicy, constPolicy := c.constPolicy }

theorem options_eq_ok {c : Config} {lexicons : Dictionary} {followRefs : Bool} {o : CompileOptions}
    (hdistinct : c.addresses.Distinct) (h : c.options lexicons followRefs = .ok o) :
    o = { c.base lexicons followRefs with table := o.table } ∧
      ∀ a, c.addresses.find? a = none ∧ o.table.get? a = none ∨
        ∃ entry given, c.addresses.find? a = some entry ∧ o.table.get? a = some given ∧
          pathOptions (c.base lexicons followRefs) a entry = .ok given := by
  obtain ⟨table, htable, rfl⟩ := bind_pure_eq_ok.mp h
  obtain ⟨hkeys, hfind⟩ := Entries.find?_of_mapM htable
  refine ⟨rfl, fun a => ?_⟩
  have htable : Entries.Distinct table := by
    rw [Entries.Distinct, hkeys]
    exact hdistinct
  change _ ∧ (OptionTable.ofList table).get? a = none ∨ _
  rw [OptionTable.get?_ofList htable]
  exact hfind a

end Config
end Lexicon
