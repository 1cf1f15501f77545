import Mathlib
import Lexicon.Compile.Tables

/-!
# Runs of a compilation

`runOn` takes a compilation apart: each operation has one equation, and a run of two steps that
succeeds is a run of the first and then one of the second (`runOn_bind_eq_ok`). Everything that a
compilation reads of its options is read by `optionsAt`.
-/

namespace Lexicon.Compile

variable {α β : Type} {c : Compile α} {f : α → Compile β} {t t' : Tables}

def optionsAt (a : Address) : Compile PathOptions := return (← get).options.getD a

@[simp] theorem runOn_pure (x : α) : (pure x : Compile α).runOn t = (.ok x, t) := rfl

theorem runOn_bind (c : Compile α) (f : α → Compile β) (t : Tables) :
    (c >>= f).runOn t = match c.runOn t with
      | (.ok x, t') => (f x).runOn t'
      | (.error e, t') => (.error e, t') := by
  unfold runOn ExceptT.run StateT.run
  simp only [bind, ExceptT.bind, ExceptT.mk, StateT.bind]
  cases c t with
  | mk result t' => cases result <;> rfl

@[simp] theorem runOn_optionsAt (a : Address) :
    (optionsAt a).runOn t = (.ok (t.options.getD a), t) := rfl

@[simp] theorem runOn_override? (a : Address) :
    (override? a).runOn t = (.ok (t.options.override? a), t) := rfl

@[simp] theorem runOn_markRequired (a : Address) :
    (markRequired a).runOn t = (.ok (), { t with options := t.options.markRequired a }) := rfl

@[simp] theorem runOn_recordMetadata (a : Address) (entries : Entries Json) :
    (recordMetadata a entries).runOn t = (.ok (), { t with
      metadata := t.metadata.put a (((t.metadata.find? a).getD []).insertAll entries) }) := rfl

@[simp] theorem runOn_lift_ok (x : α) :
    (liftM (.ok x : Except CompileError α) : Compile α).runOn t = (.ok x, t) := rfl

theorem runOn_bind_eq_ok {y : β} :
    (c >>= f).runOn t = (.ok y, t') ↔
      ∃ x s, c.runOn t = (.ok x, s) ∧ (f x).runOn s = (.ok y, t') := by
  rw [runOn_bind]
  cases hc : c.runOn t with
  | mk result s =>
    cases result with
    | error e => simp
    | ok x =>
      constructor
      · exact fun h => ⟨x, s, rfl, h⟩
      · rintro ⟨_, _, hx, h⟩
        cases hx
        exact h

theorem runOn_bind_of_ok {x : α} {s : Tables} (h : c.runOn t = (.ok x, s)) :
    (c >>= f).runOn t = (f x).runOn s := by
  rw [runOn_bind, h]

theorem runOn_lift_eq_ok {x : Except CompileError α} {y : α} :
    (liftM x : Compile α).runOn t = (.ok y, t') ↔ x = .ok y ∧ t' = t := by
  cases x with
  | error e => exact iff_of_false nofun nofun
  | ok z =>
    simp only [runOn_lift_ok, Prod.mk.injEq]
    exact and_congr_right fun _ => eq_comm

/-- Two compilations that go on alike after every result of a lifted computation are the same. -/
theorem lift_bind_congr {x : Except CompileError α} {f g : α → Compile β}
    (h : ∀ y, x = .ok y → f y = g y) : (liftM x >>= f : Compile β) = liftM x >>= g := by
  cases x with
  | error e => rfl
  | ok y => exact h y rfl

theorem override?_eq (a : Address) :
    override? a = (optionsAt a >>= fun o => pure o.override?) := rfl

/-- Finishing a validator reads the options at the address once. -/
theorem extend_eq (v : Validator) (description : Option String) (default : Option Json)
    (a : Address) :
    extend v description default a = (do
      let o ← optionsAt a
      if let some metadata := o.metadata? then
        recordMetadata a metadata
      return { v.annotate description default with optional := o.required? != some true }) :=
  rfl

/-- A default changes nothing else of a validator that is finished. -/
theorem extend_some (v : Validator) (description : Option String) (x : Json) (a : Address) :
    extend v description (some x) a =
      (do return (← extend v description none a).withDefault x) := by
  rw [extend_eq, extend_eq, bind_assoc]
  congr
  funext o
  cases o.metadata? <;> rfl

/-- The compilation reads options, marks nodes and records metadata. It has no way to fail. -/
inductive Steady : {α : Type} → Compile α → Prop
  | pure {α : Type} (x : α) : Steady (pure x : Compile α)
  | bind {α β : Type} {c : Compile α} {f : α → Compile β} (hc : Steady c)
    (hf : ∀ x, Steady (f x)) : Steady (c >>= f)
  | optionsAt (a : Address) : Steady (optionsAt a)
  | markRequired (a : Address) : Steady (markRequired a)
  | recordMetadata (a : Address) (entries : Entries Json) : Steady (recordMetadata a entries)

namespace Steady

theorem override? (a : Address) : Steady (Compile.override? a) := by
  rw [override?_eq]
  exact .bind (.optionsAt a) fun o => .pure o.override?

theorem requireNode (a : Address) : Steady (Compile.requireNode a) := by
  refine .bind (.override? a) fun o => ?_
  split
  · exact .markRequired a
  · exact .pure ()

theorem extend (v : Validator) (description : Option String) (default : Option Json)
    (a : Address) : Steady (Compile.extend v description default a) := by
  rw [extend_eq]
  refine .bind (.optionsAt a) fun o => ?_
  cases o.metadata? with
  | none => exact .pure _
  | some metadata => exact .bind (.recordMetadata a metadata) fun _ => .pure _

theorem exists_ok {α : Type} {c : Compile α} (h : Steady c) (t : Tables) :
    ∃ x t', c.runOn t = (.ok x, t') := by
  induction h generalizing t with
  | pure x => exact ⟨x, t, rfl⟩
  | bind _ _ ih ih' =>
    obtain ⟨x, t', hx⟩ := ih t
    obtain ⟨y, t'', hy⟩ := ih' x t'
    exact ⟨y, t'', (runOn_bind_of_ok hx).trans hy⟩
  | optionsAt a => exact ⟨_, _, runOn_optionsAt a⟩
  | markRequired a => exact ⟨_, _, runOn_markRequired a⟩
  | recordMetadata a entries => exact ⟨_, _, runOn_recordMetadata a entries⟩

end Steady
end Lexicon.Compile
