import Mathlib
import Lexicon.Registry

/-!
# Registries under an overlay

An overlay replaces compilers and adds new ones, so a tag that has a compiler keeps one.
-/

namespace Lexicon.Registry

variable {r overrides : Registry} {tag : String}

theorem overlaid_induct {P : Registry → Prop} (hr : P r)
    (hregister : ∀ r tag c, P r → P (r.register tag c)) : P (r.overlaid overrides) := by
  unfold overlaid
  induction overrides.compilers generalizing r with
  | nil => exact hr
  | cons e rest ih => exact ih (hregister r e.1 e.2 hr)

theorem require_overlaid {c : TypeCompiler} (h : r.require tag = .ok c) :
    ∃ c', (r.overlaid overrides).require tag = .ok c' := by
  refine overlaid_induct (P := fun r => ∃ c', r.require tag = .ok c') ⟨c, h⟩ ?_
  rintro r tag' c ⟨c', hc'⟩
  unfold require
  rw [find?_register]
  by_cases htag : tag' = tag
  · exact ⟨c, by rw [if_pos htag]⟩
  · exact ⟨c', by rw [if_neg htag]; exact hc'⟩

theorem resolve_of_require {c : TypeCompiler} (h : r.require tag = .ok c) : r.resolve tag = .ok c := by
  unfold require at h
  unfold resolve
  split at h
  · rename_i c' hc'
    rw [hc']
    exact h
  · exact nomatch h

theorem require_of_find? {c : TypeCompiler} (h : r.compilers.find? tag = some c) :
    r.require tag = .ok c := by
  unfold require
  rw [h]

end Lexicon.Registry
