import Omulator.Di.RecipeRuns

/-!
# What a failed construction leaves behind

A recipe is run before anything goes into the type map, so a recipe that throws leaves no
entry. `TypeMap::emplace` puts the container into the map first: when the default
constructor throws, the empty container stays there, and counts as an instance.
-/

namespace Omulator.Di
open Omulator.Lib Comp

/-- The recipe found for `T` returns a null pointer, and neither has it put an object into the
map of `i`, as that of a binding made on `i` does, nor is `T` abstract and without any entry. -/
def HandsNull (ty : Types) (i : ℕ) (T : Hash_t) (w : World) : Prop :=
  ∃ o r u, w.find_recipe_ T (i + 1) i = some (o, r) ∧
    recipeRun ty .get i T o r w = some (.ok none, u) ∧
    (∀ c, (u.inj i).typeMap_.lookup T = some c → c.ptr_ = none) ∧
    (ty.is_abstract T = true → (u.inj i).typeMap_.lookup T ≠ none)

/-- Nothing is in the way of constructing `T` on `i`: the parent has an instance that is there,
or else `T` is not on the path of `i` and its recipe does not hand over a null pointer. -/
structure Ready (ty : Types) (i : ℕ) (T : Hash_t) (w : World) : Prop where
  parent : ∀ q c, (w.inj i).pUpstream_ = some q → (w.inj q).typeMap_.lookup T = some c →
    c.ptr_ ≠ none
  offPath : (∀ q, (w.inj i).pUpstream_ = some q → w.has_instance q T = false) → ¬ OnStack w i T
  recipe : (∀ q, (w.inj i).pUpstream_ = some q → w.has_instance q T = false) →
    ¬ HandsNull ty i T w

section
variable {ty : Types} {rec : Call → M (Option Addr)} {w w' : World} {i : ℕ} {T : Hash_t}

/-! ### A recipe that throws -/

end

end Omulator.Di
