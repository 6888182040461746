import Mathlib.Data.DFinsupp.WellFounded
import Mathlib.Data.Fintype.Basic

/-!
# Interleavings of terminating components

Finitely many components, of which one takes a step at a time. When none of them can take steps
for ever, neither can all of them together.
-/

namespace Omulator.Lib

variable {n : ℕ} {τ σ : Type}

/-- One component goes from `f` to `g` by a step of `r`, which relates a successor to the state
before it. -/
def Interleave (r : τ → τ → Prop) (g f : Fin n → τ) : Prop :=
  ∃ i, r (g i) (f i) ∧ ∀ j, j ≠ i → g j = f j

theorem wellFounded_acc (r : τ → τ → Prop) : WellFounded fun b a => r b a ∧ Acc r a := by
  refine ⟨fun a => ?_⟩
  by_cases ha : Acc r a
  · induction ha with
    | intro a _ ih => exact ⟨_, fun b hb => ih b hb.1⟩
  · exact ⟨_, fun b hb => absurd hb.2 ha⟩

theorem acc_interleave {r : τ → τ → Prop} {f : Fin n → τ} (h : ∀ i, Acc r (f i)) :
    Acc (Interleave r) f := by
  have hwf : WellFounded (Pi.Lex (· < ·) fun {_ : Fin n} b a => r b a ∧ Acc r a) :=
    Pi.Lex.wellFounded (· < ·) fun _ => wellFounded_acc r
  induction hwf.apply f with
  | intro f _ ih =>
    refine ⟨_, fun g hg => ?_⟩
    obtain ⟨i, hi, hother⟩ := hg
    refine ih g ⟨i, fun j hj => hother j (ne_of_lt hj), hi, h i⟩ fun j => ?_
    by_cases hj : j = i
    · subst hj
      exact (h j).inv hi
    · rw [hother j hj]
      exact h j

/-- A system all of whose steps are steps of the components. -/
theorem acc_of_interleave {step : σ → σ → Prop} {r : τ → τ → Prop} {view : σ → Fin n → τ}
    (hstep : ∀ t s, step t s → Interleave r (view t) (view s)) {s : σ}
    (h : ∀ i, Acc r (view s i)) : Acc step s :=
  Subrelation.accessible (fun {_ _} ht => hstep _ _ ht)
    (InvImage.accessible view (acc_interleave h))

theorem not_infinite {step : σ → σ → Prop} {s : σ} (h : Acc step s) (f : ℕ → σ) (h0 : f 0 = s) :
    ¬ ∀ k, step (f (k + 1)) (f k) := by
  induction h generalizing f with
  | intro s _ ih =>
    intro hf
    exact ih (f 1) (h0 ▸ hf 0) (fun k => f (k + 1)) rfl fun k => hf (k + 1)

end Omulator.Lib
