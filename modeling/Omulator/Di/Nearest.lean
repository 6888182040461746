import Omulator.Di.Binding

/-!
# Which instance `get` finds

`get` looks into the map of its injector and into that of the parent, and no further: an
instance that only the grandparent has is not found, and a second one is made.
-/

namespace Omulator.Di
open Omulator.Lib Comp

/-- `j` is the first injector with an instance of `T`, on the way from `i` up to the root. -/
inductive Nearest (w : World) (T : Hash_t) : ℕ → ℕ → Prop
  | here {i : ℕ} : w.has_instance i T = true → Nearest w T i i
  | up {i q j : ℕ} : w.has_instance i T = false → (w.inj i).pUpstream_ = some q →
      Nearest w T q j → Nearest w T i j

/-- `get<T>()` on `i` runs no recipe, makes nothing and returns the instance of `j`. -/
def GivesThatOf (ty : Types) (w : World) (T : Hash_t) (i j : ℕ) : Prop :=
  ∃ c, (w.inj j).typeMap_.lookup T = some c ∧
    (w.call ty ⟨.get, i, T⟩).1 = .ok c.ptr_ ∧ Looked w (w.call ty ⟨.get, i, T⟩).2

section
variable {ty : Types} {w : World} {T : Hash_t} {i j : ℕ}

theorem Nearest.has (h : Nearest w T i j) : w.has_instance j T = true := by
  induction h with
  | here hi => exact hi
  | up _ _ _ ih => exact ih

theorem Nearest.eq_of_has (h : Nearest w T i j) (hi : w.has_instance i T = true) : j = i := by
  cases h with
  | here _ => rfl
  | up hn _ _ =>
    rw [hi] at hn
    cases hn

theorem Nearest.located (h : Nearest w T i j) (hj : j = i ∨ (w.inj i).pUpstream_ = some j) :
    ∃ c, (w.inj j).typeMap_.lookup T = some c ∧ Located w i T c.ptr_ := by
  obtain ⟨c, hc⟩ := (TypeMap.has_key_iff _ T).mp h.has
  refine ⟨c, hc, ?_⟩
  cases hl : (w.inj i).typeMap_.lookup T with
  | some c' =>
    have hji : j = i := h.eq_of_has (has_instance_of_lookup hl)
    rw [hji, hl] at hc
    exact Or.inl ⟨c', hl, congrArg _ (Option.some.inj hc)⟩
  | none =>
    rcases hj with hji | hq
    · rw [hji, hl] at hc
      cases hc
    · exact Or.inr ⟨hl, j, hq, c, hc, rfl⟩

theorem Nearest.of_located {p : Option Addr} (h : Nearest w T i j) (hp : Located w i T p) :
    j = i ∨ (w.inj i).pUpstream_ = some j := by
  rcases hp with ⟨c, hc, -⟩ | ⟨hn, q, hq, c, hc, -⟩
  · exact Or.inl (h.eq_of_has (has_instance_of_lookup hc))
  · cases h with
    | here hi =>
      have hno := no_instance_iff.mpr hn
      rw [hi] at hno
      cases hno
    | up _ hq' h' =>
      have hqq : _ = q := Option.some.inj (hq'.symm.trans hq)
      subst hqq
      have hj := h'.eq_of_has (has_instance_of_lookup hc)
      subst hj
      exact Or.inr hq'

end

/-- The nearest instance is found exactly when the injector itself or its parent has it. Where
neither has one, what is returned is an instance new in the map of the injector. -/
theorem nearest_of_two (ty : Types) (w : World) (T : Hash_t) (i : ℕ) (hw : w.WF)
    (hi : i < w.count) :
    (∀ j, Nearest w T i j →
      (GivesThatOf ty w T i j ↔ j = i ∨ (w.inj i).pUpstream_ = some j)) ∧
    (w.has_instance i T = false →
      (∀ q, (w.inj i).pUpstream_ = some q → w.has_instance q T = false) →
      ∀ p, (w.call ty ⟨.get, i, T⟩).1 = .ok p →
        ∃ c, ((w.call ty ⟨.get, i, T⟩).2.inj i).typeMap_.lookup T = some c ∧ c.ptr_ = p) := by
  refine ⟨fun j h => ⟨?_, ?_⟩, ?_⟩
  · rintro ⟨c, hc, hret, hlook⟩
    have hafter := call_located hw hi hret
    have hbefore : Located w i T c.ptr_ :=
      hafter.congr (by rw [hlook.inj]) (by rw [hlook.inj]) (by simp [hlook.inj])
    exact h.of_located hbefore
  · intro hj
    obtain ⟨c, hc, hloc⟩ := h.located hj
    exact ⟨c, hc, located_looked hw hi hloc⟩
  · intro hn hup
    exact call_of_wp (c := ⟨.get, i, T⟩)
      (Q := fun r u => ∀ p, r = .ok p → ∃ c, (u.inj i).typeMap_.lookup T = some c ∧ c.ptr_ = p)
      hw hi fun fuel => made_own (no_instance_iff.mp hn) hup fuel

def threeDeep : World :=
  let w₁ := (World.root.call plainTypes ⟨.creat, 0, injectorHash⟩).2
  let w₂ := (w₁.call plainTypes ⟨.creat, 1, injectorHash⟩).2
  (w₂.call plainTypes ⟨.get, 0, 1⟩).2

theorem threeDeep_wf : threeDeep.WF := by
  have h₁ : (World.root.call plainTypes ⟨.creat, 0, injectorHash⟩).2.WF :=
    call_wf root_wf (by decide)
  have h₂ : ((World.root.call plainTypes ⟨.creat, 0, injectorHash⟩).2.call plainTypes
      ⟨.creat, 1, injectorHash⟩).2.WF := call_wf h₁ (by decide)
  exact call_wf h₂ (by decide)

/-- The child is given the root's instance, the grandchild one of its own. -/
theorem threeDeep_given : GivesThatOf plainTypes threeDeep 1 1 0 ∧
    ∃ c, ((threeDeep.call plainTypes ⟨.get, 2, 1⟩).2.inj 2).typeMap_.lookup 1 = some c ∧
      c.ptr_ = some (.obj 1) := by
  constructor
  · exact ((nearest_of_two plainTypes threeDeep 1 1 threeDeep_wf (by decide)).1 0
      (.up (by decide) rfl (.here (by decide)))).mpr (Or.inr rfl)
  · refine (nearest_of_two plainTypes threeDeep 1 2 threeDeep_wf (by decide)).2 (by decide) ?_
      _ (by decide)
    intro q hq
    cases hq
    decide

/-- Although the root has the nearest instance, what the grandchild returns is another object. -/
theorem threeDeep_grandchild :
    (threeDeep.call plainTypes ⟨.get, 2, 1⟩).1 = .ok (some (.obj 1)) ∧
    ¬ ∀ (ty : Types) (w : World) (T : Hash_t) (i j : ℕ), w.WF → i < w.count →
      Nearest w T i j → GivesThatOf ty w T i j := by
  refine ⟨by decide, fun h => ?_⟩
  have hroot : Nearest threeDeep 1 2 0 :=
    .up (by decide) rfl (.up (by decide) rfl (.here (by decide)))
  obtain ⟨c, hc, hret, -⟩ := h plainTypes threeDeep 1 2 0 threeDeep_wf (by decide) hroot
  have hmade : (threeDeep.call plainTypes ⟨.get, 2, 1⟩).1 = .ok (some (.obj 1)) := by decide
  have hold : (threeDeep.inj 0).typeMap_.lookup 1 = some ⟨some (.obj 0), true⟩ := by decide
  rw [hold] at hc
  cases hc
  rw [hmade] at hret
  cases hret

end Omulator.Di
