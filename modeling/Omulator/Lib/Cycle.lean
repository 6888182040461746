import Mathlib.Logic.Relation
import Mathlib.Data.Nat.Find
import Mathlib.Tactic.Common

/-!
# Cycles of a relation

A cycle can be walked until it meets a place for the second time; a cycle of waiting is a
cycle of whatever the waiting follows.
-/

namespace Omulator.Lib
open Relation

variable {α β : Type} {R : α → α → Prop} {W : β → β → Prop}

theorem exists_path {a b : α} (h : TransGen R a b) :
    ∃ n, 0 < n ∧ ∃ p : ℕ → α, p 0 = a ∧ p n = b ∧ ∀ m < n, R (p m) (p (m + 1)) := by
  induction h with
  | @single b hab =>
    refine ⟨1, Nat.one_pos, fun m => if m = 0 then a else b, rfl, rfl, ?_⟩
    intro m hm
    obtain rfl : m = 0 := by omega
    exact hab
  | @tail b c _ hbc ih =>
    obtain ⟨n, hn, p, h0, hpn, hp⟩ := ih
    have hlast : ¬ n + 1 ≤ n := by omega
    refine ⟨n + 1, Nat.succ_pos n, fun m => if m ≤ n then p m else c, ?_, if_neg hlast, ?_⟩
    · simpa using h0
    · intro m hm
      by_cases hmn : m = n
      · subst hmn
        simpa [hlast, hpn] using hbc
      · have h1 : m ≤ n := by omega
        have h2 : m + 1 ≤ n := by omega
        simpa [h1, h2] using hp m (by omega)

/-- The walk along a cycle up to the first place `p k` that it has met before, as `p j`. -/
theorem exists_first_return {a : α} (h : TransGen R a a) :
    ∃ p : ℕ → α, ∃ j k, j < k ∧ p j = p k ∧ (∀ m < k, R (p m) (p (m + 1))) ∧
      ∀ i < k, ∀ i' < i, p i' ≠ p i := by
  classical
  obtain ⟨n, hn, p, h0, hpn, hp⟩ := exists_path h
  have hex : ∃ k, ∃ j < k, p j = p k := ⟨n, 0, hn, h0.trans hpn.symm⟩
  obtain ⟨j, hj, hjk⟩ := Nat.find_spec hex
  have hle : Nat.find hex ≤ n := Nat.find_le ⟨0, hn, h0.trans hpn.symm⟩
  refine ⟨p, j, Nat.find hex, hj, hjk, fun m hm => hp m (by omega), ?_⟩
  intro i hi i' hi' heq
  exact Nat.find_min hex hi ⟨i', hi', heq⟩

/-- Where each edge from `t` to `u` is an `R`-step from what `t` waits for to what `u` waits for,
so is each path. -/
theorem transGen_wanted {wants : β → Option α}
    (hW : ∀ t u, W t u → ∃ a, wants t = some a ∧ ∀ b, wants u = some b → R a b)
    {t u : β} (h : TransGen W t u) : ∃ a, wants t = some a ∧ ∀ b, wants u = some b →
      TransGen R a b := by
  induction h with
  | @single u htu =>
    obtain ⟨a, ha, hR⟩ := hW t u htu
    exact ⟨a, ha, fun b hb => .single (hR b hb)⟩
  | @tail u v _ huv ih =>
    obtain ⟨a, ha, hR⟩ := ih
    obtain ⟨b, hb, hRb⟩ := hW u v huv
    exact ⟨a, ha, fun c hc => .tail (hR b hb) (hRb c hc)⟩

end Omulator.Lib
