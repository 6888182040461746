import Mathlib.Logic.Basic
import Mathlib.Data.Option.Basic

/-!
# Things with one owner

A place holds one thing or none. Things are owned linearly when every live thing is in exactly one
place, and nothing else is in any.
-/

namespace Omulator.Lib

variable {ι α : Type}

structure Linear (held : ι → Option α) (live : α → Prop) : Prop where
  one : ∀ i j a, held i = some a → held j = some a → i = j
  alive : ∀ i a, held i = some a → live a
  kept : ∀ a, live a → ∃ i, held i = some a

namespace Linear

variable {held held' : ι → Option α} {live live' : α → Prop} {i j : ι} {a : α}

theorem congr (h : Linear held live) (hheld : ∀ k, held' k = held k)
    (hlive : ∀ b, live' b ↔ live b) : Linear held' live' where
  one k l b hk hl := h.one k l b (hheld k ▸ hk) (hheld l ▸ hl)
  alive k b hk := (hlive b).mpr (h.alive k b (hheld k ▸ hk))
  kept b hb := by
    obtain ⟨k, hk⟩ := h.kept b ((hlive b).mp hb)
    exact ⟨k, (hheld k).trans hk⟩

theorem give (h : Linear held live) (hi : held i = none) (ha : ¬ live a)
    (hheld : ∀ k, k ≠ i → held' k = held k) (hself : held' i = some a)
    (hlive : ∀ b, live' b ↔ live b ∨ b = a) : Linear held' live' := by
  have hcases : ∀ {k b}, held' k = some b → held k = some b ∧ k ≠ i ∨ b = a ∧ k = i := by
    intro k b hk
    by_cases hki : k = i
    · rw [hki, hself] at hk
      cases hk
      exact .inr ⟨rfl, hki⟩
    · rw [hheld k hki] at hk
      exact .inl ⟨hk, hki⟩
  refine ⟨?_, ?_, ?_⟩
  · intro k l b hk hl
    rcases hcases hk with ⟨hk, _⟩ | ⟨hb, hk⟩
    · rcases hcases hl with ⟨hl, _⟩ | ⟨hb, _⟩
      · exact h.one k l b hk hl
      · exact absurd (hb ▸ h.alive k b hk) ha
    · rcases hcases hl with ⟨hl, _⟩ | ⟨_, hl⟩
      · exact absurd (hb ▸ h.alive l b hl) ha
      · rw [hk, hl]
  · intro k b hk
    rcases hcases hk with ⟨hk, _⟩ | ⟨hb, _⟩
    · exact (hlive b).mpr (.inl (h.alive k b hk))
    · exact (hlive b).mpr (.inr hb)
  · intro b hb
    rcases (hlive b).mp hb with hb | hb
    · obtain ⟨k, hk⟩ := h.kept b hb
      have hki : k ≠ i := by
        intro hki
        rw [hki, hi] at hk
        cases hk
      exact ⟨k, (hheld k hki).trans hk⟩
    · exact ⟨i, hb ▸ hself⟩

theorem take (h : Linear held live) (hi : held i = some a)
    (hheld : ∀ k, k ≠ i → held' k = held k) (hself : held' i = none)
    (hlive : ∀ b, live' b ↔ live b ∧ b ≠ a) : Linear held' live' := by
  have hcases : ∀ {k b}, held' k = some b → held k = some b ∧ k ≠ i := by
    intro k b hk
    have hki : k ≠ i := by
      intro hki
      rw [hki, hself] at hk
      cases hk
    exact ⟨hheld k hki ▸ hk, hki⟩
  refine ⟨?_, ?_, ?_⟩
  · intro k l b hk hl
    exact h.one k l b (hcases hk).1 (hcases hl).1
  · intro k b hk
    obtain ⟨hk, hki⟩ := hcases hk
    refine (hlive b).mpr ⟨h.alive k b hk, fun hb => hki ?_⟩
    exact h.one k i a (hb ▸ hk) hi
  · intro b hb
    obtain ⟨hb, hne⟩ := (hlive b).mp hb
    obtain ⟨k, hk⟩ := h.kept b hb
    have hki : k ≠ i := by
      intro hki
      rw [hki, hi] at hk
      cases hk
      exact hne rfl
    exact ⟨k, (hheld k hki).trans hk⟩

theorem pass (h : Linear held live) (hi : held i = some a) (hj : held j = none)
    (hheld : ∀ k, k ≠ i → k ≠ j → held' k = held k) (hfrom : held' i = none)
    (hto : held' j = some a) (hlive : ∀ b, live' b ↔ live b) : Linear held' live' := by
  have hcases : ∀ {k b}, held' k = some b → held k = some b ∧ k ≠ i ∨ b = a ∧ k = j := by
    intro k b hk
    by_cases hkj : k = j
    · rw [hkj, hto] at hk
      cases hk
      exact .inr ⟨rfl, hkj⟩
    · have hki : k ≠ i := by
        intro hki
        rw [hki, hfrom] at hk
        cases hk
      rw [hheld k hki hkj] at hk
      exact .inl ⟨hk, hki⟩
  refine ⟨?_, ?_, ?_⟩
  · intro k l b hk hl
    rcases hcases hk with ⟨hk, hki⟩ | ⟨hb, hk⟩
    · rcases hcases hl with ⟨hl, _⟩ | ⟨hb, _⟩
      · exact h.one k l b hk hl
      · exact absurd (h.one k i a (hb ▸ hk) hi) hki
    · rcases hcases hl with ⟨hl, hli⟩ | ⟨_, hl⟩
      · exact absurd (h.one l i a (hb ▸ hl) hi) hli
      · rw [hk, hl]
  · intro k b hk
    rcases hcases hk with ⟨hk, _⟩ | ⟨hb, _⟩
    · exact (hlive b).mpr (h.alive k b hk)
    · exact (hlive b).mpr (hb ▸ h.alive i a hi)
  · intro b hb
    by_cases hba : b = a
    · exact ⟨j, hba ▸ hto⟩
    · obtain ⟨k, hk⟩ := h.kept b ((hlive b).mp hb)
      have hki : k ≠ i := by
        intro hki
        rw [hki, hi] at hk
        exact hba (Option.some.inj hk).symm
      have hkj : k ≠ j := by
        intro hkj
        rw [hkj, hj] at hk
        cases hk
      exact ⟨k, (hheld k hki hkj).trans hk⟩

/-- A live thing that was in one place only, which has something else now, is lost. -/
theorem not_of_lost (h : Linear held live) (hi : held i = some a)
    (hheld : ∀ k, k ≠ i → held' k = some a → held k = some a) (hself : held' i ≠ some a)
    (ha : live' a) : ¬ Linear held' live' := by
  intro h'
  obtain ⟨k, hk⟩ := h'.kept a ha
  have hki : k ≠ i := by
    intro hki
    rw [hki] at hk
    exact hself hk
  exact hki (h.one k i a (hheld k hki hk) hi)

end Linear
end Omulator.Lib
