import Mathlib.Data.List.Nodup
import Mathlib.Logic.Function.Basic

/-!
# Things in places

Each place holds a list of things. The lists are apart when no thing is twice in a place, or in
two places; and every thing in a place is live.
-/

namespace Omulator.Lib

variable {ι α : Type}

structure Apart (held : ι → List α) (live : α → Prop) : Prop where
  nodup : ∀ i, (held i).Nodup
  one : ∀ i j a, a ∈ held i → a ∈ held j → i = j
  live : ∀ i a, a ∈ held i → live a

namespace Apart

variable {held held' : ι → List α} {live live' : α → Prop} {i j : ι} {a : α} {l : List α}

theorem mono (h : Apart held live) (imp : ∀ a, live a → live' a) : Apart held live' :=
  ⟨h.nodup, h.one, fun i a ha => imp a (h.live i a ha)⟩

theorem sub (h : Apart held live) (hsub : ∀ i, (held' i).Sublist (held i)) : Apart held' live where
  nodup i := (h.nodup i).sublist (hsub i)
  one i j a hi hj := h.one i j a ((hsub i).subset hi) ((hsub j).subset hj)
  live i a hi := h.live i a ((hsub i).subset hi)

variable [DecidableEq ι]

theorem drop (h : Apart held live) (hl : l.Sublist (held i)) :
    Apart (Function.update held i l) live := by
  have hsub : ∀ j, (Function.update held i l j).Sublist (held j) := by
    intro j
    by_cases hj : j = i
    · rw [hj, Function.update_self]
      exact hl
    · rw [Function.update_of_ne hj]
  exact h.sub hsub

theorem put {l₀ : List α} (h : Apart held live) (ha : live a) (hfree : ∀ j, a ∉ held j)
    (hl₀ : l₀.Sublist (held i)) (hl : l.Perm (a :: l₀)) :
    Apart (Function.update held i l) live where
  nodup j := by
    by_cases hj : j = i
    · have hn : a ∉ l₀ := fun hm => hfree i (hl₀.subset hm)
      rw [hj, Function.update_self, hl.nodup_iff]
      exact List.nodup_cons.mpr ⟨hn, (h.nodup i).sublist hl₀⟩
    · rw [Function.update_of_ne hj]
      exact h.nodup j
  one j k b hj hk := by
    have hmem : ∀ {m}, b ∈ Function.update held i l m → b ∈ held m ∨ b = a ∧ m = i := by
      intro m hm
      by_cases hmi : m = i
      · rw [hmi, Function.update_self, hl.mem_iff, List.mem_cons] at hm
        rcases hm with hm | hm
        · exact .inr ⟨hm, hmi⟩
        · exact .inl (hmi ▸ hl₀.subset hm)
      · rw [Function.update_of_ne hmi] at hm
        exact .inl hm
    rcases hmem hj with hj | ⟨hb, hj⟩
    · rcases hmem hk with hk | ⟨hb, hk⟩
      · exact h.one j k b hj hk
      · exact absurd (hb ▸ hj) (hfree j)
    · rcases hmem hk with hk | ⟨hb', hk⟩
      · exact absurd (hb ▸ hk) (hfree k)
      · rw [hj, hk]
  live j b hb := by
    by_cases hj : j = i
    · rw [hj, Function.update_self, hl.mem_iff, List.mem_cons] at hb
      rcases hb with hb | hb
      · exact hb ▸ ha
      · exact h.live i b (hl₀.subset hb)
    · rw [Function.update_of_ne hj] at hb
      exact h.live j b hb

theorem free_of_drop (h : Apart held live) (ha : a ∈ held i) (hn : a ∉ l) (j : ι) :
    a ∉ Function.update held i l j := by
  by_cases hj : j = i
  · rw [hj, Function.update_self]
    exact hn
  · rw [Function.update_of_ne hj]
    intro haj
    exact hj (h.one j i a haj ha)

end Apart

/-- The lists are apart, and every live thing is in one of them. -/
structure Placed (held : ι → List α) (live : α → Prop) : Prop where
  apart : Apart held live
  somewhere : ∀ a, live a → ∃ i, a ∈ held i

namespace Placed

variable {held held' : ι → List α} {live live' : α → Prop} {i j : ι} {a : α}

theorem move (h : Placed held live) (hij : i ≠ j) (hi : (held i).Perm (a :: held' i))
    (hj : (held' j).Perm (a :: held j)) (hothers : ∀ k, k ≠ i → k ≠ j → held' k = held k) :
    Placed held' live := by
  have hmi : ∀ b, b ∈ held i ↔ b = a ∨ b ∈ held' i := fun b => by rw [hi.mem_iff, List.mem_cons]
  have hmj : ∀ b, b ∈ held' j ↔ b = a ∨ b ∈ held j := fun b => by rw [hj.mem_iff, List.mem_cons]
  obtain ⟨hai, hndi⟩ := List.nodup_cons.mp (hi.nodup_iff.mp (h.apart.nodup i))
  have hone : ∀ k, a ∈ held k → k = i := fun k hk =>
    h.apart.one k i a hk ((hmi a).mpr (.inl rfl))
  -- where a thing was that is at `k` now
  have hwas : ∀ k b, b ∈ held' k → b = a ∧ k = j ∨ b ≠ a ∧ b ∈ held k := by
    intro k b hb
    by_cases hki : k = i
    · rw [hki] at hb ⊢
      exact .inr ⟨fun hba => hai (hba ▸ hb), (hmi b).mpr (.inr hb)⟩
    · by_cases hkj : k = j
      · rw [hkj] at hb
        by_cases hba : b = a
        · exact .inl ⟨hba, hkj⟩
        · exact .inr ⟨hba, hkj ▸ ((hmj b).mp hb).resolve_left hba⟩
      · rw [hothers k hki hkj] at hb
        exact .inr ⟨fun hba => hki (hone k (hba ▸ hb)), hb⟩
  refine ⟨⟨?_, ?_, ?_⟩, ?_⟩
  · intro k
    by_cases hki : k = i
    · rw [hki]
      exact hndi
    · by_cases hkj : k = j
      · rw [hkj, hj.nodup_iff, List.nodup_cons]
        exact ⟨fun ha => hij (hone j ha).symm, h.apart.nodup j⟩
      · rw [hothers k hki hkj]
        exact h.apart.nodup k
  · intro k m b hk hm
    rcases hwas k b hk with ⟨hb, hkj⟩ | ⟨hb, hk⟩
    · rcases hwas m b hm with ⟨-, hmj⟩ | ⟨hb', -⟩
      · rw [hkj, hmj]
      · exact absurd hb hb'
    · rcases hwas m b hm with ⟨hb', -⟩ | ⟨-, hm⟩
      · exact absurd hb' hb
      · exact h.apart.one k m b hk hm
  · intro k b hb
    rcases hwas k b hb with ⟨hb, -⟩ | ⟨-, hb⟩
    · exact h.apart.live i b ((hmi b).mpr (.inl hb))
    · exact h.apart.live k b hb
  · intro b hb
    by_cases hba : b = a
    · exact ⟨j, (hmj b).mpr (.inl hba)⟩
    · obtain ⟨k, hk⟩ := h.somewhere b hb
      by_cases hki : k = i
      · exact ⟨i, ((hmi b).mp (hki ▸ hk)).resolve_left hba⟩
      · by_cases hkj : k = j
        · exact ⟨j, (hmj b).mpr (.inr (hkj ▸ hk))⟩
        · exact ⟨k, by rw [hothers k hki hkj]; exact hk⟩

theorem new (h : Placed held live) (hlive : ∀ b, live' b ↔ b = a ∨ live b) (ha : ¬ live a)
    (hj : (held' j).Perm (a :: held j)) (hothers : ∀ k, k ≠ j → held' k = held k) :
    Placed held' live' := by
  have hmj : ∀ b, b ∈ held' j ↔ b = a ∨ b ∈ held j := fun b => by rw [hj.mem_iff, List.mem_cons]
  have hfree : ∀ k, a ∉ held k := fun k hk => ha (h.apart.live k a hk)
  have hwas : ∀ k b, b ∈ held' k → b = a ∧ k = j ∨ b ≠ a ∧ b ∈ held k := by
    intro k b hb
    by_cases hkj : k = j
    · rw [hkj] at hb
      by_cases hba : b = a
      · exact .inl ⟨hba, hkj⟩
      · exact .inr ⟨hba, hkj ▸ ((hmj b).mp hb).resolve_left hba⟩
    · rw [hothers k hkj] at hb
      exact .inr ⟨fun hba => hfree k (hba ▸ hb), hb⟩
  refine ⟨⟨?_, ?_, ?_⟩, ?_⟩
  · intro k
    by_cases hkj : k = j
    · rw [hkj, hj.nodup_iff, List.nodup_cons]
      exact ⟨hfree j, h.apart.nodup j⟩
    · rw [hothers k hkj]
      exact h.apart.nodup k
  · intro k m b hk hm
    rcases hwas k b hk with ⟨hb, hkj⟩ | ⟨hb, hk⟩
    · rcases hwas m b hm with ⟨-, hmj⟩ | ⟨hb', -⟩
      · rw [hkj, hmj]
      · exact absurd hb hb'
    · rcases hwas m b hm with ⟨hb', -⟩ | ⟨-, hm⟩
      · exact absurd hb' hb
      · exact h.apart.one k m b hk hm
  · intro k b hb
    rcases hwas k b hb with ⟨hb, -⟩ | ⟨-, hb⟩
    · exact (hlive b).mpr (.inl hb)
    · exact (hlive b).mpr (.inr (h.apart.live k b hb))
  · intro b hb
    by_cases hba : b = a
    · exact ⟨j, (hmj b).mpr (.inl hba)⟩
    · obtain ⟨k, hk⟩ := h.somewhere b (((hlive b).mp hb).resolve_left hba)
      by_cases hkj : k = j
      · exact ⟨j, (hmj b).mpr (.inr (hkj ▸ hk))⟩
      · exact ⟨k, by rw [hothers k hkj]; exact hk⟩

end Placed
end Omulator.Lib
