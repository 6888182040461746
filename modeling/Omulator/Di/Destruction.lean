import Omulator.Di.Construction

/-!
# Destruction

`~Injector` erases the types of `invocationList_` from the back. What an injector owns is
destroyed once, when the injector is, and before everything it was constructed with.
-/

namespace Omulator.Di
open Omulator.Lib

/-! ### Erasing a list of types -/

namespace TypeMap

/-- `map_.erase` for each of the types, with what is deleted. -/
def eraseAll : TypeMap → List Hash_t → TypeMap × List Addr
  | m, [] => (m, [])
  | m, T :: Ts => ((eraseAll (m.erase T) Ts).1, (m.eraseKey T).2 ++ (eraseAll (m.erase T) Ts).2)

theorem mem_eraseKey {m : TypeMap} {T : Hash_t} {a : Addr} :
    a ∈ (m.eraseKey T).2 ↔ m.lookup T = some ⟨some a, true⟩ := by
  unfold eraseKey
  cases m.lookup T with
  | none => simp
  | some c =>
    obtain ⟨p, o⟩ := c
    cases o <;> simp [TypeContainer.release_]

theorem eraseAll_lookup (m : TypeMap) (Ts : List Hash_t) (T : Hash_t) :
    (m.eraseAll Ts).1.lookup T = if T ∈ Ts then none else m.lookup T := by
  induction Ts generalizing m with
  | nil => simp [eraseAll]
  | cons U Ts ih =>
    simp only [eraseAll, ih, List.mem_cons]
    by_cases hT : T ∈ Ts
    · simp [hT]
    · by_cases hU : T = U
      · subst hU
        simp
      · simp [hT, hU, AList.lookup_erase_ne hU]

theorem mem_eraseAll {m : TypeMap} {Ts : List Hash_t} {a : Addr} :
    a ∈ (m.eraseAll Ts).2 ↔ ∃ T ∈ Ts, m.lookup T = some ⟨some a, true⟩ := by
  induction Ts generalizing m with
  | nil => simp [eraseAll]
  | cons U Ts ih =>
    simp only [eraseAll, List.mem_append, mem_eraseKey, ih, List.mem_cons]
    constructor
    · rintro (h | ⟨T, hT, h⟩)
      · exact ⟨U, Or.inl rfl, h⟩
      · by_cases hU : T = U
        · subst hU
          rw [AList.lookup_erase] at h
          cases h
        · rw [AList.lookup_erase_ne hU] at h
          exact ⟨T, Or.inr hT, h⟩
    · rintro ⟨T, rfl | hT, h⟩
      · exact Or.inl h
      · by_cases hU : T = U
        · subst hU
          exact Or.inl h
        · exact Or.inr ⟨T, hT, by rwa [AList.lookup_erase_ne hU]⟩

theorem eraseAll_append (m : TypeMap) (Ts Us : List Hash_t) :
    (m.eraseAll (Ts ++ Us)).2 = (m.eraseAll Ts).2 ++ (eraseAll (m.eraseAll Ts).1 Us).2 := by
  induction Ts generalizing m with
  | nil => rfl
  | cons T Ts ih => simp only [List.cons_append, eraseAll, ih, List.append_assoc]

/-- An owned object goes when its type does, and not again. -/
theorem eraseAll_split {m : TypeMap} {Ts : List Hash_t} (Us : List Hash_t) {T : Hash_t} {a : Addr}
    (hT : T ∉ Ts) (hl : m.lookup T = some ⟨some a, true⟩)
    (hone : ∀ U, m.lookup U = some ⟨some a, true⟩ → U = T) :
    ∃ rest, (m.eraseAll (Ts ++ T :: Us)).2 = (m.eraseAll Ts).2 ++ a :: rest ∧
      a ∉ (m.eraseAll Ts).2 ∧ a ∉ rest := by
  have hl' : (m.eraseAll Ts).1.lookup T = some ⟨some a, true⟩ := by
    rw [eraseAll_lookup, if_neg hT, hl]
  refine ⟨(eraseAll ((m.eraseAll Ts).1.erase T) Us).2, ?_, ?_, ?_⟩
  · have hk : (eraseKey (m.eraseAll Ts).1 T).2 = [a] := by
      simp [eraseKey, hl', TypeContainer.release_]
    rw [eraseAll_append, eraseAll, hk]
    rfl
  · intro ha
    obtain ⟨U, hU, hlU⟩ := mem_eraseAll.mp ha
    exact hT (hone U hlU ▸ hU)
  · intro ha
    obtain ⟨U, hU, hlU⟩ := mem_eraseAll.mp ha
    by_cases hUT : U = T
    · subst hUT
      rw [AList.lookup_erase] at hlU
      cases hlU
    · rw [AList.lookup_erase_ne hUT, eraseAll_lookup] at hlU
      split at hlU
      · cases hlU
      · exact hUT (hone U hlU)

end TypeMap

theorem foldl_erase (i : ℕ) (Ts : List Hash_t) (w : World) :
    Ts.foldl (fun w thash => w.onTypeMap i (·.eraseKey thash)) w =
      w.onTypeMap i (·.eraseAll Ts) := by
  induction Ts generalizing w with
  | nil =>
    simp only [List.foldl_nil, World.onTypeMap, World.destroyAll, World.upd, TypeMap.eraseAll,
      List.map_nil, List.append_nil, Function.update_eq_self]
  | cons T Ts ih =>
    rw [List.foldl_cons, ih]
    simp only [World.onTypeMap, World.destroyAll, World.upd, TypeMap.eraseAll,
      Function.update_self, Function.update_idem, TypeMap.eraseKey_map, List.map_append,
      List.append_assoc]

/-! ### What an injector takes with it -/

/-- The objects that go with the types on the list of `i`, in the order they are deleted in. -/
def erased (w : World) (i : ℕ) : List Addr :=
  (TypeMap.eraseAll (w.inj i).typeMap_ (w.inj i).invocationList_.reverse).2

structure Frees (i : ℕ) (D : List Addr) (w w' : World) : Prop where
  count : w'.count = w.count
  fresh : w'.fresh = w.fresh
  trace : w'.trace = w.trace ++ (D.map .destroyed ++ [.destroyed (.injector i)])
  recipes : ∀ j, (w'.inj j).recipeMap_ = (w.inj j).recipeMap_
  upstream : ∀ j, (w'.inj j).pUpstream_ = (w.inj j).pUpstream_
  others : ∀ j, j ≠ i → w'.inj j = w.inj j

section
variable {ty : Types} {w w' : World} {i : ℕ} {T : Hash_t} {a d : Addr}

theorem mem_erased (h : Inv ty w) (hi : i < w.count) (hdi : ¬ Dead w i) :
    a ∈ erased w i ↔ ∃ T, Manages w i T a := by
  unfold erased
  rw [TypeMap.mem_eraseAll]
  constructor
  · rintro ⟨T, _, hl⟩
    exact ⟨T, (h.owned i T a hi hdi).mpr hl⟩
  · rintro ⟨T, hm⟩
    obtain ⟨pre, post, hL, _⟩ := h.listed i T a hm hdi
    exact ⟨T, by rw [hL]; simp, (h.owned i T a hi hdi).mp hm⟩

/-- What `~Injector` does in any state: it deletes what goes with the list, from the back, and
then what is left in the map, which is empty in the end. -/
theorem destroyInjector_deletes (w : World) (i : ℕ) : ∃ left,
    Frees i (erased w i ++ left) w (w.destroyInjector i) ∧
    (∀ b ∈ left, ∃ U, U ∉ (w.inj i).invocationList_ ∧
      (w.inj i).typeMap_.lookup U = some ⟨some b, true⟩) ∧
    ∀ U, ((w.destroyInjector i).inj i).typeMap_.lookup U = none := by
  let m := (TypeMap.eraseAll (w.inj i).typeMap_ (w.inj i).invocationList_.reverse).1
  have hm : ∀ U, m.lookup U = if U ∈ (w.inj i).invocationList_ then none
      else (w.inj i).typeMap_.lookup U := by
    intro U
    simp only [m, TypeMap.eraseAll_lookup, List.mem_reverse]
  have heq : w.destroyInjector i = (((w.onTypeMap i
      (·.eraseAll (w.inj i).invocationList_.reverse)).onTypeMap i
      (·.eraseAll m.keys)).emit (.destroyed (.injector i))) := by
    unfold World.destroyInjector
    simp only [foldl_erase]
    rw [World.onTypeMap_inj_self]
  have hother : ∀ j, j ≠ i → (w.destroyInjector i).inj j = w.inj j := by
    intro j hj
    rw [heq, World.emit_inj, World.onTypeMap_inj_ne _ _ _ _ hj, World.onTypeMap_inj_ne _ _ _ _ hj]
  have hself : (w.destroyInjector i).inj i =
      { w.inj i with typeMap_ := (TypeMap.eraseAll m m.keys).1 } := by
    rw [heq, World.emit_inj, World.onTypeMap_inj_self, World.onTypeMap_inj_self]
  refine ⟨(TypeMap.eraseAll m m.keys).2, ⟨by rw [heq]; rfl, by rw [heq]; rfl, ?_, ?_, ?_, hother⟩,
    ?_, ?_⟩
  · rw [heq, World.emit_trace, World.onTypeMap_trace, World.onTypeMap_inj_self,
      World.onTypeMap_trace, List.map_append]
    simp only [List.append_assoc]
    rfl
  · intro j
    by_cases hj : j = i
    · subst hj
      rw [hself]
    · rw [hother j hj]
  · intro j
    by_cases hj : j = i
    · subst hj
      rw [hself]
    · rw [hother j hj]
  · intro b hb
    obtain ⟨U, _, hl⟩ := TypeMap.mem_eraseAll.mp hb
    have hU := hm U
    rw [hl] at hU
    by_cases hlist : U ∈ (w.inj i).invocationList_
    · rw [if_pos hlist] at hU
      cases hU
    · rw [if_neg hlist] at hU
      exact ⟨U, hlist, hU.symm⟩
  · intro U
    rw [hself]
    change (TypeMap.eraseAll m m.keys).1.lookup U = none
    rw [TypeMap.eraseAll_lookup]
    by_cases hk : U ∈ m.keys
    · rw [if_pos hk]
    · rw [if_neg hk]
      exact AList.lookup_eq_none.mpr hk

theorem destroyInjector_frees (h : Inv ty w) (hi : i < w.count) (hdi : ¬ Dead w i) :
    Frees i (erased w i) w (w.destroyInjector i) := by
  obtain ⟨left, hf, hleft, _⟩ := destroyInjector_deletes w i
  have hnone : left = [] := by
    apply List.eq_nil_iff_forall_not_mem.mpr
    intro b hb
    obtain ⟨U, hU, hl⟩ := hleft b hb
    obtain ⟨pre, post, hL, _⟩ := h.listed i U b ((h.owned i U b hi hdi).mpr hl) hdi
    exact hU (by rw [hL]; simp)
  rwa [hnone, List.append_nil] at hf

theorem erased_split (h : Inv ty w) (hi : i < w.count) (hdi : ¬ Dead w i)
    (hm : Manages w i T a) : ∃ first rest, erased w i = first ++ a :: rest ∧
      a ∉ first ∧ a ∉ rest ∧ ∀ d, ConstructedWith w.trace a d → d ∉ first ∧ d ≠ a := by
  obtain ⟨pre, post, hL, hpre, hpost, hb⟩ := h.listed i T a hm hdi
  have hone : ∀ U, (w.inj i).typeMap_.lookup U = some ⟨some a, true⟩ → U = T := fun U hU =>
    (h.unique i i U T a ((h.owned i U a hi hdi).mpr hU) hm).2
  have hpost' : T ∉ post.reverse := by simpa using hpost
  obtain ⟨rest, hsplit, hfirst, hrest⟩ := TypeMap.eraseAll_split pre.reverse hpost'
    ((h.owned i T a hi hdi).mp hm) hone
  refine ⟨_, rest, ?_, hfirst, hrest, fun d hc => ⟨fun hd => ?_, ?_⟩⟩
  · unfold erased
    rw [hL, ← hsplit]
    simp
  · obtain ⟨U, hU, hlU⟩ := TypeMap.mem_eraseAll.mp hd
    have hUpost : U ∈ post := by simpa using hU
    have hmU := (h.owned i U d hi hdi).mpr hlU
    rcases hb d hc with ⟨k, rfl, _⟩ | ⟨K, hK, hmK⟩ | ⟨j, K, _, hj, hmK⟩
    · obtain ⟨_, _, n, _, hn⟩ := h.managed i U _ hmU
      cases hn
    · -- `U` is in `pre` too, but it stands on the list only once
      have hKU := (h.unique i i K U d hmK hmU).2
      subst hKU
      obtain ⟨pre', post', hL', hpre', hpost', _⟩ := h.listed i K d hmK hdi
      have hcount : (w.inj i).invocationList_.count K = 1 := by
        rw [hL', List.count_append, List.count_cons_self, List.count_eq_zero.mpr hpre',
          List.count_eq_zero.mpr hpost']
      rw [hL, List.count_append, List.count_cons] at hcount
      have hp := List.count_pos_iff.mpr hK
      have hq := List.count_pos_iff.mpr hUpost
      omega
    · exact hj (h.unique j i K U d hmK hmU).1
  · rintro rfl
    rcases hb d hc with ⟨k, rfl, _⟩ | ⟨K, hK, hmK⟩ | ⟨j, K, _, hj, hmK⟩
    · obtain ⟨_, _, n, _, hn⟩ := h.managed i T _ hm
      cases hn
    · exact hpre ((h.unique i i K T d hmK hm).2 ▸ hK)
    · exact hj (h.unique j i K T d hmK hm).1

/-! ### An injector is destroyed -/

namespace Frees
variable {D : List Addr}

theorem dead_iff (h : Frees i D w w') (hD : ∀ a ∈ D, ∃ n, a = .obj n) (j : ℕ) :
    Dead w' j ↔ Dead w j ∨ j = i := by
  have hno : Addr.injector j ∉ D := by
    intro hj
    obtain ⟨n, hn⟩ := hD _ hj
    cases hn
  unfold Dead
  rw [h.trace]
  simp [hno]

theorem manages_iff (h : Frees i D w w') (j : ℕ) (U : Hash_t) (b : Addr) :
    Manages w' j U b ↔ Manages w j U b := by
  unfold Manages
  rw [h.trace]
  simp

theorem constructed (h : Frees i D w w') (hc : ConstructedWith w'.trace a d) :
    ConstructedWith w.trace a d := by
  rw [h.trace] at hc
  exact hc.of_append (by simp)

theorem count_destroyed (h : Frees i D w w') {n : ℕ} :
    w'.trace.count (.destroyed (.obj n)) = w.trace.count (.destroyed (.obj n)) +
      D.count (.obj n) := by
  have hinj : Function.Injective Event.destroyed := fun _ _ he => by injection he
  rw [h.trace, List.count_append, List.count_append, List.count_map_of_injective _ _ hinj]
  have hlast : [Event.destroyed (.injector i)].count (.destroyed (.obj n)) = 0 := by
    rw [List.count_eq_zero]
    simp
  omega

end Frees

theorem Inv.not_above (h : Inv ty w) (hkids : ∀ j, j < w.count → (w.inj j).pUpstream_ = some i →
    Dead w j) {j : ℕ} (hj : j < w.count) (hd : ¬ Dead w j) (hji : j ≠ i) : ¬ Anc w i j := by
  intro ha
  induction j using Nat.strong_induction_on with
  | _ j ih =>
    rcases ha with _ | ⟨hp, ha⟩
    · exact hji rfl
    · rename_i p
      have hlt := h.wf j p hj hp
      by_cases hpi : p = i
      · subst hpi
        exact hd (hkids j hj hp)
      · exact ih p hlt (by omega) (h.parents j p hj hd hp) hpi ha

theorem mem_before {first rest p q : List Event} {e e' : Event}
    (h : first ++ e :: rest = p ++ e' :: q) (hf : e' ∉ first) (hne : e' ≠ e) : e ∈ p := by
  induction first generalizing p with
  | nil =>
    cases p with
    | nil =>
      rw [List.nil_append, List.nil_append, List.cons.injEq] at h
      exact absurd h.1.symm hne
    | cons x p =>
      rw [List.nil_append, List.cons_append, List.cons.injEq] at h
      rw [h.1]
      exact List.mem_cons_self ..
  | cons y first ih =>
    rw [List.mem_cons, not_or] at hf
    cases p with
    | nil =>
      rw [List.cons_append, List.nil_append, List.cons.injEq] at h
      exact absurd h.1.symm hf.1
    | cons x p =>
      rw [List.cons_append, List.cons_append, List.cons.injEq] at h
      exact List.mem_cons_of_mem _ (ih h.2 hf.2)

/-- If the injector takes along what `a` was constructed with, `a` is gone by then. -/
theorem destroy_order (h : Inv ty w) (hi : i < w.count) (hdi : ¬ Dead w i)
    (hkids : ∀ j, j < w.count → (w.inj j).pUpstream_ = some i → Dead w j) {j : ℕ}
    (hm : Manages w j T a) (hc : ConstructedWith w.trace a d) {p q : List Event}
    (hs : (erased w i).map Event.destroyed ++ [.destroyed (.injector i)] =
      p ++ .destroyed d :: q) : .destroyed a ∈ w.trace ∨ .destroyed a ∈ p := by
  by_cases hdj : Dead w j
  · have hone := h.once j T a hm hdj
    exact Or.inl (List.count_pos_iff.mp (by omega))
  · right
    have hj := (h.managed j T a hm).1
    obtain ⟨_, _, _, _, _, hb⟩ := h.listed j T a hm hdj
    have hmem : d ∈ erased w i ∨ d = .injector i := by
      have hd : Event.destroyed d ∈ (erased w i).map Event.destroyed ++
          [.destroyed (.injector i)] := by
        rw [hs]
        simp
      simpa using hd
    have hji : j = i := by
      by_contra hji
      have habove := h.not_above hkids hj hdj hji
      have hobj : ∀ k, Manages w k T a → k = j := fun k hk => (h.unique k j T T a hk hm).1
      rcases hmem with hd | rfl
      · obtain ⟨U, hU⟩ := (mem_erased h hi hdi).mp hd
        rcases hb d hc with ⟨k, rfl, _⟩ | ⟨K, _, hK⟩ | ⟨k, K, hk, _, hK⟩
        · obtain ⟨_, _, n, _, hn⟩ := h.managed i U _ hU
          cases hn
        · exact hji (h.unique j i K U d hK hU).1
        · rw [(h.unique k i K U d hK hU).1] at hk
          exact habove hk
      · rcases hb _ hc with ⟨k, hk, hka⟩ | ⟨K, _, hK⟩ | ⟨k, K, _, _, hK⟩
        · cases hk
          exact habove hka
        · obtain ⟨_, _, n, _, hn⟩ := h.managed j K _ hK
          cases hn
        · obtain ⟨_, _, n, _, hn⟩ := h.managed k K _ hK
          cases hn
    subst hji
    obtain ⟨first, rest, hsplit, _, _, hfirst⟩ := erased_split h hi hdi hm
    rw [hsplit, List.map_append, List.map_cons, List.append_assoc] at hs
    have hd : Event.destroyed d ∉ first.map Event.destroyed := by
      intro hd
      exact (hfirst d hc).1 (by simpa using hd)
    refine mem_before hs hd fun he => ?_
    injection he with he
    exact (hfirst d hc).2 he

theorem erased_obj (h : Inv ty w) (hi : i < w.count) (hdi : ¬ Dead w i) (ha : a ∈ erased w i) :
    ∃ n < w.fresh, a = .obj n := by
  obtain ⟨T, hm⟩ := (mem_erased h hi hdi).mp ha
  exact (h.managed i T a hm).2.2

theorem not_erased (h : Inv ty w) (hi : i < w.count) (hdi : ¬ Dead w i) {j : ℕ}
    (hm : Manages w j T a) (hj : j ≠ i) : a ∉ erased w i := by
  intro ha
  obtain ⟨U, hU⟩ := (mem_erased h hi hdi).mp ha
  exact hj (h.unique j i T U a hm hU).1

theorem count_erased (h : Inv ty w) (hi : i < w.count) (hdi : ¬ Dead w i)
    (hm : Manages w i T a) : (erased w i).count a = 1 := by
  obtain ⟨first, rest, hsplit, hfirst, hrest, _⟩ := erased_split h hi hdi hm
  rw [hsplit, List.count_append, List.count_cons_self, List.count_eq_zero.mpr hfirst,
    List.count_eq_zero.mpr hrest]

namespace Frees

theorem dead_erased (hf : Frees i (erased w i) w w') (h : Inv ty w) (hi : i < w.count)
    (hdi : ¬ Dead w i) (j : ℕ) : Dead w' j ↔ Dead w j ∨ j = i :=
  hf.dead_iff (fun _ ha => (erased_obj h hi hdi ha).imp fun _ hn => hn.2) j

theorem live (hf : Frees i (erased w i) w w') (h : Inv ty w) (hi : i < w.count)
    (hdi : ¬ Dead w i) {j : ℕ} (hj : ¬ Dead w' j) : ¬ Dead w j ∧ j ≠ i := by
  rw [hf.dead_erased h hi hdi, not_or] at hj
  exact hj

theorem count_managed {D : List Addr} (hf : Frees i D w w') (h : Inv ty w) {j : ℕ}
    (hm : Manages w j T a) :
    w'.trace.count (.destroyed a) = w.trace.count (.destroyed a) + D.count a := by
  obtain ⟨_, _, n, _, rfl⟩ := h.managed j T a hm
  exact hf.count_destroyed

end Frees

theorem Inv.freed (h : Inv ty w) (hi : i < w.count) (hdi : ¬ Dead w i)
    (hkids : ∀ j, j < w.count → (w.inj j).pUpstream_ = some i → Dead w j)
    (hf : Frees i (erased w i) w w') : Inv ty w' where
  wf j p hj hp := h.wf j p (hf.count ▸ hj) (hf.upstream j ▸ hp)
  dead j hj := by
    rw [hf.count]
    rcases (hf.dead_erased h hi hdi j).mp hj with hj | rfl
    · exact h.dead j hj
    · exact hi
  parents j p hj hd hp := by
    have hj' := hf.count ▸ hj
    have hp' := hf.upstream j ▸ hp
    have hd' := (hf.live h hi hdi hd).1
    rw [hf.dead_erased h hi hdi, not_or]
    refine ⟨h.parents j p hj' hd' hp', ?_⟩
    rintro rfl
    exact hd' (hkids j hj' hp')
  fresh j U body hj hr := h.fresh j U body (hf.count ▸ hj) (hf.recipes j ▸ hr)
  child j U hj hr := h.child j U (hf.count ▸ hj) (hf.recipes j ▸ hr)
  self j hj hd := by
    obtain ⟨hd', hji⟩ := hf.live h hi hdi hd
    rw [hf.others j hji]
    exact h.self j (hf.count ▸ hj) hd'
  home j U c d hj hd hl hp := by
    obtain ⟨hd', hji⟩ := hf.live h hi hdi hd
    rw [hf.others j hji] at hl
    exact (h.home j U c d (hf.count ▸ hj) hd' hl hp).append hf.trace
      fun k => anc_of_upstream hf.upstream
  managed j U a ha := by
    rw [hf.count, hf.fresh]
    exact h.managed j U a ((hf.manages_iff j U a).mp ha)
  owned j U a hj hd := by
    obtain ⟨hd', hji⟩ := hf.live h hi hdi hd
    rw [hf.manages_iff, hf.others j hji]
    exact h.owned j U a (hf.count ▸ hj) hd'
  unique j k U V a h₁ h₂ :=
    h.unique j k U V a ((hf.manages_iff j U a).mp h₁) ((hf.manages_iff k V a).mp h₂)
  alive j U a ha hd := by
    have ha' := (hf.manages_iff j U a).mp ha
    obtain ⟨hd', hji⟩ := hf.live h hi hdi hd
    rw [hf.count_managed h ha', h.alive j U a ha' hd',
      List.count_eq_zero.mpr (not_erased h hi hdi ha' hji)]
  once j U a ha hd := by
    have ha' := (hf.manages_iff j U a).mp ha
    rw [hf.count_managed h ha']
    by_cases hj : j = i
    · subst hj
      rw [h.alive j U a ha' hdi, count_erased h hi hdi ha']
    · have hd' := ((hf.dead_erased h hi hdi j).mp hd).resolve_right hj
      rw [h.once j U a ha' hd', List.count_eq_zero.mpr (not_erased h hi hdi ha' hj)]
  listed j U a ha hd := by
    obtain ⟨hd', hj⟩ := hf.live h hi hdi hd
    obtain ⟨pre, post, hL, hpre, hpost, hb⟩ := h.listed j U a ((hf.manages_iff j U a).mp ha) hd'
    refine ⟨pre, post, by rw [hf.others j hj]; exact hL, hpre, hpost, fun d hc => ?_⟩
    exact (hb d (hf.constructed hc)).append hf.trace fun k => anc_of_upstream hf.upstream
  entry j U hj hd hU hab := by
    obtain ⟨hd', hji⟩ := hf.live h hi hdi hd
    rw [hf.others j hji] at hU ⊢
    exact h.entry j U (hf.count ▸ hj) hd' hU hab
  order j U a d ha hc p q hs := by
    have ha' := (hf.manages_iff j U a).mp ha
    have hc' := hf.constructed hc
    rw [hf.trace] at hs
    rcases split_append hs with ⟨q', hq⟩ | ⟨p', rfl, hp'⟩
    · exact h.order j U a d ha' hc' p q' hq
    · exact List.mem_append.mpr (destroy_order h hi hdi hkids ha' hc' hp')
  bound n hn := by
    rw [hf.fresh]
    rw [hf.trace] at hn
    rcases hn with ⟨st, hst⟩ | hd
    · exact h.bound n (Or.inl ⟨st, by simpa using hst⟩)
    · rcases List.mem_append.mp hd with hd | hd
      · exact h.bound n (Or.inr hd)
      · obtain ⟨k, hk, he⟩ := erased_obj h hi hdi (a := .obj n) (by simpa using hd)
        cases he
        exact hk

theorem Inv.destroy (h : Inv ty w) (hi : i < w.count) (hdi : ¬ Dead w i)
    (hkids : ∀ j, j < w.count → (w.inj j).pUpstream_ = some i → Dead w j) :
    Inv ty (w.destroyInjector i) := h.freed hi hdi hkids (destroyInjector_frees h hi hdi)

/-! ### Sessions with a tree of injectors -/

/-- Recipes that are added return fresh objects. -/
def FreshRecipes (_ : World) : Op → Prop
  | .addRecipe _ _ body => ∀ m, (body m).Fresh ∅
  | _ => True

/-- An operation on an injector that is still there; an injector goes after its children. -/
def treeStep (ty : Types) (w : World) (op : Op) (w' : World) : Prop :=
  op.inj < w.count ∧ ¬ Dead w op.inj ∧
  (∀ i, op = .destroy i → ∀ j, j < w.count → (w.inj j).pUpstream_ = some i → Dead w j) ∧
  (op.run ty w).2 = w'

theorem insertRecipe_mute (w : World) (i : ℕ) (T : Hash_t) (recipe : Recipe)
    (hr : (∃ impl, recipe = .bind impl) ∨ ∃ body, recipe = .fn body ∧ ∀ m, (body m).Fresh ∅) :
    ∃ seg, Mute w (w.insertRecipe i T recipe) seg := by
  have hinj := insertRecipe_inj w i
  have htrace : ∃ seg, (w.insertRecipe i T recipe).trace = w.trace ++ seg ∧
      ∀ e ∈ seg, e = .overriding T := by
    unfold World.insertRecipe
    dsimp only
    split
    · exact ⟨[.overriding T], rfl, by simp⟩
    · exact ⟨[], by simp, by simp⟩
  have hfresh : w.fresh ≤ (w.insertRecipe i T recipe).fresh := by
    unfold World.insertRecipe
    dsimp only
    split <;> exact le_rfl
  obtain ⟨seg, ht, hseg⟩ := htrace
  refine ⟨seg, insertRecipe_count w i T recipe, hfresh, ht, ?_, ?_, ?_, ?_, ?_, ?_, ?_, ?_⟩
  · intro j U r hl
    rw [hinj] at hl
    split at hl
    · rename_i hj
      subst hj
      by_cases hU : U = T
      · subst hU
        rw [AList.lookup_insert] at hl
        cases hl
        exact Or.inr hr
      · rw [AList.lookup_insert_ne hU] at hl
        exact Or.inl hl
    · exact Or.inl hl
  · intro j
    rw [hinj]
    split
    · rename_i hj
      rw [hj]
    · rfl
  · intro j
    rw [hinj]
    split
    · rename_i hj
      rw [hj]
    · rfl
  · intro j U c hl
    rw [hinj]
    split
    · rename_i hj
      exact hj ▸ hl
    · exact hl
  · intro j U c hl
    rw [hinj] at hl
    split at hl
    · rename_i hj
      exact Or.inl (hj ▸ hl)
    · exact Or.inl hl
  · exact fun j U a he => by cases hseg _ he
  · exact fun a he => by cases hseg _ he
  · exact fun st n he => by cases hseg _ he

theorem treeStep_inv {op : Op} (h : Inv ty w) (hop : FreshRecipes w op)
    (hs : treeStep ty w op w') : Inv ty w' := by
  obtain ⟨hi, hd, hkids, rfl⟩ := hs
  cases op with
  | call c => exact (call_kept ⟨h, hi, hd⟩).inv
  | addRecipe i T body =>
    obtain ⟨seg, hm⟩ := insertRecipe_mute w i T (.fn body) (Or.inr ⟨body, rfl, hop⟩)
    exact h.mute hm
  | bindImpl i Interface Implementation =>
    obtain ⟨seg, hm⟩ := insertRecipe_mute w i Interface (.bind Implementation)
      (Or.inl ⟨_, rfl⟩)
    exact h.mute hm
  | destroy i => exact h.destroy hi hd (hkids i rfl)

end

end Omulator.Di
