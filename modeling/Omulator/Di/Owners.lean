import Omulator.Di.RecipeRuns

/-!
# Which objects the type maps own

For recipes that return whatever pointers they like: what a type map has come to own in the
course of a call was default-initialized or returned by a recipe, and what it owns stands on
the list of its injector.
-/

namespace Omulator.Di
open Omulator.Lib Comp

def Owns (w : World) (j : ℕ) (U : Hash_t) (a : Addr) : Prop :=
  (w.inj j).typeMap_.lookup U = some ⟨some a, true⟩

/-- `j` has on its list what it owns, and an entry for every concrete type on its list. -/
structure Booked (ty : Types) (w : World) (j : ℕ) : Prop where
  listed : ∀ U a, Owns w j U a → ty.is_abstract U = false ∧ U ∈ (w.inj j).invocationList_
  entry : ∀ U ∈ (w.inj j).invocationList_, ty.is_abstract U = false →
    (w.inj j).typeMap_.lookup U ≠ none

/-- From `w` to `w'` the trace has grown by `log`: what is owned anew was default-initialized or
returned by a recipe, and only what a recipe has returned was deleted. -/
structure Hands (w w' : World) (log : List Event) : Prop where
  trace : w'.trace = w.trace ++ log
  fresh : w.fresh ≤ w'.fresh
  owner : ∀ j U a, Owns w' j U a → Owns w j U a ∨ (∃ n, a = .obj n ∧ w.fresh ≤ n) ∨
    ∃ st, .recipeEnd st (some a) ∈ log
  destroyed : ∀ a, .destroyed a ∈ log → ∃ st, .recipeEnd st (some a) ∈ log

/-- The books of all injectors are kept, and those of new ones begun. -/
structure Books (ty : Types) (w w' : World) : Prop where
  count : w.count ≤ w'.count
  kept : ∀ j < w.count, Booked ty w j → Booked ty w' j
  begun : ∀ j, w.count ≤ j → j < w'.count → Booked ty w' j

section
variable {ty : Types} {w w' w'' : World} {i j : ℕ} {T U : Hash_t} {log log' : List Event}

theorem Booked.congr (h : Booked ty w j)
    (hm : (w'.inj j).typeMap_ = (w.inj j).typeMap_)
    (hl : (w'.inj j).invocationList_ = (w.inj j).invocationList_) : Booked ty w' j where
  listed U b ho := by
    unfold Owns at ho
    rw [hm] at ho
    rw [hl]
    exact h.listed U b ho
  entry U hU hab := by
    rw [hl] at hU
    rw [hm]
    exact h.entry U hU hab

namespace Hands

theorem same (hm : ∀ j, (w'.inj j).typeMap_ = (w.inj j).typeMap_) (hf : w.fresh ≤ w'.fresh)
    (ht : w'.trace = w.trace ++ log) (hd : ∀ a, .destroyed a ∉ log) : Hands w w' log where
  trace := ht
  fresh := hf
  owner j U a h := by
    unfold Owns at h
    rw [hm] at h
    exact Or.inl h
  destroyed a h := absurd h (hd a)

theorem refl (w : World) : Hands w w [] := same (fun _ => rfl) le_rfl (by simp) (by simp)

theorem trans (h : Hands w w' log) (h' : Hands w' w'' log') : Hands w w'' (log ++ log') where
  trace := by rw [h'.trace, h.trace, List.append_assoc]
  fresh := h.fresh.trans h'.fresh
  owner j U a ho := by
    rcases h'.owner j U a ho with ho | ⟨n, hn, hle⟩ | ⟨st, hst⟩
    · rcases h.owner j U a ho with ho | hnew | ⟨st, hst⟩
      · exact Or.inl ho
      · exact Or.inr (Or.inl hnew)
      · exact Or.inr (Or.inr ⟨st, List.mem_append_left _ hst⟩)
    · exact Or.inr (Or.inl ⟨n, hn, h.fresh.trans hle⟩)
    · exact Or.inr (Or.inr ⟨st, List.mem_append_right _ hst⟩)
  destroyed a hd := by
    rcases List.mem_append.mp hd with hd | hd
    · obtain ⟨st, hst⟩ := h.destroyed a hd
      exact ⟨st, List.mem_append_left _ hst⟩
    · obtain ⟨st, hst⟩ := h'.destroyed a hd
      exact ⟨st, List.mem_append_right _ hst⟩

theorem emit {e : Event} (w : World) (he : ∀ a, e ≠ .destroyed a) : Hands w (w.emit e) [e] :=
  same (fun _ => rfl) le_rfl rfl fun a ha => he a (List.mem_singleton.mp ha).symm

theorem newChild (o : ℕ) (w : World) : Hands w (w.newChild o) [] where
  trace := by simp
  fresh := le_rfl
  owner j U a h := by
    unfold Owns at h
    by_cases hj : j = w.count
    · subst hj
      rw [World.newChild_inj_self] at h
      obtain ⟨_, hc⟩ := Injector.construct_entry h
      cases hc
    · rw [World.newChild_inj_ne _ _ _ hj] at h
      exact Or.inl h
  destroyed a h := by cases h

theorem adopt {u : World} {q : Option Addr} {st : ℕ} (h : Hands w u log)
    (hq : .recipeEnd st q ∈ log) (ht : w'.trace = u.trace ++ log') (hf : u.fresh ≤ w'.fresh)
    (ho : ∀ j U a, Owns w' j U a → Owns u j U a ∨ q = some a)
    (hd : ∀ a, .destroyed a ∈ log' → q = some a) : Hands w w' (log ++ log') where
  trace := by rw [ht, h.trace, List.append_assoc]
  fresh := h.fresh.trans hf
  owner j U a hown := by
    rcases ho j U a hown with hown | rfl
    · rcases h.owner j U a hown with hown | hnew | ⟨st', hst⟩
      · exact Or.inl hown
      · exact Or.inr (Or.inl hnew)
      · exact Or.inr (Or.inr ⟨st', List.mem_append_left _ hst⟩)
    · exact Or.inr (Or.inr ⟨st, List.mem_append_left _ hq⟩)
  destroyed a ha := by
    rcases List.mem_append.mp ha with ha | ha
    · obtain ⟨st', hst⟩ := h.destroyed a ha
      exact ⟨st', List.mem_append_left _ hst⟩
    · rw [hd a ha] at hq
      exact ⟨st, List.mem_append_left _ hq⟩

end Hands

namespace Books

theorem same (hc : w'.count = w.count) (hm : ∀ j, (w'.inj j).typeMap_ = (w.inj j).typeMap_)
    (hl : ∀ j, (w'.inj j).invocationList_ = (w.inj j).invocationList_) : Books ty w w' where
  count := hc.ge
  kept j _ h := h.congr (hm j) (hl j)
  begun j hj hj' := by omega

theorem refl (w : World) : Books ty w w := same rfl (fun _ => rfl) fun _ => rfl

theorem trans (h : Books ty w w') (h' : Books ty w' w'') : Books ty w w'' where
  count := h.count.trans h'.count
  kept j hj hb := h'.kept j (Nat.lt_of_lt_of_le hj h.count) (h.kept j hj hb)
  begun j hj hj' := by
    by_cases hlt : j < w'.count
    · exact h'.kept j hlt (h.begun j hj hlt)
    · exact h'.begun j (by omega) hj'

theorem enter (i : ℕ) (T : Hash_t) (w : World) : Books ty w (enter i T w) := by
  refine same rfl (fun j => enter_typeMap i j T w) fun j => ?_
  by_cases hj : j = i
  · rw [hj, enter_inj_self]
  · rw [enter_inj_ne hj]

theorem newChild (o : ℕ) (w : World) : Books ty w (w.newChild o) where
  count := Nat.le_succ _
  kept j hj h := by
    have hsame : (w.newChild o).inj j = w.inj j := World.newChild_inj_ne _ _ _ (by omega)
    exact h.congr (by rw [hsame]) (by rw [hsame])
  begun j hj hj' := by
    have hjc : j = w.count := by
      simp only [World.newChild_count] at hj'
      omega
    subst hjc
    refine ⟨fun U a ho => ?_, ?_⟩
    · unfold Owns at ho
      rw [World.newChild_inj_self] at ho
      obtain ⟨_, hc⟩ := Injector.construct_entry ho
      cases hc
    · rw [World.newChild_inj_self]
      simp [Injector.construct]

theorem placed {o : ℕ} (hp : Placed o T w w') (ho : ∀ j U a, Owns w' j U a → Owns w j U a) :
    Books ty w w' where
  count := hp.count.ge
  kept j hj h := by
    refine ⟨fun U a hown => ?_, fun U hU hab => ?_⟩
    · rw [(hp.stays j).2.1]
      exact h.listed U a (ho j U a hown)
    · rw [(hp.stays j).2.1] at hU
      obtain ⟨c, hc⟩ := Option.ne_none_iff_exists'.mp (h.entry U hU hab)
      rw [hp.lookup_some hc]
      exact Option.some_ne_none c
  begun j hj hj' := by
    rw [hp.count] at hj'
    omega

theorem injected (hp : Placed i T w w') (hab : ty.is_abstract T = false)
    (hl : (w'.inj i).typeMap_.lookup T ≠ none) (b : Bool) :
    Books ty w (leave i T .REFERENCE b w') where
  count := by rw [leave_count]; exact hp.count.ge
  kept j hj h := by
    have hmap : ∀ U, U ≠ T ∨ j ≠ i →
        ((leave i T .REFERENCE b w').inj j).typeMap_.lookup U = (w.inj j).typeMap_.lookup U := by
      intro U hU
      rw [leave_typeMap]
      exact hp.lookup_ne hU.symm
    by_cases hji : j = i
    · subst hji
      have hlist : ((leave j T .REFERENCE b w').inj j).invocationList_ =
          (w.inj j).invocationList_ ++ [T] := by
        rw [leave_inj_self]
        simp [(hp.stays j).2.1]
      refine ⟨fun U a ho => ?_, fun U hU hab' => ?_⟩
      · rw [hlist]
        by_cases hU : U = T
        · subst hU
          exact ⟨hab, by simp⟩
        · unfold Owns at ho
          rw [hmap U (Or.inl hU)] at ho
          obtain ⟨hab', hmem⟩ := h.listed U a ho
          exact ⟨hab', List.mem_append_left _ hmem⟩
      · by_cases hUT : U = T
        · subst hUT
          rw [leave_typeMap]
          exact hl
        · rw [hmap U (Or.inl hUT)]
          rw [hlist, List.mem_append, List.mem_singleton] at hU
          exact h.entry U (hU.resolve_right hUT) hab'
    · have hlist : ((leave i T .REFERENCE b w').inj j).invocationList_ =
          (w.inj j).invocationList_ := by
        rw [leave_inj_ne hji, (hp.stays j).2.1]
      refine ⟨fun U a ho => ?_, fun U hU hab' => ?_⟩
      · unfold Owns at ho
        rw [hmap U (Or.inr hji)] at ho
        rw [hlist]
        exact h.listed U a ho
      · rw [hmap U (Or.inr hji)]
        rw [hlist] at hU
        exact h.entry U hU hab'
  begun j hj hj' := by
    rw [leave_count, hp.count] at hj'
    omega

theorem uninjected {d : DepType_t} (hinj : w'.inj = w.inj) (hc : w'.count = w.count)
    (hab : d = .NEW_VALUE ∨ ty.is_abstract T = true) (b : Bool) :
    Books ty w (leave i T d b w') where
  count := by rw [leave_count, hc]
  kept j hj h := by
    have hmap : ((leave i T d b w').inj j).typeMap_ = (w.inj j).typeMap_ := by
      rw [leave_typeMap, hinj]
    have hlist : ∀ U, U ∈ ((leave i T d b w').inj j).invocationList_ ↔
        U ∈ (w.inj j).invocationList_ ∨ (j = i ∧ d ≠ .NEW_VALUE ∧ U = T) := by
      intro U
      by_cases hji : j = i
      · subst hji
        rw [leave_inj_self, hinj]
        by_cases hd : d = .NEW_VALUE
        · simp [hd]
        · simp [hd]
      · rw [leave_inj_ne hji, hinj]
        simp [hji]
    refine ⟨fun U a ho => ?_, fun U hU hab' => ?_⟩
    · unfold Owns at ho
      rw [hmap] at ho
      obtain ⟨hab', hmem⟩ := h.listed U a ho
      exact ⟨hab', (hlist U).mpr (Or.inl hmem)⟩
    · rw [hmap]
      rcases (hlist U).mp hU with hU | ⟨_, hd, rfl⟩
      · exact h.entry U hU hab'
      · rw [hab.resolve_left hd] at hab'
        cases hab'
  begun j hj hj' := by
    rw [leave_count, hc] at hj'
    omega

end Books
end

/-! ### Every call -/

/-- What is known of the ownership after something that began in `w`. -/
def Handled (ty : Types) (w w' : World) : Prop := (∃ log, Hands w w' log) ∧ Books ty w w'

section
variable {ty : Types} {rec : Call → M (Option Addr)} {w w' w'' : World} {i j : ℕ} {T U : Hash_t}

theorem Handled.refl (w : World) : Handled ty w w := ⟨⟨[], .refl w⟩, .refl w⟩

theorem Handled.trans (h : Handled ty w w') (h' : Handled ty w' w'') : Handled ty w w'' := by
  obtain ⟨⟨log, hl⟩, hb⟩ := h
  obtain ⟨⟨log', hl'⟩, hb'⟩ := h'
  exact ⟨⟨log ++ log', hl.trans hl'⟩, hb.trans hb'⟩

theorem Handled.emit {e : Event} (h : Handled ty w w') (he : ∀ a, e ≠ .destroyed a) :
    Handled ty w (w'.emit e) :=
  h.trans ⟨⟨[e], .emit w' he⟩, .same rfl (fun _ => rfl) fun _ => rfl⟩

abbrev Handles (ty : Types) (rec : Call → M (Option Addr)) : Prop :=
  ∀ c w, wp (rec c) (fun _ w' => Handled ty w w') w

theorem runProg_handles (hrec : Handles ty rec) (i : ℕ) (p : Prog) (w : World) :
    wp (runProg rec i p) (fun _ w' => Handled ty w w') w := by
  induction p generalizing w with
  | new =>
    refine wp_look.mpr (wp_change.mpr ((wp_ret _).mpr ⟨⟨[], ?_⟩, ?_⟩))
    · exact .same (fun _ => rfl) (Nat.le_succ _) (by simp) (by simp)
    · exact .same rfl (fun _ => rfl) fun _ => rfl
  | ret p => exact (wp_ret _).mpr (.refl w)
  | throw e => exact (wp_raise _).mpr (.refl w)
  | get U k ih | creat U k ih =>
    rw [runProg, wp_attempt]
    refine wp_mono (hrec _ w) ?_
    intro r u h
    exact wp_mono (ih r u) fun _ _ h' => h.trans h'

theorem emplace_impl_trace (w : World) (o : ℕ) (T : Hash_t) (p : Option Addr) :
    (w.emplace_impl o T p).trace = w.trace := by
  rw [World.emplace_impl, World.onTypeMap_trace]
  cases hk : (w.inj o).typeMap_.has_key T with
  | true => rw [TypeMap.emplace_impl_of_has hk, List.map_nil, List.append_nil]
  | false => rw [TypeMap.emplace_impl_of_not_has hk, List.map_nil, List.append_nil]

theorem owns_placed {c : TypeContainer} (hp : Placed i T w w')
    (hnew : (w'.inj i).typeMap_.lookup T = some (((w.inj i).typeMap_.lookup T).getD c))
    {a : Addr} (h : Owns w' j U a) : Owns w j U a ∨ c = ⟨some a, true⟩ := by
  unfold Owns at h ⊢
  by_cases hne : j ≠ i ∨ U ≠ T
  · rw [hp.lookup_ne hne] at h
    exact Or.inl h
  · push Not at hne
    obtain ⟨rfl, rfl⟩ := hne
    rw [hnew] at h
    cases hl : (w.inj j).typeMap_.lookup U with
    | none =>
      rw [hl, Option.getD_none, Option.some.injEq] at h
      exact Or.inr h
    | some c =>
      rw [hl, Option.getD_some] at h
      exact Or.inl h

theorem recipeClosure_handles (hrec : Handles ty rec) (o i : ℕ) (T : Hash_t) (recipe : Recipe)
    (w : World) : wp (recipeClosure rec o T recipe i) (fun r u => ∃ log, Hands w u log ∧
      Books ty w u ∧ ∀ c, r = .ok c → ∃ st p, c = ⟨p, true⟩ ∧ .recipeEnd st p ∈ log) w := by
  have hstart : Handled ty w (w.emit (.recipe T i o)) := (Handled.refl w).emit (by simp)
  have hfail : ∀ {e : Exn} {u : World}, Handled ty w u → ∃ log, Hands w u log ∧
      Books ty w u ∧ ∀ c, (.error e : Except Exn TypeContainer) = .ok c →
        ∃ st p, c = ⟨p, true⟩ ∧ .recipeEnd st p ∈ log := by
    intro e u hu
    obtain ⟨⟨log, hl⟩, hb⟩ := hu
    exact ⟨log, hl, hb, by simp⟩
  have hdone : ∀ {p : Option Addr} {u : World}, Handled ty w u → ∃ log,
      Hands w (u.emit (.recipeEnd w.trace.length p)) log ∧
      Books ty w (u.emit (.recipeEnd w.trace.length p)) ∧
      ∀ c, (.ok ⟨p, true⟩ : Except Exn TypeContainer) = .ok c →
        ∃ st q, c = ⟨q, true⟩ ∧ .recipeEnd st q ∈ log := by
    intro p u hu
    obtain ⟨⟨log, hl⟩, hb⟩ := hu
    refine ⟨log ++ [.recipeEnd w.trace.length p], hl.trans (.emit u (by simp)),
      hb.trans (.same rfl (fun _ => rfl) fun _ => rfl), ?_⟩
    intro c hc
    cases hc
    exact ⟨w.trace.length, p, rfl, by simp⟩
  refine wp_recipeClosure_cases rec (fun body _ => ?_) (fun impl _ => ?_) fun _ => ?_
  · refine wp_mono (runProg_handles hrec o (body w.trace.length) _) ?_
    intro r u h
    cases r with
    | error e => exact hfail (hstart.trans h)
    | ok p => exact hdone (hstart.trans h)
  · refine wp_mono (hrec ⟨.get, o, impl⟩ _) ?_
    intro r u h
    cases r with
    | error e => exact hfail (hstart.trans h)
    | ok p =>
      have hput : Handled ty u (u.emplace_impl o T p) := by
        have hown : ∀ j U a, Owns (u.emplace_impl o T p) j U a → Owns u j U a := by
          have hnew : ((u.emplace_impl o T p).inj o).typeMap_.lookup T =
              some (((u.inj o).typeMap_.lookup T).getD ⟨p, false⟩) := by
            rw [World.emplace_impl, World.onTypeMap_inj_self, TypeMap.emplace_impl_lookup]
          intro j U a ho
          exact (owns_placed (Placed.emplace_impl o T p u) hnew ho).resolve_right (by simp)
        refine ⟨⟨[], ?_, le_rfl, fun j U a ho => Or.inl (hown j U a ho), by simp⟩, ?_⟩
        · rw [emplace_impl_trace, List.append_nil]
        · exact .placed (Placed.emplace_impl o T p u) hown
      exact hdone ((hstart.trans h).trans hput)
  · exact hdone (hstart.trans ⟨⟨[], .newChild o _⟩, .newChild o _⟩)

theorem owns_leave {d : DepType_t} {b : Bool} {a : Addr} :
    Owns (leave i T d b w) j U a ↔ Owns w j U a := by
  unfold Owns
  rw [leave_typeMap]

theorem place_handles {d : DepType_t} {u : World} {log : List Event} {p : Option Addr} {st : ℕ}
    (hl : Hands w u log) (hb : Books ty w u) (hp : .recipeEnd st p ∈ log) (b : Bool) :
    wp (place ty i T d ⟨p, true⟩) (fun _ w' => Handled ty w (leave i T d b w')) u := by
  refine wp_place ty (fun hab => ⟨⟨log ++ p.toList.map .destroyed, ?_⟩, ?_⟩) (fun _ hd => ?_)
    fun hab hd => ?_
  · refine hl.adopt hp (by simp [TypeContainer.release_]) (by simp) ?_ (by simp)
    intro j U a h
    have ho : Owns (u.destroyAll ({ ptr_ := p, hasOwnership_ := true } : TypeContainer).release_)
      j U a := owns_leave.mp h
    exact Or.inl ho
  · have hleft : Books ty u (leave i T d b
        (u.destroyAll ({ ptr_ := p, hasOwnership_ := true } : TypeContainer).release_)) :=
      .uninjected (by rfl) (by rfl) (Or.inr hab) b
    exact hb.trans hleft
  · subst hd
    refine ⟨⟨log ++ [], ?_⟩, hb.trans (.uninjected rfl rfl (Or.inl rfl) b)⟩
    refine hl.adopt hp (by simp) (by simp) ?_ (by simp)
    intro j U a h
    exact Or.inl (owns_leave.mp h)
  · subst hd
    have hput := Placed.emplace_ptr i T p u
    have hnew := emplace_ptr_lookup_self u i T p
    obtain ⟨log', hlog, _, hdel⟩ := emplace_ptr_log u i T p
    refine ⟨⟨log ++ log', ?_⟩, ?_⟩
    · refine hl.adopt hp (by rw [leave_trace]; exact hlog) ?_ ?_ hdel
      · rw [leave_fresh]
        exact hput.fresh
      · intro j U a h
        exact (owns_placed hput hnew (owns_leave.mp h)).imp_right (congrArg TypeContainer.ptr_)
    · have hne : ((u.emplace_ptr i T p).inj i).typeMap_.lookup T ≠ none := by
        rw [hnew]
        exact Option.some_ne_none _
      exact hb.trans (.injected hput hab hne b)

theorem emplace_nothing (m : TypeMap) (T : Hash_t) (made : Option Addr) :
    (m.emplace T made).2 = [] := by
  cases hk : m.has_key T with
  | true => rw [TypeMap.emplace_of_has hk]
  | false => rw [TypeMap.emplace_of_not_has hk]

theorem emplaceDefault_handles (hab : ty.is_abstract T = false) (w : World) :
    wp (emplaceDefault ty i T) (fun r w' => match r with
      | .error _ => Handled ty w w'
      | .ok _ => ∀ b, Handled ty w (leave i T .REFERENCE b w')) w := by
  refine wp_emplaceDefault ty (fun hhas => ?_) (fun hhas n _ => ?_) fun _ _ b => ?_
  · have hne : (w.inj i).typeMap_.lookup T ≠ none := by
      obtain ⟨c, hc⟩ := (TypeMap.has_key_iff _ T).mp hhas
      rw [hc]
      exact Option.some_ne_none c
    refine fun b => ⟨⟨[], ?_⟩, .injected (.refl i T w) hab hne b⟩
    exact .same (fun j => leave_typeMap i j T _ b w) (by simp) (by simp) (by simp)
  · have hnone := no_instance_iff.mp hhas
    have hput := Placed.onTypeMap i T w _ fun m => m.adds_emplace T none
    have hown : ∀ j U a, Owns (w.onTypeMap i (·.emplace T none)) j U a → Owns w j U a := by
      have hnew : ((w.onTypeMap i (·.emplace T none)).inj i).typeMap_.lookup T =
          some (((w.inj i).typeMap_.lookup T).getD ⟨none, false⟩) := by
        rw [World.onTypeMap_inj_self, TypeMap.emplace_lookup]
        rfl
      intro j U a h
      exact (owns_placed hput hnew h).resolve_right (by simp)
    refine ⟨⟨[], ?_, hput.fresh, ?_, by simp⟩, .placed hput hown⟩
    · simp [emplace_nothing]
    · exact fun j U a h => Or.inl (hown j U a h)
  · have hput := Placed.onTypeMap i T w.alloc _ fun m => m.adds_emplace T (some (.obj w.fresh))
    have hput' : Placed i T w (((w.alloc.onTypeMap i (·.emplace T (some (.obj w.fresh)))).emit
        (.built T (.obj w.fresh))).emit (.managed i T (.obj w.fresh))) :=
      ((hput.emit _).emit _).of_alloc
    have hnew : ((((w.alloc.onTypeMap i (·.emplace T (some (.obj w.fresh)))).emit
        (.built T (.obj w.fresh))).emit (.managed i T (.obj w.fresh))).inj i).typeMap_.lookup T =
          some (((w.inj i).typeMap_.lookup T).getD ⟨some (.obj w.fresh), true⟩) := by
      rw [World.emit_inj, World.emit_inj, World.onTypeMap_inj_self]
      exact TypeMap.emplace_lookup _ T _
    refine ⟨⟨[.built T (.obj w.fresh), .managed i T (.obj w.fresh)], ?_, ?_, ?_, ?_⟩, ?_⟩
    · rw [leave_trace]
      simp [emplace_nothing]
    · rw [leave_fresh]
      exact hput'.fresh
    · intro j U a h
      rcases owns_placed hput' hnew (owns_leave.mp h) with ho | ha
      · exact Or.inl ho
      · exact Or.inr (Or.inl ⟨w.fresh, (Option.some.inj (congrArg TypeContainer.ptr_ ha)).symm,
          le_rfl⟩)
    · simp
    · refine .injected hput' hab ?_ b
      rw [hnew]
      exact Option.some_ne_none _

theorem createInstance_handles (w : World) :
    wp (createInstance ty T) (fun r w' => match r with
      | .error _ => Handled ty w w'
      | .ok _ => ∀ b, Handled ty w (leave i T .NEW_VALUE b w')) w := by
  refine wp_createInstance ty (fun _ _ => .refl w) fun _ b => ⟨⟨[.built T (.obj w.fresh)], ?_⟩, ?_⟩
  · refine .same (fun j => leave_typeMap i j T _ b _) ?_ (by simp) (by simp)
    rw [leave_fresh]
    exact Nat.le_succ _
  · have hleft : Books ty w (leave i T .NEW_VALUE b (w.alloc.emit (.built T (.obj w.fresh)))) :=
      .uninjected (by rfl) (by rfl) (Or.inl rfl) b
    exact hleft

theorem inject_handles (hrec : Handles ty rec) (i : ℕ) (T : Hash_t) (d : DepType_t) (w : World) :
    wp (inject_ ty rec i T d) (fun r w' => match r with
      | .error _ => Handled ty w w'
      | .ok _ => ∀ b, Handled ty w (leave i T d b w')) w := by
  refine wp_inject ty rec (fun o recipe _ => ?_) (fun e _ _ => .refl w) (fun _ _ _ hd => ?_)
    fun _ hab _ hd => ?_
  · refine wp_mono (recipeClosure_handles hrec _ i T _ w) ?_
    rintro r u ⟨log, hl, hb, hc⟩
    cases r with
    | error e => exact ⟨⟨log, hl⟩, hb⟩
    | ok c =>
      obtain ⟨st, p, rfl, hp⟩ := hc c rfl
      intro r' w' hplace
      obtain ⟨c', rfl⟩ := place_ok i T d _ u r' w' hplace
      exact fun b => place_handles hl hb hp b _ _ hplace
  · subst hd
    exact createInstance_handles w
  · subst hd
    exact emplaceDefault_handles hab w

theorem makeDependency_handles (hrec : Handles ty rec) (i : ℕ) (T : Hash_t) (d : DepType_t)
    (w : World) : wp (makeDependency_ ty rec i T d) (fun _ w' => Handled ty w w') w := by
  refine wp_makeDependency ty rec (fun _ _ => .refl w) fun _ => ?_
  have hent : Handled ty w (enter i T w) :=
    ⟨⟨[], .same (fun j => enter_typeMap i j T w) (by simp) (by simp) (by simp)⟩, .enter i T w⟩
  refine wp_mono (inject_handles hrec i T d (enter i T w)) ?_
  intro r u h
  cases r with
  | error e => exact hent.trans h
  | ok c => exact hent.trans (h _)

theorem refOf_handles (i : ℕ) (T : Hash_t) (w : World) :
    wp (refOf i T) (fun _ w' => Handled ty w w') w :=
  wp_refOf (fun _ => .refl w) fun _ _ => (Handled.refl w).emit (by simp)

theorem callBody_handles (hrec : Handles ty rec) : Handles ty (callBody ty rec) := by
  rintro ⟨kind, i, T⟩ w
  have hasked : ∀ k, Handled ty w (w.emit (.asked k i T)) := fun k =>
    (Handled.refl w).emit (by simp)
  cases kind with
  | get =>
    refine wp_get ty rec (fun c _ => ?_) (fun _ q _ _ => ?_) fun _ _ => ?_
    · exact wp_mono (refOf_handles i T _) fun _ _ h => (hasked .get).trans h
    · refine wp_mono (hrec _ _) ?_
      intro r u h
      cases r with
      | error e => exact (hasked .get).trans h
      | ok p => exact ((hasked .get).trans h).emit (by simp)
    · refine wp_mono (makeDependency_handles hrec i T .REFERENCE _) ?_
      intro r u h
      cases r with
      | error e => exact (hasked .get).trans h
      | ok c => exact wp_mono (refOf_handles i T u) fun _ _ h' => ((hasked .get).trans h).trans h'
  | creat =>
    refine wp_creat ty rec (wp_mono (makeDependency_handles hrec i T .NEW_VALUE _) ?_)
    intro r u h
    have h' := (hasked .creat).trans h
    cases r with
    | error e => exact h'
    | ok c => exact ⟨fun _ => h', fun _ => h'⟩

theorem exec_handles (fuel : ℕ) : Handles ty (exec ty fuel) := by
  induction fuel with
  | zero => intro c w r u h; cases h
  | succ fuel ih => exact callBody_handles ih

theorem call_handles {c : Call} (hw : w.WF) (hi : c.inj < w.count) :
    Handled ty w (w.call ty c).2 :=
  call_of_wp (Q := fun _ u => Handled ty w u) hw hi fun fuel => exec_handles fuel c w

end

/-! ### The books of a session -/

structure KeepsBooks (ty : Types) (s : Session) : Prop where
  wf : s.world.WF
  booked : ∀ j < s.world.count, j ∉ s.destroyed → Booked ty s.world j

section
variable {ty : Types} {s t : Session}

theorem insertRecipe_typeMap (w : World) (k j : ℕ) (U : Hash_t) (recipe : Recipe) :
    ((w.insertRecipe k U recipe).inj j).typeMap_ = (w.inj j).typeMap_ := by
  rw [insertRecipe_inj]
  split
  · rename_i hj
    rw [hj]
  · rfl

theorem insertRecipe_list (w : World) (k j : ℕ) (U : Hash_t) (recipe : Recipe) :
    ((w.insertRecipe k U recipe).inj j).invocationList_ = (w.inj j).invocationList_ := by
  rw [insertRecipe_inj]
  split
  · rename_i hj
    rw [hj]
  · rfl

namespace KeepsBooks

theorem call {c : Call} (h : KeepsBooks ty s) (hi : c.inj < s.world.count) :
    KeepsBooks ty ⟨(s.world.call ty c).2, s.destroyed⟩ := by
  have hbooks : Books ty s.world (s.world.call ty c).2 := (call_handles h.wf hi).2
  refine ⟨call_wf h.wf hi, fun j hj hd => ?_⟩
  by_cases hlt : j < s.world.count
  · exact hbooks.kept j hlt (h.booked j hlt hd)
  · exact hbooks.begun j (by omega) hj

theorem insertRecipe (h : KeepsBooks ty s) (k : ℕ) (U : Hash_t) (recipe : Recipe) :
    KeepsBooks ty ⟨s.world.insertRecipe k U recipe, s.destroyed⟩ := by
  refine ⟨insertRecipe_wf h.wf k U _, fun j hj hd => ?_⟩
  have hlt : j < s.world.count := insertRecipe_count s.world k U recipe ▸ hj
  exact (h.booked j hlt hd).congr (insertRecipe_typeMap _ k j U _) (insertRecipe_list _ k j U _)

theorem destroy (h : KeepsBooks ty s) (k : ℕ) :
    KeepsBooks ty ⟨s.world.destroyInjector k, {k} ∪ s.destroyed⟩ := by
  obtain ⟨_, hf, _, _⟩ := destroyInjector_deletes s.world k
  refine ⟨destroyInjector_wf h.wf k, fun j hj hd => ?_⟩
  have hd' : j ≠ k ∧ j ∉ s.destroyed := by simpa using hd
  have hlt : j < s.world.count := hf.count ▸ hj
  have hsame : (s.world.destroyInjector k).inj j = s.world.inj j := hf.others j hd'.1
  exact (h.booked j hlt hd'.2).congr (by rw [hsame]) (by rw [hsame])

end KeepsBooks

theorem after_of_keeps {op : Op} (hno : op.destroys = ∅) :
    s.after ty op = ⟨(op.run ty s.world).2, s.destroyed⟩ := by
  rw [Session.after, hno, Finset.empty_union]

theorem KeepsBooks.step {op : Op} (h : KeepsBooks ty s) (hstep : sessionStep ty s op t) :
    KeepsBooks ty t := by
  obtain ⟨hi, _, _, rfl⟩ := hstep
  cases op with
  | call c =>
    rw [after_of_keeps rfl]
    exact h.call hi
  | addRecipe k U body =>
    rw [after_of_keeps rfl]
    exact h.insertRecipe k U (.fn body)
  | bindImpl k Interface Implementation =>
    rw [after_of_keeps rfl]
    exact h.insertRecipe k Interface (.bind Implementation)
  | destroy k => exact h.destroy k

theorem session_kept (h : Run (sessionStep ty) Session.start s) : KeepsBooks ty s := by
  refine h.invariant (KeepsBooks ty) ⟨root_wf, fun j _ _ => ⟨fun U b ho => ?_, ?_⟩⟩ ?_
  · obtain ⟨_, hc⟩ := Injector.construct_entry ho
    cases hc
  · simp [Session.start, World.root, Injector.construct]
  · intro s op t hk _ hstep
    exact hk.step hstep

end

end Omulator.Di
