import Omulator.Di.Dfs

/-!
# Failure and the bookkeeping

`makeDependency_` undoes its bookkeeping on the way back from `inject_` but not on the
way out of an exception. The root injector stays idle between its calls exactly as long
as no injection fails, and as long as it does every call gives what the depth-first run
of the recipes gives.
-/

namespace Omulator.Di
open Omulator.Lib

/-- No injection fails in the run for the operation, from the state before it. -/
def Unbroken (ty : Types) (w : World) (a : Op × Outcome) : Prop :=
  match a.1 with
  | .call c => ∃ r, (w.visit ty c.kind c.type).1 = .ok r
  | _ => True

def AsVisited (ty : Types) (w : World) (a : Op × Outcome) : Prop :=
  match a.1 with
  | .call c => (w.visit ty c.kind c.type).1 = .ok a.2
  | _ => True

/-- The root injector between two operations. -/
def World.AtRest (w : World) : Prop := (∃ R, Rooted R w) ∧ w.Idle

section
variable {ty : Types} {w w' : World} {a : Op × Outcome}

theorem root_atRest : World.root.AtRest :=
  ⟨⟨_, root_wf, Nat.zero_lt_one, rfl, rfl⟩, rfl, rfl⟩

theorem insertRecipe_rooted {R : AList fun _ : Hash_t => Recipe} (h : Rooted R w) (T : Hash_t)
    (recipe : Recipe) : Rooted (R.insert T recipe) (w.insertRecipe 0 T recipe) where
  wf := insertRecipe_wf h.wf 0 T recipe
  lt := by rw [insertRecipe_count]; exact h.lt
  root := by simp [insertRecipe_inj, h.root]
  recipes := by simp [insertRecipe_inj, h.recipes]

theorem insertRecipe_idle (h : w.Idle) (T : Hash_t) (recipe : Recipe) :
    (w.insertRecipe 0 T recipe).Idle := by
  have h1 := h.1
  have h2 := h.2
  exact ⟨by simp [insertRecipe_inj, h1], by simp [insertRecipe_inj, h2]⟩

theorem insertRecipe_atRest (h : w.AtRest) (T : Hash_t) (recipe : Recipe) :
    (w.insertRecipe 0 T recipe).AtRest := by
  obtain ⟨⟨R, hR⟩, hidle⟩ := h
  exact ⟨⟨_, insertRecipe_rooted hR T recipe⟩, insertRecipe_idle hidle T recipe⟩

/-- A call leaves the injector idle exactly when no injection failed in it. -/
theorem call_idle_iff (h : w.AtRest) (kind : Kind) (T : Hash_t) :
    (w.call ty ⟨kind, 0, T⟩).2.Idle ↔ ∃ r, (w.visit ty kind T).1 = .ok r := by
  obtain ⟨⟨R, hR⟩, hidle⟩ := h
  have ht := (call_tracks_visit hR hidle kind T : _ ∧ Tracked _ _ _ (w.call ty _).1 _ _ _).2
  generalize hv : (w.visit ty kind T).1 = v at ht ⊢
  generalize (w.visit ty kind T).2 = u at ht
  cases ht with
  | same hb => exact ⟨fun _ => ⟨_, rfl⟩, fun _ => (idle_book hb.toRooted).mpr hb⟩
  | lost hs _ =>
    constructor
    · intro hi
      exact absurd hi hs.not_idle
    · rintro ⟨r, hr⟩
      cases hr

theorem call_visit (h : w.AtRest) (kind : Kind) (T : Hash_t) {r : Outcome}
    (hv : (w.visit ty kind T).1 = .ok r) : (w.call ty ⟨kind, 0, T⟩).1 = r := by
  obtain ⟨⟨R, hR⟩, hidle⟩ := h
  have ht := (call_tracks_visit hR hidle kind T : _ ∧ Tracked _ _ _ (w.call ty _).1 _ _ _).2
  rw [hv] at ht
  generalize (w.visit ty kind T).2 = u at ht
  cases ht with
  | same _ => rfl

theorem call_atRest (h : w.AtRest) (kind : Kind) (T : Hash_t)
    (hi : (w.call ty ⟨kind, 0, T⟩).2.Idle) : (w.call ty ⟨kind, 0, T⟩).2.AtRest := by
  obtain ⟨⟨R, hR⟩, _⟩ := h
  have he : Ext 0 w (w.call ty ⟨kind, 0, T⟩).2 :=
    call_ext (c := ⟨kind, 0, T⟩) hR.wf hR.lt
  exact ⟨⟨R, hR.ext he⟩, hi⟩

theorem step_idle_iff (h : w.AtRest) (hs : rootStep ty w a w') : Unbroken ty w a ↔ w'.Idle := by
  obtain ⟨op, r⟩ := a
  obtain ⟨hroot, hrun⟩ := hs
  have hw' : (op.run ty w).2 = w' := congrArg Prod.snd hrun
  cases op with
  | call c =>
    obtain ⟨kind, i, T⟩ := c
    have hi : i = 0 := hroot
    subst hi hw'
    exact (call_idle_iff h kind T).symm
  | addRecipe i T body =>
    have hi : i = 0 := hroot
    subst hi hw'
    exact iff_of_true trivial (insertRecipe_idle h.2 T _)
  | bindImpl i Interface Implementation =>
    have hi : i = 0 := hroot
    subst hi hw'
    exact iff_of_true trivial (insertRecipe_idle h.2 Interface _)
  | destroy i => exact absurd hroot id

theorem step_atRest (h : w.AtRest) (hs : rootStep ty w a w') (hi : w'.Idle) : w'.AtRest := by
  obtain ⟨op, r⟩ := a
  obtain ⟨hroot, hrun⟩ := hs
  have hw' : (op.run ty w).2 = w' := congrArg Prod.snd hrun
  cases op with
  | call c =>
    obtain ⟨kind, i, T⟩ := c
    have hi : i = 0 := hroot
    subst hi hw'
    exact call_atRest h kind T ‹_›
  | addRecipe i T body =>
    have hi : i = 0 := hroot
    subst hi hw'
    exact insertRecipe_atRest h T _
  | bindImpl i Interface Implementation =>
    have hi : i = 0 := hroot
    subst hi hw'
    exact insertRecipe_atRest h Interface _
  | destroy i => exact absurd hroot id

theorem step_asVisited (h : w.AtRest) (hs : rootStep ty w a w') (hu : Unbroken ty w a) :
    AsVisited ty w a := by
  obtain ⟨op, r⟩ := a
  obtain ⟨hroot, hrun⟩ := hs
  cases op with
  | call c =>
    obtain ⟨kind, i, T⟩ := c
    have hi : i = 0 := hroot
    subst hi
    obtain ⟨r', hv⟩ := hu
    have hr : (w.call ty ⟨kind, 0, T⟩).1 = r := congrArg Prod.fst hrun
    have hcall := call_visit h kind T hv
    change (w.visit ty kind T).1 = .ok r
    rw [hv, ← hcall, hr]
  | addRecipe _ _ _ | bindImpl _ _ _ | destroy _ => trivial

end

/-- In a session on the root injector the bookkeeping is clear after every operation
exactly if no injection fails in any of them, and then every call gives what the run of
the recipes gives. -/
theorem idle_iff_unbroken (ty : Types) (tr : List ((Op × Outcome) × World))
    (h : IsTrace (rootStep ty) World.root tr) :
    (StepsMeet (Unbroken ty) World.root tr ↔ StatesMeet World.Idle tr) ∧
    (StepsMeet (Unbroken ty) World.root tr → StepsMeet (AsVisited ty) World.root tr) := by
  have keep : ∀ w a w', World.AtRest w → rootStep ty w a w' → Unbroken ty w a → w'.AtRest :=
    fun w a w' hw hs hu => step_atRest hw hs ((step_idle_iff hw hs).mp hu)
  constructor
  · exact steps_iff_states World.AtRest (fun w a w' hw hs => step_idle_iff hw hs) keep _ tr
      root_atRest h
  · exact stepsMeet_imp World.AtRest (fun w a w' hw hs hu => step_asVisited hw hs hu) keep _ tr
      root_atRest h

/-- `get<I>()` for an abstract `I`, then `bindImpl<I, Impl>()`, then `get<I>()` again. -/
def bindAfterFailure : List Op :=
  [.call ⟨.get, 0, 1⟩, .bindImpl 0 1 2, .call ⟨.get, 0, 1⟩]

def Op.record (ty : Types) : World → List Op → List ((Op × Outcome) × World)
  | _, [] => []
  | w, op :: ops => ((op, (op.run ty w).1), (op.run ty w).2) :: Op.record ty (op.run ty w).2 ops

theorem record_isTrace (ty : Types) (w : World) (ops : List Op) (h : ∀ op ∈ ops, op.OnRoot) :
    IsTrace (rootStep ty) w (Op.record ty w ops) := by
  induction ops generalizing w with
  | nil => trivial
  | cons op ops ih =>
    have hop : op.OnRoot := h op (List.mem_cons_self ..)
    exact ⟨⟨hop, rfl⟩, ih _ fun x hx => h x (List.mem_cons_of_mem _ hx)⟩

theorem bindAfterFailure_idle_iff :
    let tr := Op.record interfaceTypes World.root bindAfterFailure
    (StepsMeet (Unbroken interfaceTypes) World.root tr ↔ StatesMeet World.Idle tr) ∧
    (StepsMeet (Unbroken interfaceTypes) World.root tr →
      StepsMeet (AsVisited interfaceTypes) World.root tr) :=
  idle_iff_unbroken interfaceTypes _
    (record_isTrace _ _ _ (by simp [bindAfterFailure, Op.OnRoot, Op.inj]))

/-- The first call throws, as it has to, and leaves the type on the stack and the flag set. The
second `get` throws a cycle that is none: the run of the recipes gives an instance. -/
theorem bindAfterFailure_throws :
    let w := World.root.call interfaceTypes ⟨.get, 0, 1⟩
    let w' := w.2.bindImpl 0 1 2
    w.1 = .error (.noImpl 1) ∧ ¬ w.2.Idle ∧
    (w'.call interfaceTypes ⟨.get, 0, 1⟩).1 = .error (.cycle 1) ∧
    (w'.visit interfaceTypes .get 1).1 = .ok (.ok (some (.obj 0))) ∧
    ¬ ∀ (ty : Types) (tr : List ((Op × Outcome) × World)), IsTrace (rootStep ty) World.root tr →
      StatesMeet World.Idle tr := by
  have hdirty : ¬ (World.root.call interfaceTypes ⟨.get, 0, 1⟩).2.Idle := by decide
  refine ⟨by decide, hdirty, by decide, by decide, fun h => ?_⟩
  have hstates := h interfaceTypes (Op.record interfaceTypes World.root bindAfterFailure)
    (record_isTrace _ _ _ (by simp [bindAfterFailure, Op.OnRoot, Op.inj]))
  exact hdirty (hstates _ (List.mem_cons_self ..))

end Omulator.Di
