import Mathlib.Data.UInt
import Mathlib.Algebra.BigOperators.Group.List.Basic

/-!
# System (`src/System.cpp`, `include/omulator/System.hpp`, `src/Component.cpp`)

A tree of Systems over leaf Components. The loops have fuel: `none` is a call that has not
returned when it is used up.
-/

namespace Omulator.Core

abbrev Cycle_t := UInt32

inductive Component (ι : Type) where
  | leaf (i : ι)
  | system (name_ : String) (components_ : List (Component ι)) (subsystems_ : List String)

variable {ι S σ : Type}

structure World (ι S : Type) where
  leaves : S
  /-- the calls of `step` of leaves, with `numCycles` -/
  calls : List (ι × Cycle_t) := []
  warnings : List String := []

def World.warnIf (b : Bool) (text : String) (w : World ι S) : World ι S :=
  if b then { w with warnings := w.warnings ++ [text] } else w

/-- `while(cyclesLeft > 0)`, with what is left of `cyclesLeft`. -/
def whileLeft (body : σ → Option σ) : ℕ → Cycle_t → σ → Option (Cycle_t × σ)
  | 0, _, _ => none
  | fuel + 1, cyclesLeft, s =>
    if cyclesLeft > 0 then (body s).bind (whileLeft body fuel (cyclesLeft - 1))
    else some (cyclesLeft, s)

section
variable (stepLeaf : ι → Cycle_t → S → Cycle_t × S)

mutual

def Component.step (fuel : ℕ) : Component ι → Cycle_t → World ι S → Option (Cycle_t × World ι S)
  | .leaf i, numCycles, w =>
    let r := stepLeaf i numCycles w.leaves
    some (r.1, { w with leaves := r.2, calls := w.calls ++ [(i, numCycles)] })
  | .system name_ components_ subsystems_, numCycles, w =>
    let w := w.warnIf components_.isEmpty ("System " ++ name_ ++ " has no components!\n")
    let w := w.warnIf subsystems_.isEmpty ("System " ++ name_ ++ " has no subsystems!\n")
    (whileLeft (stepComponents fuel components_) fuel numCycles w).map fun r =>
      (numCycles - r.1, r.2)

/-- The loop over `components_`. -/
def stepComponents (fuel : ℕ) : List (Component ι) → World ι S → Option (World ι S)
  | [], w => some w
  | component :: rest, w =>
    (component.step fuel 1 w).bind fun r => stepComponents fuel rest r.2

end

/-- The step that `step(1)` makes of each of the leaves, one after the other. -/
def visit (is : List ι) (s : S) : S := is.foldl (fun s i => (stepLeaf i 1 s).2) s

end

mutual

/-- The leaves from left to right. -/
def Component.leaves : Component ι → List ι
  | .leaf i => [i]
  | .system _ components_ _ => leavesOf components_

def leavesOf : List (Component ι) → List ι
  | [] => []
  | component :: rest => component.leaves ++ leavesOf rest

end

/-! ### One round -/

section
variable (stepLeaf : ι → Cycle_t → S → Cycle_t × S)

/-- From `w` to `w'` the leaves `is` have been stepped by one, in this order. -/
structure Visits (is : List ι) (w w' : World ι S) : Prop where
  leaves : w'.leaves = visit stepLeaf is w.leaves
  calls : w'.calls = w.calls ++ is.map (·, 1)

variable {stepLeaf} {is is' : List ι} {w w' w'' : World ι S}

theorem Visits.warned {b : Bool} {text : String} (h : Visits stepLeaf is (w.warnIf b text) w') :
    Visits stepLeaf is w w' := by
  cases b with
  | true => exact ⟨h.leaves, h.calls⟩
  | false => exact h

theorem Visits.nil (w : World ι S) : Visits stepLeaf [] w w where
  leaves := rfl
  calls := by simp

theorem Visits.trans (h : Visits stepLeaf is w w') (h' : Visits stepLeaf is' w' w'') :
    Visits stepLeaf (is ++ is') w w'' where
  leaves := by rw [h'.leaves, h.leaves, visit, visit, visit, List.foldl_append]
  calls := by rw [h'.calls, h.calls, List.map_append, List.append_assoc]

/-- The countdown runs its body as often as it says, and ends at 0. -/
theorem whileLeft_visits {body : World ι S → Option (World ι S)}
    (hbody : ∀ w, ∃ w', body w = some w' ∧ Visits stepLeaf is w w') (fuel : ℕ)
    (cyclesLeft : Cycle_t)
    (w : World ι S) (hf : cyclesLeft.toNat < fuel) :
    ∃ w', whileLeft body fuel cyclesLeft w = some (0, w') ∧
      Visits stepLeaf (List.replicate cyclesLeft.toNat is).flatten w w' := by
  induction fuel generalizing cyclesLeft w with
  | zero => omega
  | succ fuel ih =>
    by_cases hc : cyclesLeft > 0
    · have hpos : 0 < cyclesLeft.toNat := hc
      have hpred : (cyclesLeft - 1).toNat = cyclesLeft.toNat - 1 := by
        have hle : (1 : Cycle_t) ≤ cyclesLeft := UInt32.le_iff_toNat_le.mpr hpos
        rw [UInt32.toNat_sub_of_le _ _ hle]
        rfl
      obtain ⟨w₁, hw₁, hv₁⟩ := hbody w
      have hlt : (cyclesLeft - 1).toNat < fuel := by omega
      obtain ⟨w₂, hw₂, hv₂⟩ := ih (cyclesLeft - 1) w₁ hlt
      refine ⟨w₂, ?_, ?_⟩
      · rw [whileLeft, if_pos hc, hw₁, Option.bind_some, hw₂]
      · have hsucc : cyclesLeft.toNat = (cyclesLeft - 1).toNat + 1 := by omega
        rw [hsucc, List.replicate_succ, List.flatten_cons]
        exact hv₁.trans hv₂
    · have hzero : cyclesLeft = 0 := by simpa using hc
      refine ⟨w, ?_, ?_⟩
      · rw [whileLeft, if_neg hc, hzero]
      · rw [hzero]
        exact .nil w

theorem step_system (name_ : String) (components_ : List (Component ι))
    (subsystems_ : List String) {fuel : ℕ} {n : Cycle_t} (hf : n.toNat < fuel)
    (hround : ∀ w, ∃ w', stepComponents stepLeaf fuel components_ w = some w' ∧
      Visits stepLeaf is w w') (w : World ι S) :
    ∃ w', (Component.system name_ components_ subsystems_).step stepLeaf fuel n w = some (n, w') ∧
      Visits stepLeaf (List.replicate n.toNat is).flatten w w' := by
  let w₁ := w.warnIf components_.isEmpty ("System " ++ name_ ++ " has no components!\n")
  let w₂ := w₁.warnIf subsystems_.isEmpty ("System " ++ name_ ++ " has no subsystems!\n")
  obtain ⟨w', hw', hv⟩ := whileLeft_visits hround fuel n w₂ hf
  have hv₁ : Visits stepLeaf (List.replicate n.toNat is).flatten w₁ w' := hv.warned
  refine ⟨w', ?_, hv₁.warned⟩
  rw [Component.step, hw', Option.map_some, UInt32.sub_zero]

mutual

theorem step_one_visits {fuel : ℕ} (hf : 2 ≤ fuel) :
    ∀ (component : Component ι) (w : World ι S), ∃ r w',
      component.step stepLeaf fuel 1 w = some (r, w') ∧ Visits stepLeaf component.leaves w w'
  | .leaf i, w => ⟨_, _, rfl, rfl, rfl⟩
  | .system name_ components_ subsystems_, w => by
    have hone : (1 : Cycle_t).toNat < fuel := hf
    obtain ⟨w', hw', hv⟩ := step_system name_ components_ subsystems_ hone
      (stepComponents_visits hf components_) w
    have hleaves : (List.replicate (1 : Cycle_t).toNat (leavesOf components_)).flatten =
        leavesOf components_ := by simp
    rw [hleaves] at hv
    exact ⟨1, w', hw', hv⟩

theorem stepComponents_visits {fuel : ℕ} (hf : 2 ≤ fuel) :
    ∀ (components_ : List (Component ι)) (w : World ι S), ∃ w',
      stepComponents stepLeaf fuel components_ w = some w' ∧
        Visits stepLeaf (leavesOf components_) w w'
  | [], w => ⟨w, rfl, .nil w⟩
  | component :: rest, w => by
    obtain ⟨r, w₁, hw₁, hv₁⟩ := step_one_visits hf component w
    obtain ⟨w₂, hw₂, hv₂⟩ := stepComponents_visits hf rest w₁
    refine ⟨w₂, ?_, hv₁.trans hv₂⟩
    rw [stepComponents, hw₁, Option.bind_some, hw₂]

end

/-! ### Any number of rounds -/

theorem visits_states {n : ℕ} (h : Visits stepLeaf (List.replicate n is).flatten w w') :
    w'.leaves = (visit stepLeaf is)^[n] w.leaves := by
  have hvisit : ∀ (n : ℕ) (s : S),
      visit stepLeaf (List.replicate n is).flatten s = (visit stepLeaf is)^[n] s := by
    intro n
    induction n with
    | zero => exact fun s => rfl
    | succ n ih =>
      intro s
      rw [List.replicate_succ, List.flatten_cons, visit, List.foldl_append,
        Function.iterate_succ_apply]
      exact ih (visit stepLeaf is s)
  rw [h.leaves, hvisit]

variable (stepLeaf) in
/-- `step(n)` on `root` returns `n`, and has called `step(1)` of the leaves only: in `n` rounds from
left to right, `n` times for each place a leaf has in the tree. -/
def StepsExactly [DecidableEq ι] (root : Component ι) (n : Cycle_t) (w : World ι S) : Prop :=
  ∃ enough, ∀ fuel ≥ enough, ∃ w', root.step stepLeaf fuel n w = some (n, w') ∧
    w'.calls = w.calls ++ (List.replicate n.toNat (root.leaves.map (·, 1))).flatten ∧
    (∀ i, w'.calls.count (i, 1) = w.calls.count (i, 1) + n.toNat * root.leaves.count i) ∧
    w'.leaves = (visit stepLeaf root.leaves)^[n.toNat] w.leaves

variable (stepLeaf) in
/-- `step(m)` and then `step(n)` leave the leaves as `step(m + n)` does. -/
def StepsAdd (root : Component ι) (m n : Cycle_t) (w : World ι S) : Prop :=
  ∃ enough, ∀ fuel ≥ enough, ∃ w₁ w₂ w₃, root.step stepLeaf fuel m w = some (m, w₁) ∧
    root.step stepLeaf fuel n w₁ = some (n, w₂) ∧
    root.step stepLeaf fuel (m + n) w = some (m + n, w₃) ∧ w₂.leaves = w₃.leaves

section
variable (name_ : String) (components_ : List (Component ι)) (subsystems_ : List String)

variable (stepLeaf) in
theorem step_root {fuel : ℕ} {n : Cycle_t} (hf : n.toNat + 2 ≤ fuel) (w : World ι S) :
    ∃ w', (Component.system name_ components_ subsystems_).step stepLeaf fuel n w = some (n, w') ∧
      Visits stepLeaf (List.replicate n.toNat (leavesOf components_)).flatten w w' := by
  have hn : n.toNat < fuel := by omega
  have hround : 2 ≤ fuel := by omega
  exact step_system name_ components_ subsystems_ hn (stepComponents_visits hround components_) w

theorem steps_exactly [DecidableEq ι] (n : Cycle_t) (w : World ι S) :
    StepsExactly stepLeaf (.system name_ components_ subsystems_) n w := by
  refine ⟨n.toNat + 2, fun fuel hf => ?_⟩
  obtain ⟨w', hw', hv⟩ := step_root stepLeaf name_ components_ subsystems_ hf w
  have hcalls := hv.calls
  rw [List.map_flatten, List.map_replicate] at hcalls
  refine ⟨w', hw', hcalls, ?_, visits_states hv⟩
  intro i
  have hone : ((leavesOf components_).map fun j => (j, (1 : Cycle_t))).count (i, 1) =
      (leavesOf components_).count i := by
    have hinj : Function.Injective fun j : ι => (j, (1 : Cycle_t)) :=
      fun j k hjk => congrArg Prod.fst hjk
    exact List.count_map_of_injective _ _ hinj i
  rw [hcalls, List.count_append, List.count_flatten, List.map_replicate, List.sum_replicate_nat,
    hone]
  rfl

theorem steps_add {m n : Cycle_t} (hmn : m.toNat + n.toNat < 2 ^ 32) (w : World ι S) :
    StepsAdd stepLeaf (.system name_ components_ subsystems_) m n w := by
  have hsum : (m + n).toNat = m.toNat + n.toNat := by
    rw [UInt32.toNat_add]
    exact Nat.mod_eq_of_lt hmn
  refine ⟨m.toNat + n.toNat + 2, fun fuel hf => ?_⟩
  have hfm : m.toNat + 2 ≤ fuel := by omega
  have hfn : n.toNat + 2 ≤ fuel := by omega
  have hfmn : (m + n).toNat + 2 ≤ fuel := by omega
  obtain ⟨w₁, hw₁, hv₁⟩ := step_root stepLeaf name_ components_ subsystems_ hfm w
  obtain ⟨w₂, hw₂, hv₂⟩ := step_root stepLeaf name_ components_ subsystems_ hfn w₁
  obtain ⟨w₃, hw₃, hv₃⟩ := step_root stepLeaf name_ components_ subsystems_ hfmn w
  refine ⟨w₁, w₂, w₃, hw₁, hw₂, hw₃, ?_⟩
  rw [visits_states hv₂, visits_states hv₁, visits_states hv₃, hsum, Nat.add_comm,
    Function.iterate_add_apply]

end

/-- System stepping is exact and additive. -/
theorem stepping_exact_additive [DecidableEq ι] (stepLeaf : ι → Cycle_t → S → Cycle_t × S)
    (name_ : String) (components_ : List (Component ι)) (subsystems_ : List String) :
    (∀ n w, StepsExactly stepLeaf (.system name_ components_ subsystems_) n w) ∧
      ∀ m n : Cycle_t, m.toNat + n.toNat < 2 ^ 32 →
        ∀ w, StepsAdd stepLeaf (.system name_ components_ subsystems_) m n w :=
  ⟨steps_exactly name_ components_ subsystems_,
    fun _ _ hmn w => steps_add name_ components_ subsystems_ hmn w⟩

/-- Leaves that write down that they have been stepped. -/
def recorder (i : ℕ) (numCycles : Cycle_t) (s : List ℕ) : Cycle_t × List ℕ := (numCycles, s ++ [i])

def nested : List (Component ℕ) := [.leaf 0, .system "inner" [.leaf 1, .leaf 0] []]

theorem nested_add : StepsAdd recorder (.system "outer" nested ["video"]) 1 2 { leaves := [] } :=
  (stepping_exact_additive recorder "outer" nested ["video"]).2 1 2 (by decide) { leaves := [] }

example : (((Component.system "outer" nested ["video"]).step recorder 4 2 { leaves := [] }).map
    fun r => (r.1, r.2.leaves)) = some (2, [0, 1, 0, 0, 1, 0]) := by decide

end
end Omulator.Core
