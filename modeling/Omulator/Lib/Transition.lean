import Mathlib.Logic.Relation
import Mathlib.Data.List.Basic

/-!
# Labelled transition systems

Runs of a step relation, invariants of runs, and runs whose steps are
restricted by a condition on the state before the step.
-/

namespace Omulator.Lib

variable {σ α : Type}

/-- States reached from `s` by steps which all meet `ok`. -/
inductive RunUnder (step : σ → α → σ → Prop) (ok : σ → α → Prop) (s : σ) : σ → Prop
  | start : RunUnder step ok s s
  | next {t u : σ} {a : α} : RunUnder step ok s t → ok t a → step t a u → RunUnder step ok s u

abbrev Run (step : σ → α → σ → Prop) : σ → σ → Prop := RunUnder step fun _ _ => True

section
variable {step : σ → α → σ → Prop} {ok : σ → α → Prop} {s t u : σ} {a : α}

theorem Run.next' (h : Run step s t) (hs : step t a u) : Run step s u :=
  RunUnder.next h trivial hs

/-- The rule for invariants: true at the start, kept by the allowed steps. -/
theorem RunUnder.invariant (I : σ → Prop) (h : RunUnder step ok s t) (init : I s)
    (keep : ∀ t a u, I t → ok t a → step t a u → I u) : I t := by
  induction h with
  | start => exact init
  | next _ hok hs ih => exact keep _ _ _ ih hok hs

theorem RunUnder.weaken {ok' : σ → α → Prop} (h : RunUnder step ok s t)
    (imp : ∀ t a, ok t a → ok' t a) : RunUnder step ok' s t := by
  induction h with
  | start => exact .start
  | next _ hok hs ih => exact .next ih (imp _ _ hok) hs

theorem RunUnder.trans (h : RunUnder step ok s t) (h' : RunUnder step ok t u) :
    RunUnder step ok s u := by
  induction h' with
  | start => exact h
  | next _ hok hs ih => exact .next ih hok hs

end

/-! ### Recorded runs -/

/-- `tr` records, from `s` on, the label of each step and the state it leads to. -/
def IsTrace (step : σ → α → σ → Prop) : σ → List (α × σ) → Prop
  | _, [] => True
  | s, x :: tr => step s x.1 x.2 ∧ IsTrace step x.2 tr

/-- Each step of the recorded run meets `ok` in the state before it. -/
def StepsMeet (ok : σ → α → Prop) : σ → List (α × σ) → Prop
  | _, [] => True
  | s, x :: tr => ok s x.1 ∧ StepsMeet ok x.2 tr

/-- Each state the recorded run reaches after a step satisfies `P`. -/
def StatesMeet (P : σ → Prop) (tr : List (α × σ)) : Prop := ∀ x ∈ tr, P x.2

theorem statesMeet_cons (P : σ → Prop) (x : α × σ) (tr : List (α × σ)) :
    StatesMeet P (x :: tr) ↔ P x.2 ∧ StatesMeet P tr := List.forall_mem_cons

/-- When, under an invariant, a step meets its condition exactly if the state it
leads to has the property, a run has the property throughout exactly if all its
steps meet the condition. -/
theorem steps_iff_states {step : σ → α → σ → Prop} {ok : σ → α → Prop} {P : σ → Prop}
    (I : σ → Prop) (exact' : ∀ s a t, I s → step s a t → (ok s a ↔ P t))
    (keep : ∀ s a t, I s → step s a t → ok s a → I t) (s : σ) (tr : List (α × σ))
    (hs : I s) (htr : IsTrace step s tr) : StepsMeet ok s tr ↔ StatesMeet P tr := by
  induction tr generalizing s with
  | nil => simp [StepsMeet, StatesMeet]
  | cons x tr ih =>
    obtain ⟨hx, htr⟩ := htr
    rw [statesMeet_cons, StepsMeet, exact' s x.1 x.2 hs hx]
    refine and_congr_right fun hP => ?_
    exact ih x.2 (keep s x.1 x.2 hs hx ((exact' s x.1 x.2 hs hx).mpr hP)) htr

theorem stepsMeet_imp {step : σ → α → σ → Prop} {ok ok' : σ → α → Prop} (I : σ → Prop)
    (imp : ∀ s a t, I s → step s a t → ok s a → ok' s a)
    (keep : ∀ s a t, I s → step s a t → ok s a → I t) (s : σ) (tr : List (α × σ))
    (hs : I s) (htr : IsTrace step s tr) (h : StepsMeet ok s tr) : StepsMeet ok' s tr := by
  induction tr generalizing s with
  | nil => trivial
  | cons x tr ih =>
    obtain ⟨hx, htr⟩ := htr
    exact ⟨imp s x.1 x.2 hs hx h.1, ih x.2 (keep s x.1 x.2 hs hx h.1) htr h.2⟩

theorem RunUnder.of_trace {step : σ → α → σ → Prop} {ok : σ → α → Prop} {s : σ}
    {tr : List (α × σ)} (htr : IsTrace step s tr) (hok : StepsMeet ok s tr) :
    ∀ x ∈ tr, RunUnder step ok s x.2 := by
  induction tr generalizing s with
  | nil => simp
  | cons y tr ih =>
    intro x hx
    have hy : RunUnder step ok s y.2 := .next .start hok.1 htr.1
    rcases List.mem_cons.mp hx with rfl | hx
    · exact hy
    · exact hy.trans (ih htr.2 hok.2 x hx)

theorem stepsMeet_true (s : σ) (tr : List (α × σ)) : StepsMeet (fun _ _ => True) s tr := by
  induction tr generalizing s with
  | nil => trivial
  | cons x tr ih => exact ⟨trivial, ih x.2⟩

theorem Run.of_trace {step : σ → α → σ → Prop} {s : σ} {tr : List (α × σ)}
    (htr : IsTrace step s tr) : ∀ x ∈ tr, Run step s x.2 :=
  RunUnder.of_trace htr (stepsMeet_true s tr)

/-! ### Executable steps -/

def follow (step : α → σ → Option σ) : List α → σ → Option σ
  | [], s => some s
  | a :: as, s => (step a s).bind (follow step as)

theorem runUnder_of_follow {step : α → σ → Option σ} {ok : α → Prop} {as : List α} {s t : σ}
    (h : follow step as s = some t) (hok : ∀ a ∈ as, ok a) :
    RunUnder (fun s a t => step a s = some t) (fun _ a => ok a) s t := by
  induction as generalizing s with
  | nil =>
    cases h
    exact .start
  | cons a as ih =>
    simp only [follow, Option.bind_eq_some_iff] at h
    obtain ⟨u, hu, h⟩ := h
    obtain ⟨ha, has⟩ := List.forall_mem_cons.mp hok
    exact (RunUnder.next .start ha hu).trans (ih h has)

theorem run_of_follow {step : α → σ → Option σ} {as : List α} {s t : σ}
    (h : follow step as s = some t) : Run (fun s a t => step a s = some t) s t := by
  have hok : ∀ a ∈ as, (fun _ : α => True) a := fun _ _ => trivial
  exact runUnder_of_follow h hok

/-- The rule for a condition that can be tested in the state before each step. -/
theorem runUnder_of_tested {step : α → σ → Option σ} {ok : σ → α → Prop}
    [∀ s a, Decidable (ok s a)] {as : List α} {s t : σ}
    (h : follow (fun a s => if ok s a then step a s else none) as s = some t) :
    RunUnder (fun s a t => step a s = some t) ok s t := by
  induction as generalizing s with
  | nil =>
    cases h
    exact .start
  | cons a as ih =>
    simp only [follow, Option.bind_eq_some_iff, Option.ite_none_right_eq_some] at h
    obtain ⟨u, ⟨ha, hu⟩, h⟩ := h
    exact (RunUnder.next .start ha hu).trans (ih h)

def record (step : α → σ → Option σ) : List α → σ → Option (List (α × σ))
  | [], _ => some []
  | a :: as, s => (step a s).bind fun t => (record step as t).map ((a, t) :: ·)

theorem isTrace_of_record {step : α → σ → Option σ} {as : List α} {s : σ} {tr : List (α × σ)}
    (h : record step as s = some tr) : IsTrace (fun s a t => step a s = some t) s tr := by
  induction as generalizing s tr with
  | nil =>
    cases h
    trivial
  | cons a as ih =>
    simp only [record, Option.bind_eq_some_iff, Option.map_eq_some_iff] at h
    obtain ⟨t, ht, tr', htr, heq⟩ := h
    rw [← heq]
    exact ⟨ht, ih htr⟩

end Omulator.Lib
