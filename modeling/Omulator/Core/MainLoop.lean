import Omulator.Lib.Transition
import Mathlib.Data.List.Chain
import Mathlib.Tactic.Linarith

/-!
# The message loop of `oml_main` (`src/main.cpp`)

The clock goes on by any amount between any two steps of the loop. A point in time
(`TimePoint_t`) is its number of nanoseconds since the epoch of the clock; nothing that the loop
computes lies more than one period after what it has read from the clock.
-/

namespace Omulator.MainLoop
open Omulator.Lib

def FPS : ℤ := 60

/-- `std::chrono::nanoseconds(1'000'000'000) / FPS`. -/
def PERIOD : ℤ := 1000000000 / FPS

inductive Pc where
  /-- `while(!done)` -/
  | test
  | recv
  | pump_msgs
  /-- `send_single_message(RENDER_FRAME)` -/
  | send
  /-- from `timeOfNextIteration += PERIOD` to the call of `sleep_until` -/
  | pace
  /-- in `sleep_until` -/
  | sleep
  | left
  deriving DecidableEq

structure Iteration where
  NOW : ℤ
  target : ℤ
  deriving DecidableEq

structure Loop where
  /-- what `clock.now()` returns -/
  clock : ℤ
  pc : Pc := .test
  done : Bool := false
  timeOfNextIteration : ℤ
  iterations : List Iteration := []
  deriving DecidableEq

inductive Label where
  /-- time passes -/
  | tick (duration : ℕ)
  /-- the loop goes on; `quit`: if it is in `recv`, there is an `APP_QUIT` -/
  | go (quit : Bool)
  /-- what the loop has called throws -/
  | throws

namespace Loop

/-- `timeOfNextIteration = clock.now()`, before the loop. -/
def init (now : ℤ) : Loop := { clock := now, timeOfNextIteration := now }

/-- The lines between `send_single_message` and `sleep_until`. -/
def pace (s : Loop) : Loop :=
  let timeOfNextIteration := s.timeOfNextIteration + PERIOD
  let NOW := s.clock
  let timeOfNextIteration := if NOW ≥ timeOfNextIteration then NOW + PERIOD else timeOfNextIteration
  { s with
    pc := .sleep
    timeOfNextIteration := timeOfNextIteration
    iterations := s.iterations ++ [⟨NOW, timeOfNextIteration⟩] }

/-- `none` while `sleep_until` has not returned, and after the loop. -/
def go (quit : Bool) (s : Loop) : Option Loop :=
  match s.pc with
  | .test => some { s with pc := if s.done then .left else .recv }
  | .recv => some { s with pc := .pump_msgs, done := s.done || quit }
  | .pump_msgs => some { s with pc := .send }
  | .send => some { s with pc := .pace }
  | .pace => some s.pace
  | .sleep => if s.timeOfNextIteration ≤ s.clock then some { s with pc := .test } else none
  | .left => none

def step (l : Label) (s : Loop) : Option Loop :=
  match l with
  | .tick duration => some { s with clock := s.clock + duration }
  | .go quit => s.go quit
  | .throws =>
    if s.pc = .recv ∨ s.pc = .pump_msgs ∨ s.pc = .send then some { s with pc := .left } else none

def Step (s : Loop) (l : Label) (t : Loop) : Prop := s.step l = some t

end Loop

/-! ### The targets -/

/-- When the loop is not asleep, the last target has been reached. -/
structure Inv (s : Loop) : Prop where
  ahead : ∀ x ∈ s.iterations, x.NOW < x.target ∧ x.target ≤ x.NOW + PERIOD
  apart : s.iterations.IsChain fun x y => x.target + PERIOD ≤ y.target
  last : ∀ x ∈ s.iterations.getLast?, x.target = s.timeOfNextIteration
  reached : s.pc ≠ .sleep → s.timeOfNextIteration ≤ s.clock

theorem period_pos : 0 < PERIOD := by decide

namespace Inv
variable {s t : Loop}

theorem init (now : ℤ) : Inv (Loop.init now) where
  ahead := by simp [Loop.init]
  apart := .nil
  last := by simp [Loop.init]
  reached _ := le_refl now

theorem tick (h : Inv s) (duration : ℕ) : Inv { s with clock := s.clock + duration } where
  ahead := h.ahead
  apart := h.apart
  last := h.last
  reached hpc := by
    have hr := h.reached hpc
    show s.timeOfNextIteration ≤ s.clock + duration
    omega

theorem goto (h : Inv s) (pc : Pc) (done : Bool) (hr : s.timeOfNextIteration ≤ s.clock) :
    Inv { s with pc := pc, done := done } where
  ahead := h.ahead
  apart := h.apart
  last := h.last
  reached _ := hr

theorem pace (h : Inv s) (hr : s.timeOfNextIteration ≤ s.clock) : Inv s.pace := by
  have hpos := period_pos
  -- on time the old target moves on by one period; otherwise the new one starts from the clock
  have hnew : s.clock < s.pace.timeOfNextIteration ∧
      s.pace.timeOfNextIteration ≤ s.clock + PERIOD ∧
      s.timeOfNextIteration + PERIOD ≤ s.pace.timeOfNextIteration := by
    simp only [Loop.pace]
    split <;> omega
  have hit : s.pace.iterations = s.iterations ++ [⟨s.clock, s.pace.timeOfNextIteration⟩] := rfl
  refine ⟨?_, ?_, ?_, fun hpc => absurd rfl hpc⟩
  · intro x hx
    rw [hit, List.mem_append, List.mem_singleton] at hx
    rcases hx with hx | hx
    · exact h.ahead x hx
    · rw [hx]
      exact ⟨hnew.1, hnew.2.1⟩
  · rw [hit]
    refine h.apart.append (.singleton _) ?_
    intro x hx y hy
    have hy' : y = ⟨s.clock, s.pace.timeOfNextIteration⟩ := by simpa using hy.symm
    rw [hy', h.last x hx]
    exact hnew.2.2
  · intro x hx
    rw [hit, List.getLast?_concat] at hx
    cases hx
    rfl

theorem go (h : Inv s) {quit : Bool} (hs : s.go quit = some t) : Inv t := by
  unfold Loop.go at hs
  have hawake : ∀ pc, s.pc = pc → pc ≠ .sleep → s.timeOfNextIteration ≤ s.clock :=
    fun pc hpc hne => h.reached (hpc ▸ hne)
  cases hpc : s.pc with
  | test =>
    rw [hpc] at hs
    cases hs
    exact h.goto _ s.done (hawake _ hpc nofun)
  | recv =>
    rw [hpc] at hs
    cases hs
    exact h.goto _ _ (hawake _ hpc nofun)
  | pump_msgs =>
    rw [hpc] at hs
    cases hs
    exact h.goto _ s.done (hawake _ hpc nofun)
  | send =>
    rw [hpc] at hs
    cases hs
    exact h.goto _ s.done (hawake _ hpc nofun)
  | pace =>
    rw [hpc] at hs
    cases hs
    exact h.pace (hawake _ hpc nofun)
  | sleep =>
    rw [hpc] at hs
    by_cases hr : s.timeOfNextIteration ≤ s.clock
    · simp only [hr, if_true, Option.some.injEq] at hs
      rw [← hs]
      exact h.goto .test s.done hr
    · simp [hr] at hs
  | left =>
    rw [hpc] at hs
    cases hs

theorem step (h : Inv s) {l : Label} (hs : Loop.Step s l t) : Inv t := by
  cases l with
  | tick duration =>
    cases hs
    exact h.tick duration
  | go quit => exact h.go hs
  | throws =>
    simp only [Loop.Step, Loop.step] at hs
    split at hs
    · rename_i hpc
      cases hs
      refine h.goto .left s.done (h.reached ?_)
      intro hsleep
      rw [hsleep] at hpc
      simp at hpc
    · cases hs

end Inv

end Omulator.MainLoop
