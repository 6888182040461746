import Omulator.Lib.Transition
import Mathlib.Data.Fintype.Card
import Mathlib.Data.Finset.Card
import Mathlib.Data.List.Range
import Mathlib.Logic.Function.Basic

/-!
# Several receivers at one MailboxEndpoint (`src/msg/MailboxEndpoint.cpp`)

A step of `recv` is the wake-up of the condition wait, the test of `queue_.empty()`, which
does not take the mutex, or the block under the mutex that pumps, submits and pops the
first queue.
-/

namespace Omulator.Receivers
open Omulator.Lib

inductive RecvBehavior where
  | BLOCK
  | NONBLOCK
  deriving DecidableEq

inductive Place where
  | idle
  /-- `cv_.wait` -/
  | waiting
  /-- `queue_.empty()` -/
  | testing
  /-- the queue was not empty; the mutex is still to be taken -/
  | passed
  deriving DecidableEq

/-- An accepted MessageQueue is known by its number. -/
structure Sys (ι : Type) where
  place : ι → Place := fun _ => .idle
  queue_ : List ℕ := []
  accepted : ℕ := 0
  pumped : List ℕ := []
  submitted : List ℕ := []
  /-- `front()` and `pop()` of an empty queue -/
  undefined : Bool := false

inductive Label (ι : Type) where
  | recv (i : ι) (recvBehavior : RecvBehavior)
  | wake (i : ι)
  | test (i : ι)
  | block (i : ι)
  /-- `send` of a MessageQueue with these flags -/
  | send (valid sealed : Bool)

variable {ι : Type}

namespace Sys

/-- The block under the mutex. -/
def pump (s : Sys ι) : Sys ι :=
  match s.queue_ with
  | [] => { s with undefined := true }
  | currentMQ :: rest =>
    { s with
      queue_ := rest
      pumped := s.pumped ++ [currentMQ]
      submitted := s.submitted ++ [currentMQ] }

/-- `send` logs an error and does nothing when the MessageQueue is invalid or sealed. -/
def send (s : Sys ι) (valid sealed : Bool) : Sys ι :=
  if valid && !sealed then
    { s with queue_ := s.queue_ ++ [s.accepted], accepted := s.accepted + 1 }
  else s

end Sys

/-- Nothing was done to an empty queue, and every accepted queue has been pumped and
submitted once, in order, or is still waiting. -/
structure Sound (s : Sys ι) : Prop where
  defined : s.undefined = false
  once : s.pumped ++ s.queue_ = List.range s.accepted
  submitted : s.submitted = s.pumped

section
variable {s : Sys ι}

theorem Sound.pump (h : Sound s) (hq : s.queue_ ≠ []) : Sound s.pump := by
  unfold Sys.pump
  cases hs : s.queue_ with
  | nil => exact absurd hs hq
  | cons mq rest =>
    have ho := h.once
    rw [hs] at ho
    exact ⟨h.defined, by simpa using ho, by rw [h.submitted]⟩

theorem Sound.send (h : Sound s) (valid sealed : Bool) : Sound (s.send valid sealed) := by
  unfold Sys.send
  split
  · refine ⟨h.defined, ?_, h.submitted⟩
    show s.pumped ++ (s.queue_ ++ [s.accepted]) = List.range (s.accepted + 1)
    rw [← List.append_assoc, h.once, List.range_succ]
  · exact h

theorem length_pump (hq : s.queue_ ≠ []) : s.pump.queue_.length + 1 = s.queue_.length := by
  unfold Sys.pump
  cases hs : s.queue_ with
  | nil => exact absurd hs hq
  | cons mq rest => rfl

end

section
variable [Fintype ι] {s : Sys ι}

def Sys.passed (s : Sys ι) : ℕ :=
  (Finset.univ.filter fun i => s.place i = .passed).card

theorem passed_eq {s t : Sys ι} (h : ∀ j, t.place j = .passed ↔ s.place j = .passed) :
    t.passed = s.passed := by simp only [Sys.passed, h]

theorem exists_passed (h : 0 < s.passed) : ∃ i, s.place i = .passed := by
  obtain ⟨i, hi⟩ := Finset.card_pos.mp h
  exact ⟨i, (Finset.mem_filter.mp hi).2⟩

theorem passed_pump (s : Sys ι) : s.pump.passed = s.passed := by
  apply passed_eq
  intro j
  unfold Sys.pump
  split
  · rfl
  · rfl

/-- The queues that are there are enough for the receivers that have passed the test. -/
structure Enough (s : Sys ι) : Prop where
  sound : Sound s
  passed : s.passed ≤ s.queue_.length

theorem Enough.start : Enough ({} : Sys ι) :=
  ⟨⟨rfl, rfl, rfl⟩, by simp [Sys.passed]⟩

end

variable [DecidableEq ι]

namespace Sys

def goto (s : Sys ι) (i : ι) (p : Place) : Sys ι :=
  { s with place := Function.update s.place i p }

def step (l : Label ι) (s : Sys ι) : Option (Sys ι) :=
  match l with
  | .recv i recvBehavior =>
    if s.place i = .idle then
      some (s.goto i (if recvBehavior = .BLOCK then .waiting else .testing))
    else none
  | .wake i =>
    if s.place i = .waiting ∧ s.queue_ ≠ [] then some (s.goto i .testing) else none
  | .test i =>
    if s.place i = .testing then some (s.goto i (if s.queue_ = [] then .idle else .passed))
    else none
  | .block i => if s.place i = .passed then some (s.pump.goto i .testing) else none
  | .send valid sealed => some (s.send valid sealed)

def Step (s : Sys ι) (l : Label ι) (t : Sys ι) : Prop := s.step l = some t

end Sys

def IsBlock (_ : Sys ι) (l : Label ι) : Prop := ∃ i, l = .block i

section
variable {s t : Sys ι} {i : ι}

theorem Sound.goto (h : Sound s) (i : ι) (p : Place) : Sound (s.goto i p) :=
  ⟨h.defined, h.once, h.submitted⟩

theorem block_cases (h : Sys.Step s (.block i) t) :
    s.place i = .passed ∧ t = s.pump.goto i .testing := by
  simp only [Sys.Step, Sys.step] at h
  split at h
  · rename_i hp
    exact ⟨hp, (Option.some.inj h).symm⟩
  · cases h

theorem test_cases (h : Sys.Step s (.test i) t) : s.place i = .testing ∧
    (s.queue_ = [] ∧ t = s.goto i .idle ∨ s.queue_ ≠ [] ∧ t = s.goto i .passed) := by
  simp only [Sys.Step, Sys.step] at h
  split at h
  · rename_i hp
    have ht := (Option.some.inj h).symm
    refine ⟨hp, ?_⟩
    by_cases hq : s.queue_ = []
    · rw [if_pos hq] at ht
      exact Or.inl ⟨hq, ht⟩
    · rw [if_neg hq] at ht
      exact Or.inr ⟨hq, ht⟩
  · cases h

end

/-- A receiver passes the test only when the queue holds more than those receivers will take
that have passed it before. -/
def MayPass [Fintype ι] (s : Sys ι) : Label ι → Prop
  | .test _ => s.queue_ ≠ [] → s.passed < s.queue_.length
  | _ => True

section
variable [Fintype ι] {s t u : Sys ι} {i : ι} {l : Label ι}

theorem passed_goto {p : Place} (hs : s.place i ≠ .passed) (hp : p ≠ .passed) :
    (s.goto i p).passed = s.passed := by
  apply passed_eq
  intro j
  by_cases hj : j = i
  · simp [Sys.goto, hj, hs, hp]
  · simp [Sys.goto, hj]

theorem passed_enter (hs : s.place i ≠ .passed) :
    (s.goto i .passed).passed = s.passed + 1 := by
  have hf : (Finset.univ.filter fun j => (s.goto i .passed).place j = .passed) =
      insert i (Finset.univ.filter fun j => s.place j = .passed) := by
    apply Finset.ext
    intro j
    simp only [Finset.mem_filter, Finset.mem_univ, true_and, Finset.mem_insert]
    by_cases hj : j = i
    · simp [Sys.goto, hj]
    · simp [Sys.goto, hj]
  rw [Sys.passed, hf, Finset.card_insert_of_notMem (by simp [hs])]
  rfl

theorem passed_leave {p : Place} (hs : s.place i = .passed) (hp : p ≠ .passed) :
    (s.goto i p).passed + 1 = s.passed := by
  have hf : (Finset.univ.filter fun j => (s.goto i p).place j = .passed) =
      (Finset.univ.filter fun j => s.place j = .passed).erase i := by
    apply Finset.ext
    intro j
    simp only [Finset.mem_filter, Finset.mem_univ, true_and, Finset.mem_erase]
    by_cases hj : j = i
    · simp [Sys.goto, hj, hp]
    · simp [Sys.goto, hj]
  have hi : i ∈ Finset.univ.filter fun j => s.place j = .passed := by simp [hs]
  rw [Sys.passed, hf, Finset.card_erase_add_one hi]
  rfl

theorem passed_block (h : Sys.Step s (.block i) t) : t.passed + 1 = s.passed := by
  obtain ⟨hp, rfl⟩ := block_cases h
  have hp' : s.pump.place i = .passed := by
    unfold Sys.pump
    split
    · exact hp
    · exact hp
  have hl := passed_leave (p := .testing) hp' (by simp)
  rw [passed_pump] at hl
  exact hl

theorem Enough.block (hE : Enough s) (h : Sys.Step s (.block i) t) : Enough t := by
  have hpass := passed_block h
  have hq : s.queue_ ≠ [] := by
    intro hq
    have hle := hE.passed
    rw [hq] at hle
    simp only [List.length_nil] at hle
    omega
  have hlen := length_pump hq
  obtain ⟨hp, rfl⟩ := block_cases h
  refine ⟨(hE.sound.pump hq).goto i .testing, ?_⟩
  have hle := hE.passed
  show (s.pump.goto i .testing).passed ≤ s.pump.queue_.length
  omega

theorem Enough.step (hE : Enough s) (h : Sys.Step s l t) (hok : MayPass s l) : Enough t := by
  have hle := hE.passed
  cases l with
  | recv i b =>
    simp only [Sys.Step, Sys.step] at h
    split at h
    · rename_i hp
      have ht := (Option.some.inj h).symm
      have hpass : t.passed = s.passed := by
        rw [ht]
        apply passed_goto
        · simp [hp]
        · cases b <;> simp
      subst ht
      exact ⟨hE.sound.goto i _, by rw [hpass]; exact hle⟩
    · cases h
  | wake i =>
    simp only [Sys.Step, Sys.step] at h
    split at h
    · rename_i hp
      have ht := (Option.some.inj h).symm
      have hpass : t.passed = s.passed := by
        rw [ht]
        apply passed_goto
        · simp [hp.1]
        · simp
      subst ht
      exact ⟨hE.sound.goto i _, by rw [hpass]; exact hle⟩
    · cases h
  | test i =>
    obtain ⟨hp, ⟨-, rfl⟩ | ⟨hq, rfl⟩⟩ := test_cases h
    · have hpass := passed_goto (s := s) (i := i) (p := .idle) (by simp [hp]) (by simp)
      exact ⟨hE.sound.goto i _, by rw [hpass]; exact hle⟩
    · have hpass := passed_enter (s := s) (i := i) (by simp [hp])
      have hlt := hok hq
      refine ⟨hE.sound.goto i _, ?_⟩
      rw [hpass]
      exact hlt
  | block i => exact hE.block h
  | send valid sealed =>
    cases h
    refine ⟨hE.sound.send valid sealed, ?_⟩
    have hpass : (s.send valid sealed).passed = s.passed := by
      apply passed_eq
      intro j
      unfold Sys.send
      split
      · rfl
      · rfl
    have hlen : s.queue_.length ≤ (s.send valid sealed).queue_.length := by
      unfold Sys.send
      split
      · simp
      · exact le_refl _
    omega

/-- More receivers past the test than queues: when they all enter the block, the last one finds
nothing. -/
theorem runs_dry (n : ℕ) (s : Sys ι) (hn : s.queue_.length = n) (h : n < s.passed) :
    ∃ u, RunUnder Sys.Step IsBlock s u ∧ u.undefined = true := by
  induction n generalizing s with
  | zero =>
    obtain ⟨i, hi⟩ := exists_passed h
    have hs : Sys.Step s (.block i) (s.pump.goto i .testing) := by simp [Sys.Step, Sys.step, hi]
    refine ⟨_, .next .start ⟨i, rfl⟩ hs, ?_⟩
    have hq : s.queue_ = [] := List.length_eq_zero_iff.mp hn
    simp [Sys.goto, Sys.pump, hq]
  | succ n ih =>
    obtain ⟨i, hi⟩ := exists_passed (by omega : 0 < s.passed)
    have hs : Sys.Step s (.block i) (s.pump.goto i .testing) := by simp [Sys.Step, Sys.step, hi]
    have hpass := passed_block hs
    have hlen := length_pump (s := s) (by
      intro hq
      simp [hq] at hn)
    obtain ⟨u, hu, hun⟩ := ih (s.pump.goto i .testing) (by
      show s.pump.queue_.length = n
      omega) (by omega)
    have h1 : RunUnder Sys.Step IsBlock s (s.pump.goto i .testing) := .next .start ⟨i, rfl⟩ hs
    exact ⟨u, h1.trans hu, hun⟩

/-- A step is safe for those that have passed the test exactly when the condition holds. -/
theorem mayPass_iff (hE : Enough s) (h : Sys.Step s l t) :
    MayPass s l ↔ ∀ u, RunUnder Sys.Step IsBlock t u → Sound u := by
  constructor
  · intro hok u hu
    have hEu : Enough u := hu.invariant Enough (hE.step h hok) fun _ _ _ hE hb hs => by
      obtain ⟨i, rfl⟩ := hb
      exact hE.block hs
    exact hEu.sound
  · intro hall
    cases l with
    | test i =>
      intro hq
      obtain ⟨hp, ⟨hq', -⟩ | ⟨-, rfl⟩⟩ := test_cases h
      · exact absurd hq' hq
      · by_contra hlt
        have hpass := passed_enter (s := s) (i := i) (by simp [hp])
        obtain ⟨u, hu, hun⟩ := runs_dry s.queue_.length (s.goto i .passed) rfl (by omega)
        rw [(hall u hu).defined] at hun
        cases hun
    | recv _ _ | wake _ | block _ | send _ _ => trivial

end

/-- Any number of receivers and senders: when a receiver passes the test only while the queue
holds more than the others past the test will take, nothing is done to an empty queue and
every accepted queue is pumped and submitted exactly once. Where one passes it otherwise, the
receivers past the test can come to an empty queue. -/
theorem receivers_sound [Fintype ι] (tr : List (Label ι × Sys ι))
    (htr : IsTrace Sys.Step {} tr) (hok : StepsMeet MayPass {} tr) :
    StatesMeet Sound tr ∧
    ∀ x ∈ tr, ∀ l t, Sys.Step x.2 l t →
      (MayPass x.2 l ↔ ∀ u, RunUnder Sys.Step IsBlock t u → Sound u) := by
  have hE : ∀ x ∈ tr, Enough x.2 := by
    intro x hx
    have hr := RunUnder.of_trace htr hok x hx
    exact hr.invariant Enough Enough.start fun _ _ _ hE hok hs => hE.step hs hok
  exact ⟨fun x hx => (hE x hx).sound, fun x hx l t h => mayPass_iff (hE x hx) h⟩

/-- Two receivers take one queue each, one after the other. -/
theorem one_by_one : ∃ tr : List (Label Bool × Sys Bool),
    record Sys.step [.send true false, .send true false, .recv true .BLOCK, .wake true,
      .recv false .NONBLOCK, .test true, .block true, .test false, .block false] {} = some tr ∧
    StatesMeet Sound tr := by
  obtain ⟨tr, htr⟩ : ∃ tr : List (Label Bool × Sys Bool),
      record Sys.step [.send true false, .send true false, .recv true .BLOCK, .wake true,
        .recv false .NONBLOCK, .test true, .block true, .test false, .block false] {} = some tr :=
    ⟨_, rfl⟩
  have hs := receivers_sound tr (isTrace_of_record htr)
  cases htr
  refine ⟨_, rfl, (hs ?_).1⟩
  exact ⟨trivial, trivial, trivial, trivial, trivial, fun _ => by decide, trivial,
    fun _ => by decide, trivial, trivial⟩

/-- Two receivers pass the test for one queue: the second takes `front()` of nothing. -/
theorem second_finds_nothing :
    (follow Sys.step [.send true false, .recv true .NONBLOCK, .recv false .NONBLOCK, .test true,
      .test false, .block true, .block false] ({} : Sys Bool)).map Sys.undefined = some true ∧
    ¬ ∀ s, Run Sys.Step ({} : Sys Bool) s → Sound s := by
  refine ⟨rfl, ?_⟩
  intro h
  obtain ⟨s, hs⟩ : ∃ s, follow Sys.step [.send true false, .recv true .NONBLOCK,
      .recv false .NONBLOCK, .test true, .test false, .block true, .block false]
      ({} : Sys Bool) = some s := ⟨_, rfl⟩
  have hd := (h s (run_of_follow hs)).defined
  cases hs
  cases hd

end Omulator.Receivers
