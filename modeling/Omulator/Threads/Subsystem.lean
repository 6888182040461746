import Omulator.Lib.Transition
import Omulator.Msg.Message

/-!
# The life of a Subsystem (`src/Subsystem.cpp`, `include/omulator/Subsystem.hpp`)

The thread of one subsystem, the code that constructs and destroys it, and everybody else who
starts or stops it or sends to its mailbox. What is done under the mutex of the mailbox by
others is one step, which has to wait while the thread has the mutex.
-/

namespace Omulator.Subsystem
open Omulator.Lib Omulator.Msg

inductive Hook where
  | onStart
  | onEnd
  | callback (type : MessageType)
  deriving DecidableEq

/-- Where the thread is in `thrd_proc_`, and in `recv` when it is there. -/
inductive Phase where
  /-- `startSignal_.wait` -/
  | waitStart
  | onStart
  /-- `while(!stoken.stop_requested())` -/
  | checkStop
  /-- about to call `recv` -/
  | recv
  /-- `cv_.wait` -/
  | waitMail
  | woken
  /-- `queue_.empty()` -/
  | testEmpty
  | lockMail
  /-- `pump_msgs`, with the messages to come -/
  | pumping (rest : List MessageType)
  | callback (type : MessageType) (rest : List MessageType)
  | onEnd
  | exited
  deriving DecidableEq

def Phase.hook? : Phase → Option Hook
  | .onStart => some .onStart
  | .onEnd => some .onEnd
  | .callback type _ => some (.callback type)
  | _ => none

def Phase.locks : Phase → Bool
  | .woken | .pumping _ | .callback _ _ => true
  | _ => false

/-- Where the code is that constructs and destroys the object. -/
inductive Life where
  /-- the constructor of `Subsystem`, which has launched the thread -/
  | base
  /-- the constructor of the derived class -/
  | derived
  | alive
  /-- `~Subsystem`: the derived part is gone -/
  | stop
  | start
  /-- `sender_.send_single_message(POKE)` -/
  | poke
  /-- `~jthread` -/
  | join
  | done
  deriving DecidableEq

def Life.gone : Life → Bool
  | .base | .derived | .alive => false
  | _ => true

def Life.stopped : Life → Bool
  | .start | .poke | .join | .done => true
  | _ => false

def Life.started : Life → Bool
  | .poke | .join | .done => true
  | _ => false

def Life.poked : Life → Bool
  | .join | .done => true
  | _ => false

structure Sys where
  life : Life := .base
  phase : Phase := .waitStart
  startSignal_ : Bool := false
  stop_requested : Bool := false
  queue_ : List (List MessageType) := []
  callbacks_ : MessageType → Bool := fun _ => false
  /-- history: the calls of `recv` begun after the stop request -/
  recvs : ℕ := 0
  /-- history: what the thread executed of hooks and callbacks after the derived part -/
  late : List Hook := []

/-- How a step in a hook or callback leaves it. -/
inductive Outcome where
  | runs
  | returns
  | throws
  deriving DecidableEq

inductive Label where
  | thread (o : Outcome)
  /-- the next step of construction or destruction -/
  | owner
  /-- the constructor of the derived class throws -/
  | abandon
  | start
  | stop
  | send (mq : List MessageType)
  /-- once the mailbox is claimed, a callback is registered or removed -/
  | on (type : MessageType)
  | off (type : MessageType)

namespace Sys

def goto (s : Sys) (ph : Phase) : Sys :=
  { s with
    phase := ph
    late := if s.life.gone then s.late ++ (s.phase.hook?.or ph.hook?).toList else s.late }

/-- One step of the thread; `none` while it waits, and at its end. -/
def stepThread (o : Outcome) (s : Sys) : Option Sys :=
  match s.phase with
  | .waitStart => if s.startSignal_ then some (s.goto .onStart) else none
  | .onStart =>
    match o with
    | .runs => some (s.goto .onStart)
    | .returns => some (s.goto .checkStop)
    | .throws => some (s.goto .exited)
  | .checkStop => some (s.goto (if s.stop_requested then .onEnd else .recv))
  | .recv =>
    some ({ s with recvs := if s.stop_requested then s.recvs + 1 else s.recvs }.goto .waitMail)
  | .waitMail => if s.queue_ = [] then none else some (s.goto .woken)
  | .woken => some (s.goto .testEmpty)
  | .testEmpty => some (s.goto (if s.queue_ = [] then .checkStop else .lockMail))
  | .lockMail => some (s.goto (.pumping (s.queue_.headD [])))
  | .pumping [] => some ({ s with queue_ := s.queue_.tail }.goto .testEmpty)
  | .pumping (type :: rest) =>
    some (s.goto (if type.deliverable && s.callbacks_ type then .callback type rest
      else .pumping rest))
  | .callback type rest =>
    match o with
    | .runs => some (s.goto (.callback type rest))
    | .returns => some (s.goto (.pumping rest))
    | .throws => some (s.goto .exited)
  | .onEnd =>
    match o with
    | .runs => some (s.goto .onEnd)
    | .returns | .throws => some (s.goto .exited)
  | .exited => none

/-- One step of the constructors and destructors; `none` while it waits, and at the end. -/
def stepOwner (s : Sys) : Option Sys :=
  match s.life with
  | .base =>
    if s.phase.locks then none
    else some { s with
      life := .derived
      callbacks_ := fun type => type = .POKE || s.callbacks_ type }
  | .derived => some { s with life := .alive }
  | .alive => some { s with life := .stop }
  | .stop => some { s with life := .start, stop_requested := true }
  | .start => some { s with life := .poke, startSignal_ := true }
  | .poke =>
    if s.phase.locks then none else some { s with life := .join, queue_ := s.queue_ ++ [[.POKE]] }
  | .join => if s.phase = .exited then some { s with life := .done } else none
  | .done => none

def step (l : Label) (s : Sys) : Option Sys :=
  match l with
  | .thread o => s.stepThread o
  | .owner => s.stepOwner
  | .abandon => if s.life = .derived then some { s with life := .stop } else none
  | .start => some { s with startSignal_ := true }
  | .stop => some { s with stop_requested := true }
  | .send mq => if s.phase.locks then none else some { s with queue_ := s.queue_ ++ [mq] }
  | .on type =>
    if s.phase.locks ∨ s.life = .base then none
    else some { s with callbacks_ := fun t => t = type || s.callbacks_ t }
  | .off type =>
    if s.phase.locks ∨ s.life = .base then none
    else some { s with callbacks_ := fun t => t ≠ type && s.callbacks_ t }

def Step (s : Sys) (l : Label) (t : Sys) : Prop := s.step l = some t

end Sys

/-! ### What a step does -/

structure ThreadStep (s t : Sys) : Prop where
  alive : s.phase ≠ .exited
  life : t.life = s.life
  stop : t.stop_requested = s.stop_requested
  start : t.startSignal_ = s.startSignal_
  queue : t.queue_ = s.queue_ ∨ t.phase = .testEmpty
  toRecv : t.phase = .recv → s.phase = .checkStop ∧ s.stop_requested = false
  toWait : t.phase = .waitMail → s.phase = .recv
  recvs : t.recvs = s.recvs ∨
    t.recvs = s.recvs + 1 ∧ s.phase = .recv ∧ s.stop_requested = true ∧ t.phase = .waitMail
  late : t.late = if s.life.gone then s.late ++ (s.phase.hook?.or t.phase.hook?).toList else s.late
  exits : t.phase = .exited → s.phase.hook?.isSome

section
variable {s t : Sys} {o : Outcome} {l : Label}

theorem threadStep_goto {ph : Phase} (h : s.phase ≠ .exited)
    (hr : ph = .recv → s.phase = .checkStop ∧ s.stop_requested = false)
    (hw : ph = .waitMail → s.phase = .recv)
    (he : ph = .exited → s.phase.hook?.isSome) : ThreadStep s (s.goto ph) :=
  ⟨h, rfl, rfl, rfl, Or.inl rfl, hr, hw, Or.inl rfl, rfl, he⟩

theorem stepThread_cases (h : s.stepThread o = some t) : ThreadStep s t := by
  unfold Sys.stepThread at h
  cases hp : s.phase with
  | waitStart =>
    simp only [hp] at h
    split at h
    · cases h
      exact threadStep_goto (by simp [hp]) (by simp) (by simp) (by simp)
    · cases h
  | onStart =>
    simp only [hp] at h
    cases o with
    | runs | returns =>
      cases h
      exact threadStep_goto (by simp [hp]) (by simp) (by simp) (by simp)
    | throws =>
      cases h
      exact threadStep_goto (by simp [hp]) (by simp) (by simp) (by simp [hp, Phase.hook?])
  | checkStop =>
    simp only [hp] at h
    cases h
    cases hs : s.stop_requested with
    | true => exact threadStep_goto (by simp [hp]) (by simp) (by simp) (by simp)
    | false => exact threadStep_goto (by simp [hp]) (by simp [hp, hs]) (by simp) (by simp)
  | recv =>
    simp only [hp] at h
    cases h
    refine ⟨by simp [hp], rfl, rfl, rfl, Or.inl rfl, by simp [Sys.goto], fun _ => hp, ?_,
      by simp [Sys.goto, hp], by simp [Sys.goto]⟩
    cases hs : s.stop_requested with
    | true => exact Or.inr ⟨rfl, hp, rfl, rfl⟩
    | false => exact Or.inl rfl
  | waitMail =>
    simp only [hp] at h
    split at h
    · cases h
    · cases h
      exact threadStep_goto (by simp [hp]) (by simp) (by simp) (by simp)
  | woken =>
    simp only [hp] at h
    cases h
    exact threadStep_goto (by simp [hp]) (by simp) (by simp) (by simp)
  | testEmpty =>
    simp only [hp] at h
    cases h
    split
    · exact threadStep_goto (by simp [hp]) (by simp) (by simp) (by simp)
    · exact threadStep_goto (by simp [hp]) (by simp) (by simp) (by simp)
  | lockMail =>
    simp only [hp] at h
    cases h
    exact threadStep_goto (by simp [hp]) (by simp) (by simp) (by simp)
  | pumping rest =>
    simp only [hp] at h
    cases rest with
    | nil =>
      cases h
      exact ⟨by simp [hp], rfl, rfl, rfl, Or.inr rfl, by simp [Sys.goto], by simp [Sys.goto],
        Or.inl rfl, by simp [Sys.goto, hp], by simp [Sys.goto]⟩
    | cons type rest =>
      cases h
      split
      · exact threadStep_goto (by simp [hp]) (by simp) (by simp) (by simp)
      · exact threadStep_goto (by simp [hp]) (by simp) (by simp) (by simp)
  | callback type rest =>
    simp only [hp] at h
    cases o with
    | runs | returns =>
      cases h
      exact threadStep_goto (by simp [hp]) (by simp) (by simp) (by simp)
    | throws =>
      cases h
      exact threadStep_goto (by simp [hp]) (by simp) (by simp) (by simp [hp, Phase.hook?])
  | onEnd =>
    simp only [hp] at h
    cases o with
    | runs =>
      cases h
      exact threadStep_goto (by simp [hp]) (by simp) (by simp) (by simp)
    | returns | throws =>
      cases h
      exact threadStep_goto (by simp [hp]) (by simp) (by simp) (by simp [hp, Phase.hook?])
  | exited =>
    simp only [hp] at h
    cases h

structure OtherStep (l : Label) (s t : Sys) : Prop where
  phase : t.phase = s.phase
  recvs : t.recvs = s.recvs
  late : t.late = s.late
  queue : s.queue_ ≠ [] → t.queue_ ≠ []
  stop : s.stop_requested = true → t.stop_requested = true
  start : s.startSignal_ = true → t.startSignal_ = true
  stopped : t.life.stopped = true → s.life.stopped = true ∨ t.stop_requested = true
  started : t.life.started = true → s.life.started = true ∨ t.startSignal_ = true
  poked : t.life.poked = true → s.life.poked = true ∨ t.queue_ ≠ []
  gone : s.life.gone = true → t.life.gone = true
  ends : t.life.gone = true → s.life.gone = true ∨
    (l = .abandon ∨ l = .owner ∧ s.life = .alive) ∧ t.life = .stop
  done : t.life = .done → s.life = .done ∨ s.phase = .exited

theorem otherStep_of_life (hl : t.life = s.life) (hp : t.phase = s.phase)
    (hr : t.recvs = s.recvs) (hlate : t.late = s.late) (hq : s.queue_ ≠ [] → t.queue_ ≠ [])
    (hstop : s.stop_requested = true → t.stop_requested = true)
    (hstart : s.startSignal_ = true → t.startSignal_ = true) : OtherStep l s t :=
  ⟨hp, hr, hlate, hq, hstop, hstart, hl ▸ Or.inl, hl ▸ Or.inl, hl ▸ Or.inl, hl ▸ id, hl ▸ Or.inl,
    hl ▸ Or.inl⟩

theorem stepOwner_cases (h : s.stepOwner = some t) : OtherStep .owner s t := by
  unfold Sys.stepOwner at h
  cases hl : s.life with
  | base =>
    simp only [hl] at h
    split at h
    · cases h
    · cases h
      exact ⟨rfl, rfl, rfl, id, id, id, by simp [Life.stopped], by simp [Life.started],
        by simp [Life.poked], by simp [hl, Life.gone], by simp [Life.gone], by simp⟩
  | derived =>
    simp only [hl] at h
    cases h
    exact ⟨rfl, rfl, rfl, id, id, id, by simp [Life.stopped], by simp [Life.started],
      by simp [Life.poked], by simp [hl, Life.gone], by simp [Life.gone], by simp⟩
  | alive =>
    simp only [hl] at h
    cases h
    exact ⟨rfl, rfl, rfl, id, id, id, by simp [Life.stopped], by simp [Life.started],
      by simp [Life.poked], by simp [Life.gone], fun _ => Or.inr ⟨Or.inr ⟨rfl, hl⟩, rfl⟩, by simp⟩
  | stop =>
    simp only [hl] at h
    cases h
    exact ⟨rfl, rfl, rfl, id, fun _ => rfl, id, fun _ => Or.inr rfl, by simp [Life.started],
      by simp [Life.poked], by simp [Life.gone], by simp [hl, Life.gone], by simp⟩
  | start =>
    simp only [hl] at h
    cases h
    exact ⟨rfl, rfl, rfl, id, id, fun _ => rfl, by simp [hl, Life.stopped], fun _ => Or.inr rfl,
      by simp [Life.poked], by simp [Life.gone], by simp [hl, Life.gone], by simp⟩
  | poke =>
    simp only [hl] at h
    split at h
    · cases h
    · cases h
      exact ⟨rfl, rfl, rfl, by simp, id, id, by simp [hl, Life.stopped], by simp [hl, Life.started],
        fun _ => Or.inr (by simp), by simp [Life.gone], by simp [hl, Life.gone], by simp⟩
  | join =>
    simp only [hl] at h
    split at h
    · rename_i he
      cases h
      exact ⟨rfl, rfl, rfl, id, id, id, by simp [hl, Life.stopped], by simp [hl, Life.started],
        by simp [hl, Life.poked], by simp [Life.gone], by simp [hl, Life.gone], fun _ => Or.inr he⟩
    · cases h
  | done =>
    simp only [hl] at h
    cases h

theorem step_cases (h : Sys.Step s l t) : ThreadStep s t ∨ OtherStep l s t := by
  cases l with
  | thread o => exact Or.inl (stepThread_cases h)
  | owner => exact Or.inr (stepOwner_cases h)
  | abandon =>
    simp only [Sys.Step, Sys.step] at h
    split at h
    · rename_i hl
      cases h
      exact Or.inr ⟨rfl, rfl, rfl, id, id, id, by simp [Life.stopped], by simp [Life.started],
        by simp [Life.poked], by simp [Life.gone], fun _ => Or.inr ⟨Or.inl rfl, rfl⟩, by simp⟩
    · cases h
  | start =>
    cases h
    exact Or.inr (otherStep_of_life rfl rfl rfl rfl id id fun _ => rfl)
  | stop =>
    cases h
    exact Or.inr (otherStep_of_life rfl rfl rfl rfl id (fun _ => rfl) id)
  | send mq =>
    simp only [Sys.Step, Sys.step] at h
    split at h
    · cases h
    · cases h
      exact Or.inr (otherStep_of_life rfl rfl rfl rfl (by simp) id id)
  | on type | off type =>
    simp only [Sys.Step, Sys.step] at h
    split at h
    · cases h
    · cases h
      exact Or.inr (otherStep_of_life rfl rfl rfl rfl id id id)

end

/-! ### Shutting down -/

/-- After `stop()` a thread on its way into `recv` is the last time it goes there, and `POKE`
is still in the mailbox then. -/
structure Inv (s : Sys) : Prop where
  stopped : s.life.stopped = true → s.stop_requested = true
  started : s.life.started = true → s.startSignal_ = true
  mail : s.life.poked = true → s.phase = .recv ∨ s.phase = .waitMail → s.queue_ ≠ []
  once : s.recvs = 0 ∨ s.recvs = 1 ∧ s.stop_requested = true ∧ s.phase ≠ .recv

namespace Inv
variable {s t : Sys} {l : Label}

theorem start : Inv {} := ⟨by simp [Life.stopped], by simp [Life.started], by simp [Life.poked],
  Or.inl rfl⟩

theorem thread (hI : Inv s) (h : ThreadStep s t) : Inv t where
  stopped hl := by
    rw [h.stop]
    exact hI.stopped (h.life ▸ hl)
  started hl := by
    rw [h.start]
    exact hI.started (h.life ▸ hl)
  mail hl hp := by
    rw [h.life] at hl
    have hq : t.queue_ = s.queue_ := by
      rcases h.queue with hq | hq
      · exact hq
      · rcases hp with hp | hp
        · cases hp.symm.trans hq
        · cases hp.symm.trans hq
    rw [hq]
    rcases hp with hp | hp
    · -- the stop request came first, so the loop is left
      have hs : s.life.stopped = true := by
        revert hl
        cases s.life <;> simp [Life.poked, Life.stopped]
      have hn := (h.toRecv hp).2
      rw [hI.stopped hs] at hn
      cases hn
    · exact hI.mail hl (Or.inl (h.toWait hp))
  once := by
    rcases h.recvs with hr | ⟨hr, hp, hs, ht⟩
    · rw [hr, h.stop]
      rcases hI.once with h0 | ⟨h1, hs, -⟩
      · exact Or.inl h0
      · refine Or.inr ⟨h1, hs, fun hp => ?_⟩
        have hn := (h.toRecv hp).2
        rw [hs] at hn
        cases hn
    · rcases hI.once with h0 | ⟨-, -, hne⟩
      · refine Or.inr ⟨by omega, by rw [h.stop]; exact hs, ?_⟩
        rw [ht]
        simp
      · exact absurd hp hne

theorem other (hI : Inv s) (h : OtherStep l s t) : Inv t where
  stopped hl := (h.stopped hl).elim (fun hs => h.stop (hI.stopped hs)) id
  started hl := (h.started hl).elim (fun hs => h.start (hI.started hs)) id
  mail hl hp := by
    rw [h.phase] at hp
    rcases h.poked hl with hs | hq
    · exact h.queue (hI.mail hs hp)
    · exact hq
  once := by
    rw [h.recvs, h.phase]
    rcases hI.once with h0 | ⟨h1, hs, hp⟩
    · exact Or.inl h0
    · exact Or.inr ⟨h1, h.stop hs, hp⟩

theorem step (hI : Inv s) (h : Sys.Step s l t) : Inv t :=
  (step_cases h).elim hI.thread hI.other

theorem of_run (h : Run Sys.Step {} s) : Inv s :=
  h.invariant Inv start fun _ _ _ hI _ hs => hI.step hs

end Inv

/-- A thread that has not ended takes its next step, unless it waits for the start or for mail. -/
theorem stepThread_isSome {s : Sys} (o : Outcome) (h : s.phase ≠ .exited)
    (hs : s.phase = .waitStart → s.startSignal_ = true)
    (hm : s.phase = .waitMail → s.queue_ ≠ []) : (s.stepThread o).isSome := by
  unfold Sys.stepThread
  cases hp : s.phase with
  | waitStart => simp [hs hp]
  | waitMail => simp [hm hp]
  | onStart | callback _ _ | onEnd => cases o <;> simp
  | pumping rest => cases rest <;> simp
  | checkStop | recv | woken | testEmpty | lockMail => simp
  | exited => exact absurd hp h

/-- Once `POKE` has been sent the thread waits neither for the start signal nor for mail, and
can always go on to its end; after a stop request it calls `recv` once more at most. -/
theorem shutdown_never_parked (s : Sys) (h : Run Sys.Step {} s) :
    (s.life.poked = true →
      ¬ (s.phase = .waitStart ∧ s.startSignal_ = false) ∧
      ¬ (s.phase = .waitMail ∧ s.queue_ = []) ∧
      (s.phase ≠ .exited → ∀ o, ∃ t, Sys.Step s (.thread o) t)) ∧
    s.recvs ≤ 1 := by
  have hI := Inv.of_run h
  have hstart : s.life.poked = true → s.startSignal_ = true := by
    intro hl
    apply hI.started
    revert hl
    cases s.life <;> simp [Life.poked, Life.started]
  refine ⟨fun hl => ⟨?_, ?_, ?_⟩, ?_⟩
  · intro hp
    rw [hstart hl] at hp
    cases hp.2
  · intro hp
    exact hI.mail hl (Or.inr hp.1) hp.2
  · intro hp o
    have hs := stepThread_isSome o hp (fun _ => hstart hl) fun hw => hI.mail hl (Or.inr hw)
    exact Option.isSome_iff_exists.mp hs
  · rcases hI.once with h0 | ⟨h1, -⟩
    · omega
    · omega

/-- The derived constructor throws; the destructor runs before the thread has done anything. -/
theorem abandoned_never_parked : ∃ s, Run Sys.Step {} s ∧ s.life.poked = true ∧
    ¬ (s.phase = .waitStart ∧ s.startSignal_ = false) ∧ s.recvs ≤ 1 := by
  obtain ⟨s, hs⟩ : ∃ s, follow Sys.step [.owner, .abandon, .owner, .owner, .owner] {} = some s :=
    ⟨_, rfl⟩
  have hr : Run Sys.Step {} s := run_of_follow hs
  cases hs
  have hn := shutdown_never_parked _ hr
  exact ⟨_, hr, rfl, (hn.1 rfl).1, hn.2⟩

/-! ### Hooks after the derived part -/

/-- The derived part ends only when the thread has ended. -/
def MayEnd (s : Sys) (l : Label) : Prop :=
  l = .abandon ∨ l = .owner ∧ s.life = .alive → s.phase = .exited

section
variable {s t : Sys} {l : Label} {tr : List (Label × Sys)}

theorem gone_of_step (h : Sys.Step s l t) (hg : s.life.gone = true) : t.life.gone = true := by
  rcases step_cases h with h | h
  · rw [h.life]
    exact hg
  · exact h.gone hg

theorem mayEnd_of_gone (h : Sys.Step s l t) (hg : s.life.gone = true) : MayEnd s l := by
  intro hl
  rcases hl with rfl | ⟨rfl, hl⟩
  · simp only [Sys.Step, Sys.step] at h
    split at h
    · rename_i hl
      rw [hl] at hg
      cases hg
    · cases h
  · rw [hl] at hg
    cases hg

theorem steps_of_gone (htr : IsTrace Sys.Step s tr) (hg : s.life.gone = true) :
    StepsMeet MayEnd s tr := by
  induction tr generalizing s with
  | nil => trivial
  | cons x tr ih => exact ⟨mayEnd_of_gone htr.1 hg, ih htr.2 (gone_of_step htr.1 hg)⟩

/-- The derived part went after the thread, and nothing was executed since. -/
def Quiet (s : Sys) : Prop := s.late = [] ∧ (s.life.gone = true → s.phase = .exited)

theorem Quiet.step (hQ : Quiet s) (h : Sys.Step s l t) (hok : MayEnd s l) : Quiet t := by
  rcases step_cases h with h | h
  · have hn : s.life.gone = false := by
      cases hg : s.life.gone with
      | true => exact absurd (hQ.2 hg) h.alive
      | false => rfl
    refine ⟨?_, ?_⟩
    · rw [h.late, hn]
      exact hQ.1
    · rw [h.life, hn]
      simp
  · refine ⟨h.late.trans hQ.1, fun hg => ?_⟩
    rw [h.phase]
    rcases h.ends hg with hs | hl
    · exact hQ.2 hs
    · exact hok hl.1

/-- The derived part went first: the thread has yet to execute a hook, or has done so. -/
def Overdue (s : Sys) : Prop :=
  s.life.gone = true ∧ s.life ≠ .done ∧ (s.phase = .exited → s.late ≠ [])

theorem Overdue.step (hO : Overdue s) (h : Sys.Step s l t) : Overdue t ∨ t.late ≠ [] := by
  rcases step_cases h with h | h
  · refine Or.inl ⟨by rw [h.life]; exact hO.1, by rw [h.life]; exact hO.2.1, fun he => ?_⟩
    have hs := Option.isSome_iff_exists.mp (h.exits he)
    obtain ⟨hook, hs⟩ := hs
    rw [h.late, hO.1, hs]
    simp
  · by_cases hd : t.life = .done
    · rcases h.done hd with hs | hs
      · exact absurd hs hO.2.1
      · rw [h.late]
        exact Or.inr (hO.2.2 hs)
    · refine Or.inl ⟨h.gone hO.1, hd, ?_⟩
      rw [h.phase, h.late]
      exact hO.2.2

theorem Overdue.late (hO : Overdue s) (htr : IsTrace Sys.Step s tr)
    (hd : ∃ x ∈ tr, x.2.life = .done) : ∃ x ∈ tr, x.2.late ≠ [] := by
  induction tr generalizing s with
  | nil => simp at hd
  | cons y tr ih =>
    rcases hO.step htr.1 with hy | hy
    · obtain ⟨x, hx, hl⟩ := hd
      rcases List.mem_cons.mp hx with rfl | hx
      · exact absurd hl hy.2.1
      · obtain ⟨z, hz, hl⟩ := ih hy htr.2 ⟨x, hx, hl⟩
        exact ⟨z, List.mem_cons_of_mem _ hz, hl⟩
    · exact ⟨y, List.mem_cons_self .., hy⟩

/-- The step that ends the derived part before the thread. -/
theorem overdue_of_not_mayEnd (h : Sys.Step s l t) (hn : ¬ MayEnd s l) : Overdue t := by
  have hl : l = .abandon ∨ l = .owner ∧ s.life = .alive := by
    by_contra hl
    exact hn fun h => absurd h hl
  have hp : s.phase ≠ .exited := fun hp => hn fun _ => hp
  rcases hl with rfl | ⟨rfl, hl⟩
  · simp only [Sys.Step, Sys.step] at h
    split at h
    · cases h
      exact ⟨rfl, by simp, fun he => absurd he hp⟩
    · cases h
  · simp only [Sys.Step, Sys.step, Sys.stepOwner, hl] at h
    cases h
    exact ⟨rfl, by simp, fun he => absurd he hp⟩

/-- In a run that joins the thread, a hook after the derived part shows that it went first. -/
theorem steps_of_joined (htr : IsTrace Sys.Step s tr) (hd : ∃ x ∈ tr, x.2.life = .done)
    (hq : StatesMeet (fun s => s.late = []) tr) : StepsMeet MayEnd s tr := by
  induction tr generalizing s with
  | nil => trivial
  | cons y tr ih =>
    rw [statesMeet_cons] at hq
    by_cases hok : MayEnd s y.1
    · refine ⟨hok, ?_⟩
      by_cases hg : y.2.life.gone = true
      · exact steps_of_gone htr.2 hg
      · refine ih htr.2 ?_ hq.2
        obtain ⟨x, hx, hl⟩ := hd
        rcases List.mem_cons.mp hx with rfl | hx
        · rw [hl] at hg
          exact absurd rfl hg
        · exact ⟨x, hx, hl⟩
    · have hO := overdue_of_not_mayEnd htr.1 hok
      obtain ⟨x, hx, hl⟩ := hd
      rcases List.mem_cons.mp hx with rfl | hx
      · exact absurd hl hO.2.1
      · obtain ⟨z, hz, hl⟩ := hO.late htr.2 ⟨x, hx, hl⟩
        exact absurd (hq.2 z hz) hl

end

/-- No hook and no callback runs after the derived part when the thread has ended before it;
in a run in which the destructor returns, only then. -/
theorem hooks_within_lifetime (tr : List (Label × Sys)) (htr : IsTrace Sys.Step {} tr) :
    (StepsMeet MayEnd {} tr → StatesMeet (fun s => s.late = []) tr) ∧
    ((∃ x ∈ tr, x.2.life = .done) → StatesMeet (fun s => s.late = []) tr →
      StepsMeet MayEnd {} tr) := by
  refine ⟨fun hok x hx => ?_, fun hd hq => steps_of_joined htr hd hq⟩
  have hr : RunUnder Sys.Step MayEnd {} x.2 := RunUnder.of_trace htr hok x hx
  exact (hr.invariant Quiet ⟨rfl, by simp [Life.gone]⟩ fun _ _ _ hQ hok hs => hQ.step hs hok).1

/-- The subsystem is stopped and started, its thread ends, and then it is destroyed. -/
theorem stopped_first_quiet : ∃ tr, record Sys.step [.owner, .owner, .stop, .start,
      .thread .runs, .thread .returns, .thread .runs, .thread .returns,
      .owner, .owner, .owner, .owner, .owner] {} = some tr ∧
    (∃ x ∈ tr, x.2.life = .done) ∧ StatesMeet (fun s => s.late = []) tr := by
  obtain ⟨tr, htr⟩ : ∃ tr, record Sys.step [.owner, .owner, .stop, .start,
      .thread .runs, .thread .returns, .thread .runs, .thread .returns,
      .owner, .owner, .owner, .owner, .owner] {} = some tr := ⟨_, rfl⟩
  have hi : IsTrace Sys.Step {} tr := isTrace_of_record htr
  have hq := (hooks_within_lifetime tr hi).1
  cases htr
  refine ⟨_, rfl, ?_, hq ?_⟩
  · simp [Sys.goto]
  · simp [StepsMeet, MayEnd, Sys.goto]

/-- The derived constructor throws before it calls `start()`: `onStart` runs in `~Subsystem`. -/
theorem abandoned_runs_onStart : (follow Sys.step [.owner, .abandon, .owner, .owner,
      .thread .returns] {}).map Sys.late = some [.onStart] ∧
    ¬ ∀ s, Run Sys.Step {} s → s.late = [] := by
  refine ⟨rfl, ?_⟩
  intro h
  obtain ⟨s, hs⟩ : ∃ s, follow Sys.step [.owner, .abandon, .owner, .owner, .thread .returns] {} =
    some s := ⟨_, rfl⟩
  have hl := h s (run_of_follow hs)
  cases hs
  cases hl

end Omulator.Subsystem
