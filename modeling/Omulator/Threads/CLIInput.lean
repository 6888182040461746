import Omulator.Lib.Transition
import Mathlib.Logic.Function.Basic
import Mathlib.Data.List.Basic

/-!
# The fence of CLIInput (`src/util/CLIInput.cpp`, `src/Interpreter.cpp`)

The thread that reads lines and the thread of the Interpreter, which has the mailbox's mutex while
it processes a queue. The fence of each string is a local variable of one iteration of
`input_loop`; fences have the number of their string.
-/

namespace Omulator.CLIInput
open Lib

abbrev Text := List UInt8

/-- `" \a\b\f\n\r\t\v"`. -/
def WHITESPACE_CHARS : Text := [0x20, 0x07, 0x08, 0x0c, 0x0a, 0x0d, 0x09, 0x0b]

def find_first_not_of (str chars : Text) : Option ℕ := str.findIdx? (· ∉ chars)

def find_last_not_of (str chars : Text) : Option ℕ :=
  (str.reverse.findIdx? (· ∉ chars)).map (str.length - 1 - ·)

def trim_string_ (str : Text) : Text :=
  match find_first_not_of str WHITESPACE_CHARS, find_last_not_of str WHITESPACE_CHARS with
  | some firstValidChar, some lastValidChar =>
    (str.drop firstValidChar).take (lastValidChar + 1 - firstValidChar)
  | _, _ => []

inductive Message where
  | STDIN_STRING (str : Text)
  | SIMPLE_FENCE (fence : ℕ)
  deriving DecidableEq, Repr

inductive Input where
  | readline
  /-- about to create the fence -/
  | create (str : Text)
  /-- about to send, with the fence -/
  | send (fence : ℕ) (str : Text)
  | wait (fence : ℕ)
  /-- about to leave the scope of the fence -/
  | leave (fence : ℕ)
  deriving DecidableEq, Repr

inductive Interp where
  /-- waiting for a queue -/
  | recv
  /-- in `pump_msgs`, with the messages to come -/
  | pumping (rest : List Message)
  /-- between the store to the fence and the notification -/
  | notify (fence : ℕ) (rest : List Message)
  deriving DecidableEq, Repr

structure Session where
  input : Input := .readline
  interp : Interp := .recv
  queue_ : List (List Message) := []
  /-- the strings that have been given a fence -/
  lines : List Text := []
  value : ℕ → Bool := fun _ => false
  ended : ℕ → Bool := fun _ => false
  /-- the strings that `exec` has returned from -/
  execd : List Text := []
  /-- the Interpreter has used a fence that was gone -/
  dangling : Bool := false

inductive Label where
  /-- `readline` returns -/
  | line (str : Text)
  | input
  | interp
  deriving DecidableEq, Repr

namespace Session

/-- The Interpreter uses the fence. -/
def touch (fence : ℕ) (s : Session) : Session :=
  { s with dangling := s.dangling || s.ended fence }

def stepLine (str : Text) (s : Session) : Option Session :=
  match s.input with
  | .readline =>
    let str := trim_string_ str
    if str ≠ [] then some { s with input := .create str } else some s
  | _ => none

def stepInput (s : Session) : Option Session :=
  match s.input with
  | .readline => none
  | .create str =>
    let fence := s.lines.length
    some { s with
      input := .send fence str
      lines := s.lines ++ [str]
      value := Function.update s.value fence false }
  | .send fence str =>
    if s.interp = .recv then
      some { s with
        input := .wait fence
        queue_ := s.queue_ ++ [[.STDIN_STRING str, .SIMPLE_FENCE fence]] }
    else none
  | .wait fence => if s.value fence then some { s with input := .leave fence } else none
  | .leave fence =>
    some { s with input := .readline, ended := Function.update s.ended fence true }

def stepInterp (s : Session) : Option Session :=
  match s.interp with
  | .recv =>
    match s.queue_ with
    | [] => none
    | currentMQ :: _ => some { s with interp := .pumping currentMQ }
  | .pumping [] => some { s with interp := .recv, queue_ := s.queue_.tail }
  | .pumping (.STDIN_STRING str :: rest) =>
    some { s with interp := .pumping rest, execd := s.execd ++ [str] }
  | .pumping (.SIMPLE_FENCE fence :: rest) =>
    some { s.touch fence with
      interp := .notify fence rest
      value := Function.update s.value fence true }
  | .notify fence rest => some { s.touch fence with interp := .pumping rest }

def step : Label → Session → Option Session
  | .line str, s => s.stepLine str
  | .input, s => s.stepInput
  | .interp, s => s.stepInterp

def Step (s : Session) (l : Label) (t : Session) : Prop := s.step l = some t

/-- The Interpreter has used no fence that was gone, and a fence is true only when `exec` has
returned from its string. -/
structure Sound (s : Session) : Prop where
  alive : s.dangling = false
  after : ∀ fence, s.value fence = true →
    ∃ str, s.lines[fence]? = some str ∧ s.execd[fence]? = some str

/-- So it is, and so it stays when the Interpreter makes its next step. -/
def Safe (s : Session) : Prop := Sound s ∧ ∀ t, Step s .interp t → Sound t

/-- The scope of a fence is not left while its notification is still to come. -/
def Careful (s : Session) (l : Label) : Prop :=
  ∀ fence rest, l = .input → s.input = .leave fence → s.interp ≠ .notify fence rest

/-! ### What a session goes through -/

inductive Quiet : Interp → List (List Message) → Prop where
  | recv : Quiet .recv []
  | popping (q : List Message) : Quiet (.pumping []) [q]

/-- How far the Interpreter has come with the last string and its fence, whose value is given. -/
inductive Progress (fence : ℕ) (str : Text) (lines execd : List Text) :
    Bool → Interp → List (List Message) → Prop where
  | sent (hlines : lines = execd ++ [str]) :
    Progress fence str lines execd false .recv [[.STDIN_STRING str, .SIMPLE_FENCE fence]]
  | taken (hlines : lines = execd ++ [str]) (q : List Message) :
    Progress fence str lines execd false (.pumping [.STDIN_STRING str, .SIMPLE_FENCE fence]) [q]
  | returned (hlines : lines = execd) (q : List Message) :
    Progress fence str lines execd false (.pumping [.SIMPLE_FENCE fence]) [q]
  | stored (hlines : lines = execd) (q : List Message) :
    Progress fence str lines execd true (.notify fence []) [q]
  | notified (hlines : lines = execd) {interp : Interp} {queue_ : List (List Message)}
    (hquiet : Quiet interp queue_) : Progress fence str lines execd true interp queue_

theorem Progress.quiet {fence : ℕ} {str : Text} {lines execd : List Text} {interp : Interp}
    {queue_ : List (List Message)} (h : Progress fence str lines execd true interp queue_)
    (hinterp : ∀ rest, interp ≠ .notify fence rest) : lines = execd ∧ Quiet interp queue_ := by
  cases h with
  | stored => exact absurd rfl (hinterp _)
  | notified hlines hquiet => exact ⟨hlines, hquiet⟩

structure Pending (s : Session) (fence : ℕ) : Prop where
  there : s.ended fence = false
  last : fence + 1 = s.lines.length
  progress : ∃ str, Progress fence str s.lines s.execd (s.value fence) s.interp s.queue_

def Stage (s : Session) : Prop :=
  match s.input with
  | .readline | .create _ => s.lines = s.execd ∧ Quiet s.interp s.queue_
  | .send fence str => s.lines = s.execd ++ [str] ∧ fence = s.execd.length ∧
      Quiet s.interp s.queue_ ∧ s.value fence = false ∧ s.ended fence = false
  | .wait fence => Pending s fence
  | .leave fence => Pending s fence ∧ s.value fence = true

structure Inv (s : Session) : Prop where
  alive : s.dangling = false
  prior : s.execd <+: s.lines
  after : ∀ fence, s.value fence = true → fence < s.execd.length
  later : ∀ fence, s.lines.length ≤ fence → s.ended fence = false
  stage : Stage s

variable {s t : Session} {fence : ℕ} {str : Text} {l : Label}

theorem inv_start : Inv {} where
  alive := rfl
  prior := List.prefix_rfl
  after := nofun
  later := fun _ _ => rfl
  stage := ⟨rfl, .recv⟩

theorem Inv.sound (h : Inv s) : Sound s where
  alive := h.alive
  after fence hvalue := by
    have hlt := h.after fence hvalue
    refine ⟨s.execd[fence], ?_, List.getElem?_eq_getElem hlt⟩
    rw [List.prefix_iff_getElem?.mp h.prior fence hlt]

theorem stage_readline (hin : s.input = .readline) :
    Stage s ↔ s.lines = s.execd ∧ Quiet s.interp s.queue_ := by
  rw [Stage, hin]

theorem stage_create (hin : s.input = .create str) :
    Stage s ↔ s.lines = s.execd ∧ Quiet s.interp s.queue_ := by
  rw [Stage, hin]

theorem stage_send (hin : s.input = .send fence str) :
    Stage s ↔ s.lines = s.execd ++ [str] ∧ fence = s.execd.length ∧ Quiet s.interp s.queue_ ∧
      s.value fence = false ∧ s.ended fence = false := by
  rw [Stage, hin]

theorem stage_wait (hin : s.input = .wait fence) : Stage s ↔ Pending s fence := by
  rw [Stage, hin]

theorem stage_leave (hin : s.input = .leave fence) :
    Stage s ↔ Pending s fence ∧ s.value fence = true := by
  rw [Stage, hin]

/-! ### The thread of CLIInput -/

theorem Inv.line (h : Inv s) (hs : s.stepLine str = some t) : Inv t := by
  simp only [stepLine] at hs
  split at hs
  · rename_i hin
    split at hs
    · cases hs
      exact ⟨h.alive, h.prior, h.after, h.later, (stage_readline hin).mp h.stage⟩
    · cases hs
      exact h
  · cases hs

theorem Inv.create (h : Inv s) (hin : s.input = .create str) :
    Inv { s with
      input := .send s.lines.length str
      lines := s.lines ++ [str]
      value := Function.update s.value s.lines.length false } := by
  obtain ⟨hlines, hquiet⟩ := (stage_create hin).mp h.stage
  refine ⟨h.alive, h.prior.trans (List.prefix_append _ _), ?_, ?_, ?_⟩
  · intro fence hvalue
    refine h.after fence ?_
    by_cases hf : fence = s.lines.length
    · rw [hf] at hvalue
      exact absurd ((Function.update_self ..).symm.trans hvalue) nofun
    · exact (Function.update_of_ne hf ..).symm.trans hvalue
  · intro fence hle
    rw [List.length_append, List.length_singleton] at hle
    exact h.later fence (Nat.le_of_succ_le hle)
  · refine ⟨?_, ?_, hquiet, Function.update_self .., h.later _ (Nat.le_refl _)⟩
    · exact congrArg (· ++ [str]) hlines
    · exact congrArg List.length hlines

theorem Inv.send (h : Inv s) (hin : s.input = .send fence str) (hrecv : s.interp = .recv) :
    Inv { s with
      input := .wait fence
      queue_ := s.queue_ ++ [[.STDIN_STRING str, .SIMPLE_FENCE fence]] } := by
  obtain ⟨hlines, hlast, hquiet, hvalue, hended⟩ := (stage_send hin).mp h.stage
  refine ⟨h.alive, h.prior, h.after, h.later, hended, ?_, str, ?_⟩
  · rw [hlines, hlast, List.length_append, List.length_singleton]
  · rw [hrecv] at hquiet
    cases hq : s.queue_ with
    | cons q queue_ =>
      rw [hq] at hquiet
      cases hquiet
    | nil =>
      change Progress fence str s.lines s.execd (s.value fence) s.interp _
      rw [hvalue, hrecv]
      exact .sent hlines

theorem Inv.leave (h : Inv s) (hin : s.input = .leave fence)
    (hcare : ∀ rest, s.interp ≠ .notify fence rest) :
    Inv { s with input := .readline, ended := Function.update s.ended fence true } := by
  obtain ⟨hpending, hvalue⟩ := (stage_leave hin).mp h.stage
  refine ⟨h.alive, h.prior, h.after, ?_, ?_⟩
  · intro k hle
    have hne : k ≠ fence := by
      intro heq
      have hlast := hpending.last
      have hle' : s.lines.length ≤ fence := heq ▸ hle
      omega
    exact (Function.update_of_ne hne ..).trans (h.later k hle)
  · obtain ⟨str, hprogress⟩ := hpending.progress
    rw [hvalue] at hprogress
    exact hprogress.quiet hcare

theorem Inv.input (h : Inv s) (hs : s.stepInput = some t) (hc : Careful s .input) : Inv t := by
  simp only [stepInput] at hs
  split at hs
  · cases hs
  · rename_i str hin
    cases hs
    exact h.create hin
  · rename_i fence str hin
    split at hs
    · rename_i hrecv
      cases hs
      exact h.send hin hrecv
    · cases hs
  · rename_i fence hin
    split at hs
    · rename_i hvalue
      cases hs
      obtain ⟨hthere, hlast, hprogress⟩ := (stage_wait hin).mp h.stage
      exact ⟨h.alive, h.prior, h.after, h.later, ⟨hthere, hlast, hprogress⟩, hvalue⟩
    · cases hs
  · rename_i fence hin
    cases hs
    exact h.leave hin fun rest => hc fence rest rfl hin

/-! ### The thread of the Interpreter -/

theorem stage_of_pending (h : Pending s fence)
    (hin : s.input = .wait fence ∨ s.input = .leave fence ∧ s.value fence = true) : Stage s := by
  rcases hin with hin | ⟨hin, hvalue⟩
  · exact (stage_wait hin).mpr h
  · exact (stage_leave hin).mpr ⟨h, hvalue⟩

theorem stepInterp_of_quiet (h : Quiet s.interp s.queue_) (hs : s.stepInterp = some t) :
    t = { s with interp := .recv, queue_ := [] } := by
  obtain ⟨input, interp, queue_, lines, value, ended, execd, dangling⟩ := s
  cases h with
  | recv => cases hs
  | popping q =>
    cases hs
    rfl

theorem Inv.quiet (h : Inv s) (hq : Quiet s.interp s.queue_)
    (hstage : Stage { s with interp := .recv, queue_ := [] }) (hs : s.stepInterp = some t) :
    Inv t := by
  rw [stepInterp_of_quiet hq hs]
  exact ⟨h.alive, h.prior, h.after, h.later, hstage⟩

theorem Inv.pending (h : Inv s) (hp : Pending s fence)
    (hin : s.input = .wait fence ∨ s.input = .leave fence ∧ s.value fence = true)
    (hs : s.stepInterp = some t) : Inv t := by
  obtain ⟨hthere, hlast, str, hprogress⟩ := hp
  obtain ⟨halive, hprior, hafter, hlater, -⟩ := h
  obtain ⟨input, interp, queue_, lines, value, ended, execd, dangling⟩ := s
  dsimp only at *
  have htouch : (dangling || ended fence) = false := by rw [halive, hthere, Bool.or_false]
  generalize hv : value fence = v at hprogress
  cases hprogress with
  | sent hlines =>
    cases hs
    refine ⟨halive, hprior, hafter, hlater, stage_of_pending ⟨hthere, hlast, str, ?_⟩ hin⟩
    change Progress fence str lines execd (value fence) _ _
    rw [hv]
    exact .taken hlines _
  | taken hlines q =>
    cases hs
    refine ⟨halive, ?_, ?_, hlater, stage_of_pending ⟨hthere, hlast, str, ?_⟩ hin⟩
    · exact hlines ▸ List.prefix_rfl
    · intro k hk
      exact Nat.lt_of_lt_of_le (hafter k hk) (List.prefix_append execd [str]).length_le
    · change Progress fence str lines (execd ++ [str]) (value fence) _ _
      rw [hv]
      exact .returned hlines q
  | returned hlines q =>
    cases hs
    have hself : Function.update value fence true fence = true := Function.update_self ..
    refine ⟨htouch, hprior, ?_, hlater, stage_of_pending ⟨hthere, hlast, str, ?_⟩ ?_⟩
    · intro k hk
      change k < execd.length
      by_cases hkf : k = fence
      · rw [hkf, ← hlines, ← hlast]
        exact Nat.lt_succ_self fence
      · exact hafter k ((Function.update_of_ne hkf ..).symm.trans hk)
    · change Progress fence str lines execd (Function.update value fence true fence) _ _
      rw [hself]
      exact .stored hlines q
    · exact hin.imp_right fun hl => ⟨hl.1, hself⟩
  | stored hlines q =>
    cases hs
    refine ⟨htouch, hprior, hafter, hlater, stage_of_pending ⟨hthere, hlast, str, ?_⟩ hin⟩
    change Progress fence str lines execd (value fence) _ _
    rw [hv]
    exact .notified hlines (.popping q)
  | notified hlines hquiet =>
    rw [stepInterp_of_quiet hquiet hs]
    refine ⟨halive, hprior, hafter, hlater, stage_of_pending ⟨hthere, hlast, str, ?_⟩ hin⟩
    change Progress fence str lines execd (value fence) _ _
    rw [hv]
    exact .notified hlines .recv

theorem Inv.interp (h : Inv s) (hs : s.stepInterp = some t) : Inv t := by
  cases hin : s.input with
  | readline =>
    obtain ⟨hlines, hquiet⟩ := (stage_readline hin).mp h.stage
    exact h.quiet hquiet ((stage_readline (s := { s with interp := .recv, queue_ := [] }) hin).mpr
      ⟨hlines, .recv⟩) hs
  | create str =>
    obtain ⟨hlines, hquiet⟩ := (stage_create hin).mp h.stage
    exact h.quiet hquiet ((stage_create (s := { s with interp := .recv, queue_ := [] }) hin).mpr
      ⟨hlines, .recv⟩) hs
  | send fence str =>
    obtain ⟨hlines, hlast, hquiet, hvalue⟩ := (stage_send hin).mp h.stage
    exact h.quiet hquiet ((stage_send (s := { s with interp := .recv, queue_ := [] }) hin).mpr
      ⟨hlines, hlast, .recv, hvalue⟩) hs
  | wait fence => exact h.pending ((stage_wait hin).mp h.stage) (.inl hin) hs
  | leave fence =>
    obtain ⟨hpending, hvalue⟩ := (stage_leave hin).mp h.stage
    exact h.pending hpending (.inr ⟨hin, hvalue⟩) hs

/-! ### Sessions -/

theorem Inv.step_careful (h : Inv s) (hs : Step s l t) (hc : Careful s l) : Inv t := by
  cases l with
  | line str => exact h.line hs
  | input => exact h.input hs hc
  | interp => exact h.interp hs

theorem Inv.safe (h : Inv s) : Safe s := ⟨h.sound, fun _ ht => (h.interp ht).sound⟩

/-- If the scope is left too early, the Interpreter's next step is on a fence that is gone. -/
theorem careful_of_safe (hs : Step s l t) (ht : Safe t) : Careful s l := by
  intro fence rest hl hin hinterp
  subst hl
  change s.stepInput = some t at hs
  rw [stepInput, hin] at hs
  cases hs
  have hnotify : Step { s with input := .readline, ended := Function.update s.ended fence true }
      .interp { ({ s with
        input := .readline
        ended := Function.update s.ended fence true } : Session).touch fence with
          interp := .pumping rest } := by
    change stepInterp _ = _
    rw [stepInterp]
    simp only [hinterp]
  have halive := (ht.2 _ hnotify).alive
  change (s.dangling || Function.update s.ended fence true fence) = false at halive
  rw [Function.update_self, Bool.or_true] at halive
  cases halive

/-- The Interpreter uses no fence whose scope has been left, and fences become true after `exec`,
exactly in the sessions where no scope is left between the store and the notification. -/
theorem safe_iff_careful (tr : List (Label × Session)) (htr : IsTrace Step {} tr) :
    StepsMeet Careful {} tr ↔ StatesMeet Safe tr := by
  have hexact : ∀ (s : Session) (l : Label) (t : Session), Inv s → Step s l t →
      (Careful s l ↔ Safe t) := fun _ _ _ h hs =>
    ⟨fun hc => (h.step_careful hs hc).safe, careful_of_safe hs⟩
  have hkeep : ∀ (s : Session) (l : Label) (t : Session), Inv s → Step s l t →
      Careful s l → Inv t := fun _ _ _ h hs hc => h.step_careful hs hc
  exact steps_iff_states Inv hexact hkeep {} tr inv_start htr

/-- A blank line, and one that is executed; the scope is left after the notification. -/
theorem notified_first : ∃ tr, record step
      [.line [0x20, 0x09], .line [0x20, 0x71, 0x0a], .input, .input, .interp, .interp, .interp,
        .input, .interp, .input, .interp] {} = some tr ∧ StatesMeet Safe tr := by
  obtain ⟨tr, htr⟩ : ∃ tr, record step
      [.line [0x20, 0x09], .line [0x20, 0x71, 0x0a], .input, .input, .interp, .interp, .interp,
        .input, .interp, .input, .interp] {} = some tr := ⟨_, rfl⟩
  have hiff := safe_iff_careful tr (isTrace_of_record htr)
  cases htr
  exact ⟨_, rfl, hiff.mp ⟨nofun, nofun, nofun, nofun, nofun, nofun, nofun, nofun, nofun,
    fun _ _ _ _ => nofun, nofun, trivial⟩⟩

/-- The waiting thread sees the store before the notification. -/
theorem left_first :
    (follow step [.line [0x71], .input, .input, .interp, .interp, .interp, .input, .input,
      .interp] {}).map Session.dangling = some true ∧
    ¬ ∀ s, Run Step {} s → Sound s := by
  refine ⟨by decide, ?_⟩
  intro h
  obtain ⟨s, hs⟩ : ∃ s, follow step [.line [0x71], .input, .input, .interp, .interp, .interp,
      .input, .input, .interp] {} = some s := ⟨_, rfl⟩
  have halive := (h s (run_of_follow hs)).alive
  cases hs
  exact absurd halive (by decide)

end Session
end Omulator.CLIInput
