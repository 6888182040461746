import Omulator.Core.Requests
import Mathlib.Data.List.Induction

/-!
# The prompt (`src/util/CLIInput.cpp`, `src/Interpreter.cpp`)

The thread that reads lines reads the next one only when the Interpreter has executed all those
before it, whatever their scripts call and whatever the other threads do.
-/

namespace Omulator.Application
open Lib
open CLIInput (Text trim_string_)

def Entry.text : Entry → Option Text
  | .line str => if trim_string_ str = [] then none else some (trim_string_ str)
  | _ => none

/-- The lines that are not blank, without the white space around them. -/
def typed (trace : List Entry) : List Text := trace.filterMap Entry.text

def Message.text : Message → Option Text
  | .STDIN_STRING str => some str
  | _ => none

def request (str : Text) : List Message := [.STDIN_STRING str, .SIMPLE_FENCE]

namespace Place

def running : Place → Option Text
  | .callback (.STDIN_STRING str) _ => some str
  | .wants _ _ next | .holds _ _ next => next.running
  | _ => none

def posting : Place → List Message
  | .wants m mq _ | .holds m mq _ => if m = .Interpreter then mq else []
  | _ => []

end Place

/-- How far the Interpreter is with the last line: its fence, and what it has not come to. -/
inductive Progress : Bool → List Message → Prop where
  | sent (str : Text) : Progress false (request str)
  | begun : Progress false [.SIMPLE_FENCE]
  | done : Progress true []

/-- For the place of the thread that reads lines. -/
def Stage (fence : Bool) (pending : List Message) : Place → Prop
  | .wants _ _ _ | .holds _ _ _ => pending = [] ∧ fence = false
  | .fence => Progress fence pending
  | _ => pending = []

structure Prompted (s : System) : Prop where
  sent : (s.endpoints .Interpreter).sent ++ (s.threads .input).posting =
    (typed s.trace).flatMap request
  stage : Stage s.fence (s.pending .Interpreter) (s.threads .input)
  execd : s.execd = (s.endpoints .Interpreter).taken.filterMap Message.text
  last : ∀ str, (s.threads .interpreter).running = some str →
    (s.endpoints .Interpreter).taken.getLast? = some (.STDIN_STRING str)

section
variable {s s' : System} {t : Thread} {m : Mailbox} {p : Place} {mq : List Message}
  {next : Place}

theorem filterMap_requests (lines : List Text) :
    (lines.flatMap request).filterMap Message.text = lines := by
  induction lines with
  | nil => rfl
  | cons str lines ih =>
    rw [List.flatMap_cons, List.filterMap_append, ih]
    rfl

theorem getLast_requests (lines : List Text) (str : Text) :
    (lines.flatMap request).getLast? ≠ some (.STDIN_STRING str) := by
  induction lines using List.reverseRecOn with
  | nil => exact fun h => nomatch h
  | append_singleton lines line _ =>
    rw [List.flatMap_append, List.flatMap_singleton, request, List.getLast?_append]
    simp

/-- What is pending follows from what has been sent and taken. -/
theorem pending_eq (hR : Requests s) (hR' : Requests s')
    (hsent : (s'.endpoints m).sent = (s.endpoints m).sent)
    (htaken : (s'.endpoints m).taken = (s.endpoints m).taken) : s'.pending m = s.pending m := by
  have hflow := hR'.flow m
  rw [hsent, htaken, hR.flow m] at hflow
  exact (List.append_cancel_left hflow).symm

theorem Prompted.elsewhere (h : Prompted s) (hR : Requests s) (hR' : Requests s')
    (ht : t ≠ .input) (hthreads : s'.threads = Function.update s.threads t p)
    (hrunning : t = .interpreter → p.running = none ∨ p.running = (s.threads t).running)
    (hmail : (s'.endpoints .Interpreter).sent = (s.endpoints .Interpreter).sent ∧
      (s'.endpoints .Interpreter).taken = (s.endpoints .Interpreter).taken)
    (hfence : s'.fence = s.fence) (hexecd : s'.execd = s.execd)
    (htyped : typed s'.trace = typed s.trace) : Prompted s' where
  sent := by
    rw [hthreads, Function.update_of_ne (Ne.symm ht), hmail.1, htyped]
    exact h.sent
  stage := by
    rw [hthreads, Function.update_of_ne (Ne.symm ht), hfence, pending_eq hR hR' hmail.1 hmail.2]
    exact h.stage
  execd := by
    rw [hexecd, hmail.2]
    exact h.execd
  last str hstr := by
    rw [hmail.2]
    rw [hthreads] at hstr
    by_cases hi : t = .interpreter
    · subst hi
      rw [Function.update_self] at hstr
      rcases hrunning rfl with hnone | hsame
      · exact nomatch hnone.symm.trans hstr
      · exact h.last str (hsame.symm.trans hstr)
    · rw [Function.update_of_ne (Ne.symm hi)] at hstr
      exact h.last str hstr

theorem acquire_kept (hs : s.acquire t m p = some s') (m' : Mailbox) :
    (s'.endpoints m').sent = (s.endpoints m').sent ∧
      (s'.endpoints m').taken = (s.endpoints m').taken := by
  rw [acquire_eq hs]
  refine mail_kept ?_ ?_ m'
  · rfl
  · rfl

theorem release_kept {f : MailboxEndpoint → MailboxEndpoint}
    (hf : ∀ x, (f x).sent = x.sent ∧ (f x).taken = x.taken) (m' : Mailbox) :
    ((s.release t m f p).endpoints m').sent = (s.endpoints m').sent ∧
      ((s.release t m f p).endpoints m').taken = (s.endpoints m').taken := by
  rw [release_endpoints]
  refine mail_kept ?_ ?_ m'
  · exact (hf _).1
  · exact (hf _).2

theorem typed_note {e : Entry} (he : e.text = none) : typed (s.note e).trace = typed s.trace := by
  simp [typed, System.note, he]

theorem Sends.interpreter (h : Sends t .Interpreter mq next) :
    t = .input ∧ (∃ str, mq = request str) ∧ next = .fence := by
  cases t <;> simp only [Sends] at h
  exact ⟨rfl, h⟩

/-! ### The Interpreter comes to a message -/

theorem Stage.waiting {fence : Bool} {message : Message} {later : List Message}
    (h : Stage fence (message :: later) p) :
    p = .fence ∧ Progress fence (message :: later) := by
  cases p with
  | fence => exact ⟨rfl, h⟩
  | wants m mq next | holds m mq next => cases h.1
  | _ => cases h

theorem Progress.first {fence : Bool} {message : Message} {later : List Message}
    (h : Progress fence (message :: later)) :
    (∃ str, message = .STDIN_STRING str ∧ later = [.SIMPLE_FENCE] ∧ fence = false) ∨
      message = .SIMPLE_FENCE ∧ later = [] := by
  cases h with
  | sent str => exact .inl ⟨str, rfl, rfl, rfl⟩
  | begun => exact .inr ⟨rfl, rfl⟩

theorem Prompted.deliver {message : Message} {rest : List Message} (h : Prompted s)
    (hR : Requests s) (hR' : Requests (s.deliver .interpreter message rest))
    (hp : s.threads .interpreter = .pumping (message :: rest)) :
    Prompted (s.deliver .interpreter message rest) := by
  obtain ⟨later, hpending⟩ : ∃ later, s.pending .Interpreter = message :: later := by
    refine ⟨rest ++ (s.endpoints .Interpreter).queue_.tail.flatten, ?_⟩
    rw [System.pending, Mailbox.receiver, hp]
    rfl
  have hsent : ((s.deliver .interpreter message rest).endpoints .Interpreter).sent =
      (s.endpoints .Interpreter).sent := by
    rw [deliver_endpoints, Thread.own, Function.update_self]
  have htaken : ((s.deliver .interpreter message rest).endpoints .Interpreter).taken =
      (s.endpoints .Interpreter).taken ++ [message] := by
    rw [deliver_endpoints, Thread.own, Function.update_self]
  have hlater : (s.deliver .interpreter message rest).pending .Interpreter = later := by
    have hflow := hR'.flow .Interpreter
    rw [hsent, htaken, hR.flow, hpending, List.append_assoc] at hflow
    exact (List.cons.inj (List.append_cancel_left hflow)).2.symm
  have hstage := h.stage
  rw [hpending] at hstage
  obtain ⟨hfence, hprogress⟩ := hstage.waiting
  have hinput : (s.endpoints .Interpreter).sent ++ [] = (typed s.trace).flatMap request := by
    have hinput := h.sent
    rw [hfence] at hinput
    exact hinput
  obtain ⟨p, hthreads, hplace⟩ : ∃ p, (s.deliver .interpreter message rest).threads =
    Function.update s.threads .interpreter p ∧ (p = .callback message rest ∨ p = .pumping rest) :=
      deliver_threads
  have hsame : (s.deliver .interpreter message rest).threads .input = .fence := by
    rw [hthreads, Function.update_of_ne (by decide), hfence]
  refine ⟨?_, ?_, ?_, fun str hstr => ?_⟩
  · rw [hsame, hsent, deliver_trace]
    exact hinput
  · rw [hsame, hlater]
    obtain ⟨str, rfl, rfl, hbegun⟩ | ⟨rfl, rfl⟩ := hprogress.first
    · show Progress s.fence _
      rw [hbegun]
      exact .begun
    · exact .done
  · rw [htaken, List.filterMap_append, ← h.execd]
    obtain ⟨str, rfl, -⟩ | ⟨rfl, -⟩ := hprogress.first
    · rfl
    · exact (List.append_nil _).symm
  · rw [hthreads, Function.update_self] at hstr
    rw [htaken, List.getLast?_concat]
    rcases hplace with rfl | rfl
    · cases message <;> cases hstr
      rfl
    · cases hstr

/-! ### The other threads -/

theorem Prompted.acquire (h : Prompted s) (hR : Requests s) (hR' : Requests s')
    (ht : t ≠ .input) (hs : s.acquire t m p = some s')
    (hrunning : p.running = (s.threads t).running) : Prompted s' := by
  have hmail := acquire_kept hs .Interpreter
  cases acquire_eq hs
  exact h.elsewhere hR hR' ht rfl (fun _ => .inr hrunning) hmail rfl rfl rfl

theorem Prompted.deliver_other {message : Message} {rest : List Message} (h : Prompted s)
    (hR : Requests s) (hR' : Requests (s.deliver t message rest)) (ht : t ≠ .input)
    (hi : t ≠ .interpreter) : Prompted (s.deliver t message rest) := by
  have hown : Mailbox.Interpreter ≠ t.own := by
    cases t
    · decide
    · decide
    · exact absurd rfl hi
    · exact absurd rfl ht
  have hsame : (s.deliver t message rest).endpoints .Interpreter = s.endpoints .Interpreter := by
    rw [deliver_endpoints, Function.update_of_ne hown]
  obtain ⟨p, hthreads, -⟩ : ∃ p, (s.deliver t message rest).threads =
    Function.update s.threads t p ∧ (p = .callback message rest ∨ p = .pumping rest) :=
      deliver_threads
  have hkept : (s.deliver t message rest).fence = s.fence ∧
      (s.deliver t message rest).execd = s.execd := by
    unfold System.deliver
    split
    · rename_i hc
      revert hc hown
      cases t.own <;> cases message <;>
        simp [System.hasCallback, System.invoke, System.goto, System.take]
    · exact ⟨rfl, rfl⟩
  exact h.elsewhere hR hR' ht hthreads (fun he => absurd he hi) (by rw [hsame]; exact ⟨rfl, rfl⟩)
    hkept.1 hkept.2 (by rw [deliver_trace])

theorem Prompted.go_other {interactive : Bool} (h : Prompted s) (hI : Inv s) (hR : Requests s)
    (ht : t ≠ .input) (hs : s.go interactive t = some s') : Prompted s' := by
  have hR' : Requests s' := hR.go hI hs
  have hfits := hI.fits t
  unfold System.go at hs
  cases hp : s.threads t with
  | pump_msgs | left | readline =>
    rw [hp] at hs
    cases hs
  | fence =>
    rw [hp] at hfits
    exact absurd hfits ht
  | unborn =>
    simp only [hp] at hs
    split at hs
    · cases hs
      exact h.elsewhere hR hR' ht rfl (fun _ => .inl rfl) ⟨rfl, rfl⟩ rfl rfl rfl
    · cases hs
  | startEngine =>
    simp only [hp] at hs
    cases hs
    exact h.elsewhere hR hR' ht rfl (fun _ => .inl (by split <;> rfl)) ⟨rfl, rfl⟩ rfl rfl rfl
  | getCLIInput | startInterpreter | claim | sleep | checkStop | asleep =>
    simp only [hp] at hs
    cases hs
    exact h.elsewhere hR hR' ht rfl (fun _ => .inl rfl) ⟨rfl, rfl⟩ rfl rfl rfl
  | on | lockWait | lockMail | wants _ _ _ =>
    simp only [hp] at hs
    exact h.acquire hR hR' ht hs (by rw [hp]; rfl)
  | registering =>
    simp only [hp] at hs
    cases hs
    exact h.elsewhere hR hR' ht rfl (fun _ => .inl rfl) (release_kept (fun _ => ⟨rfl, rfl⟩) _)
      rfl rfl rfl
  | test =>
    simp only [hp] at hs
    split at hs
    · cases hs
      exact h.elsewhere hR hR' ht rfl (fun _ => .inl rfl) ⟨rfl, rfl⟩ rfl rfl rfl
    · cases hs
      exact h.elsewhere hR hR' ht rfl (fun _ => .inl rfl) ⟨rfl, rfl⟩ rfl rfl (typed_note rfl)
  | testWait =>
    simp only [hp] at hs
    cases hs
    exact h.elsewhere hR hR' ht rfl (fun _ => .inl (by split <;> rfl))
      (release_kept (fun _ => ⟨rfl, rfl⟩) _) rfl rfl rfl
  | testEmpty =>
    simp only [hp] at hs
    cases hs
    exact h.elsewhere hR hR' ht rfl (fun _ => .inl (by split_ifs <;> rfl)) ⟨rfl, rfl⟩ rfl rfl rfl
  | pumping rest =>
    simp only [hp] at hs
    cases rest with
    | nil =>
      cases hs
      refine h.elsewhere hR hR' ht rfl (fun _ => .inl rfl) ?_ rfl rfl rfl
      refine release_kept ?_ _
      exact fun _ => ⟨rfl, rfl⟩
    | cons message rest =>
      cases hs
      by_cases hi : t = .interpreter
      · subst hi
        exact h.deliver hR hR' hp
      · exact h.deliver_other hR hR' ht hi
  | callback message rest =>
    simp only [hp] at hs
    cases hs
    exact h.elsewhere hR hR' ht rfl (fun _ => .inl rfl) ⟨rfl, rfl⟩ rfl rfl rfl
  | holds m mq next =>
    simp only [hp] at hs
    have hm : Mailbox.Interpreter ≠ m := by
      rintro rfl
      exact ht (hI.sends hp).interpreter.1
    have hrunning : next.running = (s.threads t).running := by
      rw [hp]
      rfl
    have hmail : ((s.release t m (·.push mq) next).endpoints .Interpreter).sent =
        (s.endpoints .Interpreter).sent ∧
        ((s.release t m (·.push mq) next).endpoints .Interpreter).taken =
          (s.endpoints .Interpreter).taken := by
      rw [release_endpoints, Function.update_of_ne hm]
      exact ⟨rfl, rfl⟩
    split at hs
    · cases hs
      exact h.elsewhere hR hR' ht rfl (fun _ => .inr hrunning) hmail rfl rfl (typed_note rfl)
    · cases hs
      exact h.elsewhere hR hR' ht rfl (fun _ => .inr hrunning) hmail rfl rfl rfl

/-! ### The thread that reads lines -/

theorem Prompted.move (h : Prompted s) (hthreads : s'.threads = Function.update s.threads .input p)
    (hsent : (s'.endpoints .Interpreter).sent ++ p.posting = (typed s'.trace).flatMap request)
    (hstage : Stage s'.fence (s'.pending .Interpreter) p)
    (htaken : (s'.endpoints .Interpreter).taken = (s.endpoints .Interpreter).taken)
    (hexecd : s'.execd = s.execd) : Prompted s' where
  sent := by
    rw [hthreads, Function.update_self]
    exact hsent
  stage := by
    rw [hthreads, Function.update_self]
    exact hstage
  execd := by
    rw [hexecd, htaken]
    exact h.execd
  last str hstr := by
    rw [hthreads, Function.update_of_ne (by decide)] at hstr
    rw [htaken]
    exact h.last str hstr

theorem Prompted.push (h : Prompted s) (hI : Inv s) (hR : Requests s)
    (hR' : Requests (s.release .input .Interpreter (·.push mq) next))
    (hp : s.threads .input = .holds .Interpreter mq next) :
    Prompted (s.release .input .Interpreter (·.push mq) next) := by
  obtain ⟨-, ⟨str, rfl⟩, rfl⟩ := (hI.sends hp).interpreter
  have hstage := h.stage
  have hsent := h.sent
  rw [hp] at hstage hsent
  obtain ⟨hpending, hfence⟩ : s.pending .Interpreter = [] ∧ s.fence = false := hstage
  have hpushed : ((s.release .input .Interpreter (·.push (request str)) .fence).endpoints
      .Interpreter).sent = (s.endpoints .Interpreter).sent ++ request str := by
    rw [release_endpoints, Function.update_self]
    rfl
  have htaken : ((s.release .input .Interpreter (·.push (request str)) .fence).endpoints
      .Interpreter).taken = (s.endpoints .Interpreter).taken := by
    rw [release_endpoints, Function.update_self]
    rfl
  refine h.move rfl ?_ ?_ htaken rfl
  · rw [hpushed]
    exact (List.append_nil _).trans hsent
  · have hflow := hR'.flow .Interpreter
    rw [hpushed, htaken, hR.flow, hpending, List.append_nil] at hflow
    rw [← List.append_cancel_left hflow]
    show Progress s.fence _
    rw [hfence]
    exact .sent str

theorem Prompted.go_input {interactive : Bool} (h : Prompted s) (hI : Inv s) (hR : Requests s)
    (hs : s.go interactive .input = some s') : Prompted s' := by
  have hR' : Requests s' := hR.go hI hs
  have hfits := hI.fits .input
  have hstage := h.stage
  have hsent := h.sent
  unfold System.go at hs
  cases hp : s.threads .input with
  | pump_msgs | left | readline =>
    rw [hp] at hs
    cases hs
  | startEngine | getCLIInput | startInterpreter | claim | on | registering | test | sleep =>
    rw [hp] at hfits
    cases hfits
  | checkStop | lockWait | testWait | asleep =>
    rw [hp] at hfits
    rcases hfits with hfits | hfits <;> cases hfits
  | testEmpty | lockMail | pumping _ | callback _ _ =>
    rw [hp] at hfits
    exact absurd rfl hfits
  | unborn =>
    rw [hp] at hstage hsent
    simp only [hp] at hs
    split at hs
    · cases hs
      refine h.move rfl hsent ?_ rfl rfl
      rw [pending_eq hR hR' rfl rfl]
      exact hstage
    · cases hs
  | fence =>
    rw [hp] at hstage hsent
    simp only [hp] at hs
    split at hs
    · rename_i hfence
      cases hs
      refine h.move rfl hsent ?_ rfl rfl
      rw [pending_eq hR hR' rfl rfl]
      have hprogress : Progress s.fence (s.pending .Interpreter) := hstage
      rw [hfence] at hprogress
      -- the fence is set last
      generalize s.pending .Interpreter = pending at hprogress
      cases hprogress
      rfl
    · cases hs
  | wants m mq next =>
    rw [hp] at hstage hsent
    simp only [hp] at hs
    have hmail := acquire_kept hs .Interpreter
    cases acquire_eq hs
    refine h.move rfl ?_ ?_ hmail.2 rfl
    · rw [hmail.1]
      exact hsent
    · rw [pending_eq hR hR' hmail.1 hmail.2]
      exact hstage
  | holds m mq next =>
    have hm : m = .Interpreter := by
      have hsends := hI.sends hp
      cases m
      · exact hsends.elim
      · exact hsends.elim
      · rfl
    subst hm
    simp only [hp] at hs
    cases hs
    exact h.push hI hR hR' hp

theorem Prompted.line {str : Text} (h : Prompted s) (hR : Requests s) (hs : s.line str = some s') :
    Prompted s' := by
  have hR' : Requests s' := hR.line hs
  have hstage := h.stage
  have hsent := h.sent
  unfold System.line at hs
  cases hp : s.threads .input with
  | readline =>
    rw [hp] at hstage hsent
    have hsent : (s.endpoints .Interpreter).sent = (typed s.trace).flatMap request :=
      (List.append_nil _).symm.trans hsent
    simp only [hp] at hs
    split at hs
    · rename_i hstr
      cases hs
      refine h.move rfl ?_ ⟨?_, rfl⟩ rfl rfl
      · show (s.endpoints .Interpreter).sent ++ request (trim_string_ str) =
          (typed (s.trace ++ [.line str])).flatMap request
        simp [typed, Entry.text, hstr, hsent]
      · rw [pending_eq hR hR' rfl rfl]
        exact hstage
    · rename_i hstr
      cases hs
      have hp' : s.threads = Function.update s.threads .input .readline := by
        rw [← hp, Function.update_eq_self]
      refine h.move hp' ?_ ?_ rfl rfl
      · rw [typed_note (by simpa [Entry.text] using hstr)]
        exact (List.append_nil _).trans hsent
      · rw [pending_eq hR hR' rfl rfl]
        exact hstage
  | _ =>
    simp only [hp] at hs
    cases hs

/-! ### Runs -/

theorem Prompted.poll {e : Option Event} (h : Prompted s) (hR : Requests s)
    (hs : s.poll e = some s') : Prompted s' := by
  have hR' : Requests s' := hR.poll hs
  unfold System.poll at hs
  cases hp : s.threads .main with
  | pump_msgs =>
    simp only [hp] at hs
    cases e with
    | none =>
      cases hs
      exact h.elsewhere hR hR' (by decide) rfl (fun _ => .inl rfl) ⟨rfl, rfl⟩ rfl rfl
        (typed_note rfl)
    | some e =>
      dsimp only at hs
      split at hs
      · cases hs
        exact h.elsewhere hR hR' (by decide) rfl (fun _ => .inl rfl) ⟨rfl, rfl⟩ rfl rfl
          (typed_note rfl)
      · cases hs
        exact h.elsewhere hR hR' (t := .main) (by decide) (Function.update_eq_self _ _).symm
          (fun _ => .inr rfl) ⟨rfl, rfl⟩ rfl rfl (typed_note rfl)
  | _ =>
    simp only [hp] at hs
    cases hs

theorem Prompted.lua {c : Lua} (h : Prompted s) (hR : Requests s) (hs : s.lua c = some s') :
    Prompted s' := by
  have hR' : Requests s' := hR.lua hs
  unfold System.lua at hs
  split at hs
  · rename_i str rest hp
    cases c with
    | set_vertex_shader shader =>
      cases hs
      refine h.elsewhere hR hR' (by decide) rfl (fun _ => .inr ?_) ⟨rfl, rfl⟩ rfl rfl
        (typed_note rfl)
      rw [hp]
      rfl
    | shutdown =>
      cases hs
      refine h.elsewhere hR hR' (by decide) rfl (fun _ => .inr ?_) ⟨rfl, rfl⟩ rfl rfl rfl
      rw [hp]
      rfl
  · cases hs

theorem Prompted.step {interactive : Bool} {l : Label} (h : Prompted s) (hI : Inv s)
    (hR : Requests s) (hs : s.step interactive l = some s') : Prompted s' := by
  unfold System.step at hs
  split at hs
  · cases hs
  cases l with
  | go t =>
    by_cases ht : t = .input
    · subst ht
      exact h.go_input hI hR hs
    · exact h.go_other hI hR ht hs
  | poll e => exact h.poll hR hs
  | line str => exact h.line hR hs
  | lua c => exact h.lua hR hs
  | throws t =>
    dsimp only at hs
    unfold System.throws at hs
    split at hs
    · cases hs
      exact ⟨h.sent, h.stage, h.execd, h.last⟩
    · cases hs

theorem Prompted.init : Prompted {} where
  sent := rfl
  stage := rfl
  execd := rfl
  last _ h := nomatch h

theorem prompted_of_run {interactive : Bool} (h : Run (System.Step interactive) {} s) :
    Prompted s := by
  have hall : Inv s ∧ Requests s ∧ Prompted s :=
    RunUnder.invariant (fun s => Inv s ∧ Requests s ∧ Prompted s) h
      ⟨Inv.init, Requests.init, Prompted.init⟩ fun _ _ _ hI _ hs =>
        ⟨hI.1.step hs, hI.2.1.step hI.1 hs, hI.2.2.step hI.1 hI.2.1 hs⟩
  exact hall.2.2

theorem Requests.taken_requests (hR : Requests s) (h : Prompted s) :
    (s.endpoints .Interpreter).taken <+: (typed s.trace).flatMap request := by
  rw [← h.sent, hR.flow, List.append_assoc]
  exact List.prefix_append _ _

end

/-- The lines are executed in the order in which they are read, each of them once and as it is
without the white space around it. When the next line is read they have all been executed, and
the Interpreter has nothing left. -/
theorem prompt_waits {interactive : Bool} {s : System}
    (h : Run (System.Step interactive) {} s) :
    s.execd <+: typed s.trace ∧
    (s.threads .input = .readline →
      s.execd = typed s.trace ∧ (s.threads .interpreter).running = none ∧
        s.pending .Interpreter = []) := by
  have hR := requests_of_run h
  have hP := prompted_of_run h
  refine ⟨?_, fun hp => ?_⟩
  · rw [hP.execd, ← filterMap_requests (typed s.trace)]
    exact (hR.taken_requests hP).filterMap _
  · have hstage := hP.stage
    have hsent := hP.sent
    rw [hp] at hstage hsent
    have hpending : s.pending .Interpreter = [] := hstage
    have htaken : (s.endpoints .Interpreter).taken = (typed s.trace).flatMap request := by
      rw [← hsent, hR.flow, hpending, List.append_nil]
      exact (List.append_nil _).symm
    refine ⟨?_, ?_, hpending⟩
    · rw [hP.execd, htaken, filterMap_requests]
    · cases hrunning : (s.threads .interpreter).running with
      | none => rfl
      | some str =>
        have hlast := hP.last str hrunning
        rw [htaken] at hlast
        exact absurd hlast (getLast_requests _ str)

/-- ` a` and `b`, with a blank line between them. -/
def twoLines : List Label :=
  List.replicate 3 (.go .main) ++ [.go .input, .line [32, 97], .go .input, .go .input] ++
  List.replicate 11 (.go .interpreter) ++
  [.go .input, .line [9], .line [98], .go .input, .go .input] ++
  List.replicate 6 (.go .interpreter) ++ [.go .input]

theorem two_lines_executed : ∃ s, follow (System.step true) twoLines {} = some s ∧
    s.threads .input = .readline ∧ s.execd = [[97], [98]] ∧ s.execd = typed s.trace := by
  obtain ⟨s, hs⟩ : ∃ s, follow (System.step true) twoLines {} = some s := ⟨_, rfl⟩
  have hread : s.threads .input = .readline := by
    cases hs
    rfl
  refine ⟨s, hs, hread, ?_, ((prompt_waits (run_of_follow hs)).2 hread).1⟩
  cases hs
  rfl

end Omulator.Application
