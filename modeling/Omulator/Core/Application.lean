import Omulator.Threads.CLIInput
import Mathlib.Data.Int.Notation

/-!
# The running application (`src/main.cpp`, `src/InputHandler.cpp`, `src/Interpreter.cpp`,
`src/graphics/CoreGraphicsEngine.cpp`, `src/util/CLIInput.cpp`, `platform/sdl/SystemWindow.cpp`)

The main thread from the start of the subsystems to the end of its loop, the threads of the
graphics engine and of the Interpreter, and the one that reads lines. Acquiring and releasing the
mutex of a mailbox is a step. What holds its mutex only for itself (the router, the pool of
queues) is left out, as is time, and so are the calls of `on` that main makes in the constructors
of the graphics engine and the Interpreter, before their threads start. A script calls the
functions of `oml` in any order; those that only use the PropertyMap or the logger are left out.
-/

namespace Omulator.Application
open Lib
open CLIInput (Text trim_string_)

/-- `MailboxRouter::get_mailbox<App>` and its like. -/
inductive Mailbox where
  | App
  | CoreGraphicsEngine
  | Interpreter
  deriving DecidableEq, Repr

inductive Message where
  | APP_QUIT
  | HANDLE_RESIZE
  | RENDER_FRAME
  | SET_VERTEX_SHADER (shader : Text)
  | STDIN_STRING (str : Text)
  | SIMPLE_FENCE
  deriving DecidableEq, Repr

inductive Thread where
  | main
  | graphics
  | interpreter
  | input
  deriving DecidableEq, Repr

/-! ### Input -/

/-- `SDL_Event`, as far as `pump_msgs` looks at it. -/
inductive Event where
  | SDL_KEYDOWN (sym : ℤ)
  | SDL_QUIT
  | SDL_WINDOWEVENT (event : UInt8)
  | other (type : UInt32)
  deriving DecidableEq, Repr

def SDLK_ESCAPE : ℤ := 27

def SDL_WINDOWEVENT_SIZE_CHANGED : UInt8 := 6

inductive InputEvent where
  | QUIT
  | RESIZE
  deriving DecidableEq, Repr

/-- What `pump_msgs`, `handle_key` and `handle_window_event` make of an event. -/
def Event.input : Event → Option InputEvent
  | .SDL_KEYDOWN sym => if sym = SDLK_ESCAPE then some .QUIT else none
  | .SDL_QUIT => some .QUIT
  | .SDL_WINDOWEVENT event =>
    if event = SDL_WINDOWEVENT_SIZE_CHANGED then some .RESIZE else none
  | .other _ => none

/-- `InputHandler::handle_input`: what it sends, and where. -/
def handle_input : InputEvent → Mailbox × Message
  | .QUIT => (.App, .APP_QUIT)
  | .RESIZE => (.CoreGraphicsEngine, .HANDLE_RESIZE)

/-! ### Threads -/

inductive Place where
  /-- not launched, or in `startSignal_.wait` -/
  | unborn
  /-- the main thread, before its loop -/
  | startEngine
  | getCLIInput
  | startInterpreter
  | claim
  /-- before and under the mutex in `on` -/
  | on
  | registering
  /-- `while(!done)` -/
  | test
  /-- about to poll an event -/
  | pump_msgs
  | sleep
  | left
  /-- the thread of a subsystem, at `while(!stoken.stop_requested())` -/
  | checkStop
  /-- in `recv(BLOCK)`: before the `unique_lock`, at the test of the wait, and waiting -/
  | lockWait
  | testWait
  | asleep
  /-- in the loop of `recv` -/
  | testEmpty
  | lockMail
  /-- in `pump_msgs` of a MessageQueue, with the messages to come -/
  | pumping (rest : List Message)
  | callback (message : Message) (rest : List Message)
  /-- `input_loop` -/
  | readline
  | fence
  /-- in `send`, before and under the mutex, and where the thread goes on after it -/
  | wants (m : Mailbox) (mq : List Message) (next : Place)
  | holds (m : Mailbox) (mq : List Message) (next : Place)

structure MailboxEndpoint where
  mtx_ : Option Thread := none
  queue_ : List (List Message) := []
  /-- history: the messages sent to it, and those that `recv` has come to -/
  sent : List Message := []
  taken : List Message := []

def MailboxEndpoint.push (mq : List Message) (x : MailboxEndpoint) : MailboxEndpoint :=
  { x with queue_ := x.queue_ ++ [mq], sent := x.sent ++ mq }

/-- What has happened, in its order. -/
inductive Entry where
  /-- the main loop has begun an iteration -/
  | iteration
  /-- `pump_msgs` has got an event -/
  | event (e : Event)
  /-- `pump_msgs` has returned -/
  | frame
  /-- a script calls `set_vertex_shader` -/
  | shader (shader : Text)
  /-- an `APP_QUIT` is in the mailbox -/
  | quit
  /-- `readline` has returned -/
  | line (str : Text)
  deriving DecidableEq, Repr

structure System where
  endpoints : Mailbox → MailboxEndpoint := fun _ => {}
  threads : Thread → Place := fun t => if t = .main then .startEngine else .unborn
  /-- launched, with its `startSignal_` set -/
  started : Thread → Bool := fun _ => false
  done : Bool := false
  /-- there is a callback for `APP_QUIT` -/
  onQuit : Bool := false
  fence : Bool := false
  exited : Bool := false
  /-- history -/
  trace : List Entry := []
  backend : List Message := []
  execd : List Text := []

def Thread.own : Thread → Mailbox
  | .main => .App
  | .graphics => .CoreGraphicsEngine
  | .interpreter | .input => .Interpreter

namespace System

def goto (t : Thread) (p : Place) (s : System) : System :=
  { s with threads := Function.update s.threads t p }

def start (t : Thread) (s : System) : System :=
  { s with started := Function.update s.started t true }

def note (e : Entry) (s : System) : System := { s with trace := s.trace ++ [e] }

def acquire (t : Thread) (m : Mailbox) (p : Place) (s : System) : Option System :=
  if (s.endpoints m).mtx_ = none then
    some ({ s with
      endpoints := Function.update s.endpoints m { s.endpoints m with mtx_ := some t } }.goto t p)
  else none

/-- `f` is what was done under the mutex. -/
def release (t : Thread) (m : Mailbox) (f : MailboxEndpoint → MailboxEndpoint) (p : Place)
    (s : System) : System :=
  { s with
    endpoints := Function.update s.endpoints m { f (s.endpoints m) with mtx_ := none } }.goto t p

def hasCallback (s : System) : Mailbox → Message → Bool
  | .App, .APP_QUIT => s.onQuit
  | .CoreGraphicsEngine, .RENDER_FRAME | .CoreGraphicsEngine, .HANDLE_RESIZE
  | .CoreGraphicsEngine, .SET_VERTEX_SHADER _ => true
  | .Interpreter, .STDIN_STRING _ | .Interpreter, .SIMPLE_FENCE => true
  | _, _ => false

/-- The callbacks; those of the graphics engine call the backend, and that of `STDIN_STRING` calls
`exec`. -/
def invoke (message : Message) (s : System) : System :=
  match message with
  | .APP_QUIT => { s with done := true }
  | .SIMPLE_FENCE => { s with fence := true }
  | .RENDER_FRAME | .HANDLE_RESIZE | .SET_VERTEX_SHADER _ =>
    { s with backend := s.backend ++ [message] }
  | .STDIN_STRING str => { s with execd := s.execd ++ [str] }

def take (m : Mailbox) (message : Message) (s : System) : System :=
  { s with
    endpoints := Function.update s.endpoints m
      { s.endpoints m with taken := (s.endpoints m).taken ++ [message] } }

/-- `pump_msgs` has come to a message; without a callback it is dropped. -/
def deliver (t : Thread) (message : Message) (rest : List Message) (s : System) : System :=
  if s.hasCallback t.own message then
    ((s.take t.own message).invoke message).goto t (.callback message rest)
  else (s.take t.own message).goto t (.pumping rest)

def go (interactive : Bool) (t : Thread) (s : System) : Option System :=
  match s.threads t with
  | .pump_msgs | .left | .readline => none
  | .unborn =>
    if s.started t then some (s.goto t (if t = .input then .readline else .checkStop)) else none
  | .startEngine =>
    some ((s.start .graphics).goto t (if interactive then .getCLIInput else .claim))
  | .getCLIInput => some ((s.start .input).goto t .startInterpreter)
  | .startInterpreter => some ((s.start .interpreter).goto t .claim)
  | .claim => some (s.goto t .on)
  | .on => s.acquire t .App .registering
  | .registering => some ({ s with onQuit := true }.release t .App id .test)
  | .test => some (if s.done then s.goto t .left else (s.note .iteration).goto t .testEmpty)
  | .sleep => some (s.goto t .test)
  | .checkStop => some (s.goto t .lockWait)
  | .lockWait => s.acquire t t.own .testWait
  | .testWait =>
    some (s.release t t.own id (if (s.endpoints t.own).queue_ = [] then .asleep else .testEmpty))
  -- `notify_all`, or for no reason
  | .asleep => some (s.goto t .lockWait)
  | .testEmpty =>
    some (s.goto t (if (s.endpoints t.own).queue_ = [] then
      if t = .main then .pump_msgs else .checkStop
      else .lockMail))
  | .lockMail => s.acquire t t.own (.pumping ((s.endpoints t.own).queue_.headD []))
  | .pumping (message :: rest) => some (s.deliver t message rest)
  | .pumping [] =>
    some (s.release t t.own (fun x => { x with queue_ := x.queue_.tail }) .testEmpty)
  | .callback _ rest => some (s.goto t (.pumping rest))
  | .fence => if s.fence then some (s.goto t .readline) else none
  | .wants m mq next => s.acquire t m (.holds m mq next)
  | .holds m mq next =>
    let s := s.release t m (·.push mq) next
    some (if m = .App then s.note .quit else s)

/-- `SDL_PollEvent` gives an event, or none, which ends `pump_msgs`. -/
def poll (e : Option Event) (s : System) : Option System :=
  match s.threads .main, e with
  | .pump_msgs, some e =>
    match e.input with
    | some input =>
      let (m, message) := handle_input input
      some ((s.note (.event e)).goto .main (.wants m [message] .pump_msgs))
    | none => some (s.note (.event e))
  | .pump_msgs, none =>
    some ((s.note .frame).goto .main (.wants .CoreGraphicsEngine [.RENDER_FRAME] .sleep))
  | _, _ => none

/-- `std::atomic_bool fence = false`. -/
def newFence (s : System) : System := { s with fence := false }

def line (str : Text) (s : System) : Option System :=
  match s.threads .input with
  | .readline =>
    let s := s.note (.line str)
    let str := trim_string_ str
    if str ≠ [] then
      some (s.newFence.goto .input (.wants .Interpreter [.STDIN_STRING str, .SIMPLE_FENCE] .fence))
    else some s
  | _ => none

end System

/-- A call that a script makes. -/
inductive Lua where
  | set_vertex_shader (shader : Text)
  | shutdown
  deriving DecidableEq, Repr

namespace System

def lua (c : Lua) (s : System) : Option System :=
  match s.threads .interpreter with
  | .callback (.STDIN_STRING str) rest =>
    let next := Place.callback (.STDIN_STRING str) rest
    match c with
    | .set_vertex_shader shader =>
      some ((s.note (.shader shader)).goto .interpreter
        (.wants .CoreGraphicsEngine [.SET_VERTEX_SHADER shader] next))
    | .shutdown => some (s.goto .interpreter (.wants .App [.APP_QUIT] next))
  | _ => none

/-- An exception leaves a callback: `exception_handler` ends the process. -/
def throws (t : Thread) (s : System) : Option System :=
  match s.threads t with
  | .callback _ _ => some { s with exited := true }
  | _ => none

end System

inductive Label where
  | go (t : Thread)
  | poll (e : Option Event)
  | line (str : Text)
  | lua (c : Lua)
  | throws (t : Thread)
  deriving DecidableEq, Repr

namespace System

def step (interactive : Bool) (l : Label) (s : System) : Option System :=
  if s.exited then none
  else match l with
  | .go t => s.go interactive t
  | .poll e => s.poll e
  | .line str => s.line str
  | .lua c => s.lua c
  | .throws t => s.throws t

def Step (interactive : Bool) (s : System) (l : Label) (s' : System) : Prop :=
  s.step interactive l = some s'

end System

/-! ### Who holds what -/

/-- What a thread sends, and where it goes on. -/
def Sends (t : Thread) (m : Mailbox) (mq : List Message) (next : Place) : Prop :=
  match t, m with
  | .main, .App => mq = [.APP_QUIT] ∧ next = .pump_msgs
  | .main, .CoreGraphicsEngine =>
    mq = [.HANDLE_RESIZE] ∧ next = .pump_msgs ∨ mq = [.RENDER_FRAME] ∧ next = .sleep
  | .interpreter, .App =>
    mq = [.APP_QUIT] ∧ ∃ str rest, next = .callback (.STDIN_STRING str) rest
  | .interpreter, .CoreGraphicsEngine =>
    (∃ shader, mq = [.SET_VERTEX_SHADER shader]) ∧
      ∃ str rest, next = .callback (.STDIN_STRING str) rest
  | .input, .Interpreter => (∃ str, mq = [.STDIN_STRING str, .SIMPLE_FENCE]) ∧ next = .fence
  | _, _ => False

def Place.Fits (t : Thread) : Place → Prop
  | .unborn => t ≠ .main
  | .startEngine | .getCLIInput | .startInterpreter | .claim | .on | .registering | .test
  | .pump_msgs | .sleep | .left => t = .main
  | .checkStop | .lockWait | .testWait | .asleep => t = .graphics ∨ t = .interpreter
  | .testEmpty | .lockMail | .pumping _ | .callback _ _ => t ≠ .input
  | .readline | .fence => t = .input
  | .wants m mq next | .holds m mq next => Sends t m mq next

/-- The mailboxes whose mutexes it holds there. -/
def Place.held (t : Thread) : Place → List Mailbox
  | .registering => [.App]
  | .testWait | .pumping _ | .callback _ _ => [t.own]
  | .wants _ _ next => next.held t
  | .holds m _ next => m :: next.held t
  | _ => []

/-- The mailbox whose mutex it waits for. -/
def Place.wanted (t : Thread) : Place → Option Mailbox
  | .on => some .App
  | .lockWait | .lockMail => some t.own
  | .wants m _ _ => some m
  | _ => none

structure Inv (s : System) : Prop where
  owned : ∀ m t, (s.endpoints m).mtx_ = some t ↔ m ∈ (s.threads t).held t
  fits : ∀ t, (s.threads t).Fits t

section
variable {s s' : System} {t u : Thread} {m : Mailbox} {p : Place} {mq : List Message}
  {next : Place}

theorem Inv.sends (hI : Inv s) (hp : s.threads t = .holds m mq next) : Sends t m mq next := by
  have hfits := hI.fits t
  rw [hp] at hfits
  exact hfits

theorem Sends.fits (h : Sends t m mq next) : next.Fits t := by
  cases t <;> cases m <;> simp only [Sends] at h
  · obtain ⟨-, rfl⟩ := h
    rfl
  · obtain ⟨-, rfl⟩ | ⟨-, rfl⟩ := h
    · rfl
    · rfl
  · obtain ⟨-, str, rest, rfl⟩ := h
    exact fun h => nomatch h
  · obtain ⟨-, str, rest, rfl⟩ := h
    exact fun h => nomatch h
  · obtain ⟨-, rfl⟩ := h
    rfl

theorem Sends.held (h : Sends t m mq next) :
    next.held t = [] ∨ t = .interpreter ∧ next.held t = [.Interpreter] ∧ m ≠ .Interpreter := by
  cases t <;> cases m <;> simp only [Sends] at h
  · obtain ⟨-, rfl⟩ := h
    exact .inl rfl
  · obtain ⟨-, rfl⟩ | ⟨-, rfl⟩ := h
    · exact .inl rfl
    · exact .inl rfl
  · obtain ⟨-, str, rest, rfl⟩ := h
    exact .inr ⟨rfl, rfl, by decide⟩
  · obtain ⟨-, str, rest, rfl⟩ := h
    exact .inr ⟨rfl, rfl, by decide⟩
  · obtain ⟨-, rfl⟩ := h
    exact .inl rfl

/-! ### What a step keeps -/

theorem goto_threads (s : System) (t : Thread) (p : Place) (u : Thread) :
    (s.goto t p).threads u = if u = t then p else s.threads u := by
  simp [System.goto, Function.update_apply]

theorem goto_self (s : System) (t : Thread) (p : Place) : (s.goto t p).threads t = p :=
  Function.update_self _ _ _

theorem acquire_eq (hs : s.acquire t m p = some s') : s' = System.goto t p { s with
    endpoints := Function.update s.endpoints m { s.endpoints m with mtx_ := some t } } := by
  unfold System.acquire at hs
  split at hs
  · cases hs
    rfl
  · cases hs

theorem Inv.congr (h : Inv s) (hmtx : ∀ m, (s'.endpoints m).mtx_ = (s.endpoints m).mtx_)
    (hthreads : s'.threads = s.threads) : Inv s' where
  owned m t := by rw [hmtx, hthreads, h.owned]
  fits t := by rw [hthreads]; exact h.fits t

theorem Inv.goto (h : Inv s) (hheld : p.held t = (s.threads t).held t) (hfits : p.Fits t) :
    Inv (s.goto t p) where
  owned m u := by
    rw [goto_threads]
    split
    · rename_i hu
      rw [hu, hheld]
      exact h.owned m t
    · exact h.owned m u
  fits u := by
    rw [goto_threads]
    split
    · rename_i hu
      rw [hu]
      exact hfits
    · exact h.fits u

theorem Inv.acquire (h : Inv s) (hs : s.acquire t m p = some s')
    (hheld : p.held t = m :: (s.threads t).held t) (hfits : p.Fits t) : Inv s' := by
  unfold System.acquire at hs
  split at hs
  · rename_i hfree
    cases hs
    refine ⟨fun m' u => ?_, fun u => ?_⟩
    · rw [goto_threads]
      have hother : ∀ v, m ∉ (s.threads v).held v := fun v hv =>
        nomatch hfree.symm.trans ((h.owned m v).mpr hv)
      by_cases hm : m' = m
      · subst hm
        by_cases hu : u = t
        · simp [System.goto, hu, hheld]
        · simp [System.goto, hu, hother u, Ne.symm hu]
      · by_cases hu : u = t
        · simp [System.goto, hm, hu, hheld, h.owned]
        · simp [System.goto, hm, hu, h.owned]
    · rw [goto_threads]
      split
      · rename_i hu
        rw [hu]
        exact hfits
      · exact h.fits u
  · cases hs

theorem Inv.release {f : MailboxEndpoint → MailboxEndpoint} (h : Inv s)
    (hheld : (s.threads t).held t = m :: p.held t) (hm : m ∉ p.held t) (hfits : p.Fits t) :
    Inv (s.release t m f p) := by
  refine ⟨fun m' u => ?_, fun u => ?_⟩
  · have ht : (s.endpoints m).mtx_ = some t := (h.owned m t).mpr (by simp [hheld])
    rw [System.release, goto_threads]
    by_cases hm' : m' = m
    · subst hm'
      by_cases hu : u = t
      · simp [System.goto, hu, hm]
      · have hother : m' ∉ (s.threads u).held u := fun hv =>
          hu (Option.some.inj (((h.owned m' u).mpr hv).symm.trans ht))
        simp [System.goto, hu, hother]
    · by_cases hu : u = t
      · have howned := h.owned m' t
        simp only [hheld, List.mem_cons, hm', false_or] at howned
        simp [System.goto, hm', hu, howned]
      · simp [System.goto, hm', hu, h.owned]
  · rw [System.release, goto_threads]
    split
    · rename_i hu
      rw [hu]
      exact hfits
    · exact h.fits u

theorem Inv.start (h : Inv s) (t : Thread) : Inv (s.start t) := h.congr (fun _ => rfl) rfl

theorem Inv.note (h : Inv s) (e : Entry) : Inv (s.note e) := h.congr (fun _ => rfl) rfl

theorem Inv.invoke (h : Inv s) (message : Message) : Inv (s.invoke message) := by
  cases message <;> exact h.congr (fun _ => rfl) rfl

theorem invoke_threads (s : System) (message : Message) :
    (s.invoke message).threads = s.threads := by
  cases message <;> rfl

theorem invoke_exited (s : System) (message : Message) :
    (s.invoke message).exited = s.exited := by
  cases message <;> rfl

theorem deliver_threads {message : Message} {rest : List Message} :
    ∃ p, (s.deliver t message rest).threads = Function.update s.threads t p ∧
      (p = .callback message rest ∨ p = .pumping rest) := by
  unfold System.deliver
  split
  · refine ⟨.callback message rest, ?_, .inl rfl⟩
    show Function.update (System.invoke message _).threads t _ = _
    rw [invoke_threads]
    rfl
  · exact ⟨.pumping rest, rfl, .inr rfl⟩

theorem deliver_exited {message : Message} {rest : List Message} :
    (s.deliver t message rest).exited = s.exited := by
  unfold System.deliver
  split
  · exact invoke_exited _ message
  · rfl

theorem Inv.deliver {message : Message} {rest : List Message} (h : Inv s)
    (hp : s.threads t = .pumping (message :: rest)) : Inv (s.deliver t message rest) := by
  have hfits : t ≠ .input := by
    have hfits := h.fits t
    rw [hp] at hfits
    exact hfits
  have htake : Inv (s.take t.own message) := by
    refine h.congr (fun m => ?_) rfl
    by_cases hm : m = t.own
    · subst hm
      simp [System.take]
    · simp [System.take, hm]
  have hp' : (s.take t.own message).threads t = .pumping (message :: rest) := hp
  unfold System.deliver
  split
  · refine (htake.invoke message).goto ?_ hfits
    rw [invoke_threads, hp']
    rfl
  · exact htake.goto (by rw [hp']; rfl) hfits

theorem Inv.go {interactive : Bool} (h : Inv s) (hs : s.go interactive t = some s') : Inv s' := by
  have hfits := h.fits t
  unfold System.go at hs
  cases hp : s.threads t with
  | pump_msgs | left | readline =>
    rw [hp] at hs
    cases hs
  | unborn =>
    simp only [hp] at hs hfits
    split at hs
    · cases hs
      refine h.goto (by rw [hp]; split <;> rfl) ?_
      cases t with
      | main => exact absurd rfl hfits
      | graphics => exact .inl rfl
      | interpreter => exact .inr rfl
      | input => exact rfl
    · cases hs
  | startEngine =>
    simp only [hp] at hs hfits
    cases hs
    refine (h.start .graphics).goto ?_ ?_
    · rw [show (s.start .graphics).threads t = .startEngine from hp]
      split <;> rfl
    · split <;> exact hfits
  | getCLIInput =>
    simp only [hp] at hs hfits
    cases hs
    refine (h.start .input).goto ?_ hfits
    rw [show (s.start .input).threads t = .getCLIInput from hp]
    rfl
  | startInterpreter =>
    simp only [hp] at hs hfits
    cases hs
    refine (h.start .interpreter).goto ?_ hfits
    rw [show (s.start .interpreter).threads t = .startInterpreter from hp]
    rfl
  | claim | sleep | checkStop | asleep =>
    simp only [hp] at hs hfits
    cases hs
    exact h.goto (by rw [hp]; rfl) hfits
  | on | lockWait | lockMail =>
    simp only [hp] at hs hfits
    exact h.acquire hs (by rw [hp]; rfl) hfits
  | registering =>
    simp only [hp] at hs hfits
    cases hs
    have hon : Inv { s with onQuit := true } := h.congr (fun _ => rfl) rfl
    exact hon.release (by rw [show _ = Place.registering from hp]; rfl) (by simp [Place.held]) hfits
  | test =>
    simp only [hp] at hs hfits
    cases hs
    split
    · exact h.goto (by rw [hp]; rfl) hfits
    · refine (h.note .iteration).goto ?_ ?_
      · rw [show (s.note .iteration).threads t = .test from hp]
        rfl
      · have ht : t = .main := hfits
        simp [Place.Fits, ht]
  | testWait =>
    simp only [hp] at hs hfits
    cases hs
    refine h.release ?_ ?_ ?_
    · rw [hp]
      split <;> rfl
    · split <;> exact List.not_mem_nil
    · split
      · exact hfits
      · obtain rfl | rfl := hfits
        · exact fun h => nomatch h
        · exact fun h => nomatch h
  | testEmpty =>
    simp only [hp] at hs hfits
    cases hs
    refine h.goto (by rw [hp]; split_ifs <;> rfl) ?_
    split_ifs with hempty ht
    · exact ht
    · cases t with
      | main => exact absurd rfl ht
      | graphics => exact .inl rfl
      | interpreter => exact .inr rfl
      | input => exact absurd rfl hfits
    · exact hfits
  | pumping rest =>
    cases rest with
    | nil =>
      simp only [hp] at hs hfits
      cases hs
      exact h.release (by rw [hp]; rfl) List.not_mem_nil hfits
    | cons message rest =>
      simp only [hp] at hs
      cases hs
      exact h.deliver hp
  | callback message rest =>
    simp only [hp] at hs hfits
    cases hs
    exact h.goto (by rw [hp]; rfl) hfits
  | fence =>
    simp only [hp] at hs hfits
    split at hs
    · cases hs
      exact h.goto (by rw [hp]; rfl) hfits
    · cases hs
  | wants m mq next =>
    simp only [hp] at hs hfits
    exact h.acquire hs (by rw [hp]; rfl) hfits
  | holds m mq next =>
    simp only [hp] at hs hfits
    have hsends : Sends t m mq next := hfits
    have hm : m ∉ next.held t := by
      obtain hheld | ⟨-, hheld, hm⟩ := hsends.held
      · simp [hheld]
      · simp [hheld, hm]
    have h' : Inv (s.release t m (·.push mq) next) :=
      h.release (by rw [hp]; rfl) hm hsends.fits
    split at hs
    · cases hs
      exact h'.note .quit
    · cases hs
      exact h'

theorem Inv.poll {e : Option Event} (h : Inv s) (hs : s.poll e = some s') : Inv s' := by
  unfold System.poll at hs
  cases hp : s.threads .main with
  | pump_msgs =>
    simp only [hp] at hs
    have hheld : ∀ e, ((s.note e).threads .main).held .main = [] := fun e => by
      rw [show (s.note e).threads .main = .pump_msgs from hp]
      rfl
    cases e with
    | none =>
      cases hs
      exact (h.note .frame).goto (hheld _).symm (.inr ⟨rfl, rfl⟩)
    | some e =>
      dsimp only at hs
      split at hs
      · rename_i input _
        cases hs
        refine (h.note (.event e)).goto (hheld _).symm ?_
        cases input with
        | QUIT => exact ⟨rfl, rfl⟩
        | RESIZE => exact .inl ⟨rfl, rfl⟩
      · cases hs
        exact h.note (.event e)
  | _ =>
    simp only [hp] at hs
    cases hs

theorem Inv.line {str : Text} (h : Inv s) (hs : s.line str = some s') : Inv s' := by
  unfold System.line at hs
  cases hp : s.threads .input with
  | readline =>
    simp only [hp] at hs
    split at hs
    · cases hs
      have hfence : Inv (s.note (.line str)).newFence := h.congr (fun _ => rfl) rfl
      refine hfence.goto ?_ ⟨⟨_, rfl⟩, rfl⟩
      rw [show (s.note (.line str)).newFence.threads .input = .readline from hp]
      rfl
    · cases hs
      exact h.note (.line str)
  | _ =>
    simp only [hp] at hs
    cases hs

theorem Inv.lua {c : Lua} (h : Inv s) (hs : s.lua c = some s') : Inv s' := by
  unfold System.lua at hs
  split at hs
  · rename_i str rest hp
    cases c with
    | set_vertex_shader shader =>
      cases hs
      refine (h.note (.shader shader)).goto ?_ ⟨⟨shader, rfl⟩, str, rest, rfl⟩
      rw [show (s.note (.shader shader)).threads .interpreter = _ from hp]
      rfl
    | shutdown =>
      cases hs
      refine h.goto ?_ ⟨rfl, str, rest, rfl⟩
      rw [hp]
      rfl
  · cases hs

theorem Inv.step {interactive : Bool} {l : Label} (h : Inv s)
    (hs : s.step interactive l = some s') : Inv s' := by
  unfold System.step at hs
  split at hs
  · cases hs
  cases l with
  | go t => exact h.go hs
  | poll e => exact h.poll hs
  | line str => exact h.line hs
  | lua c => exact h.lua hs
  | throws t =>
    dsimp only at hs
    unfold System.throws at hs
    split at hs
    · cases hs
      exact h.congr (fun _ => rfl) rfl
    · cases hs

theorem Inv.init : Inv {} where
  owned m t := by
    cases t <;> simp [Place.held]
  fits t := by
    cases t
    · rfl
    · exact fun h => nomatch h
    · exact fun h => nomatch h
    · exact fun h => nomatch h

theorem inv_of_run {interactive : Bool} (h : Run (System.Step interactive) {} s) : Inv s :=
  RunUnder.invariant Inv h Inv.init fun _ _ _ hI _ hs => hI.step hs

end
end Omulator.Application
