import Omulator.Core.Requests

/-!
# The iterations of the main loop (`src/main.cpp`, `src/Interpreter.cpp`)

Each iteration takes the events of the window and then asks for one frame. After the window or a
script has asked the application to quit, no more than one iteration begins.
-/

namespace Omulator.Application
open Lib
open CLIInput (Text)

/-- An iteration begins, takes its events and ends with its frame; `begun`: it has begun. -/
def Entry.loop (begun : Bool) : Entry → Option Bool
  | .iteration => if begun then none else some true
  | .event _ => if begun then some true else none
  | .frame => if begun then some false else none
  | .shader _ | .quit | .line _ => some begun

/-- The application is asked to quit. -/
def Entry.quits : Entry → Bool
  | .event e => e.input = some .QUIT
  | .quit => true
  | _ => false

def late : List Entry → ℕ
  | [] => 0
  | e :: trace => if e.quits then trace.count .iteration else late trace

namespace Place

def looping : Place → Bool
  | .testEmpty | .lockMail | .pumping _ | .callback _ _ | .pump_msgs => true
  | .wants _ _ next | .holds _ _ next => next.looping
  | _ => false

def receiving : Place → Bool
  | .testEmpty | .lockMail | .pumping _ | .callback _ _ => true
  | _ => false

def early : Place → Bool
  | .startEngine | .getCLIInput | .startInterpreter | .claim | .on | .registering => true
  | _ => false

def quitting : Place → Bool
  | .wants .App _ _ | .holds .App _ _ => true
  | _ => false

end Place

/-- The main thread is at `p`. -/
structure AtMain (s : System) (p : Place) : Prop where
  rounds : s.trace.foldlM Entry.loop false = some p.looping
  registered : p.early = true ∨ s.onQuit = true
  seen : s.trace.any Entry.quits = true → s.done = true ∨ p.quitting = true ∨
    .APP_QUIT ∈ unread (s.endpoints .App).queue_ p.rest
  last : late s.trace = 1 → s.done = true ∨ p.receiving = true
  left : p = .left → s.done = true

structure Looped (s : System) : Prop where
  main : AtMain s (s.threads .main)
  late : late s.trace ≤ 1
  sent : (s.endpoints .App).sent ≠ [] → s.trace.any Entry.quits = true
  done : s.done = true → s.trace.any Entry.quits = true

section
variable {s s' : System} {t : Thread} {m : Mailbox} {p : Place} {mq : List Message}
  {next : Place}

theorem late_concat (trace : List Entry) (e : Entry) : late (trace ++ [e]) =
    late trace + if trace.any Entry.quits = true ∧ e = .iteration then 1 else 0 := by
  induction trace with
  | nil => simp [late]
  | cons x trace ih =>
    rw [List.cons_append, late, late]
    cases hx : x.quits with
    | true => simp [hx, List.count_append, List.count_singleton]
    | false => simpa [hx] using ih

theorem late_eq_zero {trace : List Entry} (h : trace.any Entry.quits = false) :
    late trace = 0 := by
  induction trace with
  | nil => rfl
  | cons x trace ih =>
    simp only [List.any_cons, Bool.or_eq_false_iff] at h
    rw [late, h.1, if_neg Bool.false_ne_true]
    exact ih h.2

theorem foldlM_concat (trace : List Entry) (e : Entry) {b : Bool}
    (h : trace.foldlM Entry.loop false = some b) :
    (trace ++ [e]).foldlM Entry.loop false = e.loop b := by
  rw [List.foldlM_append, h]
  simp

/-! ### Moves -/

theorem AtMain.congr (h : AtMain s p) (htrace : s'.trace = s.trace)
    (hon : s'.onQuit = s.onQuit) (hdone : s'.done = s.done)
    (hqueue : (s'.endpoints .App).queue_ = (s.endpoints .App).queue_) : AtMain s' p where
  rounds := by rw [htrace]; exact h.rounds
  registered := by rw [hon]; exact h.registered
  seen := by rw [htrace, hdone, hqueue]; exact h.seen
  last := by rw [htrace, hdone]; exact h.last
  left := by rw [hdone]; exact h.left

theorem AtMain.move {q : Place} (h : AtMain s q) (hlooping : p.looping = q.looping)
    (hearly : p.early = q.early) (hrest : p.rest = q.rest) (hquitting : p.quitting = q.quitting)
    (hreceiving : p.receiving = q.receiving) (hleft : p ≠ .left) : AtMain s p where
  rounds := by rw [hlooping]; exact h.rounds
  registered := by rw [hearly]; exact h.registered
  seen := by rw [hquitting, hrest]; exact h.seen
  last := by rw [hreceiving]; exact h.last
  left hp := absurd hp hleft

theorem Looped.of_main (h : Looped s) (hmain : AtMain s' (s'.threads .main))
    (htrace : s'.trace = s.trace) (hsent : (s'.endpoints .App).sent = (s.endpoints .App).sent)
    (hdone : s'.done = s.done) : Looped s' where
  main := hmain
  late := by rw [htrace]; exact h.late
  sent := by rw [htrace, hsent]; exact h.sent
  done := by rw [htrace, hdone]; exact h.done

theorem Looped.goto (h : Looped s) (hmain : AtMain s p) : Looped (s.goto .main p) := by
  refine h.of_main ?_ rfl rfl rfl
  rw [goto_self]
  exact hmain.congr rfl rfl rfl rfl

theorem Looped.congr (h : Looped s) (hmain : s'.threads .main = s.threads .main)
    (htrace : s'.trace = s.trace) (hon : s'.onQuit = s.onQuit) (hdone : s'.done = s.done)
    (hqueue : (s'.endpoints .App).queue_ = (s.endpoints .App).queue_)
    (hsent : (s'.endpoints .App).sent = (s.endpoints .App).sent) : Looped s' := by
  refine h.of_main ?_ htrace hsent hdone
  rw [hmain]
  exact h.main.congr htrace hon hdone hqueue

theorem Looped.elsewhere (h : Looped s) (ht : t ≠ .main) : Looped (s.goto t p) := by
  refine h.congr ?_ rfl rfl rfl rfl rfl
  rw [goto_threads, if_neg (Ne.symm ht)]

theorem mtx_queue (f : Mailbox → MailboxEndpoint) (m m' : Mailbox) (o : Option Thread) :
    (Function.update f m { f m with mtx_ := o } m').queue_ = (f m').queue_ ∧
      (Function.update f m { f m with mtx_ := o } m').sent = (f m').sent := by
  by_cases hm : m' = m
  · subst hm
    simp
  · simp [hm]

theorem Looped.acquire (h : Looped s) (ht : t ≠ .main) (hs : s.acquire t m p = some s') :
    Looped s' := by
  rw [acquire_eq hs]
  obtain ⟨hqueue, hsent⟩ := mtx_queue s.endpoints m .App (some t)
  refine h.congr ?_ rfl rfl rfl hqueue hsent
  rw [goto_threads, if_neg (Ne.symm ht)]

theorem Looped.acquire_main (h : Looped s) (hmain : AtMain s p)
    (hs : s.acquire .main m p = some s') : Looped s' := by
  rw [acquire_eq hs]
  obtain ⟨hqueue, hsent⟩ := mtx_queue s.endpoints m .App (some .main)
  refine h.of_main ?_ rfl hsent rfl
  rw [goto_self]
  exact hmain.congr rfl rfl rfl hqueue

theorem Looped.release {f : MailboxEndpoint → MailboxEndpoint} (h : Looped s) (ht : t ≠ .main)
    (hm : m ≠ .App) : Looped (s.release t m f p) := by
  have hsame : (s.release t m f p).endpoints .App = s.endpoints .App := by
    rw [release_endpoints, Function.update_of_ne (Ne.symm hm)]
  refine h.congr ?_ rfl rfl rfl ?_ ?_
  · rw [System.release, goto_threads, if_neg (Ne.symm ht)]
  · rw [hsame]
  · rw [hsame]

theorem own_ne_app (ht : t ≠ .main) : t.own ≠ .App := by
  cases t
  · exact absurd rfl ht
  · decide
  · decide
  · decide

theorem Looped.deliver {message : Message} {rest : List Message} (h : Looped s)
    (ht : t ≠ .main) : Looped (s.deliver t message rest) := by
  have hsame : (s.deliver t message rest).endpoints .App = s.endpoints .App := by
    rw [deliver_endpoints, Function.update_of_ne (Ne.symm (own_ne_app ht))]
  obtain ⟨p, hthreads, -⟩ : ∃ p, (s.deliver t message rest).threads =
    Function.update s.threads t p ∧ (p = .callback message rest ∨ p = .pumping rest) :=
      deliver_threads
  have hdone : (s.deliver t message rest).done = s.done ∧
      (s.deliver t message rest).onQuit = s.onQuit := by
    unfold System.deliver
    split
    · rename_i hc
      have hm := own_ne_app ht
      revert hc hm
      cases t.own <;> cases message <;>
        simp [System.hasCallback, System.invoke, System.goto, System.take]
    · exact ⟨rfl, rfl⟩
  refine h.congr ?_ deliver_trace hdone.2 hdone.1 ?_ ?_
  · rw [hthreads, Function.update_of_ne (Ne.symm ht)]
  · rw [hsame]
  · rw [hsame]

/-! ### Sending -/

theorem Sends.app (h : Sends t .App mq next) : mq = [.APP_QUIT] := by
  cases t <;> simp only [Sends] at h
  · exact h.1
  · exact h.1

theorem Sends.main_next (h : Sends .main m mq next) : next.early = false ∧
    next.quitting = false ∧ next.receiving = false ∧ next ≠ .left := by
  cases m <;> simp only [Sends] at h
  · obtain ⟨-, rfl⟩ := h
    exact ⟨rfl, rfl, rfl, Place.noConfusion⟩
  · obtain ⟨-, rfl⟩ | ⟨-, rfl⟩ := h
    · exact ⟨rfl, rfl, rfl, Place.noConfusion⟩
    · exact ⟨rfl, rfl, rfl, Place.noConfusion⟩

theorem Looped.quit (h : Looped s) (hI : Inv s) (hp : s.threads t = .holds .App mq next) :
    Looped ((s.release t .App (·.push mq) next).note .quit) := by
  have hsends := hI.sends hp
  have hmq := hsends.app
  have hrest : (s.threads .main).rest = none := hI.rest_receiver hp
  have hlate : Application.late (s.trace ++ [.quit]) = Application.late s.trace := by
    simp [late_concat]
  have hany : (s.trace ++ [Entry.quit]).any Entry.quits = true := by
    simp [Entry.quits]
  have hend : ((s.release t .App (·.push mq) next).note .quit).endpoints .App =
      { (s.endpoints .App).push mq with mtx_ := none } := by
    show (s.release t .App (·.push mq) next).endpoints .App = _
    rw [release_endpoints, Function.update_self]
  -- the place of the main thread, which may be the sender
  have hplace : ∃ p, (Function.update s.threads t next) .main = p ∧
      p.looping = (s.threads .main).looping ∧ p.rest = (s.threads .main).rest ∧
      (p.early = true ∨ s.onQuit = true) ∧
      (p.receiving = (s.threads .main).receiving) ∧ (p = .left → s.done = true) := by
    by_cases ht : Thread.main = t
    · subst ht
      obtain ⟨hearly, hquitting, hreceiving, hleft⟩ := hsends.main_next
      refine ⟨next, Function.update_self _ _ _, by rw [hp]; rfl, by rw [hp]; rfl, .inr ?_, ?_,
        fun hl => absurd hl hleft⟩
      · have hreg := h.main.registered
        rw [hp] at hreg
        exact hreg.resolve_left Bool.false_ne_true
      · rw [hp, hreceiving]
        rfl
    · exact ⟨_, Function.update_of_ne ht _ _, rfl, rfl, h.main.registered, rfl, h.main.left⟩
  obtain ⟨p, hthreads, hlooping, hrest', hearly, hreceiving, hleft⟩ := hplace
  refine ⟨?_, ?_, fun _ => hany, fun _ => hany⟩
  · show AtMain _ (Function.update s.threads t next .main)
    rw [hthreads]
    refine ⟨?_, hearly, fun _ => .inr (.inr ?_), ?_, hleft⟩
    · rw [hlooping]
      exact foldlM_concat _ _ h.main.rounds
    · rw [hend, hrest', hrest, hmq]
      simp [unread, MailboxEndpoint.push]
    · intro hl
      rw [hreceiving]
      exact h.main.last (hlate.symm.trans hl)
  · show Application.late (s.trace ++ [.quit]) ≤ 1
    rw [hlate]
    exact h.late

theorem Looped.push (h : Looped s) (hI : Inv s) (hp : s.threads t = .holds m mq next)
    (hm : m ≠ .App) : Looped (s.release t m (·.push mq) next) := by
  by_cases ht : t = .main
  · subst ht
    have hsends := hI.sends hp
    obtain ⟨hearly, hquitting, hreceiving, hleft⟩ := hsends.main_next
    have hsame : (s.release .main m (·.push mq) next).endpoints .App = s.endpoints .App := by
      rw [release_endpoints, Function.update_of_ne (Ne.symm hm)]
    have hmain : AtMain s next := by
      have hmain := h.main
      rw [hp] at hmain
      have hq : (Place.holds m mq next).quitting = false := by
        cases m
        · exact absurd rfl hm
        · rfl
        · rfl
      exact hmain.move rfl hearly rfl (hquitting.trans hq.symm) hreceiving hleft
    refine h.of_main ?_ rfl ?_ rfl
    · rw [System.release, goto_threads, if_pos rfl]
      refine hmain.congr rfl rfl rfl ?_
      exact congrArg MailboxEndpoint.queue_ hsame
    · rw [hsame]
  · exact h.release ht hm

/-! ### The main thread -/

theorem AtMain.on {p : Place} (h : AtMain s p) (hearly : p.early = false) : s.onQuit = true :=
  h.registered.resolve_left (by rw [hearly]; exact Bool.false_ne_true)

theorem Looped.deliver_main {message : Message} {rest : List Message} (h : Looped s)
    (hR : Requests s) (hp : s.threads .main = .pumping (message :: rest)) :
    Looped (s.deliver .main message rest) := by
  have hmain := h.main
  rw [hp] at hmain
  have hon : s.onQuit = true := hmain.on rfl
  have hany : s.trace.any Entry.quits = true := by
    refine h.sent ?_
    rw [hR.flow, System.pending, show Mailbox.App.receiver = .main from rfl, hp]
    simp [unread, Place.rest]
  have hsent : ((s.take .App message).endpoints .App).sent = (s.endpoints .App).sent := by
    simp [System.take]
  have hqueue : ((s.take .App message).endpoints .App).queue_ = (s.endpoints .App).queue_ := by
    simp [System.take]
  unfold System.deliver
  split
  · rename_i hc
    cases message with
    | APP_QUIT =>
      refine ⟨?_, h.late, fun _ => hany, fun _ => hany⟩
      rw [goto_self]
      exact ⟨hmain.rounds, .inr hon, fun _ => .inl rfl, fun _ => .inl rfl, fun _ => rfl⟩
    | _ => cases hc
  · rename_i hc
    have hne : Message.APP_QUIT ≠ message := by
      rintro rfl
      exact hc hon
    refine ⟨?_, h.late, fun _ => hany, fun _ => hany⟩
    rw [goto_self]
    refine ⟨hmain.rounds, .inr hon, fun ha => ?_, fun _ => .inr rfl, Place.noConfusion⟩
    refine (hmain.seen ha).imp_right (.imp_right fun hmem => ?_)
    show Message.APP_QUIT ∈ rest ++ ((s.take .App message).endpoints .App).queue_.tail.flatten
    rw [hqueue]
    simpa [unread, Place.rest, hne] using hmem

theorem Looped.receive {q : Place} {x : MailboxEndpoint} (h : Looped s) (hq : AtMain s q)
    (hqueue : unread x.queue_ p.rest = unread (s.endpoints .App).queue_ q.rest)
    (hsent : x.sent = (s.endpoints .App).sent) (hlooping : p.looping = q.looping)
    (hearly : p.early = q.early) (hquitting : p.quitting = q.quitting)
    (hreceiving : p.receiving = q.receiving) (hleft : p ≠ .left) :
    Looped ({ s with endpoints := Function.update s.endpoints .App x }.goto .main p) := by
  refine h.of_main ?_ rfl ?_ rfl
  · rw [goto_self]
    refine ⟨?_, ?_, fun ha => ?_, ?_, fun hl => absurd hl hleft⟩
    · rw [hlooping]
      exact hq.rounds
    · rw [hearly]
      exact hq.registered
    · show _ ∨ _ ∨ Message.APP_QUIT ∈ unread (Function.update s.endpoints .App x .App).queue_ p.rest
      rw [Function.update_self, hqueue, hquitting]
      exact hq.seen ha
    · rw [hreceiving]
      exact hq.last
  · show (Function.update s.endpoints .App x .App).sent = _
    rw [Function.update_self, hsent]

theorem Looped.iterate (h : Looped s) (hp : s.threads .main = .test) (hdone : ¬ s.done = true) :
    Looped ((s.note .iteration).goto .main .testEmpty) := by
  have hmain := h.main
  rw [hp] at hmain
  have hany : (s.trace ++ [Entry.iteration]).any Entry.quits = s.trace.any Entry.quits := by
    simp [Entry.quits]
  -- no iteration has begun since the first request to quit
  have hnone : Application.late s.trace = 0 := by
    have hle := h.late
    have hne : Application.late s.trace ≠ 1 := fun hl =>
      (hmain.last hl).elim hdone Bool.false_ne_true
    omega
  refine ⟨?_, ?_, ?_, ?_⟩
  · rw [goto_self]
    refine ⟨?_, .inr (hmain.on rfl), fun ha => ?_, fun _ => .inr rfl, fun hl => nomatch hl⟩
    · exact foldlM_concat _ _ hmain.rounds
    · exact hmain.seen (hany.symm.trans ha)
  · show Application.late (s.trace ++ [.iteration]) ≤ 1
    rw [late_concat, hnone]
    split <;> omega
  · intro hsent
    exact hany.trans (h.sent hsent)
  · intro hd
    exact absurd hd hdone

theorem Looped.go_main {interactive : Bool} (h : Looped s) (hR : Requests s) (hI : Inv s)
    (hs : s.go interactive .main = some s') : Looped s' := by
  have hmain := h.main
  have hfits := hI.fits .main
  unfold System.go at hs
  cases hp : s.threads .main with
  | pump_msgs | left | readline =>
    rw [hp] at hs
    cases hs
  | unborn =>
    rw [hp] at hfits
    exact absurd rfl hfits
  | checkStop | lockWait | testWait | asleep =>
    rw [hp] at hfits
    rcases hfits with hfits | hfits <;> cases hfits
  | fence =>
    rw [hp] at hfits
    cases hfits
  | startEngine =>
    simp only [hp] at hs hmain
    cases hs
    have hstart : Looped (s.start .graphics) := h.congr rfl rfl rfl rfl rfl rfl
    have hmain' : AtMain (s.start .graphics) .startEngine := hmain.congr rfl rfl rfl rfl
    refine hstart.goto ?_
    split
    · exact hmain'.move rfl rfl rfl rfl rfl (fun hl => nomatch hl)
    · exact hmain'.move rfl rfl rfl rfl rfl (fun hl => nomatch hl)
  | getCLIInput =>
    simp only [hp] at hs hmain
    cases hs
    have hstart : Looped (s.start .input) := h.congr rfl rfl rfl rfl rfl rfl
    have hmain' : AtMain (s.start .input) .getCLIInput := hmain.congr rfl rfl rfl rfl
    exact hstart.goto (hmain'.move rfl rfl rfl rfl rfl (fun hl => nomatch hl))
  | startInterpreter =>
    simp only [hp] at hs hmain
    cases hs
    have hstart : Looped (s.start .interpreter) := h.congr rfl rfl rfl rfl rfl rfl
    have hmain' : AtMain (s.start .interpreter) .startInterpreter := hmain.congr rfl rfl rfl rfl
    exact hstart.goto (hmain'.move rfl rfl rfl rfl rfl (fun hl => nomatch hl))
  | claim | sleep | callback _ _ =>
    simp only [hp] at hs hmain
    cases hs
    exact h.goto (hmain.move rfl rfl rfl rfl rfl (fun hl => nomatch hl))
  | on =>
    simp only [hp] at hs hmain
    have hnext : AtMain s .registering := hmain.move rfl rfl rfl rfl rfl (fun hl => nomatch hl)
    exact h.acquire_main hnext hs
  | registering =>
    simp only [hp] at hs hmain
    cases hs
    have hmain' : AtMain { s with onQuit := true } .registering :=
      ⟨hmain.rounds, .inr rfl, hmain.seen, hmain.last, hmain.left⟩
    have hon : Looped { s with onQuit := true } := by
      refine h.of_main ?_ rfl rfl rfl
      rw [show System.threads { s with onQuit := true } .main = .registering from hp]
      exact hmain'
    have htest : AtMain { s with onQuit := true } .test :=
      ⟨hmain.rounds, .inr rfl, hmain.seen, hmain.last, fun hl => nomatch hl⟩
    exact hon.receive htest rfl rfl rfl rfl rfl rfl (fun hl => nomatch hl)
  | test =>
    simp only [hp] at hs hmain
    cases hs
    split
    · rename_i hdone
      exact h.goto ⟨hmain.rounds, .inr (hmain.on rfl), fun _ => .inl hdone, fun _ => .inl hdone,
        fun _ => hdone⟩
    · rename_i hdone
      exact h.iterate hp hdone
  | testEmpty =>
    simp only [hp] at hs hmain
    cases hs
    split_ifs with hempty
    · refine h.goto ⟨hmain.rounds, .inr (hmain.on rfl), hmain.seen, fun hl => ?_,
        fun hl => nomatch hl⟩
      -- an `APP_QUIT` that has been sent before is no longer in the mailbox
      have hany : s.trace.any Entry.quits = true := by
        cases hany : s.trace.any Entry.quits with
        | true => rfl
        | false => exact nomatch (late_eq_zero hany).symm.trans hl
      rcases hmain.seen hany with hdone | hq | hmem
      · exact .inl hdone
      · cases hq
      · rw [show (s.endpoints .App).queue_ = [] from hempty] at hmem
        cases hmem
    · exact h.goto (hmain.move rfl rfl rfl rfl rfl (fun hl => nomatch hl))
  | lockMail =>
    simp only [hp] at hs hmain
    rw [acquire_eq hs]
    refine h.receive hmain ?_ rfl rfl rfl rfl rfl (fun hl => nomatch hl)
    show unread (s.endpoints .App).queue_ (some ((s.endpoints .App).queue_.headD [])) =
      unread (s.endpoints .App).queue_ none
    cases (s.endpoints .App).queue_ <;> rfl
  | pumping rest =>
    simp only [hp] at hs hmain
    cases rest with
    | nil =>
      cases hs
      exact h.receive hmain rfl rfl rfl rfl rfl rfl (fun hl => nomatch hl)
    | cons message rest =>
      cases hs
      exact h.deliver_main hR hp
  | wants m mq next =>
    simp only [hp] at hs hmain
    have hnext : AtMain s (.holds m mq next) := by
      refine hmain.move rfl rfl rfl ?_ rfl (fun hl => nomatch hl)
      cases m <;> rfl
    exact h.acquire_main hnext hs
  | holds m mq next =>
    simp only [hp] at hs
    split at hs
    · rename_i hm
      subst hm
      cases hs
      exact h.quit hI hp
    · rename_i hm
      cases hs
      exact h.push hI hp hm

/-! ### Runs -/

theorem Looped.go_other {interactive : Bool} (h : Looped s) (hI : Inv s) (ht : t ≠ .main)
    (hs : s.go interactive t = some s') : Looped s' := by
  have hfits := hI.fits t
  unfold System.go at hs
  cases hp : s.threads t with
  | pump_msgs | left | readline =>
    rw [hp] at hs
    cases hs
  | startEngine | getCLIInput | startInterpreter | claim | on | registering | test | sleep =>
    rw [hp] at hfits
    exact absurd hfits ht
  | unborn | fence =>
    simp only [hp] at hs
    split at hs
    · cases hs
      exact h.elsewhere ht
    · cases hs
  | checkStop | asleep | testEmpty | callback _ _ =>
    simp only [hp] at hs
    cases hs
    exact h.elsewhere ht
  | lockWait | lockMail | wants _ _ _ =>
    simp only [hp] at hs
    exact h.acquire ht hs
  | testWait =>
    simp only [hp] at hs
    cases hs
    exact h.release ht (own_ne_app ht)
  | pumping rest =>
    simp only [hp] at hs
    cases rest with
    | nil =>
      cases hs
      exact h.release ht (own_ne_app ht)
    | cons message rest =>
      cases hs
      exact h.deliver ht
  | holds m mq next =>
    simp only [hp] at hs
    split at hs
    · rename_i hm
      subst hm
      cases hs
      exact h.quit hI hp
    · rename_i hm
      cases hs
      exact h.push hI hp hm

/-- What is noted is no iteration, and a request to quit only when the main thread is about to pass
it on. -/
theorem Looped.note {q : Place} {e : Entry} (h : Looped s) (hq : AtMain s q)
    (hs : s'.threads .main = p) (htrace : s'.trace = s.trace ++ [e]) (hon : s'.onQuit = s.onQuit)
    (hdone : s'.done = s.done) (hend : s'.endpoints = s.endpoints)
    (hloop : e.loop q.looping = some p.looping) (hi : e ≠ .iteration)
    (hquits : e.quits = true → p.quitting = true)
    (hquitting : q.quitting = true → p.quitting = true) (hearly : p.early = q.early)
    (hrest : p.rest = q.rest) (hreceiving : p.receiving = q.receiving)
    (hleft : p = .left → s.done = true) : Looped s' := by
  have hlate : Application.late s'.trace = Application.late s.trace := by
    simp [htrace, late_concat, hi]
  have hany : s'.trace.any Entry.quits = true ↔
      s.trace.any Entry.quits = true ∨ e.quits = true := by
    simp [htrace]
  refine ⟨⟨?_, ?_, fun ha => ?_, fun hl => ?_, fun hl => ?_⟩, ?_, fun hsent => ?_, fun hd => ?_⟩
  · rw [htrace, hs]
    exact (foldlM_concat _ _ hq.rounds).trans hloop
  · rw [hs, hon, hearly]
    exact hq.registered
  · rw [hs, hdone, hend, hrest]
    rcases hany.mp ha with ha | ha
    · exact (hq.seen ha).imp_right (.imp_left hquitting)
    · exact .inr (.inl (hquits ha))
  · rw [hdone, hs, hreceiving]
    exact hq.last (hlate.symm.trans hl)
  · rw [hdone]
    exact hleft (hs.symm.trans hl)
  · rw [hlate]
    exact h.late
  · rw [hend] at hsent
    exact hany.mpr (.inl (h.sent hsent))
  · rw [hdone] at hd
    exact hany.mpr (.inl (h.done hd))

theorem Looped.poll {e : Option Event} (h : Looped s) (hs : s.poll e = some s') : Looped s' := by
  have hmain := h.main
  unfold System.poll at hs
  cases hp : s.threads .main with
  | pump_msgs =>
    simp only [hp] at hs hmain
    cases e with
    | none =>
      cases hs
      exact h.note hmain (goto_self _ _ _) rfl rfl rfl rfl rfl (fun he => nomatch he)
        (fun he => nomatch he) (fun he => nomatch he) rfl rfl rfl (fun hl => nomatch hl)
    | some e =>
      dsimp only at hs
      split at hs
      · rename_i input hinput
        cases hs
        refine h.note hmain (goto_self _ _ _) rfl rfl rfl rfl rfl (fun he => nomatch he)
          ?_ (fun he => nomatch he) rfl rfl rfl (fun hl => nomatch hl)
        intro he
        have hquit : input = .QUIT := by simpa [Entry.quits, hinput] using he
        rw [hquit]
        rfl
      · rename_i hinput
        cases hs
        refine h.note hmain hp rfl rfl rfl rfl rfl (fun he => nomatch he) ?_
          (fun he => nomatch he) rfl rfl rfl (fun hl => nomatch hl)
        intro he
        simp [Entry.quits, hinput] at he
  | _ =>
    simp only [hp] at hs
    cases hs

theorem Looped.line {str : Text} (h : Looped s) (hs : s.line str = some s') : Looped s' := by
  unfold System.line at hs
  cases hp : s.threads .input with
  | readline =>
    have hnote : Looped (s.note (.line str)) :=
      h.note h.main rfl rfl rfl rfl rfl rfl (fun he => nomatch he) (fun he => nomatch he) id rfl
        rfl rfl h.main.left
    simp only [hp] at hs
    split at hs
    · cases hs
      have hfence : Looped (s.note (.line str)).newFence :=
        hnote.congr rfl rfl rfl rfl rfl rfl
      exact hfence.elsewhere (by decide)
    · cases hs
      exact hnote
  | _ =>
    simp only [hp] at hs
    cases hs

theorem Looped.lua {c : Lua} (h : Looped s) (hs : s.lua c = some s') : Looped s' := by
  unfold System.lua at hs
  split at hs
  · cases c with
    | set_vertex_shader shader =>
      cases hs
      have hnote : Looped (s.note (.shader shader)) :=
        h.note h.main rfl rfl rfl rfl rfl rfl (fun he => nomatch he) (fun he => nomatch he) id rfl
          rfl rfl h.main.left
      exact hnote.elsewhere (by decide)
    | shutdown =>
      cases hs
      exact h.elsewhere (by decide)
  · cases hs

theorem Looped.step {interactive : Bool} {l : Label} (h : Looped s) (hR : Requests s)
    (hI : Inv s) (hs : s.step interactive l = some s') : Looped s' := by
  unfold System.step at hs
  split at hs
  · cases hs
  cases l with
  | go t =>
    by_cases ht : t = .main
    · subst ht
      exact h.go_main hR hI hs
    · exact h.go_other hI ht hs
  | poll e => exact h.poll hs
  | line str => exact h.line hs
  | lua c => exact h.lua hs
  | throws t =>
    dsimp only at hs
    unfold System.throws at hs
    split at hs
    · cases hs
      exact h.congr rfl rfl rfl rfl rfl rfl
    · cases hs

theorem Looped.init : Looped {} where
  main := ⟨rfl, .inl rfl, (fun h => nomatch h), (fun h => nomatch h), fun h => nomatch h⟩
  late := Nat.zero_le 1
  sent h := absurd rfl h
  done h := nomatch h

theorem looped_of_run {interactive : Bool} (h : Run (System.Step interactive) {} s) :
    Looped s := by
  have hall : Inv s ∧ Requests s ∧ Looped s :=
    RunUnder.invariant (fun s => Inv s ∧ Requests s ∧ Looped s) h
      ⟨Inv.init, Requests.init, Looped.init⟩ fun _ _ _ hI _ hs =>
        ⟨hI.1.step hs, hI.2.1.step hI.1 hs, hI.2.2.step hI.2.1 hI.1 hs⟩
  exact hall.2.2

end

/-- The main loop is a sequence of iterations that take their events and ask for a frame. What it
asks of the graphics engine, a resize for each event and the frame, comes to the backend in this
order, as does what the scripts ask, and nothing else; all of it has come when nothing is left in
the mailbox or about to be sent. -/
theorem requests_in_order {interactive : Bool} {s : System}
    (h : Run (System.Step interactive) {} s) :
    (∃ begun, s.trace.foldlM Entry.loop false = some begun) ∧
    ∀ b, s.backend.filter (·.isShader = b) <+: asked b s.trace ∧
      (s.pending .CoreGraphicsEngine = [] → (s.threads (asker b)).sending = [] →
        s.backend.filter (·.isShader = b) = asked b s.trace) := by
  have hR := requests_of_run h
  refine ⟨⟨_, (looped_of_run h).main.rounds⟩, fun b => ?_⟩
  have hasked := hR.asked b
  rw [hR.flow, ← hR.called, List.filter_append, List.append_assoc] at hasked
  refine ⟨⟨_, hasked⟩, fun hpending hsending => ?_⟩
  simpa [hpending, hsending] using hasked

/-- Once the window or a script has asked to quit, the loop begins at most one more iteration, and
it is left only when one of them has asked. -/
theorem quits_in_time {interactive : Bool} {s : System}
    (h : Run (System.Step interactive) {} s) :
    late s.trace ≤ 1 ∧ (s.threads .main = .left → s.trace.any Entry.quits = true) := by
  have hL := looped_of_run h
  refine ⟨hL.late, fun hp => ?_⟩
  have hmain := hL.main
  rw [hp] at hmain
  exact hL.done (hmain.left rfl)

/-- The window is resized, and escape is pressed. -/
def lastFrames : List Label :=
  List.replicate 6 (.go .main) ++ [.poll (some (.SDL_WINDOWEVENT 6)), .go .main, .go .main,
    .poll (some (.SDL_KEYDOWN 27)), .go .main, .go .main, .poll none, .go .main, .go .main] ++
  List.replicate 10 (.go .graphics) ++ List.replicate 8 (.go .main) ++
  [.poll none, .go .main, .go .main, .go .main, .go .main]

theorem last_frames_requested : ∃ s, follow (System.step false) lastFrames {} = some s ∧
    s.backend = [.HANDLE_RESIZE] ∧
    asked false s.trace = [.HANDLE_RESIZE, .RENDER_FRAME, .RENDER_FRAME] ∧
    s.backend.filter (·.isShader = false) <+: asked false s.trace := by
  obtain ⟨s, hs⟩ : ∃ s, follow (System.step false) lastFrames {} = some s := ⟨_, rfl⟩
  refine ⟨s, hs, ?_, ?_, ((requests_in_order (run_of_follow hs)).2 false).1⟩
  · cases hs
    rfl
  · cases hs
    rfl

theorem last_frames_left : ∃ s, follow (System.step false) lastFrames {} = some s ∧
    late s.trace = 1 ∧ s.threads .main = .left ∧ late s.trace ≤ 1 ∧
    s.trace.any Entry.quits = true := by
  obtain ⟨s, hs⟩ : ∃ s, follow (System.step false) lastFrames {} = some s := ⟨_, rfl⟩
  have hquits := quits_in_time (run_of_follow hs)
  have hleft : s.threads .main = .left := by
    cases hs
    rfl
  refine ⟨s, hs, ?_, hleft, hquits.1, hquits.2 hleft⟩
  cases hs
  rfl

end Omulator.Application
