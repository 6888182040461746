import Omulator.Core.Application

/-!
# What is asked of the graphics engine (`src/main.cpp`, `src/graphics/CoreGraphicsEngine.cpp`)

The backend is called with what the main loop and the scripts ask for, in the order in which
each of them asks, and with nothing else.
-/

namespace Omulator.Application
open Lib
open CLIInput (Text)

def Mailbox.receiver : Mailbox → Thread
  | .App => .main
  | .CoreGraphicsEngine => .graphics
  | .Interpreter => .interpreter

def Place.rest : Place → Option (List Message)
  | .pumping rest | .callback _ rest => some rest
  | .wants _ _ next | .holds _ _ next => next.rest
  | _ => none

def Place.sending : Place → List Message
  | .wants m mq _ | .holds m mq _ => if m = .CoreGraphicsEngine then mq else []
  | _ => []

def unread (queue_ : List (List Message)) : Option (List Message) → List Message
  | some rest => rest ++ queue_.tail.flatten
  | none => queue_.flatten

def System.pending (s : System) (m : Mailbox) : List Message :=
  unread (s.endpoints m).queue_ (s.threads m.receiver).rest

def Message.isShader : Message → Bool
  | .SET_VERTEX_SHADER _ => true
  | _ => false

/-- The backend has a function for it. -/
def Message.isDrawn : Message → Bool
  | .RENDER_FRAME | .HANDLE_RESIZE | .SET_VERTEX_SHADER _ => true
  | _ => false

def Entry.asks : Entry → Option Message
  | .event e => if e.input = some .RESIZE then some .HANDLE_RESIZE else none
  | .frame => some .RENDER_FRAME
  | .shader text => some (.SET_VERTEX_SHADER text)
  | .iteration | .quit | .line _ => none

def asked (b : Bool) (trace : List Entry) : List Message :=
  (trace.filterMap Entry.asks).filter (·.isShader = b)

def asker : Bool → Thread
  | true => .interpreter
  | false => .main

structure Requests (s : System) : Prop where
  flow : ∀ m, (s.endpoints m).sent = (s.endpoints m).taken ++ s.pending m
  called : s.backend = (s.endpoints .CoreGraphicsEngine).taken
  drawn : ∀ message ∈ (s.endpoints .CoreGraphicsEngine).sent, message.isDrawn = true
  asked : ∀ b, (s.endpoints .CoreGraphicsEngine).sent.filter (·.isShader = b) ++
    (s.threads (asker b)).sending = asked b s.trace

section
variable {s s' : System} {t u : Thread} {m : Mailbox} {p : Place} {mq : List Message}
  {next : Place}

theorem receiver_own (h : t ≠ .input) : t.own.receiver = t := by
  cases t
  · rfl
  · rfl
  · rfl
  · exact absurd rfl h

theorem own_receiver (m : Mailbox) : m.receiver.own = m := by
  cases m <;> rfl

theorem Place.own_mem_held {rest : List Message} (h : p.rest = some rest) : t.own ∈ p.held t := by
  induction p with
  | pumping _ | callback _ _ => exact List.mem_singleton.mpr rfl
  | wants _ _ next ih => exact ih h
  | holds _ _ next ih => exact List.mem_cons_of_mem _ (ih h)
  | _ => cases h

/-! ### Moves that ask for nothing -/

theorem rest_update {f : Thread → Place} (hrest : p.rest = (f t).rest) (u : Thread) :
    (Function.update f t p u).rest = (f u).rest := by
  by_cases hu : u = t
  · subst hu
    rw [Function.update_self, hrest]
  · rw [Function.update_of_ne hu]

theorem sending_update {f : Thread → Place} (hsending : p.sending = (f t).sending) (u : Thread) :
    (Function.update f t p u).sending = (f u).sending := by
  by_cases hu : u = t
  · subst hu
    rw [Function.update_self, hsending]
  · rw [Function.update_of_ne hu]

theorem Requests.congr (h : Requests s)
    (hqueue : ∀ m, (s'.endpoints m).queue_ = (s.endpoints m).queue_)
    (hsent : ∀ m, (s'.endpoints m).sent = (s.endpoints m).sent)
    (htaken : ∀ m, (s'.endpoints m).taken = (s.endpoints m).taken)
    (hrest : ∀ u, (s'.threads u).rest = (s.threads u).rest)
    (hsending : ∀ u, (s'.threads u).sending = (s.threads u).sending)
    (hbackend : s'.backend = s.backend)
    (htrace : s'.trace.filterMap Entry.asks = s.trace.filterMap Entry.asks) : Requests s' where
  flow m := by
    have hpending : s'.pending m = s.pending m := by
      rw [System.pending, System.pending, hrest, hqueue]
    rw [hpending, hsent, htaken, h.flow]
  called := by rw [hbackend, htaken, h.called]
  drawn := by rw [hsent]; exact h.drawn
  asked b := by
    have htrace' : Application.asked b s'.trace = Application.asked b s.trace := by
      rw [Application.asked, Application.asked, htrace]
    rw [hsent, hsending, htrace', h.asked]

theorem Requests.goto (h : Requests s) (hrest : p.rest = (s.threads t).rest)
    (hsending : p.sending = (s.threads t).sending) : Requests (s.goto t p) :=
  h.congr (fun _ => rfl) (fun _ => rfl) (fun _ => rfl) (rest_update hrest)
    (sending_update hsending) rfl rfl

theorem Requests.acquire (h : Requests s) (hs : s.acquire t m p = some s')
    (hrest : p.rest = (s.threads t).rest)
    (hsending : p.sending = (s.threads t).sending) : Requests s' := by
  rw [acquire_eq hs]
  refine h.congr ?_ ?_ ?_ (rest_update hrest) (sending_update hsending) rfl rfl
  all_goals
    intro m'
    by_cases hm : m' = m
    · subst hm
      simp [System.goto]
    · simp [System.goto, hm]

/-! ### A queue is processed -/

theorem mail_kept {x : MailboxEndpoint} (hsent : x.sent = (s.endpoints m).sent)
    (htaken : x.taken = (s.endpoints m).taken) (m' : Mailbox) :
    (Function.update s.endpoints m x m').sent = (s.endpoints m').sent ∧
      (Function.update s.endpoints m x m').taken = (s.endpoints m').taken := by
  by_cases hm : m' = m
  · subst hm
    rw [Function.update_self]
    exact ⟨hsent, htaken⟩
  · rw [Function.update_of_ne hm]
    exact ⟨rfl, rfl⟩

theorem Requests.receive {x : MailboxEndpoint} (h : Requests s)
    (hqueue : unread x.queue_ p.rest = unread (s.endpoints m).queue_ (s.threads t).rest)
    (ht : m.receiver = t) (hsent : x.sent = (s.endpoints m).sent)
    (htaken : x.taken = (s.endpoints m).taken)
    (hsending : p.sending = (s.threads t).sending) :
    Requests ({ s with endpoints := Function.update s.endpoints m x }.goto t p) := by
  have hmail := mail_kept hsent htaken
  have hpending : ∀ m', unread (Function.update s.endpoints m x m').queue_
      (Function.update s.threads t p m'.receiver).rest = s.pending m' := by
    intro m'
    by_cases hm : m' = m
    · subst hm
      rw [ht, Function.update_self, Function.update_self, hqueue, System.pending, ht]
    · have hne : m'.receiver ≠ t := by
        rw [← ht]
        intro he
        exact hm (by rw [← own_receiver m', he, own_receiver])
      rw [Function.update_of_ne hm, Function.update_of_ne hne]
      rfl
  refine ⟨fun m' => ?_, ?_, ?_, fun b => ?_⟩
  · show (Function.update s.endpoints m x m').sent = (Function.update s.endpoints m x m').taken ++
      unread (Function.update s.endpoints m x m').queue_
        (Function.update s.threads t p m'.receiver).rest
    rw [(hmail m').1, (hmail m').2, hpending, h.flow]
  · exact h.called.trans (hmail _).2.symm
  · show ∀ message ∈ (Function.update s.endpoints m x _).sent, _
    rw [(hmail _).1]
    exact h.drawn
  · show (Function.update s.endpoints m x _).sent.filter _ ++
      (Function.update s.threads t p _).sending = _
    rw [(hmail _).1, sending_update hsending]
    exact h.asked b

theorem Requests.lock (h : Requests s) (hs : s.acquire t m p = some s') (ht : m.receiver = t)
    (hp : (s.threads t).rest = none) (hrest : p.rest = some ((s.endpoints m).queue_.headD []))
    (hsending : p.sending = (s.threads t).sending) : Requests s' := by
  rw [acquire_eq hs]
  refine h.receive ?_ ht rfl rfl hsending
  rw [hp, hrest]
  cases hq : (s.endpoints m).queue_ <;> rfl

theorem invoke_endpoints (s : System) (message : Message) :
    (s.invoke message).endpoints = s.endpoints := by
  cases message <;> rfl

theorem invoke_trace (s : System) (message : Message) : (s.invoke message).trace = s.trace := by
  cases message <;> rfl

theorem invoke_backend (s : System) (message : Message) :
    (s.invoke message).backend = s.backend ++ if message.isDrawn then [message] else [] := by
  cases message <;> simp [System.invoke, Message.isDrawn]

theorem hasCallback_drawn (s : System) {message : Message} (m : Mailbox)
    (hm : m = .CoreGraphicsEngine → message.isDrawn = true) :
    (s.hasCallback m message = true ∧ message.isDrawn = true) ↔ m = .CoreGraphicsEngine := by
  cases m <;> cases message <;> simp_all [System.hasCallback, Message.isDrawn]

theorem deliver_endpoints {message : Message} {rest : List Message} :
    (s.deliver t message rest).endpoints = Function.update s.endpoints t.own
      { s.endpoints t.own with taken := (s.endpoints t.own).taken ++ [message] } := by
  unfold System.deliver
  split
  · exact invoke_endpoints _ message
  · rfl

theorem deliver_trace {message : Message} {rest : List Message} :
    (s.deliver t message rest).trace = s.trace := by
  unfold System.deliver
  split
  · exact invoke_trace _ message
  · rfl

theorem deliver_backend {message : Message} {rest : List Message}
    (hm : t.own = .CoreGraphicsEngine → message.isDrawn = true) :
    (s.deliver t message rest).backend =
      s.backend ++ if t.own = .CoreGraphicsEngine then [message] else [] := by
  have hdrawn := hasCallback_drawn s t.own hm
  unfold System.deliver
  split
  · rename_i hc
    show ((s.take t.own message).invoke message).backend = _
    rw [invoke_backend, show (s.take t.own message).backend = s.backend from rfl]
    simp only [hc, true_and] at hdrawn
    simp [hdrawn]
  · rename_i hc
    have hne : t.own ≠ .CoreGraphicsEngine := fun he => hc (hdrawn.mpr he).1
    simp [hne, System.goto, System.take]

theorem Requests.deliver {message : Message} {rest : List Message} (h : Requests s)
    (ht : t ≠ .input) (hp : s.threads t = .pumping (message :: rest)) :
    Requests (s.deliver t message rest) := by
  have hpending : s.pending t.own = message ::
      (rest ++ (s.endpoints t.own).queue_.tail.flatten) := by
    rw [System.pending, receiver_own ht, hp]
    rfl
  obtain ⟨p, hthreads, hplace⟩ : ∃ p, (s.deliver t message rest).threads =
    Function.update s.threads t p ∧ (p = .callback message rest ∨ p = .pumping rest) :=
      deliver_threads
  have hrest : p.rest = some rest := by
    rcases hplace with rfl | rfl
    · rfl
    · rfl
  have hsame : p.sending = (s.threads t).sending := by
    rw [hp]
    rcases hplace with rfl | rfl
    · rfl
    · rfl
  have hsent : ∀ m, ((s.deliver t message rest).endpoints m).sent = (s.endpoints m).sent := by
    intro m
    rw [deliver_endpoints]
    by_cases hm : m = t.own
    · subst hm
      simp
    · simp [hm]
  refine ⟨fun m => ?_, ?_, ?_, fun b => ?_⟩
  · rw [hsent, h.flow m, System.pending, System.pending, hthreads, deliver_endpoints]
    by_cases hm : m = t.own
    · subst hm
      rw [receiver_own ht, Function.update_self, Function.update_self, hrest, hp]
      simp [unread, Place.rest]
    · have hne : m.receiver ≠ t := fun he => hm (by rw [← he, own_receiver])
      rw [Function.update_of_ne hm, Function.update_of_ne hne]
  · have hdrawn : t.own = .CoreGraphicsEngine → message.isDrawn = true := by
      intro hm
      refine h.drawn message ?_
      rw [h.flow, ← hm, hpending]
      simp
    rw [deliver_backend hdrawn, deliver_endpoints, h.called]
    by_cases hm : t.own = .CoreGraphicsEngine
    · simp [hm]
    · rw [if_neg hm, List.append_nil, Function.update_of_ne (Ne.symm hm)]
  · rw [hsent]
    exact h.drawn
  · rw [hsent, hthreads, sending_update hsame, deliver_trace]
    exact h.asked b

/-! ### A queue is sent -/

theorem Sends.rest (h : Sends t m mq next) (hm : m.receiver = t) : next.rest = none := by
  cases hr : next.rest with
  | none => rfl
  | some rest =>
    have hmem : t.own ∈ next.held t := Place.own_mem_held hr
    obtain hheld | ⟨rfl, hheld, hne⟩ := h.held
    · rw [hheld] at hmem
      cases hmem
    · exact absurd (by rw [← own_receiver m, hm]; rfl) hne

theorem Sends.sending (h : Sends t m mq next) : next.sending = [] := by
  cases t <;> cases m <;> simp only [Sends] at h
  · obtain ⟨-, rfl⟩ := h
    rfl
  · obtain ⟨-, rfl⟩ | ⟨-, rfl⟩ := h
    · rfl
    · rfl
  · obtain ⟨-, str, rest, rfl⟩ := h
    rfl
  · obtain ⟨-, str, rest, rfl⟩ := h
    rfl
  · obtain ⟨-, rfl⟩ := h
    rfl

theorem Sends.drawn (h : Sends t .CoreGraphicsEngine mq next) :
    ∀ message ∈ mq, message.isDrawn = true := by
  cases t <;> simp only [Sends] at h
  · obtain ⟨rfl, -⟩ | ⟨rfl, -⟩ := h
    · simp [Message.isDrawn]
    · simp [Message.isDrawn]
  · obtain ⟨⟨shader, rfl⟩, -⟩ := h
    simp [Message.isDrawn]

theorem Sends.filter (h : Sends t .CoreGraphicsEngine mq next) (b : Bool) :
    mq.filter (·.isShader = b) = if asker b = t then mq else [] := by
  cases t <;> simp only [Sends] at h
  · obtain ⟨rfl, -⟩ | ⟨rfl, -⟩ := h
    · cases b <;> rfl
    · cases b <;> rfl
  · obtain ⟨⟨shader, rfl⟩, -⟩ := h
    cases b <;> rfl

theorem Inv.rest_receiver (hI : Inv s) (hp : s.threads t = .holds m mq next) :
    (s.threads m.receiver).rest = none := by
  have hsends : Sends t m mq next := hI.sends hp
  have hheld : (s.endpoints m).mtx_ = some t := by
    refine (hI.owned m t).mpr ?_
    rw [hp]
    exact List.mem_cons_self
  cases hr : (s.threads m.receiver).rest with
  | none => rfl
  | some rest =>
    have hmem : m ∈ (s.threads m.receiver).held m.receiver := by
      have hown := Place.own_mem_held (t := m.receiver) hr
      rw [own_receiver] at hown
      exact hown
    have ht : m.receiver = t := Option.some.inj (((hI.owned m _).mpr hmem).symm.trans hheld)
    rw [ht, hp] at hr
    exact nomatch (hsends.rest ht).symm.trans hr

theorem release_endpoints {f : MailboxEndpoint → MailboxEndpoint} :
    (s.release t m f p).endpoints =
      Function.update s.endpoints m { f (s.endpoints m) with mtx_ := none } := rfl

theorem Requests.push (h : Requests s) (hI : Inv s) (hp : s.threads t = .holds m mq next) :
    Requests (s.release t m (·.push mq) next) := by
  have hsends : Sends t m mq next := hI.sends hp
  have hthreads : (s.release t m (·.push mq) next).threads = Function.update s.threads t next := rfl
  have hrest : next.rest = (s.threads t).rest := by
    rw [hp]
    rfl
  refine ⟨fun m' => ?_, ?_, ?_, fun b => ?_⟩
  · rw [release_endpoints, System.pending, release_endpoints, hthreads, rest_update hrest]
    by_cases hm : m' = m
    · subst hm
      have hflow := h.flow m'
      rw [System.pending, hI.rest_receiver hp] at hflow
      rw [Function.update_self, hI.rest_receiver hp]
      simp only [MailboxEndpoint.push, hflow, unread, List.flatten_append, List.flatten_cons,
        List.flatten_nil, List.append_nil, List.append_assoc]
    · rw [Function.update_of_ne hm]
      exact h.flow m'
  · rw [release_endpoints]
    by_cases hm : Mailbox.CoreGraphicsEngine = m
    · subst hm
      rw [Function.update_self]
      exact h.called
    · rw [Function.update_of_ne hm]
      exact h.called
  · rw [release_endpoints]
    by_cases hm : Mailbox.CoreGraphicsEngine = m
    · subst hm
      rw [Function.update_self]
      intro message hmem
      rcases List.mem_append.mp hmem with hmem | hmem
      · exact h.drawn message hmem
      · exact hsends.drawn message hmem
    · rw [Function.update_of_ne hm]
      exact h.drawn
  · have hasked := h.asked b
    rw [release_endpoints, hthreads]
    by_cases hm : Mailbox.CoreGraphicsEngine = m
    · subst hm
      rw [Function.update_self]
      simp only [MailboxEndpoint.push, List.filter_append, hsends.filter]
      by_cases hb : asker b = t
      · rw [hb, hp] at hasked
        rw [hb, Function.update_self, hsends.sending, if_pos rfl, List.append_nil]
        exact hasked
      · rw [Function.update_of_ne hb, if_neg hb, List.append_nil]
        exact hasked
    · have hsame : next.sending = (s.threads t).sending := by
        rw [hp, hsends.sending]
        cases m
        · rfl
        · exact absurd rfl hm
        · rfl
      rw [Function.update_of_ne hm, sending_update hsame]
      exact hasked

/-! ### Runs -/

theorem Requests.note (h : Requests s) {e : Entry} (he : e.asks = none) : Requests (s.note e) :=
  h.congr (fun _ => rfl) (fun _ => rfl) (fun _ => rfl) (fun _ => rfl) (fun _ => rfl) rfl (by
    simp [System.note, he])

theorem Requests.go {interactive : Bool} (h : Requests s) (hI : Inv s)
    (hs : s.go interactive t = some s') : Requests s' := by
  have hfits := hI.fits t
  have hstart : ∀ u, Requests (s.start u) := fun u =>
    h.congr (fun _ => rfl) (fun _ => rfl) (fun _ => rfl) (fun _ => rfl) (fun _ => rfl) rfl rfl
  unfold System.go at hs
  cases hp : s.threads t with
  | pump_msgs | left | readline =>
    rw [hp] at hs
    cases hs
  | unborn =>
    simp only [hp] at hs
    split at hs
    · cases hs
      refine h.goto ?_ ?_
      · rw [hp]
        split <;> rfl
      · rw [hp]
        split <;> rfl
    · cases hs
  | startEngine =>
    simp only [hp] at hs
    cases hs
    have hp' : (s.start .graphics).threads t = .startEngine := hp
    refine (hstart .graphics).goto ?_ ?_
    · rw [hp']
      split <;> rfl
    · rw [hp']
      split <;> rfl
  | getCLIInput =>
    simp only [hp] at hs
    cases hs
    have hp' : (s.start .input).threads t = .getCLIInput := hp
    exact (hstart .input).goto (by rw [hp']; rfl) (by rw [hp']; rfl)
  | startInterpreter =>
    simp only [hp] at hs
    cases hs
    have hp' : (s.start .interpreter).threads t = .startInterpreter := hp
    exact (hstart .interpreter).goto (by rw [hp']; rfl) (by rw [hp']; rfl)
  | claim | sleep | checkStop | asleep =>
    simp only [hp] at hs
    cases hs
    exact h.goto (by rw [hp]; rfl) (by rw [hp]; rfl)
  | on | lockWait =>
    simp only [hp] at hs
    exact h.acquire hs (by rw [hp]; rfl) (by rw [hp]; rfl)
  | lockMail =>
    simp only [hp] at hs hfits
    exact h.lock hs (receiver_own hfits) (by rw [hp]; rfl) rfl (by rw [hp]; rfl)
  | registering =>
    simp only [hp] at hs hfits
    cases hs
    have hon : Requests { s with onQuit := true } :=
      h.congr (fun _ => rfl) (fun _ => rfl) (fun _ => rfl) (fun _ => rfl) (fun _ => rfl) rfl rfl
    have hp' : System.threads { s with onQuit := true } t = .registering := hp
    have ht : t = .main := hfits
    exact hon.receive (by rw [hp']; rfl) ht.symm rfl rfl (by rw [hp']; rfl)
  | test =>
    simp only [hp] at hs
    cases hs
    split
    · exact h.goto (by rw [hp]; rfl) (by rw [hp]; rfl)
    · have hp' : (s.note .iteration).threads t = .test := hp
      exact (h.note rfl).goto (by rw [hp']; rfl) (by rw [hp']; rfl)
  | testWait =>
    simp only [hp] at hs hfits
    cases hs
    have ht : t ≠ .input := by
      rcases hfits with rfl | rfl
      · decide
      · decide
    refine h.receive ?_ (receiver_own ht) rfl rfl ?_
    · rw [hp]
      split <;> rfl
    · rw [hp]
      split <;> rfl
  | testEmpty =>
    simp only [hp] at hs
    cases hs
    refine h.goto ?_ ?_
    · rw [hp]
      split_ifs <;> rfl
    · rw [hp]
      split_ifs <;> rfl
  | pumping rest =>
    simp only [hp] at hs hfits
    have ht : t ≠ .input := hfits
    cases rest with
    | nil =>
      cases hs
      refine h.receive ?_ (receiver_own ht) rfl rfl (by rw [hp]; rfl)
      rw [hp]
      rfl
    | cons message rest =>
      cases hs
      exact h.deliver ht hp
  | callback message rest =>
    simp only [hp] at hs
    cases hs
    exact h.goto (by rw [hp]; rfl) (by rw [hp]; rfl)
  | fence =>
    simp only [hp] at hs
    split at hs
    · cases hs
      exact h.goto (by rw [hp]; rfl) (by rw [hp]; rfl)
    · cases hs
  | wants m mq next =>
    simp only [hp] at hs
    exact h.acquire hs (by rw [hp]; rfl) (by rw [hp]; rfl)
  | holds m mq next =>
    simp only [hp] at hs
    split at hs
    · cases hs
      exact (h.push hI hp).note rfl
    · cases hs
      exact h.push hI hp

theorem asked_note (b : Bool) (trace : List Entry) (e : Entry) :
    asked b (trace ++ [e]) = asked b trace ++ e.asks.toList.filter (·.isShader = b) := by
  cases he : e.asks with
  | none => simp [asked, he]
  | some message => simp [asked, he]

theorem Requests.ask (h : Requests s) {e : Entry} (hsends : Sends t m mq next)
    (hrest : next.rest = (s.threads t).rest) (hidle : (s.threads t).sending = [])
    (he : (Place.wants m mq next).sending = e.asks.toList) :
    Requests ((s.note e).goto t (.wants m mq next)) := by
  refine ⟨fun m' => ?_, h.called, h.drawn, fun b => ?_⟩
  · have hpending : ((s.note e).goto t (.wants m mq next)).pending m' = s.pending m' := by
      show unread _ (Function.update s.threads t (.wants m mq next) m'.receiver).rest = _
      rw [rest_update (p := .wants m mq next) hrest]
      rfl
    rw [hpending]
    exact h.flow m'
  · have hasked := h.asked b
    show (s.endpoints _).sent.filter _ ++
      (Function.update s.threads t (.wants m mq next) (asker b)).sending =
        Application.asked b (s.trace ++ [e])
    rw [asked_note, ← hasked, ← he, List.append_assoc]
    congr 1
    by_cases hm : m = .CoreGraphicsEngine
    · subst hm
      rw [show (Place.wants .CoreGraphicsEngine mq next).sending = mq from rfl, hsends.filter]
      by_cases hb : asker b = t
      · rw [hb, Function.update_self, hidle, if_pos rfl]
        rfl
      · rw [Function.update_of_ne hb, if_neg hb, List.append_nil]
    · have hnone : (Place.wants m mq next).sending = [] := if_neg hm
      rw [sending_update (hnone.trans hidle.symm), hnone]
      simp

theorem Requests.poll {e : Option Event} (h : Requests s) (hs : s.poll e = some s') :
    Requests s' := by
  unfold System.poll at hs
  cases hp : s.threads .main with
  | pump_msgs =>
    simp only [hp] at hs
    cases e with
    | none =>
      cases hs
      refine h.ask (.inr ⟨rfl, rfl⟩) ?_ ?_ rfl
      · rw [hp]
        rfl
      · rw [hp]
        rfl
    | some e =>
      dsimp only at hs
      split at hs
      · rename_i input hinput
        cases hs
        cases input with
        | QUIT =>
          refine h.ask ⟨rfl, rfl⟩ ?_ ?_ ?_
          · rw [hp]
          · rw [hp]
            rfl
          · simp [handle_input, Place.sending, Entry.asks, hinput]
        | RESIZE =>
          refine h.ask (.inl ⟨rfl, rfl⟩) ?_ ?_ ?_
          · rw [hp]
          · rw [hp]
            rfl
          · simp [handle_input, Place.sending, Entry.asks, hinput]
      · rename_i hinput
        cases hs
        exact h.note (by simp [Entry.asks, hinput])
  | _ =>
    simp only [hp] at hs
    cases hs

theorem Requests.line {str : Text} (h : Requests s) (hs : s.line str = some s') :
    Requests s' := by
  unfold System.line at hs
  cases hp : s.threads .input with
  | readline =>
    simp only [hp] at hs
    split at hs
    · cases hs
      have hfence : Requests (s.note (.line str)).newFence :=
        h.congr (fun _ => rfl) (fun _ => rfl) (fun _ => rfl) (fun _ => rfl) (fun _ => rfl) rfl (by
          simp [System.newFence, System.note, Entry.asks])
      have hp' : (s.note (.line str)).newFence.threads .input = .readline := hp
      exact hfence.goto (by rw [hp']; rfl) (by rw [hp']; rfl)
    · cases hs
      exact h.note rfl
  | _ =>
    simp only [hp] at hs
    cases hs

theorem Requests.lua {c : Lua} (h : Requests s) (hs : s.lua c = some s') : Requests s' := by
  unfold System.lua at hs
  split at hs
  · rename_i str rest hp
    cases c with
    | set_vertex_shader shader =>
      cases hs
      refine h.ask ⟨⟨shader, rfl⟩, str, rest, rfl⟩ ?_ ?_ rfl
      · rw [hp]
      · rw [hp]
        rfl
    | shutdown =>
      cases hs
      exact h.goto (by rw [hp]; rfl) (by rw [hp]; rfl)
  · cases hs

theorem Requests.step {interactive : Bool} {l : Label} (h : Requests s) (hI : Inv s)
    (hs : s.step interactive l = some s') : Requests s' := by
  unfold System.step at hs
  split at hs
  · cases hs
  cases l with
  | go t => exact h.go hI hs
  | poll e => exact h.poll hs
  | line str => exact h.line hs
  | lua c => exact h.lua hs
  | throws t =>
    dsimp only at hs
    unfold System.throws at hs
    split at hs
    · cases hs
      exact h.congr (fun _ => rfl) (fun _ => rfl) (fun _ => rfl) (fun _ => rfl) (fun _ => rfl) rfl
        rfl
    · cases hs

theorem Requests.init : Requests {} where
  flow m := by
    cases m <;> rfl
  called := rfl
  drawn := by simp
  asked b := by
    cases b <;> rfl

theorem requests_of_run {interactive : Bool} (h : Run (System.Step interactive) {} s) :
    Requests s := by
  have hboth : Inv s ∧ Requests s := RunUnder.invariant (fun s => Inv s ∧ Requests s) h
    ⟨Inv.init, Requests.init⟩ fun _ _ _ hI _ hs => ⟨hI.1.step hs, hI.2.step hI.1 hs⟩
  exact hboth.2

end
end Omulator.Application
