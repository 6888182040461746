import Omulator.Lib.Transition
import Omulator.Msg.Message
import Mathlib.Data.List.Nodup

/-!
# `recv` and callbacks that throw (`src/msg/MailboxEndpoint.cpp`, `MessageQueue.cpp`)

An exception leaves `pump_msgs` and `recv` at once: what was pumped stays pumped, and the queue
stays at the front of the mailbox. Every message that is sent has a number of its own.
-/

namespace Omulator.Throwing
open Omulator.Lib Omulator.Msg

structure Slot where
  no : ℕ
  msg : Message
  deriving DecidableEq

inductive Event where
  /-- a callback is called with the message -/
  | called (no : ℕ) (msg : Message)
  /-- the payload of the message is deleted -/
  | freed (no : ℕ)
  | assert_failed
  | logged (e : Error)
  /-- a pumped queue goes back to the factory -/
  | submitted
  deriving DecidableEq

/-- The message whose callback or payload the event is about. -/
def Event.touched : Event → Option ℕ
  | .called no _ | .freed no => some no
  | _ => none

-- The types that the endpoint has a callback for.
variable (callbacks_ : MessageType → Bool)

def Slot.reaches (x : Slot) : Bool := x.msg.type.deliverable && callbacks_ x.msg.type

/-- What is left of a queue or a mailbox, and of the callbacks that return before one throws. -/
structure Pumped (α : Type) where
  left : List α
  log : List Event
  returns : Option ℕ
  threw : Bool

/-- `free_managed_payload_`, when the message has one. -/
def release (x : Slot) : Slot × List Event :=
  if x.msg.has_managed_payload then
    ({ x with msg := { x.msg with payload := 0 } },
      if x.msg.payload = 0 then [.assert_failed] else [.freed x.no])
  else (x, [])

/-- The loop of `pump_msgs`, with the callback that `recv` passes to it. When `returns` is
`some k`, the callback after the next `k` throws. -/
def pump_msgs (returns : Option ℕ) : List Slot → Pumped Slot
  | [] => ⟨[], [], returns, false⟩
  | x :: rest =>
    if x.msg.type = .MSG_NULL then
      let r := pump_msgs returns rest
      ⟨x :: r.left, r.log, r.returns, r.threw⟩
    else if x.msg.type > .MSG_MAX then
      let r := pump_msgs returns rest
      ⟨x :: r.left, .logged .exceedsMax :: r.log, r.returns, r.threw⟩
    else if callbacks_ x.msg.type then
      match returns with
      | some 0 => ⟨x :: rest, [.called x.no x.msg], some 0, true⟩
      | returns =>
        let r := pump_msgs (returns.map Nat.pred) rest
        ⟨(release x).1 :: r.left, .called x.no x.msg :: (release x).2 ++ r.log, r.returns, r.threw⟩
    else
      let r := pump_msgs returns rest
      ⟨(release x).1 :: r.left, .logged (.dropping x.msg.type) :: (release x).2 ++ r.log, r.returns,
        r.threw⟩

/-- The loop of `recv`. -/
def drain (returns : Option ℕ) : List (List Slot) → Pumped (List Slot)
  | [] => ⟨[], [], returns, false⟩
  | currentMQ :: queue_ =>
    let r := pump_msgs callbacks_ returns currentMQ
    if r.threw then ⟨r.left :: queue_, r.log, r.returns, true⟩
    else
      let r' := drain r.returns queue_
      ⟨r'.left, r.log ++ .submitted :: r'.log, r'.returns, r'.threw⟩

structure Endpoint where
  queue_ : List (List Slot) := []
  /-- the messages sent so far -/
  sent : ℕ := 0
  log : List Event := []
  /-- an exception has left a call of `recv` -/
  threw : Bool := false

inductive Label where
  /-- the messages of a MessageQueue that `send` accepts -/
  | send (mq : List Message)
  | recv (BLOCK : Bool) (returns : Option ℕ)

/-- Numbered from `n` on. -/
def number (n : ℕ) (mq : List Message) : List Slot := (mq.zipIdx n).map fun p => ⟨p.2, p.1⟩

namespace Endpoint

/-- `none` while `recv` waits. -/
def step (l : Label) (s : Endpoint) : Option Endpoint :=
  match l with
  | .send mq =>
    some { s with queue_ := s.queue_ ++ [number s.sent mq], sent := s.sent + mq.length }
  | .recv BLOCK returns =>
    if BLOCK && s.queue_.isEmpty then none
    else
      let r := drain callbacks_ returns s.queue_
      some { s with
        queue_ := r.left
        log := s.log ++ r.log
        threw := s.threw || r.threw }

def Step (s : Endpoint) (l : Label) (t : Endpoint) : Prop := s.step callbacks_ l = some t

end Endpoint

/-- No message is passed to a callback more than once, and none whose payload has been freed. -/
structure AtMostOnce (log : List Event) : Prop where
  once : log.Pairwise fun a b => ∀ no m m', a = .called no m → b ≠ .called no m'
  alive : log.Pairwise fun a b => ∀ no m, a = .freed no → b ≠ .called no m

/-- What goes before a callback is neither a callback for its message nor the end of its
payload. -/
def Clean (a b : Event) : Prop := ∀ no m, b = .called no m → a.touched ≠ some no

theorem atMostOnce_iff (log : List Event) : AtMostOnce log ↔ log.Pairwise Clean := by
  constructor
  · intro h
    refine (h.once.and h.alive).imp ?_
    intro a b hab no m hb ha
    cases a with
    | called no' m' =>
      cases ha
      exact hab.1 no m' m rfl hb
    | freed no' =>
      cases ha
      exact hab.2 no m rfl hb
    | assert_failed | logged _ | submitted => cases ha
  · intro h
    refine ⟨h.imp ?_, h.imp ?_⟩
    · intro a b hab no m m' ha hb
      exact hab no m' hb (ha ▸ rfl)
    · intro a b hab no m ha hb
      exact hab no m hb (ha ▸ rfl)

/-! ### One queue -/

section
variable {callbacks_}

@[simp] theorem release_no (x : Slot) : (release x).1.no = x.no := by
  unfold release
  split
  · rfl
  · rfl

@[simp] theorem release_reaches (x : Slot) :
    (release x).1.reaches callbacks_ = x.reaches callbacks_ := by
  unfold release
  split
  · rfl
  · rfl

theorem release_touched (x : Slot) :
    ∀ e ∈ (release x).2, ∀ no, e.touched = some no → no = x.no := by
  intro e he no hno
  unfold release at he
  split at he
  · split at he
    · rw [List.mem_singleton.mp he] at hno
      cases hno
    · rw [List.mem_singleton.mp he] at hno
      cases hno
      rfl
  · simp at he

theorem release_not_called (x : Slot) : ∀ e ∈ (release x).2, ∀ no m, e ≠ .called no m := by
  intro e he no m
  unfold release at he
  split at he
  · split at he
    · rw [List.mem_singleton.mp he]
      simp
    · rw [List.mem_singleton.mp he]
      simp
  · simp at he

variable (callbacks_) in
/-- What the loop does with one message: nothing that concerns its number, a warning and the end
of its payload, or the callback and the end of its payload unless the callback throws. -/
inductive Turn (x : Slot) : Slot → List Event → Prop
  | skip (evs : List Event) (h : ∀ e ∈ evs, e.touched = none) (hx : x.reaches callbacks_ = false) :
    Turn x x evs
  | drop (e : Error) (hx : x.reaches callbacks_ = false) :
    Turn x (release x).1 (.logged e :: (release x).2)
  | call (hx : x.reaches callbacks_ = true) :
    Turn x (release x).1 (.called x.no x.msg :: (release x).2)

theorem pump_cons (returns : Option ℕ) (x : Slot) (rest : List Slot) :
    (x.reaches callbacks_ = true ∧
      pump_msgs callbacks_ returns (x :: rest) = ⟨x :: rest, [.called x.no x.msg], some 0, true⟩) ∨
    ∃ y evs returns', Turn callbacks_ x y evs ∧
      pump_msgs callbacks_ returns (x :: rest) =
        ⟨y :: (pump_msgs callbacks_ returns' rest).left,
          evs ++ (pump_msgs callbacks_ returns' rest).log,
          (pump_msgs callbacks_ returns' rest).returns,
          (pump_msgs callbacks_ returns' rest).threw⟩ := by
  by_cases h0 : x.msg.type = .MSG_NULL
  · refine Or.inr ⟨x, [], returns, .skip [] (by simp) ?_, by simp [pump_msgs, h0]⟩
    simp [Slot.reaches, MessageType.deliverable, h0]
  · by_cases hmax : x.msg.type > .MSG_MAX
    · refine Or.inr ⟨x, [.logged .exceedsMax], returns, .skip _ (by simp [Event.touched]) ?_,
        by simp [pump_msgs, h0, hmax]⟩
      have hd : x.msg.type.deliverable ≠ true := fun h =>
        (MessageType.deliverable_iff.mp h).2 hmax
      simp [Slot.reaches, hd]
    · have hd : x.msg.type.deliverable = true := MessageType.deliverable_iff.mpr ⟨h0, hmax⟩
      cases hc : callbacks_ x.msg.type with
      | true =>
        have hr : x.reaches callbacks_ = true := by simp [Slot.reaches, hd, hc]
        cases returns with
        | none =>
          exact Or.inr ⟨_, _, none, .call hr, by simp [pump_msgs, h0, hmax, hc]⟩
        | some k =>
          cases k with
          | zero => exact Or.inl ⟨hr, by simp [pump_msgs, h0, hmax, hc]⟩
          | succ k => exact Or.inr ⟨_, _, some k, .call hr, by simp [pump_msgs, h0, hmax, hc]⟩
      | false =>
        have hr : x.reaches callbacks_ = false := by simp [Slot.reaches, hc]
        exact Or.inr ⟨_, _, returns, .drop (.dropping x.msg.type) hr,
          by simp [pump_msgs, h0, hmax, hc]⟩

variable {x y : Slot} {evs : List Event}

theorem Turn.no_eq (h : Turn callbacks_ x y evs) : y.no = x.no := by
  cases h with
  | skip evs h hx => rfl
  | drop e hx => exact release_no x
  | call hx => exact release_no x

theorem Turn.reaches_eq (h : Turn callbacks_ x y evs) :
    y.reaches callbacks_ = x.reaches callbacks_ := by
  cases h with
  | skip evs h hx => rfl
  | drop e hx => exact release_reaches x
  | call hx => exact release_reaches x

theorem Turn.touched (h : Turn callbacks_ x y evs) :
    ∀ e ∈ evs, ∀ no, e.touched = some no → no = x.no := by
  intro e he no hno
  cases h with
  | skip evs h hx =>
    rw [h e he] at hno
    cases hno
  | drop err hx =>
    rcases List.mem_cons.mp he with rfl | he
    · cases hno
    · exact release_touched x e he no hno
  | call hx =>
    rcases List.mem_cons.mp he with rfl | he
    · cases hno
      rfl
    · exact release_touched x e he no hno

theorem clean_of_not_called (h : ∀ e ∈ evs, ∀ no m, e ≠ .called no m) : evs.Pairwise Clean := by
  induction evs with
  | nil => exact List.Pairwise.nil
  | cons a evs ih =>
    refine List.Pairwise.cons ?_ (ih fun e he => h e (List.mem_cons_of_mem _ he))
    intro b hb no m hm
    exact absurd hm (h b (List.mem_cons_of_mem _ hb) no m)

theorem Turn.clean (h : Turn callbacks_ x y evs) : evs.Pairwise Clean := by
  cases h with
  | skip evs h hx =>
    apply clean_of_not_called
    intro e he no m hm
    have ht := h e he
    rw [hm] at ht
    cases ht
  | drop err hx =>
    refine List.Pairwise.cons ?_ (clean_of_not_called (release_not_called x))
    intro b hb no m hm
    exact absurd hm (release_not_called x b hb no m)
  | call hx =>
    refine List.Pairwise.cons ?_ (clean_of_not_called (release_not_called x))
    intro b hb no m hm
    exact absurd hm (release_not_called x b hb no m)

variable (callbacks_) in
/-- The numbers of a queue, and which of its messages reach a callback. -/
def marks (q : List Slot) : List (ℕ × Bool) := q.map fun x => (x.no, x.reaches callbacks_)

theorem pump_marks (returns : Option ℕ) (q : List Slot) :
    marks callbacks_ (pump_msgs callbacks_ returns q).left =
      marks callbacks_ q := by
  induction q generalizing returns with
  | nil => rfl
  | cons x rest ih =>
    rcases pump_cons returns x rest with ⟨-, h⟩ | ⟨y, evs, returns', hy, h⟩
    · rw [h]
    · rw [h]
      have hrest := ih returns'
      simp only [marks, List.map_cons, hy.no_eq, hy.reaches_eq] at hrest ⊢
      rw [hrest]

theorem pump_touched (returns : Option ℕ) (q : List Slot) :
    ∀ e ∈ (pump_msgs callbacks_ returns q).log, ∀ no, e.touched = some no → no ∈ q.map Slot.no := by
  induction q generalizing returns with
  | nil => simp [pump_msgs]
  | cons x rest ih =>
    intro e he no hno
    rcases pump_cons returns x rest with ⟨-, h⟩ | ⟨y, evs, returns', hy, h⟩
    · rw [h] at he
      rw [List.mem_singleton.mp he] at hno
      cases hno
      exact List.mem_cons_self ..
    · rw [h] at he
      rcases List.mem_append.mp he with he | he
      · rw [hy.touched e he no hno]
        exact List.mem_cons_self ..
      · exact List.mem_cons_of_mem _ (ih returns' e he no hno)

theorem clean_append {a b : List Event} (ha : a.Pairwise Clean) (hb : b.Pairwise Clean)
    (h : ∀ e ∈ a, ∀ f ∈ b, ∀ no, e.touched = some no → f.touched ≠ some no) :
    (a ++ b).Pairwise Clean := by
  refine List.pairwise_append.mpr ⟨ha, hb, ?_⟩
  intro e he f hf no m hm hno
  exact h e he f hf no hno (hm ▸ rfl)

theorem pump_clean (returns : Option ℕ) (q : List Slot) (hq : (q.map Slot.no).Nodup) :
    (pump_msgs callbacks_ returns q).log.Pairwise Clean := by
  induction q generalizing returns with
  | nil => simp [pump_msgs]
  | cons x rest ih =>
    obtain ⟨hx, hrest⟩ := List.nodup_cons.mp hq
    rcases pump_cons returns x rest with ⟨-, h⟩ | ⟨y, evs, returns', hy, h⟩
    · rw [h]
      exact List.pairwise_singleton _ _
    · rw [h]
      refine clean_append hy.clean (ih returns' hrest) ?_
      intro e he f hf no hno hno'
      rw [hy.touched e he no hno] at hno'
      exact hx (pump_touched returns' rest f hf x.no hno')

/-- The first message that reaches a callback is passed to it, whatever throws. -/
theorem pump_first (returns : Option ℕ) (q : List Slot)
    (h : q.find? (Slot.reaches callbacks_) = some x) :
    .called x.no x.msg ∈ (pump_msgs callbacks_ returns q).log := by
  induction q generalizing returns with
  | nil => cases h
  | cons z rest ih =>
    rcases pump_cons returns z rest with ⟨hz, hp⟩ | ⟨y, evs, returns', hy, hp⟩
    · rw [List.find?_cons_of_pos hz] at h
      cases h
      rw [hp]
      exact List.mem_singleton_self _
    · rw [hp]
      cases hz : z.reaches callbacks_ with
      | true =>
        rw [List.find?_cons_of_pos hz] at h
        cases h
        cases hy with
        | skip _ _ hx | drop _ hx =>
          rw [hx] at hz
          cases hz
        | call _ => exact List.mem_cons_self ..
      | false =>
        rw [List.find?_cons_of_neg (by simp [hz])] at h
        exact List.mem_append_right _ (ih returns' h)

theorem pump_threw (returns : Option ℕ) (q : List Slot)
    (h : (pump_msgs callbacks_ returns q).threw = true) :
    ∃ x, q.find? (Slot.reaches callbacks_) = some x := by
  induction q generalizing returns with
  | nil => cases h
  | cons z rest ih =>
    cases hz : z.reaches callbacks_ with
    | true => exact ⟨z, List.find?_cons_of_pos hz⟩
    | false =>
      rw [List.find?_cons_of_neg (by simp [hz])]
      rcases pump_cons returns z rest with ⟨hz', -⟩ | ⟨y, evs, returns', hy, hp⟩
      · rw [hz] at hz'
        cases hz'
      · rw [hp] at h
        exact ih returns' h

theorem find_of_marks {q q' : List Slot}
    (hm : marks callbacks_ q' = marks callbacks_ q)
    (h : q.find? (Slot.reaches callbacks_) = some x) :
    ∃ x', q'.find? (Slot.reaches callbacks_) = some x' ∧ x'.no = x.no := by
  induction q generalizing q' with
  | nil => cases h
  | cons z rest ih =>
    cases q' with
    | nil => simp [marks] at hm
    | cons z' rest' =>
      simp only [marks, List.map_cons, List.cons.injEq, Prod.mk.injEq] at hm
      obtain ⟨⟨hno, hr⟩, hm⟩ := hm
      cases hz : z.reaches callbacks_ with
      | true =>
        rw [List.find?_cons_of_pos hz] at h
        cases h
        exact ⟨z', List.find?_cons_of_pos (hr.trans hz), hno⟩
      | false =>
        rw [List.find?_cons_of_neg (by simp [hz])] at h
        rw [List.find?_cons_of_neg (by simp [hr, hz])]
        exact ih hm h

/-! ### The mailbox -/

variable (callbacks_) in
/-- A mailbox whose first message for a callback has been passed to it already. -/
def Stuck (queue_ : List (List Slot)) (log : List Event) : Prop :=
  ∃ q rest x, queue_ = q :: rest ∧ q.find? (Slot.reaches callbacks_) = some x ∧
    ∃ m, .called x.no m ∈ log

def numbers (queue_ : List (List Slot)) : List ℕ := queue_.flatten.map Slot.no

theorem drain_touched (returns : Option ℕ) (queue_ : List (List Slot)) :
    ∀ e ∈ (drain callbacks_ returns queue_).log, ∀ no, e.touched = some no →
      no ∈ numbers queue_ := by
  induction queue_ generalizing returns with
  | nil => simp [drain]
  | cons q rest ih =>
    intro e he no hno
    rw [numbers, List.flatten_cons, List.map_append, List.mem_append]
    rw [drain] at he
    split at he
    · exact Or.inl (pump_touched returns q e he no hno)
    · rcases List.mem_append.mp he with he | he
      · exact Or.inl (pump_touched returns q e he no hno)
      · rcases List.mem_cons.mp he with rfl | he
        · cases hno
        · exact Or.inr (ih _ e he no hno)

theorem drain_clean (returns : Option ℕ) (queue_ : List (List Slot))
    (h : (numbers queue_).Nodup) : (drain callbacks_ returns queue_).log.Pairwise Clean := by
  induction queue_ generalizing returns with
  | nil => simp [drain]
  | cons q rest ih =>
    rw [numbers, List.flatten_cons, List.map_append, List.nodup_append] at h
    obtain ⟨hq, hrest, hdisj⟩ := h
    have hp : (pump_msgs callbacks_ returns q).log.Pairwise Clean := pump_clean returns q hq
    rw [drain]
    split
    · exact hp
    · refine clean_append hp (List.Pairwise.cons ?_ (ih _ hrest)) ?_
      · intro b hb no m hm hno
        cases hno
      · intro e he f hf no hno hno'
        rcases List.mem_cons.mp hf with rfl | hf
        · cases hno'
        · exact hdisj no (pump_touched returns q e he no hno) no
            (drain_touched _ rest f hf no hno') rfl

/-- When nothing throws the mailbox is empty afterwards; else the queue at its front has a
message that was passed to a callback. -/
theorem drain_left (returns : Option ℕ) (queue_ : List (List Slot)) :
    (drain callbacks_ returns queue_).threw = false ∧ (drain callbacks_ returns queue_).left = [] ∨
    (drain callbacks_ returns queue_).threw = true ∧
      Stuck callbacks_ (drain callbacks_ returns queue_).left
        (drain callbacks_ returns queue_).log := by
  induction queue_ generalizing returns with
  | nil => exact Or.inl ⟨rfl, rfl⟩
  | cons q rest ih =>
    rw [drain]
    split
    · rename_i ht
      obtain ⟨x, hx⟩ := pump_threw returns q ht
      obtain ⟨x', hx', hno⟩ := find_of_marks (pump_marks returns q) hx
      refine Or.inr ⟨rfl, _, _, x', rfl, hx', x.msg, ?_⟩
      rw [hno]
      exact pump_first returns q hx
    · rcases ih (pump_msgs callbacks_ returns q).returns with h | ⟨h, q', rest', x, hl, hx, m, hm⟩
      · exact Or.inl h
      · exact Or.inr ⟨h, q', rest', x, hl, hx, m,
          List.mem_append_right _ (List.mem_cons_of_mem _ hm)⟩

theorem drain_first (returns : Option ℕ) {q : List Slot} (rest : List (List Slot))
    (h : q.find? (Slot.reaches callbacks_) = some x) :
    .called x.no x.msg ∈ (drain callbacks_ returns (q :: rest)).log := by
  have hf := pump_first returns q h
  rw [drain]
  split
  · exact hf
  · exact List.mem_append_left _ hf

theorem numbers_number (n : ℕ) (mq : List Message) :
    (number n mq).map Slot.no = List.range' n mq.length := by
  rw [number, List.map_map]
  exact List.zipIdx_map_snd n mq

end

/-! ### Runs -/

/-- `recv` is not called after an exception has left a call of it. -/
def Unbroken (s : Endpoint) : Label → Prop
  | .send _ => True
  | .recv _ _ => s.threw = false

/-- As long as no callback has thrown, no message of the mailbox has been passed to one; after
that, the first one for a callback has been. -/
structure Inv (s : Endpoint) : Prop where
  clean : s.log.Pairwise Clean
  old : ∀ e ∈ s.log, ∀ no, e.touched = some no → no < s.sent
  fresh : s.threw = false → (numbers s.queue_).Nodup ∧ (∀ no ∈ numbers s.queue_, no < s.sent ∧
    ∀ e ∈ s.log, e.touched ≠ some no)
  stuck : s.threw = true → Stuck callbacks_ s.queue_ s.log

section
variable {callbacks_} {s t : Endpoint} {l : Label}

theorem numbers_append (queue_ : List (List Slot)) (q : List Slot) :
    numbers (queue_ ++ [q]) = numbers queue_ ++ q.map Slot.no := by simp [numbers]

theorem Inv.start : Inv callbacks_ {} where
  clean := List.Pairwise.nil
  old e he := by simp at he
  fresh _ := by simp [numbers]
  stuck h := by cases h

theorem Inv.send (hI : Inv callbacks_ s) (mq : List Message) :
    Inv callbacks_ { s with
      queue_ := s.queue_ ++ [number s.sent mq], sent := s.sent + mq.length } where
  clean := hI.clean
  old e he no hno := Nat.lt_add_right _ (hI.old e he no hno)
  fresh ht := by
    obtain ⟨hn, hlt⟩ := hI.fresh ht
    rw [numbers_append, numbers_number]
    refine ⟨List.nodup_append.mpr ⟨hn, List.nodup_range', ?_⟩, ?_⟩
    · intro a ha b hb hab
      have h1 := (hlt a ha).1
      have h2 := (List.mem_range'_1.mp hb).1
      omega
    · intro no hno
      rcases List.mem_append.mp hno with hno | hno
      · exact ⟨Nat.lt_add_right _ (hlt no hno).1, (hlt no hno).2⟩
      · have hr := List.mem_range'_1.mp hno
        refine ⟨hr.2, fun e he ht => ?_⟩
        have ho := hI.old e he no ht
        omega
  stuck ht := by
    obtain ⟨q, rest, x, hq, hx, m, hm⟩ := hI.stuck ht
    exact ⟨q, rest ++ [number s.sent mq], x, by simp [hq], hx, m, hm⟩

def received (callbacks_ : MessageType → Bool) (returns : Option ℕ) (s : Endpoint) : Endpoint :=
  let r := drain callbacks_ returns s.queue_
  { s with queue_ := r.left, log := s.log ++ r.log, threw := s.threw || r.threw }

theorem Inv.recv (hI : Inv callbacks_ s) (returns : Option ℕ) (ht : s.threw = false) :
    Inv callbacks_ (received callbacks_ returns s) := by
  obtain ⟨hn, hlt⟩ := hI.fresh ht
  have htouch := @drain_touched callbacks_ returns s.queue_
  have hclean : (s.log ++ (drain callbacks_ returns s.queue_).log).Pairwise Clean := by
    refine clean_append hI.clean (drain_clean returns s.queue_ hn) ?_
    intro e he f hf no hno hno'
    exact (hlt no (htouch f hf no hno')).2 e he hno
  have hold : ∀ e ∈ s.log ++ (drain callbacks_ returns s.queue_).log, ∀ no,
      e.touched = some no → no < s.sent := by
    intro e he no hno
    rcases List.mem_append.mp he with he | he
    · exact hI.old e he no hno
    · exact (hlt no (htouch e he no hno)).1
  rcases @drain_left callbacks_ returns s.queue_ with ⟨hr, hl⟩ | ⟨hr, hs⟩
  · refine ⟨hclean, hold, ?_, ?_⟩
    · intro _
      show (numbers (drain callbacks_ returns s.queue_).left).Nodup ∧ _
      rw [received, hl]
      simp [numbers]
    · intro h
      simp [received, ht, hr] at h
  · refine ⟨hclean, hold, ?_, ?_⟩
    · intro h
      simp [received, hr] at h
    · intro _
      obtain ⟨q, rest, x, hq, hx, m, hm⟩ := hs
      exact ⟨q, rest, x, hq, hx, m, List.mem_append_right _ hm⟩

/-- A call of `recv` after an exception passes a message to its callback once more. -/
theorem Inv.again (hI : Inv callbacks_ s) (returns : Option ℕ) (ht : s.threw = true) :
    ¬ (received callbacks_ returns s).log.Pairwise Clean := by
  intro hp
  obtain ⟨q, rest, x, hq, hx, m, hm⟩ := hI.stuck ht
  have hc := drain_first returns rest hx
  rw [← hq] at hc
  exact (List.pairwise_append.mp hp).2.2 _ hm _ hc x.no x.msg rfl rfl

theorem recv_cases {BLOCK : Bool} {returns : Option ℕ}
    (h : Endpoint.Step callbacks_ s (.recv BLOCK returns) t) :
    t = received callbacks_ returns s := by
  simp only [Endpoint.Step, Endpoint.step] at h
  split at h
  · cases h
  · exact (Option.some.inj h).symm

theorem Inv.step (hI : Inv callbacks_ s) (h : Endpoint.Step callbacks_ s l t)
    (hok : Unbroken s l) : Inv callbacks_ t := by
  cases l with
  | send mq =>
    cases h
    exact hI.send mq
  | recv BLOCK returns =>
    rw [recv_cases h]
    exact hI.recv returns hok

theorem unbroken_iff (hI : Inv callbacks_ s) (h : Endpoint.Step callbacks_ s l t) :
    Unbroken s l ↔ AtMostOnce t.log := by
  rw [atMostOnce_iff]
  cases l with
  | send mq =>
    cases h
    exact ⟨fun _ => hI.clean, fun _ => trivial⟩
  | recv BLOCK returns =>
    rw [recv_cases h]
    cases ht : s.threw with
    | false => exact ⟨fun _ => (hI.recv returns ht).clean, fun _ => ht⟩
    | true =>
      refine ⟨fun hu => ?_, fun hp => absurd hp (hI.again returns ht)⟩
      rw [Unbroken, ht] at hu
      cases hu

end

/-- In every sequence of sends and calls of `recv`, with any callbacks throwing, each message is
passed to a callback at most once, and never after its payload, exactly when `recv` is not
called again after an exception has left it. -/
theorem at_most_once_iff (callbacks_ : MessageType → Bool) (tr : List (Label × Endpoint))
    (htr : IsTrace (Endpoint.Step callbacks_) {} tr) :
    StepsMeet Unbroken {} tr ↔ StatesMeet (fun s => AtMostOnce s.log) tr :=
  steps_iff_states (Inv callbacks_) (fun _ _ _ hI h => unbroken_iff hI h)
    (fun _ _ _ hI h hok => hI.step h hok) {} tr Inv.start htr

/-- The second of three messages has no callback that returns; nothing is received after it. -/
theorem thrown_once : ∃ tr, record (Endpoint.step fun _ => true) [.send [⟨8, 1, 70⟩, ⟨8, 0, 5⟩],
      .recv true none, .send [⟨8, 1, 71⟩, ⟨8, 0, 6⟩, ⟨8, 0, 7⟩], .recv false (some 1)] {} =
    some tr ∧ StatesMeet (fun s => AtMostOnce s.log) tr := by
  obtain ⟨tr, htr⟩ : ∃ tr, record (Endpoint.step fun _ => true) [.send [⟨8, 1, 70⟩, ⟨8, 0, 5⟩],
      .recv true none, .send [⟨8, 1, 71⟩, ⟨8, 0, 6⟩, ⟨8, 0, 7⟩], .recv false (some 1)] {} =
    some tr := ⟨_, rfl⟩
  have hiff := at_most_once_iff (fun _ => true) tr (isTrace_of_record htr)
  cases htr
  exact ⟨_, rfl, hiff.mp ⟨trivial, rfl, trivial, rfl, trivial⟩⟩

/-- A managed message and one whose callback throws: the next `recv` passes the first to its
callback again, with no payload. -/
theorem received_again :
    (follow (Endpoint.step fun _ => true) [.send [⟨8, 1, 70⟩, ⟨9, 0, 5⟩], .recv true (some 1),
      .recv true (some 1)] {}).map Endpoint.log =
        some [.called 0 ⟨8, 1, 70⟩, .freed 0, .called 1 ⟨9, 0, 5⟩, .called 0 ⟨8, 1, 0⟩,
          .assert_failed, .called 1 ⟨9, 0, 5⟩] ∧
    ¬ ∀ s, Run (Endpoint.Step fun _ => true) {} s → AtMostOnce s.log := by
  refine ⟨by decide, ?_⟩
  intro h
  obtain ⟨s, hs⟩ : ∃ s, follow (Endpoint.step fun _ => true) [.send [⟨8, 1, 70⟩, ⟨9, 0, 5⟩],
      .recv true (some 1), .recv true (some 1)] {} = some s := ⟨_, rfl⟩
  have hlog : s.log = [.called 0 ⟨8, 1, 70⟩, .freed 0, .called 1 ⟨9, 0, 5⟩, .called 0 ⟨8, 1, 0⟩,
      .assert_failed, .called 1 ⟨9, 0, 5⟩] := by
    cases hs
    decide
  have ho := (h s (run_of_follow hs)).once
  rw [hlog] at ho
  have hin : Event.called 0 ⟨8, 1, 0⟩ ∈ [.freed 0, .called 1 ⟨9, 0, 5⟩, .called 0 ⟨8, 1, 0⟩,
      .assert_failed, .called 1 ⟨9, 0, 5⟩] := by simp
  exact List.rel_of_pairwise_cons ho hin 0 _ _ rfl rfl

end Omulator.Throwing
