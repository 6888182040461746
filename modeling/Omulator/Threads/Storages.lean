import Omulator.Lib.Apart
import Omulator.Lib.Transition
import Omulator.Msg.Message
import Mathlib.Algebra.BigOperators.Ring.Finset
import Mathlib.Data.Fintype.BigOperators

/-!
# Storages that go from thread to thread (`src/msg/MessageQueueFactory.cpp`,
`src/msg/MailboxEndpoint.cpp`, `src/msg/MessageQueue.cpp`)

Threads that get queues of one factory, push to them and send them to endpoints, and receive. Each
operation on the factory's `ConcurrentQueue` and its counter, on a mutex, on a storage and on an
endpoint's `queue_` is a step; a flag of a `MessageQueue` changes with the step before or after.
Which messages have a callback is left open, and so is what a callback does with queues; the
payloads are `U64`s.
-/

namespace Omulator.Storages
open Omulator.Lib Omulator.Msg

inductive RecvBehavior where
  | BLOCK
  | NONBLOCK
  deriving DecidableEq

/-- Where a thread is; `k` is a variable of its, `e` an endpoint, `p` a storage. -/
inductive Place where
  /-- in the code of the user, or of a callback -/
  | user
  /-- in `get`, after `try_dequeue` has failed, and after the `fetch_add` -/
  | counting (k : ℕ)
  | creating (k : ℕ)
  /-- in `push_impl_`, before the `push_back` -/
  | pushing (k : ℕ) (msg : Message)
  /-- in `send`, before the lock, under it, at its end, and after it -/
  | sending (k e : ℕ)
  | queueing (k e : ℕ)
  | notifying (k e : ℕ)
  | marking (k : ℕ)
  /-- in `recv`, before the condition wait, and after it -/
  | blocking (e : ℕ)
  | woken (e : ℕ)
  /-- before `queue_.empty()`, before the `scoped_lock`, and before `front()` -/
  | looping (e : ℕ)
  | locking (e : ℕ)
  | taking (e : ℕ)
  /-- in `pump_msgs`, before the message number `i` -/
  | pumping (e i : ℕ)
  /-- in `submit`, before the `clear`, and before the `enqueue` -/
  | clearing (e p : ℕ)
  | enqueuing (e p : ℕ)
  | popping (e : ℕ)
  | unlocking (e : ℕ)
  deriving DecidableEq

structure Thread where
  vars : ℕ → Option MessageQueue := fun _ => none
  /-- the messages whose callbacks it is in, the innermost first -/
  calls : List (ℕ × ℕ) := []
  place : Place := .user
  /-- history: what has been pushed to each variable -/
  drafts : ℕ → List Message := fun _ => []

variable {ι : Type} [DecidableEq ι]

structure MailboxEndpoint (ι : Type) where
  queue_ : List MessageQueue := []
  mtx_ : Option ι := none
  /-- history: what has been sent, and what `pump_msgs` has passed on -/
  accepted : List (List Message) := []
  received : List Message := []
  /-- history: how many messages of the first queue are done; `none` after `release` -/
  passed : Option ℕ := some 0

structure System (ι : Type) where
  cQueue : List ℕ := []
  numActiveQueues_ : ℕ := 0
  /-- the storages allocated so far are those below -/
  allocated : ℕ := 0
  heap : ℕ → Storage_t := fun _ => ⟨0, []⟩
  endpoints : ℕ → MailboxEndpoint ι := fun _ => {}
  threads : ι → Thread := fun _ => {}
  log : List Error := []
  /-- `front()` or `pop()` of an empty queue -/
  undefined : Bool := false

namespace System

def setThread (s : System ι) (t : ι) (w : Thread) : System ι :=
  { s with threads := Function.update s.threads t w }

def goto (s : System ι) (t : ι) (p : Place) : System ι :=
  s.setThread t { s.threads t with place := p }

def setVar (s : System ι) (t : ι) (k : ℕ) (mq : MessageQueue) : System ι :=
  s.setThread t { s.threads t with vars := Function.update (s.threads t).vars k (some mq) }

def newVar (s : System ι) (t : ι) (k p : ℕ) : System ι :=
  s.setThread t { s.threads t with
    vars := Function.update (s.threads t).vars k (some ⟨p, false, true⟩)
    drafts := Function.update (s.threads t).drafts k []
    place := .user }

def setEndpoint (s : System ι) (e : ℕ) (x : MailboxEndpoint ι) : System ι :=
  { s with endpoints := Function.update s.endpoints e x }

def setStorage (s : System ι) (p : ℕ) (storage : List Message) : System ι :=
  { s with heap := Function.update s.heap p { s.heap p with storage := storage } }

def report (s : System ι) (err : Error) : System ι := { s with log := s.log ++ [err] }

def acquire (s : System ι) (t : ι) (e : ℕ) (p : Place) : Option (System ι) :=
  if (s.endpoints e).mtx_ = none then
    some ((s.setEndpoint e { s.endpoints e with mtx_ := some t }).goto t p)
  else none

def unlock (s : System ι) (t : ι) (e : ℕ) (p : Place) : System ι :=
  (s.setEndpoint e { s.endpoints e with mtx_ := none }).goto t p

/-- `try_dequeue` gives any storage of the pool, or fails. -/
def get (s : System ι) (t : ι) (k : ℕ) : Option ℕ → Option (System ι)
  | some p =>
    if p ∈ s.cQueue then some ({ s with cQueue := s.cQueue.erase p }.newVar t k p) else none
  | none => some (s.goto t (.counting k))

def push (s : System ι) (t : ι) (k : ℕ) (mq : MessageQueue) (msg : Message) : System ι :=
  if !mq.valid_ then s.report .pushInvalid
  else if mq.sealed_ then s.report (.pushSealed msg.type msg.payload)
  else s.goto t (.pushing k msg)

def send (s : System ι) (t : ι) (k e : ℕ) (mq : MessageQueue) : System ι :=
  if !mq.valid_ then s.report .sendInvalid
  else if mq.sealed_ then s.report .sendSealed
  else (s.setVar t k { mq with sealed_ := true }).goto t (.sending k e)

/-- The beginning of `submit(queue_.front())`, up to the comparison of the ids. -/
def submit (id_ : ℕ) (s : System ι) (t : ι) (e : ℕ) (mq : MessageQueue) (mqs : List MessageQueue) :
    System ι :=
  if !mq.valid_ then (s.report .submitInvalid).goto t (.popping e)
  else
    let s := s.setEndpoint e { s.endpoints e with
      queue_ := { mq with valid_ := false } :: mqs, passed := none }
    if (s.heap mq.pStorage_).id ≠ id_ then
      (s.report (.submitForeign (s.heap mq.pStorage_).id id_)).goto t (.popping e)
    else s.goto t (.clearing e mq.pStorage_)

def take (id_ : ℕ) (s : System ι) (t : ι) (e : ℕ) : System ι :=
  match (s.endpoints e).queue_ with
  | [] => { s with undefined := true }
  | mq :: mqs =>
    if !mq.valid_ then (s.report .pumpInvalid).submit id_ t e mq mqs
    else if !mq.sealed_ then (s.report .pumpUnsealed).submit id_ t e mq mqs
    else s.goto t (.pumping e 0)

/-- The message number `i`, which the callback of `recv` is called with if it is deliverable. -/
def pass (s : System ι) (e i : ℕ) (msg : Message) : System ι :=
  s.setEndpoint e { s.endpoints e with
    received := (s.endpoints e).received ++ (if msg.type.deliverable then [msg] else [])
    passed := some (i + 1) }

/-- The range-for of `pump_msgs`; `found` when `callbacks_` has the type of the message. -/
def pump (id_ : ℕ) (s : System ι) (t : ι) (e i : ℕ) (found : Bool) : System ι :=
  match (s.endpoints e).queue_ with
  | [] => { s with undefined := true }
  | mq :: mqs =>
    match (s.heap mq.pStorage_).storage[i]? with
    | none => s.submit id_ t e mq mqs
    | some msg =>
      if msg.type.deliverable then
        if found then (s.pass e i msg).setThread t { s.threads t with
          calls := (e, i) :: (s.threads t).calls, place := .user }
        else ((s.pass e i msg).report (.dropping msg.type)).goto t (.pumping e (i + 1))
      else if msg.type = .MSG_NULL then (s.pass e i msg).goto t (.pumping e (i + 1))
      else ((s.pass e i msg).report .exceedsMax).goto t (.pumping e (i + 1))

def go (id_ : ℕ) (s : System ι) (t : ι) (found : Bool) : Option (System ι) :=
  match (s.threads t).place with
  | .user =>
    match (s.threads t).calls with
    | [] => none
    | (e, i) :: calls =>
      some (s.setThread t { s.threads t with calls := calls, place := .pumping e (i + 1) })
  | .counting k => some ({ s with numActiveQueues_ := s.numActiveQueues_ + 1 }.goto t (.creating k))
  | .creating k =>
    some ({ s with allocated := s.allocated + 1
                   heap := Function.update s.heap s.allocated ⟨id_, []⟩ }.newVar t k s.allocated)
  | .pushing k msg =>
    match (s.threads t).vars k with
    | none => none
    | some mq =>
      some ((s.setStorage mq.pStorage_ ((s.heap mq.pStorage_).storage ++ [msg])).setThread t
        { s.threads t with
          drafts := Function.update (s.threads t).drafts k ((s.threads t).drafts k ++ [msg])
          place := .user })
  | .sending k e => s.acquire t e (.queueing k e)
  | .queueing k e =>
    match (s.threads t).vars k with
    | none => none
    | some mq =>
      some ((s.setEndpoint e { s.endpoints e with
        queue_ := (s.endpoints e).queue_ ++ [mq]
        accepted := (s.endpoints e).accepted ++ [(s.threads t).drafts k] }).goto t (.notifying k e))
  | .notifying k e => some (s.unlock t e (.marking k))
  | .marking k =>
    match (s.threads t).vars k with
    | none => none
    | some mq => some ((s.setVar t k { mq with valid_ := false }).goto t .user)
  -- the wait ends when the queue is not empty
  | .blocking e => if (s.endpoints e).queue_ = [] then none else s.acquire t e (.woken e)
  | .woken e => some (s.unlock t e (.looping e))
  | .looping e => some (s.goto t (if (s.endpoints e).queue_ = [] then .user else .locking e))
  | .locking e => s.acquire t e (.taking e)
  | .taking e => some (s.take id_ t e)
  | .pumping e i => some (s.pump id_ t e i found)
  | .clearing e p => some ((s.setStorage p []).goto t (.enqueuing e p))
  | .enqueuing e p => some ({ s with cQueue := s.cQueue ++ [p] }.goto t (.popping e))
  | .popping e =>
    match (s.endpoints e).queue_ with
    | [] => some { s with undefined := true }
    | _ :: mqs =>
      some ((s.setEndpoint e { s.endpoints e with queue_ := mqs, passed := some 0 }).goto t
        (.unlocking e))
  | .unlocking e => some (s.unlock t e (.looping e))

end System

inductive Label (ι : Type) where
  /-- `MessageQueue mq_k = sender.get_mq()` -/
  | get (t : ι) (k : ℕ) (pick : Option ℕ)
  | push (t : ι) (k : ℕ) (msg : Message)
  | send (t : ι) (k e : ℕ)
  | recv (t : ι) (e : ℕ) (recvBehavior : RecvBehavior)
  | go (t : ι) (found : Bool)

namespace System

def step (id_ : ℕ) : Label ι → System ι → Option (System ι)
  | .get t k pick, s =>
    match (s.threads t).place, (s.threads t).vars k with
    | .user, none => s.get t k pick
    | _, _ => none
  | .push t k msg, s =>
    match (s.threads t).place, (s.threads t).vars k with
    | .user, some mq => some (s.push t k mq msg)
    | _, _ => none
  | .send t k e, s =>
    match (s.threads t).place, (s.threads t).vars k with
    | .user, some mq => some (s.send t k e mq)
    | _, _ => none
  | .recv t e recvBehavior, s =>
    match (s.threads t).place with
    | .user => some (s.goto t (if recvBehavior = .BLOCK then .blocking e else .looping e))
    | _ => none
  | .go t found, s => s.go id_ t found

def Step (id_ : ℕ) (s : System ι) (l : Label ι) (s' : System ι) : Prop := s.step id_ l = some s'

end System

/-! ### The destructors -/

namespace System

def discard (id_ : ℕ) (s : System ι) (mq : MessageQueue) : System ι :=
  if !mq.valid_ then s.report .submitInvalid
  else if (s.heap mq.pStorage_).id ≠ id_ then
    s.report (.submitForeign (s.heap mq.pStorage_).id id_)
  else { s.setStorage mq.pStorage_ [] with cQueue := s.cQueue ++ [mq.pStorage_] }

def destroyEndpoint (id_ : ℕ) (s : System ι) (e : ℕ) : System ι :=
  ((s.endpoints e).queue_.foldl (discard id_) s).setEndpoint e
    { s.endpoints e with queue_ := [] }

/-- `~MessageQueueFactory`: what it deletes, and what it reports. -/
def destroyFactory (s : System ι) : List ℕ × List Error :=
  (s.cQueue, if s.numActiveQueues_ ≠ s.cQueue.length then
    [.leak s.numActiveQueues_ s.cQueue.length] else [])

end System

/-! ### Where the storages are -/

inductive Spot (ι : Type) where
  | pool
  | var (t : ι) (k : ℕ)
  /-- in `submit`, released and not yet in the pool -/
  | submit (t : ι)
  | queue (e : ℕ)
  deriving DecidableEq

namespace Place

/-- The variable whose storage has gone to an endpoint, and which is marked invalid later. -/
def sent : Place → Option ℕ
  | .notifying k _ | .marking k => some k
  | _ => none

def carries : Place → List ℕ
  | .clearing _ p | .enqueuing _ p => [p]
  | _ => []

def pending : Place → ℕ
  | .creating _ => 1
  | _ => 0

def locks : Place → List ℕ
  | .queueing _ e | .notifying _ e | .woken e | .taking e | .pumping e _ | .clearing e _
  | .enqueuing e _ | .popping e | .unlocking e => [e]
  | _ => []

end Place

def Thread.owns (w : Thread) (k : ℕ) : List ℕ :=
  match w.vars k with
  | some mq => if mq.valid_ ∧ w.place.sent ≠ some k then [mq.pStorage_] else []
  | none => []

def Thread.locks (w : Thread) : List ℕ := w.place.locks ++ w.calls.map Prod.fst

namespace MailboxEndpoint

def holds (x : MailboxEndpoint ι) : List ℕ :=
  (x.queue_.filter fun mq => mq.valid_).map MessageQueue.pStorage_

def left (heap : ℕ → Storage_t) (x : MailboxEndpoint ι) : List Message :=
  match x.queue_, x.passed with
  | [], _ => []
  | mq :: mqs, some i =>
    (heap mq.pStorage_).storage.drop i ++ mqs.flatMap fun mq => (heap mq.pStorage_).storage
  | _ :: mqs, none => mqs.flatMap fun mq => (heap mq.pStorage_).storage

end MailboxEndpoint

namespace System

def held (s : System ι) : Spot ι → List ℕ
  | .pool => s.cQueue
  | .var t k => (s.threads t).owns k
  | .submit t => (s.threads t).place.carries
  | .queue e => (s.endpoints e).holds

/-- What is in the storages that are in a spot, where that does not depend on the storage. -/
def expected (s : System ι) : Spot ι → Option (List Message)
  | .pool => some []
  | .var t k => some ((s.threads t).drafts k)
  | .submit t =>
    match (s.threads t).place with
    | .enqueuing _ _ => some []
    | _ => none
  | .queue _ => none

/-- The storages that the next step of the thread reads or writes, or that its callbacks have a
reference into. -/
def touched (s : System ι) (t : ι) : List ℕ :=
  let first (e : ℕ) := (s.endpoints e).queue_.head?.toList.map MessageQueue.pStorage_
  let next := match (s.threads t).place with
    | .pushing k _ => ((s.threads t).vars k).toList.map MessageQueue.pStorage_
    | .pumping e _ => first e
    | .clearing _ p => [p]
    | _ => []
  next ++ (s.threads t).calls.flatMap fun c => first c.1

end System

def deliverable (msgs : List Message) : List Message := msgs.filter fun msg => msg.type.deliverable

structure Filled (id_ : ℕ) (s : System ι) : Prop where
  ids : ∀ p < s.allocated, (s.heap p).id = id_
  stored : ∀ x p msgs, p ∈ s.held x → s.expected x = some msgs → (s.heap p).storage = msgs
  mail : ∀ e, (s.endpoints e).received ++ deliverable ((s.endpoints e).left s.heap) =
    deliverable (s.endpoints e).accepted.flatten

/-- The flags of the queues in an endpoint. -/
structure MailboxEndpoint.Lined (x : MailboxEndpoint ι) : Prop where
  free : x.mtx_ = none → x.passed = some 0
  allSealed : ∀ mq ∈ x.queue_, mq.sealed_ = true
  empty : x.queue_ = [] → x.passed = some 0
  first : ∀ mq mqs, x.queue_ = mq :: mqs →
    mq.valid_ = x.passed.isSome ∧ ∀ mq' ∈ mqs, mq'.valid_ = true

section
variable (receiver : ℕ → ι) (eps : ℕ → MailboxEndpoint ι) (t : ι)

/-- What holds of the endpoint and the variable at a place. -/
def Place.Ok (vars : ℕ → Option MessageQueue) : Place → Prop
  | .user => True
  | .counting k | .creating k => vars k = none
  | .pushing k _ => ∃ mq, vars k = some mq ∧ mq.valid_ = true
  | .sending k _ => ∃ mq, vars k = some mq ∧ mq.valid_ = true ∧ mq.sealed_ = true
  | .queueing k e =>
    (∃ mq, vars k = some mq ∧ mq.valid_ = true ∧ mq.sealed_ = true) ∧ (eps e).passed = some 0
  | .notifying k e => (vars k).isSome = true ∧ (eps e).passed = some 0
  | .marking k => (vars k).isSome = true
  | .blocking e | .looping e => receiver e = t
  | .locking e => receiver e = t ∧ (eps e).queue_ ≠ []
  | .woken e | .unlocking e => receiver e = t ∧ (eps e).passed = some 0
  | .taking e => receiver e = t ∧ (eps e).queue_ ≠ [] ∧ (eps e).passed = some 0
  | .pumping e i => receiver e = t ∧ (eps e).queue_ ≠ [] ∧ (eps e).passed = some i
  | .clearing e _ | .enqueuing e _ | .popping e =>
    receiver e = t ∧ (eps e).queue_ ≠ [] ∧ (eps e).passed = none

structure Thread.Fits (w : Thread) : Prop where
  nodup : w.locks.Nodup
  owner : ∀ e, e ∈ w.locks ↔ (eps e).mtx_ = some t
  calls : ∀ c ∈ w.calls,
    receiver c.1 = t ∧ (eps c.1).queue_ ≠ [] ∧ (eps c.1).passed = some (c.2 + 1)
  ok : w.place.Ok receiver eps t w.vars

end

/-- What `recv` would report of the queues it takes itself. -/
def internal : Error → Bool
  | .pumpInvalid | .pumpUnsealed | .submitInvalid | .submitForeign _ _ => true
  | _ => false

structure Inv (id_ : ℕ) (receiver : ℕ → ι) (s : System ι) : Prop where
  placed : Placed s.held (· < s.allocated)
  filled : Filled id_ s
  lined : ∀ e, (s.endpoints e).Lined
  fits : ∀ t, (s.threads t).Fits receiver s.endpoints t
  quiet : ∀ err ∈ s.log, internal err = false
  defined : s.undefined = false

end Omulator.Storages
