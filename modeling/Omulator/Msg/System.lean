import Omulator.Di.TypeMap
import Omulator.Lib.Transition
import Omulator.Msg.Message
import Mathlib.Logic.Function.Basic

/-!
# Queues, factories and mailboxes (`src/msg`)

The `MessageQueue` variables of a program, the storages they refer to, the factories that pool
the storages, and the endpoints of a router. Each operation is one step.
-/

namespace Omulator.Msg
open Omulator.Lib Omulator.Di

abbrev MailboxToken_t := Hash_t

structure MessageQueueFactory where
  id_ : ℕ
  /-- the storages in the pool; `try_dequeue` may return any of them -/
  cQueue : List ℕ := []
  numActiveQueues_ : ℕ := 0
  alive : Bool := true

structure MailboxEndpoint where
  mqfactory_ : ℕ
  claimed_ : Bool := false
  callbacks_ : MessageType → Option ℕ := fun _ => none
  queue_ : List MessageQueue := []
  alive : Bool := true

structure Sys where
  storages : ℕ → Storage_t
  storageCount : ℕ
  /-- the `TypeContainer`s allocated so far; their addresses start at 1 -/
  payloadCount : ℕ
  /-- the program's `MessageQueue` variables -/
  queues : ℕ → MessageQueue
  queueCount : ℕ
  factories : ℕ → MessageQueueFactory
  factoryCount : ℕ
  endpoints : ℕ → MailboxEndpoint
  endpointCount : ℕ
  /-- the router's map; its endpoints use the factory 0 -/
  mailboxes_ : MailboxToken_t → Option ℕ
  log : List Event

def Sys.init (id : ℕ) : Sys where
  storages _ := ⟨0, []⟩
  storageCount := 0
  payloadCount := 0
  queues _ := ⟨0, true, false⟩
  queueCount := 0
  factories _ := ⟨id, [], 0, true⟩
  factoryCount := 1
  endpoints _ := { mqfactory_ := 0 }
  endpointCount := 0
  mailboxes_ _ := none
  log := []

inductive RecvBehavior where
  | BLOCK
  | NONBLOCK
  deriving DecidableEq

/-- The operations; new queues, factories and endpoints are numbered in the order they are made in,
`pick` is what `try_dequeue` returns, and `thrown` what the constructor of a payload throws. -/
inductive Op where
  | newFactory (id : ℕ)
  | destroyFactory (f : ℕ)
  | get (f : ℕ) (pick : Option ℕ)
  | submit (f h : ℕ)
  | push (h : ℕ) (type : MessageType) (mflags : MessageFlagType) (payload : ℕ)
  | push_managed_payload (h : ℕ) (type : MessageType) (thrown : Option ℕ)
  | seal (h : ℕ)
  | mark_invalid (h : ℕ)
  | clear (h : ℕ)
  | moveConstruct (rhs : ℕ)
  | moveAssign (h rhs : ℕ)
  | newEndpoint (f : ℕ)
  | destroyEndpoint (e : ℕ)
  | claim_mailbox (mailbox_hsh : MailboxToken_t)
  | get_mailbox (mailbox_hsh : MailboxToken_t)
  | get_mq (e : ℕ) (pick : Option ℕ)
  | on (e : ℕ) (type : MessageType) (cb : ℕ)
  | off (e : ℕ) (type : MessageType)
  | send (e h : ℕ)
  | recv (e : ℕ) (recvBehavior : RecvBehavior)

namespace Sys

def emit (es : List Event) (s : Sys) : Sys := { s with log := s.log ++ es }

def setStorage (p : ℕ) (msgs : List Message) (s : Sys) : Sys :=
  { s with storages := Function.update s.storages p { s.storages p with storage := msgs } }

def setQueue (h : ℕ) (mq : MessageQueue) (s : Sys) : Sys :=
  { s with queues := Function.update s.queues h mq }

def addQueue (mq : MessageQueue) (s : Sys) : Sys :=
  { s with queues := Function.update s.queues s.queueCount mq, queueCount := s.queueCount + 1 }

def setFactory (f : ℕ) (x : MessageQueueFactory) (s : Sys) : Sys :=
  { s with factories := Function.update s.factories f x }

def setEndpoint (e : ℕ) (x : MailboxEndpoint) (s : Sys) : Sys :=
  { s with endpoints := Function.update s.endpoints e x }

/-- `new Storage_t(id)`. -/
def newStorage (id : ℕ) (s : Sys) : Sys :=
  { s with
    storages := Function.update s.storages s.storageCount ⟨id, []⟩
    storageCount := s.storageCount + 1 }

def newFactory (id : ℕ) (s : Sys) : Sys :=
  { s with
    factories := Function.update s.factories s.factoryCount ⟨id, [], 0, true⟩
    factoryCount := s.factoryCount + 1 }

def newEndpoint (f : ℕ) (s : Sys) : Sys :=
  { s with
    endpoints := Function.update s.endpoints s.endpointCount { mqfactory_ := f }
    endpointCount := s.endpointCount + 1 }

def HasFactory (s : Sys) (f : ℕ) : Prop := f < s.factoryCount ∧ (s.factories f).alive = true
def HasEndpoint (s : Sys) (e : ℕ) : Prop := e < s.endpointCount ∧ (s.endpoints e).alive = true
def HasQueue (s : Sys) (h : ℕ) : Prop := h < s.queueCount

instance (s : Sys) (f : ℕ) : Decidable (s.HasFactory f) := instDecidableAnd
instance (s : Sys) (e : ℕ) : Decidable (s.HasEndpoint e) := instDecidableAnd
instance (s : Sys) (h : ℕ) : Decidable (s.HasQueue h) := Nat.decLt ..

/-! ### MessageQueueFactory -/

def get (f : ℕ) (pick : Option ℕ) (s : Sys) : Option Sys :=
  let x := s.factories f
  match pick with
  | some p =>
    if p ∈ x.cQueue then
      some ((s.setFactory f { x with cQueue := x.cQueue.erase p }).addQueue ⟨p, false, true⟩)
    else none
  | none =>
    some (((s.setFactory f { x with numActiveQueues_ := x.numActiveQueues_ + 1 }).newStorage
      x.id_).addQueue ⟨s.storageCount, false, true⟩)

/-- `submit(mq)`, which leaves `mq` invalid. -/
def submit (f : ℕ) (mq : MessageQueue) (s : Sys) : Sys :=
  if mq.valid_ then
    let x := s.factories f
    let pStorage := s.storages mq.pStorage_
    let s' := s.emit (MessageQueue.release_check pStorage.storage)
    if pStorage.id = x.id_ then
      (s'.setStorage mq.pStorage_ []).setFactory f { x with cQueue := x.cQueue ++ [mq.pStorage_] }
    else s'.emit [.logged (.submitForeign pStorage.id x.id_)]
  else s.emit [.logged .submitInvalid]

/-- `~MessageQueueFactory`. -/
def destroyFactory (f : ℕ) (s : Sys) : Sys :=
  let x := s.factories f
  let i := x.cQueue.length
  (s.setFactory f { x with cQueue := [], alive := false }).emit
    (x.cQueue.map .deleted ++
      if x.numActiveQueues_ = i then [] else [.logged (.leak x.numActiveQueues_ i)])

/-! ### MessageQueue -/

def push_impl_ (mq : MessageQueue) (type : MessageType) (mflags : MessageFlagType) (payload : ℕ)
    (s : Sys) : Sys :=
  if mq.valid_ then
    if mq.sealed_ then s.emit [.logged (.pushSealed type payload)]
    else
      s.setStorage mq.pStorage_ ((s.storages mq.pStorage_).storage ++ [⟨type, mflags, payload⟩])
  else s.emit [.logged .pushInvalid]

def push_managed_payload (mq : MessageQueue) (type : MessageType) (thrown : Option ℕ) (s : Sys) :
    Sys :=
  if mq.valid_ then
    let s' : Sys := { s with payloadCount := s.payloadCount + 1 }
    match thrown with
    | none => s'.push_impl_ mq type .MANAGED_PTR (s.payloadCount + 1)
    -- `createInstance` throws: the `TypeContainer` has been allocated, and no message is pushed
    | some exn => s'.emit [.threw (.user exn)]
  else s.emit [.threw .managedInvalid]

def clear (mq : MessageQueue) (s : Sys) : Sys :=
  let r := MessageQueue.clear_msgs (s.storages mq.pStorage_).storage
  (s.setStorage mq.pStorage_ r.1).emit r.2

/-! ### MailboxEndpoint -/

def on (e : ℕ) (type : MessageType) (cb : ℕ) (s : Sys) : Sys :=
  let x := s.endpoints e
  if x.claimed_ then
    match x.callbacks_ type with
    | some _ => s.emit [.logged (.onTwice type)]
    | none => s.setEndpoint e { x with callbacks_ := Function.update x.callbacks_ type (some cb) }
  else s.emit [.logged .onUnclaimed]

def off (e : ℕ) (type : MessageType) (s : Sys) : Sys :=
  let x := s.endpoints e
  s.setEndpoint e { x with callbacks_ := Function.update x.callbacks_ type none }

/-- What `recv` passes to `pump_msgs`. -/
def callback (s : Sys) (e : ℕ) (msg : Message) : List Event :=
  match (s.endpoints e).callbacks_ msg.type with
  | some cb => [.invoked e cb msg]
  | none => [.logged (.dropping msg.type)]

def pump_msgs (e : ℕ) (mq : MessageQueue) (s : Sys) : Sys :=
  if mq.valid_ then
    if mq.sealed_ then
      let r := MessageQueue.pump_msgs (s.callback e) (s.storages mq.pStorage_).storage
      (s.setStorage mq.pStorage_ r.1).emit r.2
    else s.emit [.logged .pumpUnsealed]
  else s.emit [.logged .pumpInvalid]

def popQueue (e : ℕ) (s : Sys) : Sys :=
  s.setEndpoint e { s.endpoints e with queue_ := (s.endpoints e).queue_.tail }

/-- One turn of the loop of `recv`. -/
def recvFront (e : ℕ) (currentMQ : MessageQueue) (s : Sys) : Sys :=
  (((s.pump_msgs e currentMQ).submit (s.endpoints e).mqfactory_ currentMQ)).popQueue e

def recv (e : ℕ) (s : Sys) : Sys :=
  (s.endpoints e).queue_.foldl (fun s currentMQ => s.recvFront e currentMQ) s

/-- `send(mq)` for the variable `h`. -/
def send (e h : ℕ) (s : Sys) : Sys :=
  let mq := s.queues h
  if mq.valid_ then
    if mq.sealed_ then s.emit [.logged .sendSealed]
    else
      let x := s.endpoints e
      (s.setEndpoint e { x with queue_ := x.queue_ ++ [{ mq with sealed_ := true }] }).setQueue h
        { mq with sealed_ := true, valid_ := false }
  else s.emit [.logged .sendInvalid]

/-- One turn of the loop of `~MailboxEndpoint`. -/
def clearFront (e : ℕ) (currentMQ : MessageQueue) (s : Sys) : Sys :=
  ((s.clear currentMQ).submit (s.endpoints e).mqfactory_
    { currentMQ with sealed_ := true }).popQueue e

def destroyEndpoint (e : ℕ) (s : Sys) : Sys :=
  let s' := (s.endpoints e).queue_.foldl (fun s currentMQ => s.clearFront e currentMQ) s
  s'.setEndpoint e { s'.endpoints e with alive := false }

/-! ### MailboxRouter -/

/-- `get_entry_`: the endpoint, which is made if there is none. -/
def get_entry_ (mailbox_hsh : MailboxToken_t) (s : Sys) : ℕ × Sys :=
  match s.mailboxes_ mailbox_hsh with
  | some e => (e, s)
  | none =>
    (s.endpointCount,
      { s.newEndpoint 0 with
        mailboxes_ := Function.update s.mailboxes_ mailbox_hsh (some s.endpointCount) })

def claim_mailbox (mailbox_hsh : MailboxToken_t) (s : Sys) : Sys :=
  let (e, s') := s.get_entry_ mailbox_hsh
  if (s'.endpoints e).claimed_ then s'.emit [.threw .claimTwice]
  else (s'.setEndpoint e { s'.endpoints e with claimed_ := true }).emit [.claimed mailbox_hsh e]

def get_mailbox (mailbox_hsh : MailboxToken_t) (s : Sys) : Sys :=
  let (e, s') := s.get_entry_ mailbox_hsh
  s'.emit [.mailbox mailbox_hsh e]

/-- One operation on objects that are there; `none` where one is not, or `recv` blocks. -/
def step (op : Op) (s : Sys) : Option Sys :=
  match op with
  | .newFactory id =>
    if ∀ f < s.factoryCount, (s.factories f).id_ ≠ id then some (s.newFactory id) else none
  | .destroyFactory f => if s.HasFactory f then some (s.destroyFactory f) else none
  | .get f pick => if s.HasFactory f then s.get f pick else none
  | .submit f h =>
    if s.HasFactory f ∧ s.HasQueue h then
      some ((s.submit f (s.queues h)).setQueue h { s.queues h with valid_ := false })
    else none
  | .push h type mflags payload =>
    -- a payload that is flagged as managed comes from `push_managed_payload`
    if s.HasQueue h ∧ mflags &&& .MANAGED_PTR = 0 then
      some (s.push_impl_ (s.queues h) type mflags payload)
    else none
  | .push_managed_payload h type thrown =>
    if s.HasQueue h then some (s.push_managed_payload (s.queues h) type thrown) else none
  | .seal h =>
    if s.HasQueue h then some (s.setQueue h { s.queues h with sealed_ := true }) else none
  | .mark_invalid h =>
    if s.HasQueue h then some (s.setQueue h { s.queues h with valid_ := false }) else none
  | .clear h =>
    if s.HasQueue h ∧ (s.queues h).valid_ = true then
      some ((s.clear (s.queues h)).setQueue h { s.queues h with sealed_ := true })
    else none
  | .moveConstruct rhs =>
    if s.HasQueue rhs then
      let r := (s.queues rhs).move
      some ((s.setQueue rhs r.2).addQueue r.1)
    else none
  | .moveAssign h rhs =>
    if s.HasQueue h ∧ s.HasQueue rhs then
      let s' := s.setQueue h (s.queues rhs)
      some (s'.setQueue rhs { s'.queues rhs with valid_ := false })
    else none
  | .newEndpoint f => if s.HasFactory f then some (s.newEndpoint f) else none
  | .destroyEndpoint e =>
    if s.HasEndpoint e ∧ s.HasFactory (s.endpoints e).mqfactory_ then some (s.destroyEndpoint e)
    else none
  | .claim_mailbox mailbox_hsh =>
    if ∀ e ∈ s.mailboxes_ mailbox_hsh, s.HasEndpoint e then some (s.claim_mailbox mailbox_hsh)
    else none
  | .get_mailbox mailbox_hsh =>
    if ∀ e ∈ s.mailboxes_ mailbox_hsh, s.HasEndpoint e then some (s.get_mailbox mailbox_hsh)
    else none
  | .get_mq e pick =>
    if s.HasEndpoint e ∧ s.HasFactory (s.endpoints e).mqfactory_ then
      s.get (s.endpoints e).mqfactory_ pick
    else none
  | .on e type cb => if s.HasEndpoint e then some (s.on e type cb) else none
  | .off e type => if s.HasEndpoint e then some (s.off e type) else none
  | .send e h => if s.HasEndpoint e ∧ s.HasQueue h then some (s.send e h) else none
  | .recv e recvBehavior =>
    if s.HasEndpoint e ∧ s.HasFactory (s.endpoints e).mqfactory_ ∧
        (recvBehavior = .BLOCK → (s.endpoints e).queue_ ≠ []) then
      some (s.recv e)
    else none

end Sys

def Step (s : Sys) (op : Op) (s' : Sys) : Prop := s.step op = some s'

end Omulator.Msg
