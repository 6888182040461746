import Mathlib.Data.List.Basic

/-!
# Messages (`include/omulator/msg/MessageType.hpp`, `Message.hpp`, `MessageQueue.hpp`)

The storage of a queue is a list of messages. A `TypeContainer` that a message manages is known
by its address, and an operation that logs, deletes or calls back says so in a list of events.
-/

namespace Omulator.Msg

/-- The enumeration's underlying type: a cast makes any of its values a `MessageType`. -/
abbrev MessageType := UInt32

namespace MessageType

def MSG_NULL : MessageType := 0
def POKE : MessageType := 1
def HANDLE_RESIZE : MessageType := 3
def DEMO_MSG_A : MessageType := 8
def MSG_MAX : MessageType := 13

/-- What `pump_msgs` passes to its callback. -/
def deliverable (type : MessageType) : Bool := type != MSG_NULL && type ≤ MSG_MAX

theorem deliverable_iff {type : MessageType} :
    type.deliverable = true ↔ type ≠ MSG_NULL ∧ ¬ type > MSG_MAX := by
  simp [deliverable]

end MessageType

abbrev MessageFlagType := UInt32

def MessageFlagType.FLAGS_NULL : MessageFlagType := 0
def MessageFlagType.MANAGED_PTR : MessageFlagType := 1

structure Message where
  type : MessageType
  mflags : MessageFlagType
  /-- a number, or the address of a `TypeContainer` -/
  payload : ℕ
  deriving DecidableEq

def Message.has_managed_payload (msg : Message) : Bool :=
  msg.mflags &&& MessageFlagType.MANAGED_PTR != 0

inductive Error where
  | pushInvalid
  | pushSealed (type : MessageType) (payload : ℕ)
  | pumpInvalid
  | pumpUnsealed
  | exceedsMax
  | submitInvalid
  | submitForeign (ofQueue ofFactory : ℕ)
  | leak (numActiveQueues destroyed : ℕ)
  | sendInvalid
  | sendSealed
  | dropping (type : MessageType)
  | onUnclaimed
  | onTwice (type : MessageType)
  /-- the exceptions of `push_managed_payload` and `claim_mailbox` -/
  | managedInvalid
  | claimTwice
  /-- what a payload's own constructor throws -/
  | user (exn : ℕ)
  deriving DecidableEq

inductive Event where
  | logged (e : Error)
  | threw (e : Error)
  /-- the callback `cb` of the endpoint `e` is called, and returns -/
  | invoked (e cb : ℕ) (msg : Message)
  /-- the `TypeContainer` at `payload` is deleted -/
  | freed (payload : ℕ)
  /-- the `Storage_t` at `p` is deleted -/
  | deleted (p : ℕ)
  /-- an `assert` does not hold -/
  | assert_failed
  | claimed (mailbox_hsh e : ℕ)
  | mailbox (mailbox_hsh e : ℕ)
  deriving DecidableEq

structure Storage_t where
  id : ℕ
  storage : List Message := []

/-- A queue as its variable holds it: the address of its storage, and the two flags. -/
structure MessageQueue where
  pStorage_ : ℕ
  sealed_ : Bool := false
  valid_ : Bool := true
  deriving DecidableEq

namespace MessageQueue

/-- The move constructor: the new queue, and what is left of `rhs`. -/
def move (rhs : MessageQueue) : MessageQueue × MessageQueue :=
  (⟨rhs.pStorage_, rhs.sealed_, rhs.valid_⟩, { rhs with valid_ := false })

def free_managed_payload_ (msg : Message) : Message × List Event :=
  ({ msg with payload := 0 }, if msg.payload = 0 then [.assert_failed] else [.freed msg.payload])

/-- The loop of `clear`. -/
def clear_msgs : List Message → List Message × List Event
  | [] => ([], [])
  | msg :: msgs =>
    let r := if msg.has_managed_payload && msg.payload != 0 then free_managed_payload_ msg
      else (msg, [])
    (r.1 :: (clear_msgs msgs).1, r.2 ++ (clear_msgs msgs).2)

/-- The loop of `pump_msgs`. -/
def pump_msgs (callback : Message → List Event) : List Message → List Message × List Event
  | [] => ([], [])
  | msg :: msgs =>
    let r :=
      if msg.type = .MSG_NULL then (msg, [])
      else if msg.type > .MSG_MAX then (msg, [.logged .exceedsMax])
      else if msg.has_managed_payload then
        ((free_managed_payload_ msg).1, callback msg ++ (free_managed_payload_ msg).2)
      else (msg, callback msg)
    (r.1 :: (pump_msgs callback msgs).1, r.2 ++ (pump_msgs callback msgs).2)

/-- The check of `release`. -/
def release_check (msgs : List Message) : List Event :=
  if msgs.any fun msg => msg.has_managed_payload && msg.payload != 0 then [.assert_failed] else []

end MessageQueue
end Omulator.Msg
