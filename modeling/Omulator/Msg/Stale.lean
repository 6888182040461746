import Omulator.Msg.Payload

/-!
# Queue variables that are not valid

What the operations on a `MessageQueue` variable do once it has been moved from, sent, submitted
or marked invalid. Its storage may belong to another queue by then, or be gone.
-/

namespace Omulator.Msg
open Omulator.Lib

/-- What a program can do with a variable; `send` and `submit` are given it as their argument. -/
inductive HandleOp where
  | push (type : MessageType) (mflags : MessageFlagType) (payload : ℕ)
  | push_managed_payload (type : MessageType) (thrown : Option ℕ)
  | pump_msgs (callback : Message → List Event)
  | seal
  | clear
  | mark_invalid
  | send (e : ℕ)
  | submit (f : ℕ)

namespace Sys

def pumpWith (callback : Message → List Event) (mq : MessageQueue) (s : Sys) : Sys :=
  if mq.valid_ then
    if mq.sealed_ then
      let r := MessageQueue.pump_msgs callback (s.storages mq.pStorage_).storage
      (s.setStorage mq.pStorage_ r.1).emit r.2
    else s.emit [.logged .pumpUnsealed]
  else s.emit [.logged .pumpInvalid]

theorem pump_msgs_eq (e : ℕ) (mq : MessageQueue) (s : Sys) :
    s.pump_msgs e mq = s.pumpWith (s.callback e) mq := rfl

def Stored (s : Sys) (p : ℕ) : Prop := p < s.storageCount ∧ .deleted p ∉ s.log

instance (s : Sys) (p : ℕ) : Decidable (s.Stored p) := instDecidableAnd

end Sys

namespace HandleOp

/-- The operation reads or writes what `pStorage_` points to. -/
def dereferences (mq : MessageQueue) : HandleOp → Bool
  | .push _ _ _ => mq.valid_ && !mq.sealed_
  | .push_managed_payload _ thrown => mq.valid_ && thrown.isNone && !mq.sealed_
  | .pump_msgs _ => mq.valid_ && mq.sealed_
  | .clear => true
  | .submit _ => mq.valid_
  | .seal | .mark_invalid | .send _ => false

def effect (h : ℕ) (s : Sys) : HandleOp → Sys
  | .push type mflags payload => s.push_impl_ (s.queues h) type mflags payload
  | .push_managed_payload type thrown => s.push_managed_payload (s.queues h) type thrown
  | .pump_msgs callback => s.pumpWith callback (s.queues h)
  | .seal => s.setQueue h { s.queues h with sealed_ := true }
  | .clear => (s.clear (s.queues h)).setQueue h { s.queues h with sealed_ := true }
  | .mark_invalid => s.setQueue h { s.queues h with valid_ := false }
  | .send e => s.send e h
  | .submit f => (s.submit f (s.queues h)).setQueue h { s.queues h with valid_ := false }

/-- `none` is undefined behaviour. -/
def run (op : HandleOp) (h : ℕ) (s : Sys) : Option Sys :=
  if op.dereferences (s.queues h) = true ∧ ¬ s.Stored (s.queues h).pStorage_ then none
  else some (op.effect h s)

def Callable (s : Sys) : HandleOp → Prop
  | .pump_msgs callback => Callback callback
  | .send e => s.HasEndpoint e
  | .submit f => s.HasFactory f
  | _ => True

end HandleOp

inductive Act where
  | op (o : Op)
  | copyConstruct (rhs : ℕ)
  | apply (h : ℕ) (o : HandleOp)

def ActStep (s : Sys) (a : Act) (s' : Sys) : Prop :=
  match a with
  | .op o => Step s o s'
  | .copyConstruct rhs => s.HasQueue rhs ∧ s' = s.addQueue (s.queues rhs)
  | .apply h o => s.HasQueue h ∧ o.Callable s ∧ o.run h s = some s'

/-- An operation on the variable `h` has led from `s` to `s'`, and there is no difference but in the
log and in the flags of `h`. -/
structure Inert (h : ℕ) (s s' : Sys) : Prop where
  storages : s'.storages = s.storages ∧ s'.storageCount = s.storageCount
  payloads : s'.payloadCount = s.payloadCount
  pools : s'.factories = s.factories ∧ s'.factoryCount = s.factoryCount
  mail : s'.endpoints = s.endpoints ∧ s'.endpointCount = s.endpointCount ∧
    s'.mailboxes_ = s.mailboxes_
  others : s'.queueCount = s.queueCount ∧ ∀ j, j ≠ h → s'.queues j = s.queues j
  same : (s'.queues h).pStorage_ = (s.queues h).pStorage_ ∧ (s'.queues h).valid_ = false
  -- no payload is deleted or given to a callback, and no storage deleted
  log : ∃ es, s'.log = s.log ++ es ∧ ∀ ev ∈ es, (∀ k, ¬ ev.Touches k) ∧ ∀ p, ev ≠ .deleted p

/-- What the operation does not check for: `clear` goes to the storage in any case. -/
def HandleOp.Harmless (h : ℕ) (s : Sys) (op : HandleOp) : Prop :=
  op = .clear → .deleted (s.queues h).pStorage_ ∉ s.log ∧ managed s (s.queues h).pStorage_ = []

/-! ### Where the pointers point -/

/-- Every pointer to a storage is one that `new` has returned. -/
structure Pointing (s : Sys) : Prop where
  queue : ∀ h, s.HasQueue h → (s.queues h).pStorage_ < s.storageCount
  pool : ∀ f, ∀ p ∈ (s.factories f).cQueue, p < s.storageCount
  pending : ∀ e, ∀ mq ∈ (s.endpoints e).queue_, mq.pStorage_ < s.storageCount

section
variable {s s' : Sys} {p f e h : ℕ} {mq : MessageQueue} {x : MessageQueueFactory}
  {y : MailboxEndpoint}

namespace Pointing

theorem emit (hp : Pointing s) (es : List Event) : Pointing (s.emit es) :=
  ⟨hp.queue, hp.pool, hp.pending⟩

theorem setStorage (hp : Pointing s) (msgs : List Message) : Pointing (s.setStorage p msgs) :=
  ⟨hp.queue, hp.pool, hp.pending⟩

theorem newPayload (hp : Pointing s) : Pointing { s with payloadCount := s.payloadCount + 1 } :=
  ⟨hp.queue, hp.pool, hp.pending⟩

theorem setQueue (hp : Pointing s) (hmq : mq.pStorage_ < s.storageCount) :
    Pointing (s.setQueue h mq) where
  queue j hj := by
    by_cases hjh : j = h
    · simpa [Sys.setQueue, hjh] using hmq
    · simpa [Sys.setQueue, hjh] using hp.queue j hj
  pool := hp.pool
  pending := hp.pending

theorem addQueue (hp : Pointing s) (hmq : mq.pStorage_ < s.storageCount) :
    Pointing (s.addQueue mq) where
  queue j hj := by
    by_cases hjc : j = s.queueCount
    · simpa [Sys.addQueue, hjc] using hmq
    · have hlt : j < s.queueCount := by
        have hj' : j < s.queueCount + 1 := hj
        omega
      simpa [Sys.addQueue, hjc] using hp.queue j hlt
  pool := hp.pool
  pending := hp.pending

theorem setFactory (hp : Pointing s) (hx : ∀ p ∈ x.cQueue, p < s.storageCount) :
    Pointing (s.setFactory f x) where
  queue := hp.queue
  pool g q hq := by
    by_cases hg : g = f
    · have hq' : q ∈ x.cQueue := by simpa [Sys.setFactory, hg] using hq
      exact hx q hq'
    · have hq' : q ∈ (s.factories g).cQueue := by simpa [Sys.setFactory, hg] using hq
      exact hp.pool g q hq'
  pending := hp.pending

theorem setEndpoint (hp : Pointing s) (hy : ∀ mq ∈ y.queue_, mq.pStorage_ < s.storageCount) :
    Pointing (s.setEndpoint e y) where
  queue := hp.queue
  pool := hp.pool
  pending i mq hmq := by
    by_cases hi : i = e
    · have hmq' : mq ∈ y.queue_ := by simpa [Sys.setEndpoint, hi] using hmq
      exact hy mq hmq'
    · have hmq' : mq ∈ (s.endpoints i).queue_ := by simpa [Sys.setEndpoint, hi] using hmq
      exact hp.pending i mq hmq'

theorem newStorage (hp : Pointing s) (id : ℕ) : Pointing (s.newStorage id) where
  queue j hj := Nat.lt_succ_of_lt (hp.queue j hj)
  pool g q hq := Nat.lt_succ_of_lt (hp.pool g q hq)
  pending i mq hmq := Nat.lt_succ_of_lt (hp.pending i mq hmq)

theorem newFactory (hp : Pointing s) (id : ℕ) : Pointing (s.newFactory id) := by
  have hset : Pointing (s.setFactory s.factoryCount ⟨id, [], 0, true⟩) := hp.setFactory (by simp)
  exact ⟨hset.queue, hset.pool, hset.pending⟩

theorem newEndpoint (hp : Pointing s) (f : ℕ) : Pointing (s.newEndpoint f) := by
  have hset : Pointing (s.setEndpoint s.endpointCount { mqfactory_ := f }) :=
    hp.setEndpoint (by simp)
  exact ⟨hset.queue, hset.pool, hset.pending⟩

/-! ### The operations -/

theorem get {pick : Option ℕ} (hp : Pointing s) (hs : s.get f pick = some s') : Pointing s' := by
  unfold Sys.get at hs
  cases pick with
  | none =>
    cases hs
    have hfac : Pointing (s.setFactory f { s.factories f with
        numActiveQueues_ := (s.factories f).numActiveQueues_ + 1 }) := hp.setFactory (hp.pool f)
    exact (hfac.newStorage _).addQueue (Nat.lt_succ_self _)
  | some q =>
    simp only [Option.ite_none_right_eq_some, Option.some.injEq] at hs
    obtain ⟨hq, rfl⟩ := hs
    have hfac : Pointing (s.setFactory f { s.factories f with
        cQueue := (s.factories f).cQueue.erase q }) :=
      hp.setFactory fun r hr => hp.pool f r (List.mem_of_mem_erase hr)
    exact hfac.addQueue (hp.pool f q hq)

theorem submit (hp : Pointing s) (f : ℕ) (hmq : mq.pStorage_ < s.storageCount) :
    Pointing (s.submit f mq) := by
  unfold Sys.submit
  split
  · dsimp only
    split
    · refine ((hp.emit _).setStorage []).setFactory fun q hq => ?_
      rcases List.mem_append.mp hq with hq | hq
      · exact hp.pool f q hq
      · rw [List.mem_singleton.mp hq]
        exact hmq
    · exact (hp.emit _).emit _
  · exact hp.emit _

theorem destroyFactory (hp : Pointing s) (f : ℕ) : Pointing (s.destroyFactory f) := by
  have hset : Pointing (s.setFactory f { s.factories f with cQueue := [], alive := false }) :=
    hp.setFactory (by simp)
  exact hset.emit _

theorem push_impl_ (hp : Pointing s) (mq : MessageQueue) (type : MessageType)
    (mflags : MessageFlagType) (payload : ℕ) : Pointing (s.push_impl_ mq type mflags payload) := by
  unfold Sys.push_impl_
  split
  · split
    · exact hp.emit _
    · exact hp.setStorage _
  · exact hp.emit _

theorem push_managed_payload (hp : Pointing s) (mq : MessageQueue) (type : MessageType)
    (thrown : Option ℕ) : Pointing (s.push_managed_payload mq type thrown) := by
  unfold Sys.push_managed_payload
  split
  · cases thrown with
    | none => exact hp.newPayload.push_impl_ mq type _ _
    | some exn => exact hp.newPayload.emit _
  · exact hp.emit _

theorem clear (hp : Pointing s) (mq : MessageQueue) : Pointing (s.clear mq) :=
  (hp.setStorage _).emit _

theorem pumpWith (hp : Pointing s) (callback : Message → List Event) (mq : MessageQueue) :
    Pointing (s.pumpWith callback mq) := by
  unfold Sys.pumpWith
  split
  · split
    · exact (hp.setStorage _).emit _
    · exact hp.emit _
  · exact hp.emit _

theorem send (hp : Pointing s) (e : ℕ) (hh : s.HasQueue h) : Pointing (s.send e h) := by
  have hlt := hp.queue h hh
  unfold Sys.send
  dsimp only
  split
  · split
    · exact hp.emit _
    · have hend : Pointing (s.setEndpoint e { s.endpoints e with queue_ :=
          (s.endpoints e).queue_ ++ [{ s.queues h with sealed_ := true }] }) := by
        refine hp.setEndpoint fun mq hmq => ?_
        rcases List.mem_append.mp hmq with hmq | hmq
        · exact hp.pending e mq hmq
        · rw [List.mem_singleton.mp hmq]
          exact hlt
      exact hend.setQueue hlt
  · exact hp.emit _

theorem popQueue (hp : Pointing s) (e : ℕ) : Pointing (s.popQueue e) :=
  hp.setEndpoint fun mq hmq => hp.pending e mq (List.mem_of_mem_tail hmq)

theorem on (hp : Pointing s) (e : ℕ) (type : MessageType) (cb : ℕ) :
    Pointing (s.on e type cb) := by
  unfold Sys.on
  dsimp only
  split
  · split
    · exact hp.emit _
    · exact hp.setEndpoint (hp.pending e)
  · exact hp.emit _

theorem get_entry_ (hp : Pointing s) (tok : MailboxToken_t) : Pointing (s.get_entry_ tok).2 := by
  unfold Sys.get_entry_
  split
  · exact hp
  · have hnew := hp.newEndpoint 0
    exact ⟨hnew.queue, hnew.pool, hnew.pending⟩

theorem claim_mailbox (hp : Pointing s) (tok : MailboxToken_t) :
    Pointing (s.claim_mailbox tok) := by
  have hent := hp.get_entry_ tok
  unfold Sys.claim_mailbox
  dsimp only
  split
  · exact hent.emit _
  · have hset : Pointing ((s.get_entry_ tok).2.setEndpoint (s.get_entry_ tok).1
        { (s.get_entry_ tok).2.endpoints (s.get_entry_ tok).1 with claimed_ := true }) :=
      hent.setEndpoint (hent.pending _)
    exact hset.emit _

theorem moveConstruct {rhs : ℕ} (hp : Pointing s) (hr : s.HasQueue rhs) :
    Pointing ((s.setQueue rhs (s.queues rhs).move.2).addQueue (s.queues rhs).move.1) := by
  have hset : Pointing (s.setQueue rhs (s.queues rhs).move.2) := hp.setQueue (hp.queue rhs hr)
  exact hset.addQueue (hp.queue rhs hr)

theorem moveAssign {rhs : ℕ} (hp : Pointing s) (hr : s.HasQueue rhs) :
    Pointing ((s.setQueue h (s.queues rhs)).setQueue rhs
      { (s.setQueue h (s.queues rhs)).queues rhs with valid_ := false }) := by
  have hset : Pointing (s.setQueue h (s.queues rhs)) := hp.setQueue (hp.queue rhs hr)
  exact hset.setQueue (hset.queue rhs hr)

theorem turn (hp : Pointing s) {l : List MessageQueue} (hq : (s.endpoints e).queue_ = mq :: l)
    (hp' : Pointing s') (hc : s'.storageCount = s.storageCount) (b : Bool) :
    Pointing ((s'.submit f { mq with sealed_ := b }).popQueue e) := by
  have hlt : mq.pStorage_ < s.storageCount := hp.pending e mq (by rw [hq]; simp)
  have hsub : Pointing (s'.submit f { mq with sealed_ := b }) := hp'.submit f (hc ▸ hlt)
  exact hsub.popQueue e

theorem recv (hp : Pointing s) (e : ℕ) : Pointing (s.recv e) := by
  refine (foldl_front (e := e) Pointing (fun _ _ => queue_recvFront) ?_ hp).1
  intro s mq l hp hq
  have hpump : Pointing (s.pump_msgs e mq) := hp.pumpWith (s.callback e) mq
  have hc : (s.pump_msgs e mq).storageCount = s.storageCount := by
    unfold Sys.pump_msgs
    split
    · split <;> rfl
    · rfl
  exact hp.turn hq hpump hc mq.sealed_

theorem destroyEndpoint (hp : Pointing s) (e : ℕ) : Pointing (s.destroyEndpoint e) := by
  have hloop : Pointing ((s.endpoints e).queue_.foldl (fun s mq => s.clearFront e mq) s) := by
    refine (foldl_front (e := e) Pointing (fun _ _ => queue_clearFront) ?_ hp).1
    intro s mq l hp hq
    exact hp.turn hq (hp.clear mq) rfl true
  exact hloop.setEndpoint (hloop.pending e)

theorem effect (hp : Pointing s) (hh : s.HasQueue h) (op : HandleOp) :
    Pointing (op.effect h s) := by
  have hlt := hp.queue h hh
  cases op with
  | push type mflags payload => exact hp.push_impl_ _ type mflags payload
  | push_managed_payload type thrown => exact hp.push_managed_payload _ type thrown
  | pump_msgs callback => exact hp.pumpWith callback _
  | «seal» => exact hp.setQueue hlt
  | clear =>
    have hc : Pointing (s.clear (s.queues h)) := hp.clear _
    exact hc.setQueue hlt
  | mark_invalid => exact hp.setQueue hlt
  | send e => exact hp.send e hh
  | submit f =>
    have hsub : Pointing (s.submit f (s.queues h)) := hp.submit f hlt
    have hc : (s.submit f (s.queues h)).storageCount = s.storageCount := by
      unfold Sys.submit
      split
      · dsimp only
        split <;> rfl
      · rfl
    exact hsub.setQueue (hc ▸ hlt)

/-- What the operations of `Op` do with a variable they do as `HandleOp`s. -/
theorem step {op : Op} (hp : Pointing s) (hs : Step s op s') : Pointing s' := by
  cases op <;> simp only [Step, Sys.step, Option.ite_none_right_eq_some, Option.some.injEq] at hs
  case newFactory id => exact hs.2 ▸ hp.newFactory id
  case destroyFactory f => exact hs.2 ▸ hp.destroyFactory f
  case get f pick => exact hp.get hs.2
  case submit f h => exact hs.2 ▸ hp.effect hs.1.2 (.submit f)
  case push h type mflags payload => exact hs.2 ▸ hp.effect hs.1.1 (.push type mflags payload)
  case push_managed_payload h type thrown =>
    exact hs.2 ▸ hp.effect hs.1 (.push_managed_payload type thrown)
  case «seal» h => exact hs.2 ▸ hp.effect hs.1 .seal
  case mark_invalid h => exact hs.2 ▸ hp.effect hs.1 .mark_invalid
  case clear h => exact hs.2 ▸ hp.effect hs.1.1 .clear
  case moveConstruct rhs => exact hs.2 ▸ hp.moveConstruct hs.1
  case moveAssign h rhs => exact hs.2 ▸ hp.moveAssign hs.1.2
  case newEndpoint f => exact hs.2 ▸ hp.newEndpoint f
  case destroyEndpoint e => exact hs.2 ▸ hp.destroyEndpoint e
  case claim_mailbox tok => exact hs.2 ▸ hp.claim_mailbox tok
  case get_mailbox tok => exact hs.2 ▸ (hp.get_entry_ tok).emit _
  case get_mq e pick => exact hp.get hs.2
  case on e type cb => exact hs.2 ▸ hp.on e type cb
  case off e type => exact hs.2 ▸ hp.setEndpoint (hp.pending e)
  case send e h => exact hs.2 ▸ hp.effect hs.1.2 (.send e)
  case recv e recvBehavior => exact hs.2 ▸ hp.recv e

theorem actStep {a : Act} (hp : Pointing s) (hs : ActStep s a s') : Pointing s' := by
  cases a with
  | op o => exact hp.step hs
  | copyConstruct rhs =>
    obtain ⟨hr, rfl⟩ := hs
    exact hp.addQueue (hp.queue rhs hr)
  | apply h o =>
    obtain ⟨hh, _, hrun⟩ := hs
    unfold HandleOp.run at hrun
    split at hrun
    · cases hrun
    · cases hrun
      exact hp.effect hh o

end Pointing

theorem run_pointing {id : ℕ} (h : Run ActStep (.init id) s) : Pointing s := by
  refine h.invariant Pointing ⟨?_, ?_, ?_⟩ fun _ _ _ hp _ hs => hp.actStep hs
  · intro j hj
    cases hj
  · intro f p hp
    cases hp
  · intro e mq hmq
    cases hmq

/-! ### What an operation on an invalid variable changes -/

theorem freed_clear_msgs {msgs : List Message} {k : ℕ} :
    .freed k ∈ (MessageQueue.clear_msgs msgs).2 ↔ k ∈ managedOf msgs := by
  induction msgs with
  | nil => simp [MessageQueue.clear_msgs, managedOf]
  | cons msg msgs ih =>
    rw [managedOf_cons]
    simp only [MessageQueue.clear_msgs, List.mem_append, ih]
    by_cases hm : (msg.has_managed_payload && msg.payload != 0) = true
    · have hne : msg.payload ≠ 0 := by
        simp only [Bool.and_eq_true, bne_iff_ne] at hm
        exact hm.2
      simp [hm, MessageQueue.free_managed_payload_, hne]
    · simp [hm]

theorem clear_msgs_eq {msgs : List Message} (h : managedOf msgs = []) :
    MessageQueue.clear_msgs msgs = (msgs, []) := by
  induction msgs with
  | nil => rfl
  | cons msg msgs ih =>
    rw [managedOf_cons] at h
    split at h
    · cases h
    · rename_i hm
      simp [MessageQueue.clear_msgs, hm, ih h]

theorem Inert.ofLog (hv : (s.queues h).valid_ = false) (e : Error) (es : List Event)
    (hes : es = [.logged e] ∨ es = [.threw e]) : Inert h s (s.emit es) where
  storages := ⟨rfl, rfl⟩
  payloads := rfl
  pools := ⟨rfl, rfl⟩
  mail := ⟨rfl, rfl, rfl⟩
  others := ⟨rfl, fun _ _ => rfl⟩
  same := ⟨rfl, hv⟩
  log := by
    refine ⟨es, rfl, fun ev hev => ?_⟩
    rcases hes with rfl | rfl
    · rw [List.mem_singleton.mp hev]
      exact ⟨(Event.quiet_logged e).1, nofun⟩
    · rw [List.mem_singleton.mp hev]
      exact ⟨(Event.quiet_threw e).1, nofun⟩

theorem Inert.ofFlags (mq : MessageQueue) (hp : mq.pStorage_ = (s.queues h).pStorage_)
    (hv : mq.valid_ = false) : Inert h s (s.setQueue h mq) where
  storages := ⟨rfl, rfl⟩
  payloads := rfl
  pools := ⟨rfl, rfl⟩
  mail := ⟨rfl, rfl, rfl⟩
  others := ⟨rfl, fun j hj => Function.update_of_ne hj ..⟩
  same := by simp [Sys.setQueue, hp, hv]
  log := ⟨[], by simp [Sys.setQueue], by simp⟩

theorem setQueue_self : s.setQueue h (s.queues h) = s := by
  simp [Sys.setQueue]

theorem inert_of_not_clear (hv : (s.queues h).valid_ = false) {op : HandleOp} (hne : op ≠ .clear) :
    Inert h s (op.effect h s) := by
  cases op with
  | push type mflags payload =>
    simp only [HandleOp.effect, Sys.push_impl_, hv]
    exact .ofLog hv .pushInvalid _ (.inl rfl)
  | push_managed_payload type thrown =>
    simp only [HandleOp.effect, Sys.push_managed_payload, hv]
    exact .ofLog hv .managedInvalid _ (.inr rfl)
  | pump_msgs callback =>
    simp only [HandleOp.effect, Sys.pumpWith, hv]
    exact .ofLog hv .pumpInvalid _ (.inl rfl)
  | «seal» => exact .ofFlags _ rfl hv
  | clear => exact absurd rfl hne
  | mark_invalid => exact .ofFlags _ rfl rfl
  | send e =>
    simp only [HandleOp.effect, Sys.send, hv]
    exact .ofLog hv .sendInvalid _ (.inl rfl)
  | submit f =>
    have hsub : s.submit f (s.queues h) = s.emit [.logged .submitInvalid] := by
      simp [Sys.submit, hv]
    have hflag : { s.queues h with valid_ := false } = s.queues h := by
      rw [← hv]
    have hself : (s.emit [.logged .submitInvalid]).setQueue h (s.queues h) =
        s.emit [.logged .submitInvalid] := setQueue_self
    simp only [HandleOp.effect, hsub, hflag, hself]
    exact .ofLog hv .submitInvalid _ (.inl rfl)

/-- `clear` does not ask whether the variable is valid. -/
theorem clear_inert_iff (hv : (s.queues h).valid_ = false) :
    Inert h s (HandleOp.clear.effect h s) ↔ managed s (s.queues h).pStorage_ = [] := by
  constructor
  · intro hi
    obtain ⟨es, hes, hquiet⟩ := hi.log
    have hlog : es = (MessageQueue.clear_msgs (s.storages (s.queues h).pStorage_).storage).2 :=
      (List.append_cancel_left hes).symm
    by_contra hne
    obtain ⟨k, hk⟩ := List.exists_mem_of_ne_nil _ hne
    have hfreed : .freed k ∈ es := hlog ▸ freed_clear_msgs.mpr hk
    exact (hquiet _ hfreed).1 k (.inl rfl)
  · intro hm
    have heq : s.clear (s.queues h) = s := by
      simp only [Sys.clear, clear_msgs_eq hm]
      simp [Sys.setStorage, Sys.emit]
    simp only [HandleOp.effect, heq]
    exact .ofFlags _ rfl hv

end

/-- In whatever state a program has got to, an operation on an invalid variable changes nothing
else exactly if it is not `clear`, or there is nothing at the storage for `clear` to delete. -/
theorem invalid_inert_iff {id : ℕ} {s : Sys} (hr : Run ActStep (.init id) s) {h : ℕ}
    (hh : s.HasQueue h) (hv : (s.queues h).valid_ = false) (op : HandleOp) :
    (∃ s', op.run h s = some s' ∧ Inert h s s') ↔ op.Harmless h s := by
  have hlt := (run_pointing hr).queue h hh
  by_cases hop : op = .clear
  · subst hop
    simp only [HandleOp.Harmless, HandleOp.run, HandleOp.dereferences, true_and, forall_const]
    by_cases hd : .deleted (s.queues h).pStorage_ ∈ s.log
    · simp [Sys.Stored, hd]
    · have hst : s.Stored (s.queues h).pStorage_ := ⟨hlt, hd⟩
      simp only [hst, not_true_eq_false, if_false, Option.some.injEq, exists_eq_left', hd,
        not_false_eq_true, true_and]
      exact clear_inert_iff hv
  · have hno : op.dereferences (s.queues h) = false := by
      cases op with
      | clear => exact absurd rfl hop
      | _ => simp [HandleOp.dereferences, hv]
    have hrun : op.run h s = some (op.effect h s) := by simp [HandleOp.run, hno]
    constructor
    · exact fun _ hc => absurd hc hop
    · exact fun _ => ⟨_, hrun, inert_of_not_clear hv hop⟩

theorem act_of_run {s t : Sys} (h : Run Step s t) : Run ActStep s t := by
  refine h.invariant (Run ActStep s) .start ?_
  intro u op v hu _ hs
  exact hu.next' (a := .op op) hs

/-- A queue is submitted, and its storage is taken out again and gets a managed payload. -/
def recycling : List Op :=
  [.get 0 none, .submit 0 0, .get 0 (some 0), .push_managed_payload 1 .DEMO_MSG_A none]

def recycled : Sys := (follow Sys.step recycling (.init 7)).getD (.init 7)

theorem recycled_run : Run ActStep (.init 7) recycled := by
  have hsome : (follow Sys.step recycling (.init 7)).isSome := by decide
  obtain ⟨s, hs⟩ := Option.isSome_iff_exists.mp hsome
  have hrec : recycled = s := by rw [recycled, hs, Option.getD_some]
  rw [hrec]
  exact act_of_run (run_of_follow hs)

/-- The variable that was submitted is refused by `push`. -/
theorem recycled_push : ∃ s', (HandleOp.push .POKE 0 42).run 0 recycled = some s' ∧
    Inert 0 recycled s' :=
  (invalid_inert_iff recycled_run (by decide) (by decide) (.push .POKE 0 42)).mpr nofun

/-- `clear` on it deletes the payload of the other one. -/
theorem recycled_clear :
    recycled.queues 0 = ⟨0, false, false⟩ ∧ recycled.queues 1 = ⟨0, false, true⟩ ∧
    (recycled.storages 0).storage = [⟨8, 1, 1⟩] ∧
    (∃ s', HandleOp.clear.run 0 recycled = some s' ∧ (s'.storages 0).storage = [⟨8, 1, 0⟩] ∧
      .freed 1 ∈ s'.log) ∧
    ¬ ∀ (id : ℕ) (s : Sys), Run ActStep (.init id) s → ∀ (h : ℕ) (op : HandleOp), s.HasQueue h →
      (s.queues h).valid_ = false → ∃ s', op.run h s = some s' ∧ Inert h s s' := by
  have hmsgs : (recycled.storages 0).storage = [⟨8, 1, 1⟩] := by decide
  have hrun : HandleOp.clear.run 0 recycled = some (HandleOp.clear.effect 0 recycled) :=
    if_neg (by decide)
  have hmsgs' : ((HandleOp.clear.effect 0 recycled).storages 0).storage = [⟨8, 1, 0⟩] := by decide
  refine ⟨by decide, by decide, hmsgs, ⟨_, hrun, hmsgs', by decide⟩, fun hall => ?_⟩
  obtain ⟨s', hs', hi⟩ := hall 7 recycled recycled_run 0 .clear (by decide) (by decide)
  cases hrun.symm.trans hs'
  rw [hi.storages.1, hmsgs] at hmsgs'
  cases hmsgs'

end Omulator.Msg
