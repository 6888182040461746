import Omulator.Msg.Pools

/-!
# Serving a queue

What one turn of the loops over an endpoint's queue does to the messages and to the log.
-/

namespace Omulator.Msg
open Omulator.Lib Omulator.Di

variable {s s' : Sys} {p f e h : ℕ} {mq : MessageQueue} {msgs : List Message} {es : List Event}

/-- A turn that serves the front queue `mq` of the endpoint `e`: the messages of its storage become
`msgs`, with the events `es`, and then the storage goes back to the factory. -/
structure Served (e : ℕ) (mq : MessageQueue) (msgs : List Message) (es : List Event)
    (s s' : Sys) : Prop where
  other : ∀ q, q ≠ mq.pStorage_ → s'.storages q = s.storages q
  left : (s'.storages mq.pStorage_).storage = [] ∨ (s'.storages mq.pStorage_).storage = msgs
  log : ∃ es', (es' = [] ∨ ∃ a b, es' = [.logged (.submitForeign a b)]) ∧
    s'.log = s.log ++ (es ++ MessageQueue.release_check msgs ++ es')
  endpoints : s'.endpoints = (s.popQueue e).endpoints
  endpointCount : s'.endpointCount = s.endpointCount
  queues : s'.queues = s.queues
  queueCount : s'.queueCount = s.queueCount
  payloadCount : s'.payloadCount = s.payloadCount
  mailboxes_ : s'.mailboxes_ = s.mailboxes_

theorem served_submit (hv : mq.valid_ = true) :
    Served e mq msgs es s
      ((((s.setStorage mq.pStorage_ msgs).emit es).submit f mq).popQueue e) := by
  have hst : ((s.setStorage mq.pStorage_ msgs).storages mq.pStorage_).storage = msgs := by
    simp [Sys.setStorage]
  have hother : ∀ q, q ≠ mq.pStorage_ → (s.setStorage mq.pStorage_ msgs).storages q =
      s.storages q := fun q hq => Function.update_of_ne hq ..
  have hlog : ∀ es' : List Event, s.log ++ es ++ MessageQueue.release_check msgs ++ es' =
      s.log ++ (es ++ MessageQueue.release_check msgs ++ es') := by
    intro es'
    simp only [List.append_assoc]
  unfold Sys.submit
  rw [if_pos hv]
  dsimp only
  split
  · -- the factory's own storage is emptied
    refine ⟨?_, ?_, ⟨[], .inl rfl, ?_⟩, rfl, rfl, rfl, rfl, rfl, rfl⟩
    · intro q hq
      rw [← hother q hq]
      exact Function.update_of_ne hq ..
    · left
      simp [Sys.popQueue, Sys.setEndpoint, Sys.setFactory, Sys.setStorage]
    · rw [← hlog, List.append_nil]
      simp [Sys.popQueue, Sys.setEndpoint, Sys.setFactory, Sys.setStorage, Sys.emit]
  · refine ⟨hother, .inr hst, ⟨[.logged (.submitForeign
      ((s.setStorage mq.pStorage_ msgs).storages mq.pStorage_).id (s.factories f).id_)],
      .inr ⟨_, _, rfl⟩, ?_⟩, rfl, rfl, rfl, rfl, rfl, rfl⟩
    rw [← hlog]
    simp [Sys.popQueue, Sys.setEndpoint, Sys.setStorage, Sys.emit]

theorem served_recvFront (hmq : mq.sealed_ = true ∧ mq.valid_ = true) :
    Served e mq (MessageQueue.pump_msgs (s.callback e) (s.storages mq.pStorage_).storage).1
      (MessageQueue.pump_msgs (s.callback e) (s.storages mq.pStorage_).storage).2 s
      (s.recvFront e mq) := by
  unfold Sys.recvFront Sys.pump_msgs
  rw [if_pos hmq.2, if_pos hmq.1]
  exact served_submit hmq.2

theorem served_clearFront (hmq : mq.valid_ = true) :
    Served e mq (MessageQueue.clear_msgs (s.storages mq.pStorage_).storage).1
      (MessageQueue.clear_msgs (s.storages mq.pStorage_).storage).2 s (s.clearFront e mq) := by
  have hs : Served e { mq with sealed_ := true }
      (MessageQueue.clear_msgs (s.storages mq.pStorage_).storage).1
      (MessageQueue.clear_msgs (s.storages mq.pStorage_).storage).2 s (s.clearFront e mq) :=
    served_submit hmq
  exact ⟨hs.other, hs.left, hs.log, hs.endpoints, hs.endpointCount, hs.queues, hs.queueCount,
    hs.payloadCount, hs.mailboxes_⟩

theorem Served.places (hs : Served e mq msgs es s s') {l : List MessageQueue}
    (hq : (s.endpoints e).queue_ = mq :: l) (pl : Place) (hpl : ∀ f, pl ≠ .pool f) :
    held s' pl = Function.update (held s) (.pending e) (l.map MessageQueue.pStorage_) pl := by
  have hpop : held s' pl = held (s.popQueue e) pl := by
    cases pl with
    | pool f => exact absurd rfl (hpl f)
    | queue i =>
      simp only [held, hs.queues, hs.queueCount]
      rfl
    | pending i => simp only [held, hs.endpoints]
  rw [hpop, Sys.popQueue, held_setEndpoint, hq]
  rfl

end Omulator.Msg
