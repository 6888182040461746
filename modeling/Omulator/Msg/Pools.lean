import Omulator.Msg.Places

/-!
# The pools

Every operation keeps each storage in one place, and the storages of a pool empty. So `get` hands
out a storage that nobody else has, and the destructor of a factory finds a leak exactly when a
storage of its own is elsewhere.
-/

namespace Omulator.Msg
open Omulator.Lib Omulator.Di

variable {s s' : Sys} {p f e h : ℕ} {mq : MessageQueue} {y : MailboxEndpoint}

/-! ### New objects -/

theorem Owned.newEndpoint (ho : Owned s) : Owned (s.newEndpoint f) where
  apart := by
    rw [held_newEndpoint]
    exact ho.apart.drop (List.nil_sublist _)
  empty := ho.empty
  sent i mq hmq := by
    by_cases hi : i = s.endpointCount
    · simp [Sys.newEndpoint, hi] at hmq
    · have hy : mq ∈ (s.endpoints i).queue_ := by simpa [Sys.newEndpoint, hi] using hmq
      exact ho.sent i mq hy
  idle i hi := by
    have hle : s.endpointCount ≤ i := Nat.le_of_succ_le hi
    have hne : i ≠ s.endpointCount := fun hie => absurd hi (hie ▸ Nat.not_succ_le_self _)
    simp [Sys.newEndpoint, hne, ho.idle i hle]
  counted := ho.counted.congr rfl

theorem held_newEndpoint_eq (ho : Owned s) : held (s.newEndpoint f) = held s := by
  have hnone : held s (.pending s.endpointCount) = [] := by simp [held, ho.idle _ le_rfl]
  rw [held_newEndpoint, ← hnone, Function.update_eq_self]

theorem held_setEndpoint_eq (hq : y.queue_ = (s.endpoints e).queue_) :
    held (s.setEndpoint e y) = held s := by
  rw [held_setEndpoint, hq]
  exact Function.update_eq_self (.pending e) (held s)

theorem Owned.get_entry_ (ho : Owned s) (tok : MailboxToken_t) : Owned (s.get_entry_ tok).2 := by
  unfold Sys.get_entry_
  cases s.mailboxes_ tok with
  | some e => exact ho
  | none =>
    have hn : Owned (s.newEndpoint 0) := ho.newEndpoint
    exact ⟨hn.apart, hn.empty, hn.sent, hn.idle, hn.counted.congr rfl⟩

theorem Counted.newFactory (hc : Counted s) {id : ℕ}
    (hid : ∀ f < s.factoryCount, (s.factories f).id_ ≠ id) : Counted (s.newFactory id) := by
  have hlt : ∀ f, f < s.factoryCount + 1 → f < s.factoryCount ∨ f = s.factoryCount := by
    intro f hf
    omega
  constructor
  · intro f g hf hg heq
    rcases hlt f hf with hf | hf
    · rcases hlt g hg with hg | hg
      · have heq : (s.factories f).id_ = (s.factories g).id_ := by
          simpa [Sys.newFactory, hf.ne, hg.ne] using heq
        exact hc.ids f g hf hg heq
      · have heq : (s.factories f).id_ = id := by simpa [Sys.newFactory, hf.ne, hg] using heq
        exact absurd heq (hid f hf)
    · rcases hlt g hg with hg | hg
      · have heq : id = (s.factories g).id_ := by simpa [Sys.newFactory, hf, hg.ne] using heq
        exact absurd heq.symm (hid g hg)
      · rw [hf, hg]
  · intro f hf
    rcases hlt f hf with hf | hf
    · simpa [Sys.newFactory, allocated, hf.ne] using hc.made f hf
    · have hnone : (Finset.range s.storageCount).filter (fun p => (s.storages p).id = id) = ∅ := by
        apply Finset.filter_eq_empty_iff.mpr
        intro p hp hpid
        obtain ⟨g, hg, hpg⟩ := hc.origin p (Finset.mem_range.mp hp)
        exact hid g hg (hpg.symm.trans hpid)
      simp [Sys.newFactory, allocated, hf, hnone]
  · intro p hp
    obtain ⟨f, hf, hpf⟩ := hc.origin p hp
    refine ⟨f, Nat.lt_succ_of_lt hf, ?_⟩
    simpa [Sys.newFactory, hf.ne] using hpf

theorem Owned.newFactory (ho : Owned s) {id : ℕ}
    (hid : ∀ f < s.factoryCount, (s.factories f).id_ ≠ id) : Owned (s.newFactory id) where
  apart := by
    rw [held_newFactory]
    exact ho.apart.drop (List.nil_sublist _)
  empty g q hq := by
    by_cases hg : g = s.factoryCount
    · simp [Sys.newFactory, hg] at hq
    · have hx : q ∈ (s.factories g).cQueue := by simpa [Sys.newFactory, hg] using hq
      simpa [Sys.newFactory, hg] using ho.empty g q hx
  sent := ho.sent
  idle := ho.idle
  counted := ho.counted.newFactory hid

def withNew (f : ℕ) (s : Sys) : Sys :=
  (s.setFactory f { s.factories f with
    numActiveQueues_ := (s.factories f).numActiveQueues_ + 1 }).newStorage (s.factories f).id_

theorem allocated_withNew (g : ℕ) (hid : (s.factories f).id_ = (s.factories g).id_ → f = g) :
    allocated (withNew f s) g =
      if f = g then insert s.storageCount (allocated s g) else allocated s g := by
  have hfac : ((withNew f s).factories g).id_ = (s.factories g).id_ := by
    by_cases hg : g = f
    · simp [withNew, Sys.newStorage, Sys.setFactory, hg]
    · simp [withNew, Sys.newStorage, Sys.setFactory, hg]
  have hnew : ((withNew f s).storages s.storageCount).id = (s.factories f).id_ := by
    simp [withNew, Sys.newStorage, Sys.setFactory]
  have hold : ∀ p ∈ Finset.range s.storageCount,
      (((withNew f s).storages p).id = (s.factories g).id_ ↔
        (s.storages p).id = (s.factories g).id_) := by
    intro p hp
    have hne : p ≠ s.storageCount := (Finset.mem_range.mp hp).ne
    simp [withNew, Sys.newStorage, Sys.setFactory, hne]
  have hcount : (withNew f s).storageCount = s.storageCount + 1 := rfl
  unfold allocated
  rw [hcount, hfac, Finset.range_add_one, Finset.filter_insert, hnew, Finset.filter_congr hold]
  by_cases hfg : f = g
  · rw [if_pos hfg, if_pos (by rw [hfg])]
  · rw [if_neg hfg, if_neg (fun h => hfg (hid h))]

theorem counted_withNew (hc : Counted s) (hf : f < s.factoryCount) : Counted (withNew f s) := by
  have hfac : ∀ g, ((withNew f s).factories g).id_ = (s.factories g).id_ := by
    intro g
    by_cases hg : g = f
    · simp [withNew, Sys.newStorage, Sys.setFactory, hg]
    · simp [withNew, Sys.newStorage, Sys.setFactory, hg]
  constructor
  · intro g k hg hk heq
    rw [hfac, hfac] at heq
    exact hc.ids g k hg hk heq
  · intro g hg
    rw [allocated_withNew g (hc.ids f g hf hg)]
    by_cases hfg : f = g
    · have hfresh : s.storageCount ∉ allocated s g := by simp [allocated]
      rw [if_pos hfg, Finset.card_insert_of_notMem hfresh, ← hc.made g hg]
      simp [withNew, Sys.newStorage, Sys.setFactory, hfg]
    · have hne : g ≠ f := fun hg => hfg hg.symm
      rw [if_neg hfg, ← hc.made g hg]
      simp [withNew, Sys.newStorage, Sys.setFactory, hne]
  · intro p hp
    by_cases hn : p = s.storageCount
    · refine ⟨f, hf, ?_⟩
      rw [hfac, hn]
      simp [withNew, Sys.newStorage, Sys.setFactory]
    · have hlt : p < s.storageCount := by
        have hp : p < s.storageCount + 1 := hp
        omega
      obtain ⟨g, hg, hpg⟩ := hc.origin p hlt
      refine ⟨g, hg, ?_⟩
      rw [hfac, ← hpg]
      simp [withNew, Sys.newStorage, Sys.setFactory, hn]

theorem held_withNew : held (withNew f s) = held s := by
  unfold withNew
  rw [held_newStorage, held_setFactory]
  exact Function.update_eq_self (.pool f) (held s)

theorem owned_withNew (ho : Owned s) (hf : f < s.factoryCount) : Owned (withNew f s) where
  apart := by
    rw [held_withNew]
    exact ho.apart.mono fun p hp => Nat.lt_succ_of_lt hp
  empty g p hp := by
    have hin : p ∈ held s (.pool g) := by
      rw [← held_withNew (f := f)]
      exact hp
    have hne : p ≠ s.storageCount := (ho.apart.live _ p hin).ne
    have hst : s.storages p = ⟨(s.factories g).id_, []⟩ := ho.empty g p hin
    by_cases hg : g = f
    · simpa [withNew, Sys.newStorage, Sys.setFactory, hne, hg] using hg ▸ hst
    · simpa [withNew, Sys.newStorage, Sys.setFactory, hne, hg] using hst
  sent := ho.sent
  idle := ho.idle
  counted := counted_withNew ho.counted hf

theorem free_withNew (ho : Owned s) : Free (withNew f s) s.storageCount where
  lt := Nat.lt_succ_self _
  nowhere pl hin := by
    rw [held_withNew] at hin
    exact Nat.lt_irrefl _ (ho.apart.live pl _ hin)

/-! ### The operations -/

theorem Owned.get (ho : Owned s) {pick : Option ℕ} (hf : f < s.factoryCount)
    (hs : s.get f pick = some s') : Owned s' := by
  cases pick with
  | some p =>
    simp only [Sys.get] at hs
    split at hs
    · rename_i hp
      cases hs
      have hx := ho.setFactory (f := f) (x := { s.factories f with
        cQueue := (s.factories f).cQueue.erase p }) List.erase_sublist rfl rfl
      exact hx.addQueue fun _ => ho.free_pool hp
    · cases hs
  | none =>
    cases hs
    have hx : Owned (withNew f s) := owned_withNew ho hf
    exact hx.addQueue fun _ => free_withNew ho

theorem Owned.submit (ho : Owned s) (hmq : mq.valid_ = true → Free s mq.pStorage_) :
    Owned (s.submit f mq) := by
  unfold Sys.submit
  by_cases hv : mq.valid_ = true
  · rw [if_pos hv]
    by_cases hid : (s.storages mq.pStorage_).id = (s.factories f).id_
    · have hf := hmq hv
      have hp : ∀ g, mq.pStorage_ ∉ (s.factories g).cQueue := fun g => hf.nowhere (.pool g)
      have hs : Owned ((s.emit (MessageQueue.release_check
          (s.storages mq.pStorage_).storage)).setStorage mq.pStorage_ []) :=
        (ho.emit _).setStorage hp []
      have hfree : Free ((s.emit (MessageQueue.release_check
          (s.storages mq.pStorage_).storage)).setStorage mq.pStorage_ []) mq.pStorage_ :=
        hf.congr (by simp) rfl
      have hst : ((s.emit (MessageQueue.release_check
          (s.storages mq.pStorage_).storage)).setStorage mq.pStorage_ []).storages mq.pStorage_ =
          ⟨(s.factories f).id_, []⟩ := by
        simp [Sys.setStorage, Sys.emit, hid]
      rw [if_pos hid]
      exact hs.addPool hfree hst
    · rw [if_neg hid]
      exact (ho.emit _).emit _
  · rw [if_neg hv]
    exact ho.emit _

theorem Owned.destroyFactory (ho : Owned s) : Owned (s.destroyFactory f) := by
  have hx := ho.setFactory (f := f) (x := { s.factories f with cQueue := [], alive := false })
    (List.nil_sublist _) rfl rfl
  exact hx.emit _

theorem Owned.push_impl_ (ho : Owned s)
    (hp : mq.valid_ = true → ∀ f, mq.pStorage_ ∉ (s.factories f).cQueue) (type : MessageType)
    (mflags : MessageFlagType) (payload : ℕ) : Owned (s.push_impl_ mq type mflags payload) := by
  unfold Sys.push_impl_
  split
  · rename_i hv
    split
    · exact ho.emit _
    · exact ho.setStorage (hp hv) _
  · exact ho.emit _

theorem held_newPayload : held { s with payloadCount := s.payloadCount + 1 } = held s := by
  funext pl
  cases pl <;> rfl

theorem Owned.newPayload (ho : Owned s) : Owned { s with payloadCount := s.payloadCount + 1 } :=
  ⟨held_newPayload.symm ▸ ho.apart, ho.empty, ho.sent, ho.idle, ho.counted.congr rfl⟩

theorem Owned.push_managed_payload (ho : Owned s)
    (hp : mq.valid_ = true → ∀ f, mq.pStorage_ ∉ (s.factories f).cQueue) (type : MessageType)
    (thrown : Option ℕ) : Owned (s.push_managed_payload mq type thrown) := by
  unfold Sys.push_managed_payload
  split
  · cases thrown with
    | none => exact ho.newPayload.push_impl_ hp _ _ _
    | some exn => exact ho.newPayload.emit _
  · exact ho.emit _

theorem Owned.clear (ho : Owned s) (hp : ∀ f, mq.pStorage_ ∉ (s.factories f).cQueue) :
    Owned (s.clear mq) := (ho.setStorage hp _).emit _

theorem Owned.pump_msgs (ho : Owned s) (hp : ∀ f, mq.pStorage_ ∉ (s.factories f).cQueue) :
    Owned (s.pump_msgs e mq) := by
  unfold Sys.pump_msgs
  split
  · split
    · exact (ho.setStorage hp _).emit _
    · exact ho.emit _
  · exact ho.emit _

theorem Owned.on (ho : Owned s) (type : MessageType) (cb : ℕ) : Owned (s.on e type cb) := by
  unfold Sys.on
  dsimp only
  split
  · split
    · exact ho.emit _
    · exact ho.setEndpoint (.refl _)
  · exact ho.emit _

theorem Owned.claim_mailbox (ho : Owned s) (tok : MailboxToken_t) :
    Owned (s.claim_mailbox tok) := by
  have ho' : Owned (s.get_entry_ tok).2 := ho.get_entry_ tok
  unfold Sys.claim_mailbox
  dsimp only
  split
  · exact ho'.emit _
  · apply Owned.emit
    apply ho'.setEndpoint
    exact .refl _

theorem Owned.queue_not_pooled (ho : Owned s) (hh : s.HasQueue h)
    (hv : (s.queues h).valid_ = true) (f : ℕ) :
    (s.queues h).pStorage_ ∉ (s.factories f).cQueue :=
  ho.not_pooled (mem_held_queue hh hv) (fun _ => nofun) f

theorem Owned.invalid (ho : Owned s) (hh : s.HasQueue h) (hv : mq.valid_ = false) :
    Owned (s.setQueue h mq) := by
  have hl : mq.held = [] := by simp [MessageQueue.held, hv]
  exact ho.setQueue hh (hl ▸ List.nil_sublist _)

theorem Owned.sealed (ho : Owned s) (hh : s.HasQueue h) :
    Owned (s.setQueue h { s.queues h with sealed_ := true }) :=
  ho.setQueue hh (held_queue hh ▸ .refl _)

theorem submit_setQueue (mq' : MessageQueue) :
    (s.submit f mq).setQueue h mq' = (s.setQueue h mq').submit f mq := by
  unfold Sys.submit
  split
  · dsimp only
    split
    · rename_i hid
      rw [if_pos (by exact hid)]
      rfl
    · rename_i hid
      rw [if_neg (by exact hid)]
      rfl
  · rfl

theorem Owned.submitQueue (ho : Owned s) (hh : s.HasQueue h) :
    Owned ((s.submit f (s.queues h)).setQueue h { s.queues h with valid_ := false }) := by
  rw [submit_setQueue]
  have hi : Owned (s.setQueue h { s.queues h with valid_ := false }) := ho.invalid hh rfl
  exact hi.submit fun hv => ho.free_queue hh hv rfl

theorem Owned.send (ho : Owned s) (he : e < s.endpointCount) (hh : s.HasQueue h) :
    Owned (s.send e h) := by
  unfold Sys.send
  dsimp only
  split
  · rename_i hv
    split
    · exact ho.emit _
    · have hi : Owned (s.setQueue h { s.queues h with sealed_ := true, valid_ := false }) :=
        ho.invalid hh rfl
      have hfree : Free (s.setQueue h { s.queues h with sealed_ := true, valid_ := false })
          (s.queues h).pStorage_ := ho.free_queue hh hv rfl
      have hsent : ({ s.queues h with sealed_ := true } : MessageQueue).sealed_ = true ∧
          ({ s.queues h with sealed_ := true } : MessageQueue).valid_ = true := ⟨rfl, hv⟩
      exact hi.addPending he hfree hsent
  · exact ho.emit _

theorem held_send (hh : s.HasQueue h) (hv : (s.queues h).valid_ = true)
    (hn : (s.queues h).sealed_ = false) :
    held (s.send e h) = Function.update (Function.update (held s) (.pending e)
      (held s (.pending e) ++ [(s.queues h).pStorage_])) (.queue h) [] := by
  have hh' : ∀ y, (s.setEndpoint e y).HasQueue h := fun _ => hh
  simp only [Sys.send, if_pos hv, hn, Bool.false_eq_true, if_false]
  rw [held_setQueue (hh' _), held_setEndpoint, List.map_append]
  rfl

theorem Owned.moveConstruct (ho : Owned s) (hh : s.HasQueue h) :
    Owned ((s.setQueue h (s.queues h).move.2).addQueue (s.queues h).move.1) := by
  have hi : Owned (s.setQueue h (s.queues h).move.2) := ho.invalid hh rfl
  exact hi.addQueue fun hv => ho.free_queue hh hv rfl

theorem Owned.moveAssign (ho : Owned s) {rhs : ℕ} (hh : s.HasQueue h) (hr : s.HasQueue rhs) :
    Owned ((s.setQueue h (s.queues rhs)).setQueue rhs
      { (s.setQueue h (s.queues rhs)).queues rhs with valid_ := false }) := by
  by_cases heq : h = rhs
  · have hx : Owned (s.setQueue h (s.queues rhs)) := by
      rw [heq]
      exact ho.setQueue hr (held_queue hr ▸ .refl _)
    exact hx.invalid hr rfl
  · -- the source gives its storage up before the target takes it
    have hne : rhs ≠ h := fun hx => heq hx.symm
    have hq : (s.setQueue h (s.queues rhs)).queues rhs = s.queues rhs :=
      Function.update_of_ne hne ..
    have hcomm : (s.setQueue h (s.queues rhs)).setQueue rhs { s.queues rhs with valid_ := false } =
        (s.setQueue rhs { s.queues rhs with valid_ := false }).setQueue h (s.queues rhs) := by
      unfold Sys.setQueue
      dsimp only
      rw [Function.update_comm heq]
    have hi : Owned (s.setQueue rhs { s.queues rhs with valid_ := false }) := ho.invalid hr rfl
    rw [hq, hcomm]
    exact hi.putQueue hh fun hv => ho.free_queue hr hv rfl

/-! ### The loops over the queue of an endpoint -/

theorem endpoints_pump_msgs : (s.pump_msgs e mq).endpoints = s.endpoints := by
  unfold Sys.pump_msgs
  split
  · split <;> rfl
  · rfl

theorem endpoints_submit : (s.submit f mq).endpoints = s.endpoints := by
  unfold Sys.submit
  dsimp only
  split
  · split <;> rfl
  · rfl

theorem submit_popQueue : (s.submit f mq).popQueue e = (s.popQueue e).submit f mq := by
  unfold Sys.submit
  split
  · dsimp only
    split
    · rename_i hid
      rw [if_pos (by exact hid)]
      rfl
    · rename_i hid
      rw [if_neg (by exact hid)]
      rfl
  · rfl

theorem queue_popQueue :
    ((s.popQueue e).endpoints e).queue_ = (s.endpoints e).queue_.tail := by
  simp [Sys.popQueue, Sys.setEndpoint]

theorem queue_recvFront :
    ((s.recvFront e mq).endpoints e).queue_ = (s.endpoints e).queue_.tail := by
  unfold Sys.recvFront
  rw [queue_popQueue, endpoints_submit, endpoints_pump_msgs]

theorem queue_clearFront :
    ((s.clearFront e mq).endpoints e).queue_ = (s.endpoints e).queue_.tail := by
  unfold Sys.clearFront
  rw [queue_popQueue, endpoints_submit]
  rfl

theorem foldl_front {turn : Sys → MessageQueue → Sys} (I : Sys → Prop)
    (pop : ∀ s mq, ((turn s mq).endpoints e).queue_ = (s.endpoints e).queue_.tail)
    (keep : ∀ s mq l, I s → (s.endpoints e).queue_ = mq :: l → I (turn s mq)) (hi : I s) :
    I ((s.endpoints e).queue_.foldl turn s) ∧
      (((s.endpoints e).queue_.foldl turn s).endpoints e).queue_ = [] := by
  have hl : ∀ l s, I s → (s.endpoints e).queue_ = l →
      I (l.foldl turn s) ∧ ((l.foldl turn s).endpoints e).queue_ = [] := by
    intro l
    induction l with
    | nil =>
      intro s hs hq
      exact ⟨hs, hq⟩
    | cons mq l ih =>
      intro s hs hq
      have hq' : ((turn s mq).endpoints e).queue_ = l := by
        rw [pop, hq]
        rfl
      exact ih (turn s mq) (keep s mq l hs hq) hq'
  exact hl _ s hi rfl

theorem Owned.front_not_pooled (ho : Owned s) {l : List MessageQueue}
    (hq : (s.endpoints e).queue_ = mq :: l) (f : ℕ) :
    mq.pStorage_ ∉ (s.factories f).cQueue :=
  ho.not_pooled (mem_held_front hq) (fun _ => nofun) f

theorem Owned.recvFront (ho : Owned s) {l : List MessageQueue}
    (hq : (s.endpoints e).queue_ = mq :: l) : Owned (s.recvFront e mq) := by
  have hm : Owned (s.pump_msgs e mq) := ho.pump_msgs (ho.front_not_pooled hq)
  have hq' : ((s.pump_msgs e mq).endpoints e).queue_ = mq :: l := by rw [endpoints_pump_msgs, hq]
  have hpop : Owned ((s.pump_msgs e mq).popQueue e) := hm.setEndpoint (List.tail_sublist _)
  unfold Sys.recvFront
  rw [submit_popQueue]
  exact hpop.submit fun _ => hm.free_front hq'

theorem Owned.clearFront (ho : Owned s) {l : List MessageQueue}
    (hq : (s.endpoints e).queue_ = mq :: l) : Owned (s.clearFront e mq) := by
  have hm : Owned (s.clear mq) := ho.clear (ho.front_not_pooled hq)
  have hpop : Owned ((s.clear mq).popQueue e) := hm.setEndpoint (List.tail_sublist _)
  have hfree : Free ((s.clear mq).popQueue e) mq.pStorage_ := hm.free_front hq
  unfold Sys.clearFront
  rw [submit_popQueue]
  exact hpop.submit fun _ => hfree

theorem recv_front (e : ℕ) (I : Sys → Prop)
    (keep : ∀ s mq l, I s → (s.endpoints e).queue_ = mq :: l → I (s.recvFront e mq)) (hi : I s) :
    I (s.recv e) ∧ ((s.recv e).endpoints e).queue_ = [] :=
  foldl_front I (fun _ _ => queue_recvFront) keep hi

theorem Owned.recv (ho : Owned s) : Owned (s.recv e) :=
  (recv_front e Owned (fun _ _ _ ho hq => ho.recvFront hq) ho).1

theorem Owned.destroyEndpoint (ho : Owned s) : Owned (s.destroyEndpoint e) := by
  have hl := (foldl_front (e := e) Owned (fun _ _ => queue_clearFront)
    (fun _ _ _ ho hq => ho.clearFront hq) ho).1
  exact hl.setEndpoint (.refl _)

/-! ### Every step -/

theorem Owned.step {op : Op} (ho : Owned s) (hs : Step s op s') : Owned s' := by
  cases op <;> simp only [Step, Sys.step, Option.ite_none_right_eq_some, Option.some.injEq] at hs
  case newFactory id => exact hs.2 ▸ ho.newFactory hs.1
  case destroyFactory f => exact hs.2 ▸ ho.destroyFactory
  case get f pick => exact ho.get hs.1.1 hs.2
  case submit f h => exact hs.2 ▸ ho.submitQueue hs.1.2
  case push h type mflags payload =>
    exact hs.2 ▸ ho.push_impl_ (ho.queue_not_pooled hs.1.1) type mflags payload
  case push_managed_payload h type thrown =>
    exact hs.2 ▸ ho.push_managed_payload (ho.queue_not_pooled hs.1) type thrown
  case «seal» h => exact hs.2 ▸ ho.sealed hs.1
  case mark_invalid h => exact hs.2 ▸ ho.invalid hs.1 rfl
  case clear h =>
    have hc : Owned (s.clear (s.queues h)) := ho.clear (ho.queue_not_pooled hs.1.1 hs.1.2)
    exact hs.2 ▸ hc.sealed hs.1.1
  case moveConstruct rhs => exact hs.2 ▸ ho.moveConstruct hs.1
  case moveAssign h rhs => exact hs.2 ▸ ho.moveAssign hs.1.1 hs.1.2
  case newEndpoint f => exact hs.2 ▸ ho.newEndpoint
  case destroyEndpoint e => exact hs.2 ▸ ho.destroyEndpoint
  case claim_mailbox tok => exact hs.2 ▸ ho.claim_mailbox tok
  case get_mailbox tok => exact hs.2 ▸ (ho.get_entry_ tok).emit _
  case get_mq e pick => exact ho.get hs.1.2.1 hs.2
  case on e type cb => exact hs.2 ▸ ho.on type cb
  case off e type => exact hs.2 ▸ ho.setEndpoint (.refl _)
  case send e h => exact hs.2 ▸ ho.send hs.1.1.1 hs.1.2
  case recv e recvBehavior => exact hs.2 ▸ ho.recv

theorem init_owned (id : ℕ) : Owned (.init id) := by
  have hnone : ∀ pl, held (.init id) pl = [] := by
    intro pl
    cases pl <;> rfl
  constructor
  · constructor
    · intro pl
      rw [hnone]
      exact List.nodup_nil
    · intro pl pl' p hp
      rw [hnone] at hp
      cases hp
    · intro pl p hp
      rw [hnone] at hp
      cases hp
  · intro f p hp
    cases hp
  · intro e mq hmq
    cases hmq
  · exact fun _ _ => rfl
  · constructor
    · intro f g hf hg _
      have hf : f < 1 := hf
      have hg : g < 1 := hg
      omega
    · intro f _
      rfl
    · intro p hp
      exact absurd hp (Nat.not_lt_zero p)

theorem run_owned {id : ℕ} (h : Run Step (.init id) s) : Owned s :=
  h.invariant Owned (init_owned id) fun _ _ _ ho _ hs => ho.step hs

/-! ### What `get` does -/

structure Got (p : ℕ) (s s' : Sys) : Prop where
  queues : s'.queues = Function.update s.queues s.queueCount ⟨p, false, true⟩
  queueCount : s'.queueCount = s.queueCount + 1
  other : ∀ q, q ≠ p → s'.storages q = s.storages q
  empty : (s'.storages p).storage = []
  outside : ∀ pl, (∀ f, pl ≠ .pool f) → p ∉ held s pl
  held : ∀ pl, (∀ f, pl ≠ .pool f) →
    held s' pl = Function.update (held s) (.queue s.queueCount) [p] pl
  endpoints : s'.endpoints = s.endpoints
  endpointCount : s'.endpointCount = s.endpointCount
  mailboxes_ : s'.mailboxes_ = s.mailboxes_
  payloadCount : s'.payloadCount = s.payloadCount
  log : s'.log = s.log

theorem Owned.got (ho : Owned s) {pick : Option ℕ} (hs : s.get f pick = some s') :
    ∃ p, Got p s s' := by
  have hheld : ∀ {t : Sys} {q : ℕ} (pl : Place), t.queueCount = s.queueCount →
      held t pl = held s pl →
      held (t.addQueue ⟨q, false, true⟩) pl =
        Function.update (held s) (.queue s.queueCount) [q] pl := by
    intro t q pl hc ht
    rw [held_addQueue, hc]
    by_cases hpl : pl = .queue s.queueCount
    · rw [hpl, Function.update_self, Function.update_self]
      rfl
    · rw [Function.update_of_ne hpl, Function.update_of_ne hpl, ht]
  cases pick with
  | some p =>
    simp only [Sys.get] at hs
    split at hs
    · rename_i hp
      cases hs
      refine ⟨p, rfl, rfl, fun _ _ => rfl, ?_, ?_, ?_, rfl, rfl, rfl, rfl, rfl⟩
      · simp [Sys.addQueue, Sys.setFactory, ho.empty f p hp]
      · intro pl hpl hin
        exact hpl f (ho.apart.one pl (.pool f) p hin hp)
      · intro pl hpl
        refine hheld (t := s.setFactory f _) pl rfl ?_
        rw [held_setFactory, Function.update_of_ne (hpl f)]
    · cases hs
  | none =>
    cases hs
    refine ⟨s.storageCount, rfl, rfl, ?_, ?_, ?_, ?_, rfl, rfl, rfl, rfl, rfl⟩
    · intro q hq
      exact Function.update_of_ne hq ..
    · simp [Sys.addQueue, Sys.setFactory, Sys.newStorage]
    · intro pl _ hin
      exact Nat.lt_irrefl _ (ho.apart.live pl _ hin)
    · intro pl _
      exact hheld (t := withNew f s) pl rfl (by rw [held_withNew])

/-! ### What the pools promise -/

structure Handed (s s' : Sys) : Prop where
  count : s'.queueCount = s.queueCount + 1
  valid : (s'.queues s.queueCount).valid_ = true
  unsealed : (s'.queues s.queueCount).sealed_ = false
  empty : (s'.storages (s'.queues s.queueCount).pStorage_).storage = []
  alone : ∀ pl, (s'.queues s.queueCount).pStorage_ ∈ held s' pl → pl = .queue s.queueCount

structure Destroyed (f : ℕ) (s s' : Sys) (es : List Event) : Prop where
  log : s'.log = s.log ++ es
  deleted : ∀ p, es.count (.deleted p) = if p ∈ (s.factories f).cQueue then 1 else 0
  leak : (∃ n m, .logged (.leak n m) ∈ es) ↔ ∃ p ∈ allocated s f, p ∉ (s.factories f).cQueue

structure Pooled (s : Sys) : Prop where
  one : ∀ p pl pl', p ∈ held s pl → p ∈ held s pl' → pl = pl'
  once : ∀ pl, (held s pl).Nodup
  empty : ∀ f, ∀ p ∈ (s.factories f).cQueue, s.storages p = ⟨(s.factories f).id_, []⟩
  get : ∀ f pick s', Step s (.get f pick) s' → Handed s s'
  get_mq : ∀ e pick s', Step s (.get_mq e pick) s' → Handed s s'
  destroy : ∀ f s', Step s (.destroyFactory f) s' → ∃ es, Destroyed f s s' es

theorem Owned.handed (ho : Owned s) {pick : Option ℕ} (hf : f < s.factoryCount)
    (hs : s.get f pick = some s') : Handed s s' := by
  have ho' : Owned s' := ho.get hf hs
  obtain ⟨p, hg⟩ := ho.got hs
  have hq : s'.queues s.queueCount = ⟨p, false, true⟩ := by
    rw [hg.queues]
    exact Function.update_self ..
  have hin : p ∈ held s' (.queue s.queueCount) := by
    rw [hg.held (.queue s.queueCount) (fun _ => nofun), Function.update_self]
    exact List.mem_singleton_self _
  constructor
  · exact hg.queueCount
  · rw [hq]
  · rw [hq]
  · rw [hq]
    exact hg.empty
  · intro pl hpl
    rw [hq] at hpl
    exact ho'.apart.one pl _ p hpl hin

/-- A pool holds all of the factory's storages exactly if it holds as many. -/
theorem Owned.leaks_iff (ho : Owned s) (hf : f < s.factoryCount) :
    (s.factories f).numActiveQueues_ ≠ (s.factories f).cQueue.length ↔
      ∃ p ∈ allocated s f, p ∉ (s.factories f).cQueue := by
  have hsub : (s.factories f).cQueue.toFinset ⊆ allocated s f := by
    intro p hp
    have hp : p ∈ (s.factories f).cQueue := List.mem_toFinset.mp hp
    have hlt : p < s.storageCount := ho.apart.live (.pool f) p hp
    simp [allocated, hlt, ho.empty f p hp]
  have hlen : (s.factories f).cQueue.toFinset.card = (s.factories f).cQueue.length :=
    List.toFinset_card_of_nodup (ho.apart.nodup (.pool f))
  rw [ho.counted.made f hf, ← hlen]
  constructor
  · intro hne
    have hss : ¬ allocated s f ⊆ (s.factories f).cQueue.toFinset := by
      intro hall
      exact hne (by rw [hsub.antisymm hall])
    obtain ⟨p, hp, hn⟩ := Finset.not_subset.mp hss
    exact ⟨p, hp, fun hin => hn (List.mem_toFinset.mpr hin)⟩
  · intro hex heq
    obtain ⟨p, hp, hn⟩ := hex
    have hall := Finset.eq_of_subset_of_card_le hsub heq.le
    exact hn (List.mem_toFinset.mp (hall ▸ hp))

theorem Owned.destroyed (ho : Owned s) (hf : f < s.factoryCount) :
    ∃ es, Destroyed f s (s.destroyFactory f) es := by
  have hdel : ∀ p, ((s.factories f).cQueue.map Event.deleted).count (.deleted p) =
      if p ∈ (s.factories f).cQueue then 1 else 0 := by
    intro p
    have hinj : Function.Injective Event.deleted := fun a b hab => by cases hab; rfl
    have hnd : (s.factories f).cQueue.Nodup := ho.apart.nodup (.pool f)
    rw [List.count_map_of_injective _ _ hinj, hnd.count]
  refine ⟨_, rfl, ?_, ?_⟩
  · intro p
    rw [List.count_append, hdel, Nat.add_eq_left]
    split <;> rfl
  · rw [← ho.leaks_iff hf]
    by_cases heq : (s.factories f).numActiveQueues_ = (s.factories f).cQueue.length
    · simp [heq]
    · simp [heq]

theorem storages_pooled (id : ℕ) (h : Run Step (.init id) s) : Pooled s := by
  have ho : Owned s := run_owned h
  constructor
  · exact fun p pl pl' => ho.apart.one pl pl' p
  · exact ho.apart.nodup
  · exact ho.empty
  · intro f pick s' hs
    simp only [Step, Sys.step, Option.ite_none_right_eq_some] at hs
    exact ho.handed hs.1.1 hs.2
  · intro e pick s' hs
    simp only [Step, Sys.step, Option.ite_none_right_eq_some] at hs
    exact ho.handed hs.1.2.1 hs.2
  · intro f s' hs
    simp only [Step, Sys.step, Option.ite_none_right_eq_some, Option.some.injEq] at hs
    exact hs.2 ▸ ho.destroyed hs.1.1

/-- Two factories, a queue sent and received, one submitted to the wrong factory, and a storage
used again. -/
def poolUsage : List Op :=
  [.newFactory 8, .claim_mailbox 5, .get_mq 0 none, .push 0 .POKE 0 42, .send 0 0, .recv 0 .BLOCK,
    .get 0 (some 0), .get 1 none, .moveConstruct 1, .submit 0 2, .submit 0 3, .destroyFactory 1]

theorem poolUsage_pooled :
    ∃ s, follow Sys.step poolUsage (.init 7) = some s ∧ Pooled s := by
  have hsome : (follow Sys.step poolUsage (.init 7)).isSome := by decide
  obtain ⟨s, hs⟩ := Option.isSome_iff_exists.mp hsome
  exact ⟨s, hs, storages_pooled 7 (run_of_follow hs)⟩

end Omulator.Msg
