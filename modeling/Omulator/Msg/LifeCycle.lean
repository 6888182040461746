import Omulator.Msg.Payload

/-!
# The operations on managed payloads

A run loses no managed payload, and deletes none twice, exactly if each `push_managed_payload`
puts what it allocates into its queue and each `recv` passes every managed message to a callback.
-/

namespace Omulator.Msg
open Omulator.Lib Omulator.Di

variable {s s' : Sys} {p f e h : ℕ} {mq : MessageQueue} {es : List Event} {ks : List ℕ}
  {msgs : List Message} {y : MailboxEndpoint}

/-! ### Operations that move no payload -/

theorem held_sealed (hh : s.HasQueue h) :
    held (s.setQueue h { s.queues h with sealed_ := true }) = held s := by
  rw [held_setQueue hh, ← Function.update_eq_self (.queue h) (held s), held_queue hh]
  simp [MessageQueue.held]

theorem Kept.newFactory (hk : Kept s) {id : ℕ}
    (hid : ∀ f < s.factoryCount, (s.factories f).id_ ≠ id) : Kept (s.newFactory id) := by
  apply hk.keep (hk.owned.newFactory hid) .nil (by simp [Sys.newFactory]) rfl rfl
  · intro pl q hpl hq
    refine ⟨pl, ?_⟩
    rwa [held_newFactory, Function.update_of_ne (hpl _)]
  · intro pl q hq
    have hsub : (held (s.newFactory id) pl).Sublist (held s pl) := by
      rw [held_newFactory]
      by_cases hpl : pl = .pool s.factoryCount
      · rw [hpl, Function.update_self]
        exact List.nil_sublist _
      · rw [Function.update_of_ne hpl]
    exact ⟨pl, hsub.subset hq⟩

theorem Kept.newEndpoint (hk : Kept s) : Kept (s.newEndpoint f) :=
  hk.frame .nil hk.owned.newEndpoint (held_newEndpoint_eq hk.owned) rfl rfl
    (List.append_nil _).symm

theorem Kept.setEndpoint (hk : Kept s) (hq : y.queue_ = (s.endpoints e).queue_) :
    Kept (s.setEndpoint e y) :=
  hk.frame .nil (hk.owned.setEndpoint (hq ▸ .refl _)) (held_setEndpoint_eq hq) rfl rfl
    (List.append_nil _).symm

theorem Kept.get_entry_ (hk : Kept s) (tok : MailboxToken_t) : Kept (s.get_entry_ tok).2 := by
  have ho := hk.owned.get_entry_ tok
  unfold Sys.get_entry_ at ho ⊢
  cases hm : s.mailboxes_ tok with
  | some e => exact hk
  | none =>
    rw [hm] at ho
    have hn : Kept (s.newEndpoint 0) := hk.newEndpoint
    have hheld : held { s.newEndpoint 0 with
        mailboxes_ := Function.update s.mailboxes_ tok (some s.endpointCount) } =
        held (s.newEndpoint 0) := by
      funext pl
      cases pl <;> rfl
    exact hn.frame .nil ho hheld rfl rfl (List.append_nil _).symm

theorem Kept.claim_mailbox (hk : Kept s) (tok : MailboxToken_t) : Kept (s.claim_mailbox tok) := by
  have hk' : Kept (s.get_entry_ tok).2 := hk.get_entry_ tok
  unfold Sys.claim_mailbox
  dsimp only
  split
  · exact hk'.quiet (Event.quiet_threw _)
  · apply Kept.quiet _ (Event.quiet_claimed _ _)
    exact hk'.setEndpoint rfl

theorem Kept.on (hk : Kept s) (type : MessageType) (cb : ℕ) : Kept (s.on e type cb) := by
  unfold Sys.on
  dsimp only
  split
  · split
    · exact hk.quiet (Event.quiet_logged _)
    · exact hk.setEndpoint rfl
  · exact hk.quiet (Event.quiet_logged _)

theorem Kept.sealed (hk : Kept s) (hh : s.HasQueue h) :
    Kept (s.setQueue h { s.queues h with sealed_ := true }) :=
  hk.frame .nil (hk.owned.sealed hh) (held_sealed hh) rfl rfl (List.append_nil _).symm

theorem Kept.get (hk : Kept s) {pick : Option ℕ} (hf : f < s.factoryCount)
    (hs : s.get f pick = some s') : Kept s' := by
  have ho' : Owned s' := hk.owned.get hf hs
  obtain ⟨p, hg⟩ := hk.owned.got hs
  have hnew : held s (.queue s.queueCount) = [] := if_neg (Nat.lt_irrefl _)
  have hnone : managed s p = [] := by
    apply List.eq_nil_iff_forall_not_mem.mpr
    intro k hkp
    obtain ⟨pl, hpl⟩ := hk.placed p k hkp
    exact hg.outside pl (hk.owned.carrier hkp hpl) hpl
  apply hk.same ho' .nil (by rw [hg.log, List.append_nil]) hg.payloadCount
  · intro q
    by_cases hq : q = p
    · rw [hq, hnone, managed, hg.empty]
      rfl
    · rw [managed, hg.other q hq]
      rfl
  · intro pl q hpl hin
    have hne : pl ≠ .queue s.queueCount := by
      intro heq
      rw [heq, hnew] at hin
      cases hin
    refine ⟨pl, ?_⟩
    rwa [hg.held pl hpl, Function.update_of_ne hne]
  · intro pl q hin msg hmsg
    by_cases hq : q = p
    · rw [hq, hg.empty] at hmsg
      cases hmsg
    · rw [hg.other q hq] at hmsg
      by_cases hpl : ∃ g, pl = .pool g
      · -- a pool holds no message
        obtain ⟨g, hpl⟩ := hpl
        have hst := ho'.empty g q (by rwa [hpl] at hin)
        rw [← hg.other q hq, hst] at hmsg
        cases hmsg
      · have hpl : ∀ g, pl ≠ .pool g := fun g hg => hpl ⟨g, hg⟩
        have hne : pl ≠ .queue s.queueCount := by
          intro heq
          rw [hg.held pl hpl, heq, Function.update_self] at hin
          exact hq (List.mem_singleton.mp hin)
        rw [hg.held pl hpl, Function.update_of_ne hne] at hin
        exact hk.live pl q hin msg hmsg

theorem Kept.send (hk : Kept s) (he : e < s.endpointCount) (hh : s.HasQueue h) :
    Kept (s.send e h) := by
  have ho' : Owned (s.send e h) := hk.owned.send he hh
  by_cases hv : (s.queues h).valid_ = true
  · by_cases hn : (s.queues h).sealed_ = true
    · simp only [Sys.send, if_pos hv, if_pos hn]
      exact hk.quiet (Event.quiet_logged _)
    · have hn : (s.queues h).sealed_ = false := by simpa using hn
      have hlog : (s.send e h).log = s.log ∧ (s.send e h).payloadCount = s.payloadCount ∧
          (s.send e h).storages = s.storages := by
        simp [Sys.send, hv, hn, Sys.setQueue, Sys.setEndpoint]
      have hheld := held_send (e := e) hh hv hn
      have hq : held s (.queue h) = [(s.queues h).pStorage_] := by
        rw [held_queue hh, MessageQueue.held, if_pos hv]
      apply hk.keep ho' .nil (by rw [hlog.1, List.append_nil]) hlog.2.1 hlog.2.2
      · intro pl q _ hpl
        by_cases hplh : pl = .queue h
        · have hqp : q = (s.queues h).pStorage_ := by
            rw [hplh, hq] at hpl
            exact List.mem_singleton.mp hpl
          refine ⟨.pending e, ?_⟩
          have hne : Place.pending e ≠ .queue h := by simp
          rw [hheld, Function.update_of_ne hne, Function.update_self, hqp]
          exact List.mem_append_right _ (List.mem_singleton_self _)
        · refine ⟨pl, ?_⟩
          rw [hheld, Function.update_of_ne hplh]
          by_cases hple : pl = .pending e
          · rw [hple, Function.update_self]
            exact List.mem_append_left _ (hple ▸ hpl)
          · rwa [Function.update_of_ne hple]
      · intro pl q hpl
        rw [hheld] at hpl
        by_cases hplh : pl = .queue h
        · rw [hplh, Function.update_self] at hpl
          cases hpl
        · rw [Function.update_of_ne hplh] at hpl
          by_cases hple : pl = .pending e
          · rw [hple, Function.update_self] at hpl
            rcases List.mem_append.mp hpl with hpl | hpl
            · exact ⟨.pending e, hpl⟩
            · exact ⟨.queue h, hq ▸ hpl⟩
          · rw [Function.update_of_ne hple] at hpl
            exact ⟨pl, hpl⟩
  · simp only [Sys.send, if_neg hv]
    exact hk.quiet (Event.quiet_logged _)

/-! ### Pushing -/

theorem managed_setStorage :
    managed (s.setStorage p msgs) = Function.update (managed s) p (managedOf msgs) := by
  rw [Function.eq_update_iff]
  constructor
  · simp [managed, Sys.setStorage]
  · intro q hq
    simp [managed, Sys.setStorage, hq]

theorem storage_setStorage (q : ℕ) :
    ((s.setStorage p msgs).storages q).storage =
      if q = p then msgs else (s.storages q).storage := by
  by_cases hq : q = p
  · simp [Sys.setStorage, hq]
  · simp [Sys.setStorage, hq]

theorem Kept.live_append (hk : Kept s) {m₀ msg : Message} {pl : Place} {p q : ℕ}
    (h₀ : m₀.has_managed_payload = true → m₀.payload ≠ 0) (hq : q ∈ held s pl)
    (hmsg : msg ∈ if q = p then (s.storages p).storage ++ [m₀] else (s.storages q).storage)
    (hman : msg.has_managed_payload = true) : msg.payload ≠ 0 := by
  by_cases hqp : q = p
  · rw [if_pos hqp] at hmsg
    rcases List.mem_append.mp hmsg with hmsg | hmsg
    · exact hk.live pl q hq msg (hqp ▸ hmsg) hman
    · rw [List.mem_singleton.mp hmsg] at hman ⊢
      exact h₀ hman
  · rw [if_neg hqp] at hmsg
    exact hk.live pl q hq msg hmsg hman

theorem Kept.push_impl_ (hk : Kept s) (hh : s.HasQueue h) {type : MessageType}
    {mflags : MessageFlagType} {payload : ℕ} (hm : mflags &&& .MANAGED_PTR = 0) :
    Kept (s.push_impl_ (s.queues h) type mflags payload) := by
  have ho' := hk.owned.push_impl_ (hk.owned.queue_not_pooled hh) type mflags payload
  have hunman : (⟨type, mflags, payload⟩ : Message).has_managed_payload = false := by
    simp [Message.has_managed_payload, hm]
  unfold Sys.push_impl_ at ho' ⊢
  by_cases hv : (s.queues h).valid_ = true
  · rw [if_pos hv] at ho' ⊢
    by_cases hn : (s.queues h).sealed_ = true
    · rw [if_pos hn]
      exact hk.quiet (Event.quiet_logged _)
    · rw [if_neg hn] at ho' ⊢
      apply hk.same ho' .nil (by simp [Sys.setStorage]) rfl
      · intro q
        have hnone : managedOf [⟨type, mflags, payload⟩] = [] := by
          rw [managedOf_cons, hunman]
          rfl
        rw [managed_setStorage, managedOf_append, hnone, List.append_nil]
        exact congrFun (Function.update_eq_self (s.queues h).pStorage_ (managed s)) q
      · intro pl q _ hq
        exact ⟨pl, by rwa [held_setStorage]⟩
      · intro pl q hq msg hmsg hman
        rw [held_setStorage] at hq
        rw [storage_setStorage] at hmsg
        exact hk.live_append (by simp [hunman]) hq hmsg hman
  · rw [if_neg hv]
    exact hk.quiet (Event.quiet_logged _)

theorem managed_push {s : Sys} (p : ℕ) (type : MessageType) :
    managed (({ s with payloadCount := s.payloadCount + 1 } : Sys).setStorage p
      ((s.storages p).storage ++ [⟨type, .MANAGED_PTR, s.payloadCount + 1⟩])) =
        Function.update (managed s) p (managed s p ++ [s.payloadCount + 1]) := by
  have hone : managedOf [⟨type, .MANAGED_PTR, s.payloadCount + 1⟩] = [s.payloadCount + 1] := by
    simp [managedOf, Message.has_managed_payload, MessageFlagType.MANAGED_PTR]
  rw [managed_setStorage, managedOf_append, hone]
  rfl

theorem Kept.next_not_freed (hk : Kept s) : .freed (s.payloadCount + 1) ∉ s.log := by
  intro hfreed
  have hle := hk.known _ hfreed _ (.inl rfl)
  omega

theorem Kept.next_not_managed (hk : Kept s) (q : ℕ) : s.payloadCount + 1 ∉ managed s q := by
  intro hq
  have hle := (hk.apart.live q _ hq).1
  omega

theorem Kept.push_managed_payload (hk : Kept s) (hh : s.HasQueue h) (type : MessageType)
    {thrown : Option ℕ}
    (hok : (s.queues h).valid_ = true → thrown = none ∧ (s.queues h).sealed_ = false) :
    Kept (s.push_managed_payload (s.queues h) type thrown) := by
  have ho' := hk.owned.push_managed_payload (hk.owned.queue_not_pooled hh) type thrown
  unfold Sys.push_managed_payload at ho' ⊢
  by_cases hv : (s.queues h).valid_ = true
  · obtain ⟨rfl, hopen⟩ := hok hv
    have hn : ¬ (s.queues h).sealed_ = true := by simp [hopen]
    rw [if_pos hv] at ho' ⊢
    dsimp only at ho' ⊢
    unfold Sys.push_impl_ at ho' ⊢
    rw [if_pos hv, if_neg hn] at ho' ⊢
    have hman := managed_push (s := s) (s.queues h).pStorage_ type
    constructor
    · exact ho'
    · rw [hman]
      have hap : Apart (managed s) fun k => k ≤ s.payloadCount + 1 ∧ .freed k ∉ s.log :=
        hk.apart.mono fun k hkl => ⟨Nat.le_succ_of_le hkl.1, hkl.2⟩
      exact hap.put ⟨le_rfl, hk.next_not_freed⟩ hk.next_not_managed (.refl _)
        (List.perm_append_singleton ..)
    · intro q k hkq
      rw [held_setStorage, held_newPayload]
      rw [hman] at hkq
      by_cases hq : q = (s.queues h).pStorage_
      · exact ⟨.queue h, hq ▸ mem_held_queue hh hv⟩
      · rw [Function.update_of_ne hq] at hkq
        exact hk.placed q k hkq
    · intro pl q hq msg hmsg hm
      rw [held_setStorage, held_newPayload] at hq
      rw [storage_setStorage] at hmsg
      exact hk.live_append (fun _ => Nat.succ_ne_zero _) hq hmsg hm
    · intro k hpos hle
      by_cases hkn : k = s.payloadCount + 1
      · refine .inr ⟨(s.queues h).pStorage_, ?_⟩
        rw [hman, Function.update_self, hkn]
        exact List.mem_append_right _ (List.mem_singleton_self _)
      · have hlt : k ≤ s.payloadCount := by
          have hle : k ≤ s.payloadCount + 1 := hle
          omega
        rcases hk.all k hpos hlt with hfreed | ⟨q, hkq⟩
        · exact .inl hfreed
        · refine .inr ⟨q, ?_⟩
          rw [hman]
          by_cases hq : q = (s.queues h).pStorage_
          · rw [hq, Function.update_self]
            exact List.mem_append_left _ (hq ▸ hkq)
          · rwa [Function.update_of_ne hq]
    · intro ev hev k htouch
      exact Nat.le_succ_of_le (hk.known ev hev k htouch)
    · exact hk.safe
    · exact hk.checked
  · rw [if_neg hv]
    exact hk.quiet (Event.quiet_threw _)

/-! ### Serving a queue -/

theorem Kept.served (hk : Kept s) (ho : Owned s') {l : List MessageQueue}
    (hq : (s.endpoints e).queue_ = mq :: l) (hs : Served e mq msgs es s s')
    (hes : Retires es (managed s mq.pStorage_)) (hnone : managedOf msgs = []) : Kept s' := by
  have hgone : managed s' mq.pStorage_ = [] := by
    rcases hs.left with hl | hl
    · rw [managed, hl]
      rfl
    · rw [managed, hl, hnone]
  have hsame : ∀ q, q ≠ mq.pStorage_ → managed s' q = managed s q := by
    intro q hqp
    rw [managed, hs.other q hqp]
    rfl
  obtain ⟨es', hes', hlog⟩ := hs.log
  have hcheck : MessageQueue.release_check msgs = [] := by rw [release_check_eq, if_pos hnone]
  have hfin : Retires es' [] := by
    rcases hes' with hes' | ⟨a, b, hes'⟩
    · rw [hes']
      exact .nil
    · rw [hes']
      exact (Event.quiet_logged _).retires
  have hret : Retires (es ++ MessageQueue.release_check msgs ++ es') (managed s mq.pStorage_) := by
    rw [hcheck, List.append_nil]
    have happ := hes.append hfin (List.disjoint_nil_right _)
    rwa [List.append_nil] at happ
  apply hk.next ho hret hlog hs.payloadCount
  · intro q
    by_cases hqp : q = mq.pStorage_
    · rw [hqp, hgone]
      exact List.nil_sublist _
    · rw [hsame q hqp]
  · intro q k hkq
    by_cases hqp : q = mq.pStorage_
    · exact .inl (hqp ▸ hkq)
    · exact .inr (hsame q hqp ▸ hkq)
  · intro k hkk
    refine ⟨mq.pStorage_, hkk, ?_⟩
    rw [hgone]
    exact List.not_mem_nil
  · intro q k hkq
    by_cases hqp : q = mq.pStorage_
    · rw [hqp, hgone] at hkq
      cases hkq
    · rw [hsame q hqp] at hkq
      obtain ⟨pl, hpl⟩ := hk.placed q k hkq
      refine ⟨pl, ?_⟩
      rw [hs.places hq pl (hk.owned.carrier hkq hpl)]
      by_cases hple : pl = .pending e
      · rw [hple, Function.update_self]
        rw [hple, held_pending hq] at hpl
        exact (List.mem_cons.mp hpl).resolve_left hqp
      · rwa [Function.update_of_ne hple]
  · intro pl q hqpl msg hmsg
    by_cases hpl : ∃ f, pl = .pool f
    · obtain ⟨f, hpl⟩ := hpl
      have hst := ho.empty f q (by rwa [hpl] at hqpl)
      rw [hst] at hmsg
      cases hmsg
    · have hpl : ∀ f, pl ≠ .pool f := fun f hf => hpl ⟨f, hf⟩
      rw [hs.places hq pl hpl] at hqpl
      have hqp : q ≠ mq.pStorage_ := by
        intro hqp
        exact hk.owned.apart.free_of_drop (mem_held_front hq) (hk.owned.front_not_behind hq) pl
          (hqp ▸ hqpl)
      have hsub : (l.map MessageQueue.pStorage_).Sublist (held s (.pending e)) := by
        rw [held_pending hq]
        exact List.sublist_cons_self ..
      rw [hs.other q hqp] at hmsg
      by_cases hple : pl = .pending e
      · rw [hple, Function.update_self] at hqpl
        exact hk.live (.pending e) q (hsub.subset hqpl) msg hmsg
      · rw [Function.update_of_ne hple] at hqpl
        exact hk.live pl q hqpl msg hmsg

theorem callback_callback (e : ℕ) : Callback (s.callback e) := by
  constructor
  intro msg
  unfold Sys.callback
  split
  · exact .inl ⟨e, _, rfl⟩
  · exact .inr ⟨_, rfl⟩

/-- Every managed message that waits at the endpoint is one that `pump_msgs` passes on. -/
def Deliverable (s : Sys) (e : ℕ) : Prop :=
  ∀ mq ∈ (s.endpoints e).queue_, ∀ msg ∈ (s.storages mq.pStorage_).storage,
    msg.has_managed_payload = true → msg.type.deliverable = true

theorem Kept.recvFront (hk : Kept s) {l : List MessageQueue}
    (hq : (s.endpoints e).queue_ = mq :: l) (hd : Deliverable s e) : Kept (s.recvFront e mq) := by
  have hmem : mq ∈ (s.endpoints e).queue_ := hq ▸ List.mem_cons_self
  have hs : Served e mq _ _ s (s.recvFront e mq) :=
    served_recvFront (hk.owned.sent e mq hmem)
  obtain ⟨hret, hnone⟩ := pump_msgs_retires (callback_callback (s := s) e)
    (hk.apart.nodup mq.pStorage_) (hk.live _ _ (mem_held_front hq)) (hd mq hmem)
  exact hk.served (hk.owned.recvFront hq) hq hs hret hnone

theorem Kept.clearFront (hk : Kept s) {l : List MessageQueue}
    (hq : (s.endpoints e).queue_ = mq :: l) : Kept (s.clearFront e mq) := by
  have hmem : mq ∈ (s.endpoints e).queue_ := hq ▸ List.mem_cons_self
  have hs : Served e mq _ _ s (s.clearFront e mq) :=
    served_clearFront (hk.owned.sent e mq hmem).2
  obtain ⟨hret, hnone⟩ := clear_msgs_retires (hk.apart.nodup mq.pStorage_)
  exact hk.served (hk.owned.clearFront hq) hq hs hret hnone

theorem Served.behind (ho : Owned s) (hs : Served e mq msgs es s s') {l : List MessageQueue}
    (hq : (s.endpoints e).queue_ = mq :: l) :
    (s'.endpoints e).queue_ = l ∧
      ∀ mq' ∈ l, s'.storages mq'.pStorage_ = s.storages mq'.pStorage_ := by
  constructor
  · rw [hs.endpoints, queue_popQueue, hq]
    rfl
  · intro mq' hmq'
    apply hs.other
    intro heq
    exact ho.front_not_behind hq (heq ▸ List.mem_map_of_mem hmq')

theorem Kept.recv (hk : Kept s) (hd : Deliverable s e) : Kept (s.recv e) := by
  have hl := recv_front e (fun s => Kept s ∧ Deliverable s e) ?_ ⟨hk, hd⟩
  · exact hl.1.1
  · intro s mq l hi hq
    refine ⟨hi.1.recvFront hq hi.2, ?_⟩
    have hmem : mq ∈ (s.endpoints e).queue_ := hq ▸ List.mem_cons_self
    have hs : Served e mq _ _ s (s.recvFront e mq) := served_recvFront (hi.1.owned.sent e mq hmem)
    obtain ⟨hqueue, hst⟩ := hs.behind hi.1.owned hq
    intro mq' hmq' msg hmsg
    rw [hqueue] at hmq'
    rw [hst mq' hmq'] at hmsg
    exact hi.2 mq' (hq ▸ List.mem_cons_of_mem _ hmq') msg hmsg

theorem Kept.destroyEndpoint (hk : Kept s) : Kept (s.destroyEndpoint e) := by
  have hl := (foldl_front (e := e) Kept (fun _ _ => queue_clearFront)
    (fun _ _ _ hk hq => hk.clearFront hq) hk).1
  exact hl.setEndpoint rfl

/-! ### What goes wrong otherwise -/

/-- The operations of a program that sends and receives. -/
def Op.InScope : Op → Bool
  | .newFactory _ | .newEndpoint _ | .claim_mailbox _ | .get_mailbox _ | .get_mq .. | .push ..
  | .push_managed_payload .. | .seal _ | .on .. | .off .. | .send .. | .recv ..
  | .destroyEndpoint _ => true
  | _ => false

def payloadStep (op : Op) (s : Sys) : Option Sys := if op.InScope then s.step op else none

def PayloadStep (s : Sys) (op : Op) (s' : Sys) : Prop := payloadStep op s = some s'

/-- The operation does not lose a payload. -/
def Careful (s : Sys) : Op → Prop
  | .push_managed_payload h _ thrown =>
    (s.queues h).valid_ = true → thrown = none ∧ (s.queues h).sealed_ = false
  | .recv e _ => Deliverable s e
  | _ => True

theorem Kept.step {op : Op} (hk : Kept s) (hs : PayloadStep s op s') (hc : Careful s op) :
    Kept s' := by
  simp only [PayloadStep, payloadStep, Option.ite_none_right_eq_some] at hs
  obtain ⟨hscope, hs⟩ := hs
  cases op <;> simp only [Op.InScope, Bool.false_eq_true] at hscope <;>
    simp only [Sys.step, Option.ite_none_right_eq_some, Option.some.injEq] at hs
  case newFactory id => exact hs.2 ▸ hk.newFactory hs.1
  case push h type mflags payload => exact hs.2 ▸ hk.push_impl_ hs.1.1 hs.1.2
  case push_managed_payload h type thrown => exact hs.2 ▸ hk.push_managed_payload hs.1 type hc
  case «seal» h => exact hs.2 ▸ hk.sealed hs.1
  case newEndpoint f => exact hs.2 ▸ hk.newEndpoint
  case destroyEndpoint e => exact hs.2 ▸ hk.destroyEndpoint
  case claim_mailbox tok => exact hs.2 ▸ hk.claim_mailbox tok
  case get_mailbox tok => exact hs.2 ▸ (hk.get_entry_ tok).quiet (Event.quiet_mailbox _ _)
  case get_mq e pick => exact hk.get hs.1.2.1 hs.2
  case on e type cb => exact hs.2 ▸ hk.on type cb
  case off e type => exact hs.2 ▸ hk.setEndpoint rfl
  case send e h => exact hs.2 ▸ hk.send hs.1.1.1 hs.1.2
  case recv e recvBehavior => exact hs.2 ▸ hk.recv hc

end Omulator.Msg
