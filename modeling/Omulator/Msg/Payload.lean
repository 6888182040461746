import Omulator.Msg.Serving

/-!
# The life of a managed payload

A payload is carried by a message of one queue, until the queue is received or its endpoint is
destroyed; then it is deleted. Two operations lose it: `push_managed_payload` on a sealed queue or
with a constructor that throws, and `recv` when the message's type is not passed to a callback.
-/

namespace Omulator.Msg
open Omulator.Lib Omulator.Di

/-! ### Payloads in messages, and in the log -/

def managedOf (msgs : List Message) : List ℕ :=
  (msgs.filter fun msg => msg.has_managed_payload && msg.payload != 0).map Message.payload

def managed (s : Sys) (p : ℕ) : List ℕ := managedOf (s.storages p).storage

def Event.Touches (ev : Event) (k : ℕ) : Prop :=
  ev = .freed k ∨
    ∃ e cb msg, ev = .invoked e cb msg ∧ msg.has_managed_payload = true ∧ msg.payload = k

/-- What is deleted is not touched afterwards. -/
def Safe (log : List Event) : Prop := log.Pairwise fun a b => ∀ k, a = .freed k → ¬ b.Touches k

/-- The events delete exactly the payloads `ks`, after all else they do with them. -/
structure Retires (es : List Event) (ks : List ℕ) : Prop where
  freed : ∀ k ∈ ks, .freed k ∈ es
  touches : ∀ ev ∈ es, ∀ k, ev.Touches k → k ∈ ks
  safe : Safe es
  checked : .assert_failed ∉ es

def Event.Quiet (ev : Event) : Prop := (∀ k, ¬ ev.Touches k) ∧ ev ≠ .assert_failed

variable {es es' : List Event} {ks ks' : List ℕ} {msgs : List Message} {msg : Message}

theorem Event.touches_freed {k k' : ℕ} : (Event.freed k).Touches k' ↔ k = k' := by
  simp [Event.Touches]

theorem Event.touches_invoked {e cb k : ℕ} :
    (Event.invoked e cb msg).Touches k ↔
      msg.has_managed_payload = true ∧ msg.payload = k := by
  constructor
  · intro h
    rcases h with h | ⟨e', cb', msg', h, hm⟩
    · cases h
    · cases h
      exact hm
  · intro h
    exact .inr ⟨e, cb, msg, rfl, h⟩

theorem Event.quiet_logged (e : Error) : (Event.logged e).Quiet := by
  simp [Event.Quiet, Event.Touches]

theorem Event.quiet_threw (e : Error) : (Event.threw e).Quiet := by
  simp [Event.Quiet, Event.Touches]

theorem Event.quiet_claimed (tok e : ℕ) : (Event.claimed tok e).Quiet := by
  simp [Event.Quiet, Event.Touches]

theorem Event.quiet_mailbox (tok e : ℕ) : (Event.mailbox tok e).Quiet := by
  simp [Event.Quiet, Event.Touches]

theorem Retires.nil : Retires [] [] :=
  ⟨nofun, nofun, .nil, nofun⟩

theorem retires_freed (k : ℕ) : Retires [.freed k] [k] where
  freed k' hk' := by simpa using hk'
  touches ev hev k' hk' := by
    rw [List.mem_singleton.mp hev, Event.touches_freed] at hk'
    exact hk' ▸ List.mem_singleton_self _
  safe := List.pairwise_singleton ..
  checked := by simp

theorem Event.Quiet.retires {ev : Event} (h : ev.Quiet) : Retires [ev] [] where
  freed k hk := by cases hk
  touches ev' hev k hk := by
    rw [List.mem_singleton.mp hev] at hk
    exact absurd hk (h.1 k)
  safe := List.pairwise_singleton ..
  checked hm := h.2 (List.mem_singleton.mp hm).symm

theorem Retires.append (h : Retires es ks) (h' : Retires es' ks') (hd : ks.Disjoint ks') :
    Retires (es ++ es') (ks ++ ks') where
  freed k hk := by
    rcases List.mem_append.mp hk with hk | hk
    · exact List.mem_append_left _ (h.freed k hk)
    · exact List.mem_append_right _ (h'.freed k hk)
  touches ev hev k hk := by
    rcases List.mem_append.mp hev with hev | hev
    · exact List.mem_append_left _ (h.touches ev hev k hk)
    · exact List.mem_append_right _ (h'.touches ev hev k hk)
  safe := by
    apply List.pairwise_append.mpr
    refine ⟨h.safe, h'.safe, ?_⟩
    intro a ha b hb k hak hbk
    have hk : k ∈ ks := h.touches a ha k (.inl hak)
    exact hd hk (h'.touches b hb k hbk)
  checked hm := (List.mem_append.mp hm).elim h.checked h'.checked

theorem managedOf_cons : managedOf (msg :: msgs) =
    if msg.has_managed_payload && msg.payload != 0 then msg.payload :: managedOf msgs
    else managedOf msgs := by
  unfold managedOf
  rw [List.filter_cons]
  split <;> rfl

theorem managedOf_append (msgs' : List Message) :
    managedOf (msgs ++ msgs') = managedOf msgs ++ managedOf msgs' := by
  simp [managedOf]

theorem release_check_eq :
    MessageQueue.release_check msgs = if managedOf msgs = [] then [] else [.assert_failed] := by
  have hany : (msgs.any fun msg => msg.has_managed_payload && msg.payload != 0) = true ↔
      managedOf msgs ≠ [] := by
    simp [managedOf]
  unfold MessageQueue.release_check
  by_cases hm : managedOf msgs = []
  · rw [if_pos hm, if_neg (fun h => hany.mp h hm)]
  · rw [if_neg hm, if_pos (hany.mpr hm)]

/-! ### The two loops over the messages -/

theorem clear_msgs_retires (hnd : (managedOf msgs).Nodup) :
    Retires (MessageQueue.clear_msgs msgs).2 (managedOf msgs) ∧
      managedOf (MessageQueue.clear_msgs msgs).1 = [] := by
  induction msgs with
  | nil => exact ⟨.nil, rfl⟩
  | cons msg msgs ih =>
    rw [managedOf_cons] at hnd
    rw [managedOf_cons]
    simp only [MessageQueue.clear_msgs]
    by_cases hm : (msg.has_managed_payload && msg.payload != 0) = true
    · rw [if_pos hm] at hnd
      have hne : msg.payload ≠ 0 := by
        simp only [Bool.and_eq_true, bne_iff_ne] at hm
        exact hm.2
      have hnd' := List.nodup_cons.mp hnd
      obtain ⟨hret, hnone⟩ := ih hnd'.2
      have hd : [msg.payload].Disjoint (managedOf msgs) := by simpa using hnd'.1
      have hfree : MessageQueue.free_managed_payload_ msg =
          ({ msg with payload := 0 }, [.freed msg.payload]) := by
        simp [MessageQueue.free_managed_payload_, hne]
      simp only [if_pos hm, hfree]
      refine ⟨(retires_freed msg.payload).append hret hd, ?_⟩
      rw [managedOf_cons, if_neg (by simp), hnone]
    · rw [if_neg hm] at hnd
      obtain ⟨hret, hnone⟩ := ih hnd
      simp only [if_neg hm, List.nil_append]
      refine ⟨hret, ?_⟩
      rw [managedOf_cons, if_neg hm, hnone]

/-- A callback that returns normally leaves one event. -/
structure Callback (callback : Message → List Event) : Prop where
  one : ∀ msg, (∃ e cb, callback msg = [.invoked e cb msg]) ∨ ∃ e, callback msg = [.logged e]

theorem Callback.retires {callback : Message → List Event} (hcb : Callback callback)
    (hm : msg.has_managed_payload ≠ true) : Retires (callback msg) [] := by
  rcases hcb.one msg with ⟨e, cb, h⟩ | ⟨e, h⟩
  · rw [h]
    have hq : (Event.invoked e cb msg).Quiet := by
      refine ⟨fun k hk => ?_, nofun⟩
      exact hm (Event.touches_invoked.mp hk).1
    exact hq.retires
  · rw [h]
    exact (Event.quiet_logged e).retires

theorem Callback.retires_managed {callback : Message → List Event} (hcb : Callback callback) :
    Retires (callback msg ++ [.freed msg.payload]) [msg.payload] := by
  rcases hcb.one msg with ⟨e, cb, h⟩ | ⟨e, h⟩
  · rw [h]
    constructor
    · intro k hk
      simpa using hk
    · intro ev hev k hk
      rcases List.mem_cons.mp hev with hev | hev
      · rw [hev, Event.touches_invoked] at hk
        simp [hk.2]
      · exact (retires_freed msg.payload).touches ev hev k hk
    · simp [Safe]
    · simp
  · rw [h]
    exact (Event.quiet_logged e).retires.append (retires_freed _) (List.disjoint_nil_left _)

theorem pump_msgs_retires {callback : Message → List Event} (hcb : Callback callback)
    (hnd : (managedOf msgs).Nodup)
    (hlive : ∀ msg ∈ msgs, msg.has_managed_payload = true → msg.payload ≠ 0)
    (hdel : ∀ msg ∈ msgs, msg.has_managed_payload = true → msg.type.deliverable = true) :
    Retires (MessageQueue.pump_msgs callback msgs).2 (managedOf msgs) ∧
      managedOf (MessageQueue.pump_msgs callback msgs).1 = [] := by
  induction msgs with
  | nil => exact ⟨.nil, rfl⟩
  | cons msg msgs ih =>
    rw [managedOf_cons] at hnd
    have hlive' := fun m hm => hlive m (List.mem_cons_of_mem msg hm)
    have hdel' := fun m hm => hdel m (List.mem_cons_of_mem msg hm)
    by_cases hm : msg.has_managed_payload = true
    · have hne : msg.payload ≠ 0 := hlive msg List.mem_cons_self hm
      have hty := MessageType.deliverable_iff.mp (hdel msg List.mem_cons_self hm)
      have hheld : (msg.has_managed_payload && msg.payload != 0) = true := by simp [hm, hne]
      rw [if_pos hheld] at hnd
      have hnd' := List.nodup_cons.mp hnd
      obtain ⟨hret, hnone⟩ := ih hnd'.2 hlive' hdel'
      have hd : [msg.payload].Disjoint (managedOf msgs) := by simpa using hnd'.1
      have hfree : MessageQueue.free_managed_payload_ msg =
          ({ msg with payload := 0 }, [.freed msg.payload]) := by
        simp [MessageQueue.free_managed_payload_, hne]
      rw [managedOf_cons, if_pos hheld]
      simp only [MessageQueue.pump_msgs, if_neg hty.1, if_neg hty.2, if_pos hm, hfree]
      refine ⟨hcb.retires_managed.append hret hd, ?_⟩
      rw [managedOf_cons, if_neg (by simp), hnone]
    · have hheld : ¬ (msg.has_managed_payload && msg.payload != 0) = true := by simp [hm]
      rw [if_neg hheld] at hnd
      obtain ⟨hret, hnone⟩ := ih hnd hlive' hdel'
      rw [managedOf_cons, if_neg hheld]
      simp only [MessageQueue.pump_msgs, if_neg hm]
      split
      · refine ⟨hret, ?_⟩
        rw [managedOf_cons, if_neg hheld, hnone]
      · split
        · refine ⟨(Event.quiet_logged _).retires.append hret (List.disjoint_nil_left _), ?_⟩
          rw [managedOf_cons, if_neg hheld, hnone]
        · refine ⟨(hcb.retires hm).append hret (List.disjoint_nil_left _), ?_⟩
          rw [managedOf_cons, if_neg hheld, hnone]

/-! ### The invariant -/

def Carried (s : Sys) (k : ℕ) : Prop :=
  ∃ pl p, (∀ f, pl ≠ .pool f) ∧ p ∈ held s pl ∧ k ∈ managed s p

/-- No payload is lost, none is deleted twice or used after that, and no `assert` has failed. -/
structure Sound (s : Sys) : Prop where
  accounted : ∀ k, 0 < k → k ≤ s.payloadCount → (.freed k ∈ s.log ↔ ¬ Carried s k)
  safe : Safe s.log
  checked : .assert_failed ∉ s.log

structure Kept (s : Sys) : Prop where
  owned : Owned s
  apart : Apart (managed s) fun k => k ≤ s.payloadCount ∧ .freed k ∉ s.log
  placed : ∀ p k, k ∈ managed s p → ∃ pl, p ∈ held s pl
  live : ∀ pl p, p ∈ held s pl → ∀ msg ∈ (s.storages p).storage,
    msg.has_managed_payload = true → msg.payload ≠ 0
  all : ∀ k, 0 < k → k ≤ s.payloadCount → .freed k ∈ s.log ∨ ∃ p, k ∈ managed s p
  known : ∀ ev ∈ s.log, ∀ k, ev.Touches k → k ≤ s.payloadCount
  safe : Safe s.log
  checked : .assert_failed ∉ s.log

variable {s s' : Sys} {p f e h : ℕ} {mq : MessageQueue}

theorem Owned.carrier (ho : Owned s) {k : ℕ} {pl : Place} (hkp : k ∈ managed s p)
    (hpl : p ∈ held s pl) (f : ℕ) : pl ≠ .pool f := by
  intro hf
  have hst : s.storages p = ⟨(s.factories f).id_, []⟩ := ho.empty f p (by rwa [hf] at hpl)
  rw [managed, hst] at hkp
  cases hkp

theorem Kept.sound (hk : Kept s) : Sound s where
  accounted k hpos hle := by
    constructor
    · intro hfreed hcar
      obtain ⟨pl, p, _, _, hkp⟩ := hcar
      exact (hk.apart.live p k hkp).2 hfreed
    · intro hcar
      rcases hk.all k hpos hle with hfreed | ⟨p, hkp⟩
      · exact hfreed
      · obtain ⟨pl, hpl⟩ := hk.placed p k hkp
        exact absurd ⟨pl, p, hk.owned.carrier hkp hpl, hpl, hkp⟩ hcar
  safe := hk.safe
  checked := hk.checked

theorem Kept.next (hk : Kept s) (ho : Owned s') (hes : Retires es ks)
    (hlog : s'.log = s.log ++ es) (hcount : s'.payloadCount = s.payloadCount)
    (hsub : ∀ q, (managed s' q).Sublist (managed s q))
    (hsplit : ∀ q, ∀ k ∈ managed s q, k ∈ ks ∨ k ∈ managed s' q)
    (hks : ∀ k ∈ ks, ∃ q, k ∈ managed s q ∧ k ∉ managed s' q)
    (hheld : ∀ q, ∀ k ∈ managed s' q, ∃ pl, q ∈ held s' pl)
    (hlive : ∀ pl q, q ∈ held s' pl → ∀ msg ∈ (s'.storages q).storage,
      msg.has_managed_payload = true → msg.payload ≠ 0) : Kept s' := by
  have hold : ∀ k ∈ ks, k ≤ s.payloadCount ∧ .freed k ∉ s.log := by
    intro k hkk
    obtain ⟨q, hkq, _⟩ := hks k hkk
    exact hk.apart.live q k hkq
  constructor
  · exact ho
  · have hap := hk.apart.sub hsub
    refine ⟨hap.nodup, hap.one, ?_⟩
    intro q k hkq
    obtain ⟨hle, hn⟩ := hap.live q k hkq
    refine ⟨hcount ▸ hle, ?_⟩
    rw [hlog, List.mem_append]
    intro hfreed
    rcases hfreed with hfreed | hfreed
    · exact hn hfreed
    · -- a payload that is deleted now is in no message any more
      obtain ⟨q', hkq', hgone⟩ := hks k (hes.touches _ hfreed k (.inl rfl))
      have heq : q = q' := hk.apart.one q q' k ((hsub q).subset hkq) hkq'
      exact hgone (heq ▸ hkq)
  · exact fun q k hkq => hheld q k hkq
  · exact hlive
  · intro k hpos hle
    rw [hlog]
    rcases hk.all k hpos (hcount ▸ hle) with hfreed | ⟨q, hkq⟩
    · exact .inl (List.mem_append_left _ hfreed)
    · rcases hsplit q k hkq with hkk | hkq'
      · exact .inl (List.mem_append_right _ (hes.freed k hkk))
      · exact .inr ⟨q, hkq'⟩
  · intro ev hev k htouch
    rw [hcount]
    rw [hlog] at hev
    rcases List.mem_append.mp hev with hev | hev
    · exact hk.known ev hev k htouch
    · exact (hold k (hes.touches ev hev k htouch)).1
  · rw [hlog]
    apply List.pairwise_append.mpr
    refine ⟨hk.safe, hes.safe, ?_⟩
    intro a ha b hb k hak hbk
    exact (hold k (hes.touches b hb k hbk)).2 (hak ▸ ha)
  · rw [hlog]
    intro hm
    exact (List.mem_append.mp hm).elim hk.checked hes.checked

theorem Kept.same (hk : Kept s) (ho : Owned s') (hes : Retires es [])
    (hlog : s'.log = s.log ++ es) (hcount : s'.payloadCount = s.payloadCount)
    (hman : ∀ q, managed s' q = managed s q)
    (hin : ∀ pl q, (∀ f, pl ≠ .pool f) → q ∈ held s pl → ∃ pl', q ∈ held s' pl')
    (hlive : ∀ pl q, q ∈ held s' pl → ∀ msg ∈ (s'.storages q).storage,
      msg.has_managed_payload = true → msg.payload ≠ 0) : Kept s' := by
  apply hk.next ho hes hlog hcount
  · exact fun q => hman q ▸ .refl _
  · exact fun q k hkq => .inr (hman q ▸ hkq)
  · exact nofun
  · intro q k hkq
    have hkq : k ∈ managed s q := hman q ▸ hkq
    obtain ⟨pl, hpl⟩ := hk.placed q k hkq
    exact hin pl q (hk.owned.carrier hkq hpl) hpl
  · exact hlive

theorem Kept.keep (hk : Kept s) (ho : Owned s') (hes : Retires es [])
    (hlog : s'.log = s.log ++ es) (hcount : s'.payloadCount = s.payloadCount)
    (hst : s'.storages = s.storages)
    (hin : ∀ pl q, (∀ f, pl ≠ .pool f) → q ∈ held s pl → ∃ pl', q ∈ held s' pl')
    (hout : ∀ pl q, q ∈ held s' pl → ∃ pl', q ∈ held s pl') : Kept s' := by
  apply hk.same ho hes hlog hcount (fun q => by rw [managed, hst]; rfl) hin
  intro pl q hq msg hmsg
  obtain ⟨pl', hq'⟩ := hout pl q hq
  exact hk.live pl' q hq' msg (hst ▸ hmsg)

theorem Kept.frame (hk : Kept s) (hes : Retires es []) (ho : Owned s') (hheld : held s' = held s)
    (hst : s'.storages = s.storages) (hcount : s'.payloadCount = s.payloadCount)
    (hlog : s'.log = s.log ++ es) : Kept s' :=
  hk.keep ho hes hlog hcount hst (fun pl q _ hq => ⟨pl, by rwa [hheld]⟩)
    (fun pl q hq => ⟨pl, by rwa [hheld] at hq⟩)

theorem Kept.quiet (hk : Kept s) {ev : Event} (hev : ev.Quiet) : Kept (s.emit [ev]) :=
  hk.frame hev.retires (hk.owned.emit _) (held_emit _) rfl rfl rfl

end Omulator.Msg
