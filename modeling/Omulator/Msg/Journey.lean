import Omulator.Msg.Delivery

/-!
# The way of a message (`MailboxSender.hpp`, `MessageQueue.hpp`, `src/MailboxEndpoint.cpp`)

From `push`, or `send_single_message`, to the callback of the endpoint that the queue is sent to,
whatever a program does with the router in between.
-/

namespace Omulator.Msg
open Omulator.Lib

/-- `send_single_message(type, payload)` of a sender for the endpoint `e`; the variable `mq` is the
next one. -/
def Sys.send_single_message (e : ℕ) (pick : Option ℕ) (type : MessageType) (payload : ℕ)
    (s : Sys) : List Op :=
  [.get_mq e pick, .push s.queueCount type .FLAGS_NULL payload, .send e s.queueCount]

/-- The message is sent to the endpoint `e`; a queue is still open when `send` gets it. -/
inductive Sent (e : ℕ) (type : MessageType) (payload : ℕ) (s s' : Sys) : Prop
  | batched {h : ℕ} {ops : List Op} {t : Sys}
      (pushed : follow mailStep (.push h type .FLAGS_NULL payload :: ops) s = some t)
      (valid : (t.queues h).valid_ = true) (unsealed : (t.queues h).sealed_ = false)
      (sent : mailStep (.send e h) t = some s')
  | single {pick : Option ℕ}
      (sent : follow mailStep (s.send_single_message e pick type payload) s = some s')

variable {s s' t : Sys} {m : Mail} {op : Op} {ops : List Op} {e h i : ℕ} {b b' : Mailbox}
  {tok tok' : MailboxToken_t} {msg msg' : Message} {msgs : List Message} {type : MessageType}
  {payload : ℕ} {thrown : Option ℕ}

/-! ### In a draft -/

/-- As long as the draft `h` can be sent, the message is in it. -/
def Mail.Carries (m : Mail) (h : ℕ) (msg : Message) : Prop :=
  ∀ msgs, m.drafts h = some ⟨msgs, false⟩ → msg ∈ msgs

theorem carries_atDraft (hc : m.Carries h msg) (i : ℕ) {f : Option Draft → Option Draft}
    (hf : ∀ d msgs', f d = some ⟨msgs', false⟩ → ∃ msgs, d = some ⟨msgs, false⟩ ∧ msgs ⊆ msgs') :
    (m.atDraft i f).Carries h msg := by
  intro msgs' hd
  unfold Mail.atDraft at hd
  dsimp only at hd
  by_cases hi : h = i
  · rw [hi, Function.update_self] at hd
    obtain ⟨msgs, hm, hsub⟩ := hf _ _ hd
    exact hsub (hc msgs (hi ▸ hm))
  · rw [Function.update_of_ne hi] at hd
    exact hc msgs' hd

theorem Draft.push_open {d : Option Draft} (hd : d.map (Draft.push msg) = some ⟨msgs, false⟩) :
    ∃ before, d = some ⟨before, false⟩ ∧ msgs = before ++ [msg] := by
  obtain ⟨⟨before, isSealed⟩, rfl, hp⟩ := Option.map_eq_some_iff.mp hd
  cases isSealed with
  | false => exact ⟨before, rfl, (congrArg Draft.msgs hp).symm⟩
  | true => cases hp

theorem carries_push_self : (m.push h msg).Carries h msg := by
  intro msgs hd
  unfold Mail.push Mail.atDraft at hd
  dsimp only at hd
  rw [Function.update_self] at hd
  obtain ⟨before, -, rfl⟩ := Draft.push_open hd
  exact List.mem_append_right _ (List.mem_singleton_self msg)

theorem carries_push (hc : m.Carries h msg) (i : ℕ) (msg' : Message) :
    (m.push i msg').Carries h msg := by
  apply carries_atDraft hc
  intro d msgs' hd
  obtain ⟨before, hbefore, rfl⟩ := Draft.push_open hd
  exact ⟨before, hbefore, List.subset_append_left _ _⟩

theorem carries_addDraft (hc : m.Carries h msg) (hh : h < m.draftCount) :
    m.addDraft.Carries h msg := by
  intro msgs hd
  have hne : h ≠ m.draftCount := by omega
  have hsame : m.addDraft.drafts h = m.drafts h := Function.update_of_ne hne ..
  exact hc msgs (hsame ▸ hd)

theorem name_drafts : (m.name tok).drafts = m.drafts := by
  unfold Mail.name
  split <;> rfl

theorem carries_step (hc : m.Carries h msg) (hh : h < m.draftCount) (op : Op) :
    (m.step op).Carries h msg := by
  cases op with
  | claim_mailbox tok =>
    intro msgs hd
    exact hc msgs (name_drafts ▸ hd)
  | get_mailbox tok =>
    intro msgs hd
    exact hc msgs (name_drafts ▸ hd)
  | get_mq e pick => exact carries_addDraft hc hh
  | push i type mflags payload => exact carries_push hc i _
  | push_managed_payload i type thrown =>
    unfold Mail.step Mail.push_managed_payload
    dsimp only
    split
    · cases thrown with
      | none => exact carries_push (m := { m with payloadCount := m.payloadCount + 1 }) hc i _
      | some exn => exact hc
    · exact hc
  | «seal» i =>
    apply carries_atDraft hc
    intro d msgs' hd
    obtain ⟨_, _, hs⟩ := Option.map_eq_some_iff.mp hd
    cases hs
  | send e i =>
    unfold Mail.step Mail.send
    dsimp only
    split
    · apply carries_atDraft (m := m.atBox _ _) hc
      intro d msgs' hd
      cases hd
    · exact hc
  | _ => exact hc

theorem draftCount_step (m : Mail) (op : Op) : m.draftCount ≤ (m.step op).draftCount := by
  cases op with
  | claim_mailbox tok | get_mailbox tok =>
    change _ ≤ (m.name tok).draftCount
    unfold Mail.name
    split <;> exact Nat.le_refl _
  | get_mq e pick => exact Nat.le_succ _
  | push_managed_payload i type thrown =>
    change _ ≤ (m.push_managed_payload i type thrown).draftCount
    unfold Mail.push_managed_payload
    split
    · cases thrown <;> exact Nat.le_refl _
    · exact Nat.le_refl _
  | send e i =>
    change _ ≤ (m.send e i).draftCount
    unfold Mail.send
    split <;> exact Nat.le_refl _
  | _ => exact Nat.le_refl _

theorem carries_follow (hs : Sim s m) (hc : m.Carries i msg) (hh : i < m.draftCount)
    (h : follow mailStep ops s = some s') :
    ∃ m', Sim s' m' ∧ m'.Carries i msg := by
  induction ops generalizing s m with
  | nil =>
    cases h
    exact ⟨m, hs, hc⟩
  | cons op ops ih =>
    simp only [follow, Option.bind_eq_some_iff] at h
    obtain ⟨t, ht, h⟩ := h
    exact ih (hs.step ht) (carries_step hc hh op) (hh.trans_le (draftCount_step m op)) h

/-! ### In the queue of an endpoint -/

/-- More queues are accepted at most, and none is received. -/
structure Grows (b b' : Mailbox) : Prop where
  accepted : b.accepted <+: b'.accepted
  received : b'.received = b.received

theorem Grows.rfl (b : Mailbox) : Grows b b := ⟨List.prefix_rfl, Eq.refl _⟩

theorem grows_atBox {f : Mailbox → Mailbox} (hf : ∀ b, Grows b (f b)) :
    Grows (m.boxes tok) ((m.atBox tok' f).boxes tok) := by
  unfold Mail.atBox
  dsimp only
  by_cases htok : tok = tok'
  · rw [htok, Function.update_self]
    exact hf _
  · rw [Function.update_of_ne htok]
    exact .rfl _

theorem grows_on (type : MessageType) (cb : ℕ) (b : Mailbox) : Grows b (b.on type cb) := by
  unfold Mailbox.on
  split
  · exact ⟨List.prefix_rfl, Eq.refl _⟩
  · exact .rfl b

theorem name_boxes : (m.name tok).boxes = m.boxes := by
  unfold Mail.name
  split <;> rfl

theorem push_managed_payload_boxes :
    (m.push_managed_payload i type thrown).boxes = m.boxes := by
  unfold Mail.push_managed_payload
  split
  · cases thrown <;> rfl
  · rfl

theorem grows_accept (msgs : List Message) (b : Mailbox) :
    Grows b { b with accepted := b.accepted ++ [msgs] } :=
  ⟨List.prefix_append _ _, Eq.refl _⟩

theorem grows_send : Grows (m.boxes tok) ((m.send e i).boxes tok) := by
  unfold Mail.send
  split
  · exact grows_atBox (grows_accept _)
  · exact .rfl _

theorem grows_step (hs : Sim s m) (htok : m.tokens[e]? = some tok) (h : mailStep op s = some s')
    (hop : ∀ recvBehavior, op ≠ .recv e recvBehavior) :
    Grows (m.boxes tok) ((m.step op).boxes tok) := by
  cases op with
  | claim_mailbox tok' =>
    have hclaim : ∀ b : Mailbox, Grows b { b with claimed := true } :=
      fun b => ⟨List.prefix_rfl, Eq.refl _⟩
    have hsame : (m.name tok').boxes = m.boxes := name_boxes
    rw [← hsame]
    exact grows_atBox hclaim
  | get_mailbox tok' =>
    change Grows _ ((m.name tok').boxes tok)
    rw [name_boxes]
    exact .rfl _
  | push_managed_payload i type thrown =>
    change Grows _ ((m.push_managed_payload i type thrown).boxes tok)
    rw [push_managed_payload_boxes]
    exact .rfl _
  | send e' i => exact grows_send
  | on e' type cb => exact grows_atBox (grows_on type cb)
  | off e' type => exact grows_atBox fun b => ⟨List.prefix_rfl, Eq.refl _⟩
  | recv e' recvBehavior =>
    simp only [mailStep, Op.OnMail, if_true, Sys.step, Option.ite_none_right_eq_some] at h
    have htok' := hs.names.token h.1.1.1
    have hne : tok ≠ m.token e' := by
      intro heq
      have hee : e' = e := hs.names.inj (heq ▸ htok') htok
      exact hop recvBehavior (by rw [hee])
    have hsame : (m.step (.recv e' recvBehavior)).boxes tok = m.boxes tok :=
      Function.update_of_ne hne ..
    rw [hsame]
    exact .rfl _
  | _ => exact .rfl _

theorem tokens_step (m : Mail) (op : Op) : m.tokens <+: (m.step op).tokens := by
  cases op with
  | claim_mailbox tok | get_mailbox tok =>
    change _ <+: (m.name tok).tokens
    unfold Mail.name
    split
    · exact List.prefix_rfl
    · exact List.prefix_append _ _
  | push_managed_payload i type thrown =>
    change _ <+: (m.push_managed_payload i type thrown).tokens
    unfold Mail.push_managed_payload
    split
    · cases thrown <;> exact List.prefix_rfl
    · exact List.prefix_rfl
  | send e i =>
    change _ <+: (m.send e i).tokens
    unfold Mail.send
    split <;> exact List.prefix_rfl
  | _ => exact List.prefix_rfl

theorem waiting_step (hs : Sim s m) (he : e < s.endpointCount) (h : mailStep op s = some s')
    (hop : ∀ recvBehavior, op ≠ .recv e recvBehavior) :
    e < s'.endpointCount ∧ waiting s e <+: waiting s' e := by
  have hs' := hs.step h
  have htok := hs.names.token he
  have htok' : (m.step op).tokens[e]? = some (m.token e) := by
    obtain ⟨more, hmore⟩ := tokens_step m op
    rw [← hmore, List.getElem?_append_left (List.getElem?_eq_some_iff.mp htok).1, htok]
  have hb := hs.boxes.box e _ htok
  have hb' := hs'.boxes.box e _ htok'
  have hg := grows_step hs htok h hop
  constructor
  · rw [← hs'.names.count]
    exact (List.getElem?_eq_some_iff.mp htok').1
  · rw [← hb.waiting, ← hb'.waiting, hg.received]
    exact hg.accepted.drop _

theorem waiting_follow (hs : Sim s m) (he : e < s.endpointCount)
    (h : follow mailStep ops s = some s') (hops : ∀ recvBehavior, .recv e recvBehavior ∉ ops) :
    (∃ m', Sim s' m') ∧ e < s'.endpointCount ∧ waiting s e <+: waiting s' e := by
  induction ops generalizing s m with
  | nil =>
    cases h
    exact ⟨⟨m, hs⟩, he, List.prefix_rfl⟩
  | cons op ops ih =>
    simp only [follow, Option.bind_eq_some_iff] at h
    obtain ⟨t, ht, h⟩ := h
    have hop : ∀ recvBehavior, op ≠ .recv e recvBehavior := by
      intro recvBehavior heq
      exact hops recvBehavior (heq ▸ List.mem_cons_self)
    obtain ⟨he', hpre⟩ := waiting_step hs he ht hop
    obtain ⟨hs', hlt, hpre'⟩ := ih (hs.step ht) he' h
      fun recvBehavior hin => hops recvBehavior (List.mem_cons_of_mem _ hin)
    exact ⟨hs', hlt, hpre.trans hpre'⟩

/-! ### At the callbacks -/

theorem deliver_replicate (callbacks : MessageType → Option ℕ) (queues : List (List Message)) :
    (queues.zip (List.replicate queues.length callbacks)).flatMap (fun x => deliver x.2 x.1) =
      queues.flatMap (deliver callbacks) := by
  induction queues with
  | nil => rfl
  | cons msgs queues ih =>
    rw [List.length_cons, List.replicate_succ, List.zip_cons_cons, List.flatMap_cons, ih,
      List.flatMap_cons]

/-- Each queue that waits is delivered to the callbacks there are. -/
theorem Mailbox.delivered_receive (hle : b.received.length ≤ b.accepted.length) :
    b.receive.delivered =
      b.delivered ++ (b.accepted.drop b.received.length).flatMap (deliver b.callbacks) := by
  have hlen : (b.accepted.take b.received.length).length = b.received.length := by
    rw [List.length_take]
    omega
  have hrest : b.accepted.length - b.received.length =
      (b.accepted.drop b.received.length).length := List.length_drop.symm
  have hold : b.accepted.zip b.received = (b.accepted.take b.received.length).zip b.received := by
    conv_lhs => rw [← List.take_append_drop b.received.length b.accepted]
    exact zip_append_of_le (Nat.le_of_eq hlen.symm)
  have hnew : b.accepted.zip b.receive.received =
      (b.accepted.take b.received.length).zip b.received ++
        (b.accepted.drop b.received.length).zip
          (List.replicate (b.accepted.drop b.received.length).length b.callbacks) := by
    conv_lhs => rw [← List.take_append_drop b.received.length b.accepted]
    unfold Mailbox.receive
    dsimp only
    rw [hrest, List.zip_append hlen]
  calc b.receive.delivered
      = (b.accepted.zip b.receive.received).flatMap (fun x => deliver x.2 x.1) := rfl
    _ = b.delivered ++ (b.accepted.drop b.received.length).flatMap (deliver b.callbacks) := by
        rw [hnew, ← hold, List.flatMap_append, deliver_replicate]
        rfl

theorem recv_invocations (hs : Sim s m) (he : e < s.endpointCount) :
    invocations e (s.recv e).log =
      invocations e s.log ++ (waiting s e).flatMap (deliver (s.endpoints e).callbacks_) := by
  have htok := hs.names.token he
  have hb := hs.boxes.box e _ htok
  have hb' := (hs.recv he).boxes.box e _ htok
  have hself : (m.atBox (m.token e) Mailbox.receive).boxes (m.token e) =
      (m.boxes (m.token e)).receive := Function.update_self ..
  rw [hb'.delivered, hself, Mailbox.delivered_receive hb.le, hb.delivered, hb.waiting,
    hb.callbacks]

/-! ### The whole way -/

theorem Sim.draft_open (hs : Sim s m) (hh : s.HasQueue h) :
    m.drafts h = some ⟨msgs, false⟩ ↔ (s.queues h).valid_ = true ∧
      (s.queues h).sealed_ = false ∧ contents s (s.queues h).pStorage_ = msgs := by
  rw [hs.drafts.draft h hh, draft]
  by_cases hv : (s.queues h).valid_ = true
  · rw [if_pos hv]
    simp [hv, and_comm]
  · rw [if_neg hv]
    simp [hv]

theorem waiting_batched (hs : Sim s m)
    (hpush : follow mailStep (.push h type .FLAGS_NULL payload :: ops) s = some t)
    (hv : (t.queues h).valid_ = true) (hn : (t.queues h).sealed_ = false)
    (hsend : mailStep (.send e h) t = some s') :
    (∃ m', Sim s' m') ∧ e < s'.endpointCount ∧
      ∃ msgs ∈ waiting s' e, (⟨type, .FLAGS_NULL, payload⟩ : Message) ∈ msgs := by
  simp only [follow, Option.bind_eq_some_iff] at hpush
  obtain ⟨u, hu, hops⟩ := hpush
  have hh : s.HasQueue h := by
    simp only [mailStep, Op.OnMail, if_true, Sys.step, Option.ite_none_right_eq_some] at hu
    exact hu.1.1
  have hlt : h < m.draftCount := hs.drafts.count ▸ hh
  obtain ⟨m', hs', hc⟩ := carries_follow (hs.step hu) (m := m.push h _) carries_push_self hlt hops
  have hstep := hs'.step hsend
  simp only [mailStep, Op.OnMail, if_true, Sys.step, Option.ite_none_right_eq_some,
    Option.some.injEq] at hsend
  obtain ⟨⟨he, hht⟩, rfl⟩ := hsend
  have hopen := (hs'.draft_open hht).mpr ⟨hv, hn, rfl⟩
  have hend : (t.send e h).endpointCount = t.endpointCount := by rw [send_open hv hn]; rfl
  refine ⟨⟨_, hstep⟩, hend ▸ he.1, contents t (t.queues h).pStorage_, ?_, hc _ hopen⟩
  rw [waiting_send hht hv hn]
  exact List.mem_append_right _ (List.mem_singleton_self _)

theorem addDraft_push (m : Mail) (msg : Message) :
    (m.addDraft.push m.draftCount msg).drafts m.draftCount = some ⟨[msg], false⟩ := by
  simp [Mail.push, Mail.atDraft, Mail.addDraft, Draft.push]

theorem waiting_sent (hs : Sim s m) (h : Sent e type payload s s') :
    (∃ m', Sim s' m') ∧ e < s'.endpointCount ∧
      ∃ msgs ∈ waiting s' e, (⟨type, .FLAGS_NULL, payload⟩ : Message) ∈ msgs := by
  cases h with
  | batched pushed valid unsealed sent => exact waiting_batched hs pushed valid unsealed sent
  | @single pick sent =>
    simp only [Sys.send_single_message, follow, Option.bind_eq_some_iff] at sent
    obtain ⟨t, ht, u, hu, v, hsend, hv⟩ := sent
    cases hv
    have hst := hs.step ht
    have hqueue : u.HasQueue s.queueCount := by
      have hguard := hsend
      simp only [mailStep, Op.OnMail, if_true, Sys.step, Option.ite_none_right_eq_some] at hguard
      exact hguard.1.2
    have hdraft := addDraft_push m ⟨type, .FLAGS_NULL, payload⟩
    rw [hs.drafts.count] at hdraft
    obtain ⟨hvalid, hunsealed, -⟩ := ((hst.step hu).draft_open hqueue).mp hdraft
    have hpush : follow mailStep [.push s.queueCount type .FLAGS_NULL payload] t = some u := by
      simp [follow, hu]
    exact waiting_batched hst hpush hvalid hunsealed hsend

/-- A message of the type `type` is sent to the endpoint `e`, and the next `recv` on it finds the
callback `cb` for that type. -/
structure Journey (type : MessageType) (payload : ℕ) where
  id : ℕ
  before : List Op
  between : List Op
  /-- before the message is pushed, once it is sent, before it is received and after that -/
  s₀ : Sys
  s₁ : Sys
  s₂ : Sys
  s₃ : Sys
  e : ℕ
  cb : ℕ
  recvBehavior : RecvBehavior
  reached : follow mailStep before (.init id) = some s₀
  sent : Sent e type payload s₀ s₁
  unreceived : ∀ recvBehavior, .recv e recvBehavior ∉ between
  waits : follow mailStep between s₁ = some s₂
  registered : (s₂.endpoints e).callbacks_ type = some cb
  deliverable : type.deliverable = true
  received : mailStep (.recv e recvBehavior) s₂ = some s₃

def Journey.Calls (j : Journey type payload) (calls : List (ℕ × Message)) : Prop :=
  invocations j.e j.s₃.log = invocations j.e j.s₂.log ++ calls

/-- A mailbox that is claimed, with a callback for `POKE`. -/
def Journey.ready : Sys := (follow mailStep [.claim_mailbox 5, .on 0 .POKE 3] (.init 0)).get rfl

def Journey.direct (payload : ℕ) : Journey .POKE payload where
  id := 0
  before := [.claim_mailbox 5, .on 0 .POKE 3]
  between := []
  s₀ := ready
  s₁ := (follow mailStep (ready.send_single_message 0 none .POKE payload) ready).get rfl
  s₂ := (follow mailStep (ready.send_single_message 0 none .POKE payload) ready).get rfl
  s₃ := (mailStep (.recv 0 .BLOCK)
    ((follow mailStep (ready.send_single_message 0 none .POKE payload) ready).get rfl)).get rfl
  e := 0
  cb := 3
  recvBehavior := .BLOCK
  reached := (Option.some_get _).symm
  sent := .single (Option.some_get _).symm
  unreceived := nofun
  waits := rfl
  registered := rfl
  deliverable := rfl
  received := (Option.some_get _).symm

theorem Journey.called (j : Journey type payload) :
    ∃ calls, j.Calls calls ∧ (j.cb, ⟨type, .FLAGS_NULL, payload⟩) ∈ calls := by
  have hs₀ := sim_of_follow (init_sim j.id) j.reached
  obtain ⟨⟨m₁, hs₁⟩, he₁, msgs, hin, hmsg⟩ := waiting_sent hs₀ j.sent
  obtain ⟨⟨m₂, hs₂⟩, he₂, hpre⟩ := waiting_follow hs₁ he₁ j.waits j.unreceived
  have hrecv := j.received
  simp only [mailStep, Op.OnMail, if_true, Sys.step, Option.ite_none_right_eq_some,
    Option.some.injEq] at hrecv
  refine ⟨_, hrecv.2 ▸ recv_invocations hs₂ he₂, ?_⟩
  have hdeliver : (j.cb, (⟨type, .FLAGS_NULL, payload⟩ : Message)) ∈
      deliver (j.s₂.endpoints j.e).callbacks_ msgs := by
    apply List.mem_filterMap.mpr
    exact ⟨_, hmsg, by simp [j.deliverable, j.registered]⟩
  exact List.mem_flatMap.mpr ⟨msgs, hpre.subset hin, hdeliver⟩

end Omulator.Msg
