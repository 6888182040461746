import Omulator.Msg.Mail
import Omulator.Msg.Serving

/-!
# Delivery

The router and its endpoints refine the mail: what `recv` hands to the callbacks of an endpoint
is what the mailbox of the endpoint's token delivers, whichever storages are used again.
-/

namespace Omulator.Msg
open Omulator.Lib Omulator.Di

/-! ### What can be seen of a state -/

def invocations (e : ℕ) (log : List Event) : List (ℕ × Message) :=
  log.filterMap fun
    | .invoked e' cb msg => if e' = e then some (cb, msg) else none
    | _ => none

/-- The endpoints returned by the calls of `claim_mailbox` for `tok` that succeeded. -/
def claims (tok : MailboxToken_t) (log : List Event) : List ℕ :=
  log.filterMap fun
    | .claimed tok' e => if tok' = tok then some e else none
    | _ => none

/-- A receiver or a sender of `tok` has been made, and it is for the endpoint `e`. -/
def Denotes (s : Sys) (tok : MailboxToken_t) (e : ℕ) : Prop :=
  .claimed tok e ∈ s.log ∨ .mailbox tok e ∈ s.log

def contents (s : Sys) (p : ℕ) : List Message := (s.storages p).storage

def draft (s : Sys) (h : ℕ) : Option Draft :=
  if (s.queues h).valid_ then some ⟨contents s (s.queues h).pStorage_, (s.queues h).sealed_⟩
  else none

def waiting (s : Sys) (e : ℕ) : List (List Message) := (held s (.pending e)).map (contents s)

/-- Neither a call of a callback, nor a receiver or a sender. -/
def Event.Plain : Event → Prop
  | .invoked .. | .claimed .. | .mailbox .. => False
  | _ => True

/-- What `recv` on the endpoint `e` can leave in the log. -/
def Event.OfRecv (e : ℕ) : Event → Prop
  | .invoked e' _ _ => e' = e
  | .claimed .. | .mailbox .. => False
  | _ => True

structure Names (s : Sys) (m : Mail) : Prop where
  count : m.tokens.length = s.endpointCount
  named : ∀ tok e, s.mailboxes_ tok = some e ↔ m.tokens[e]? = some tok
  denotes : ∀ tok e, Denotes s tok e → s.mailboxes_ tok = some e

structure Drafts (s : Sys) (m : Mail) : Prop where
  payloadCount : m.payloadCount = s.payloadCount
  count : m.draftCount = s.queueCount
  draft : ∀ h < s.queueCount, m.drafts h = draft s h

structure Boxed (s : Sys) (e : ℕ) (b : Mailbox) : Prop where
  claimed : b.claimed = (s.endpoints e).claimed_
  callbacks : b.callbacks = (s.endpoints e).callbacks_
  le : b.received.length ≤ b.accepted.length
  waiting : b.accepted.drop b.received.length = waiting s e
  delivered : invocations e s.log = b.delivered

structure Boxes (s : Sys) (m : Mail) : Prop where
  box : ∀ e tok, m.tokens[e]? = some tok → Boxed s e (m.boxes tok)
  unnamed : ∀ tok, tok ∉ m.tokens → m.boxes tok = {}
  silent : ∀ e, s.endpointCount ≤ e → invocations e s.log = []
  claims : ∀ tok, (claims tok s.log).length = if (m.boxes tok).claimed then 1 else 0

structure Sim (s : Sys) (m : Mail) : Prop where
  owned : Owned s
  names : Names s m
  drafts : Drafts s m
  boxes : Boxes s m

variable {s s' : Sys} {m m' : Mail} {p f e h : ℕ} {mq : MessageQueue} {tok : MailboxToken_t}
  {b : Mailbox} {es : List Event} {msgs : List Message}

/-! ### The log -/

theorem invocations_append (es' : List Event) :
    invocations e (es ++ es') = invocations e es ++ invocations e es' :=
  List.filterMap_append

theorem claims_append (es' : List Event) :
    claims tok (es ++ es') = claims tok es ++ claims tok es' := List.filterMap_append

theorem Event.Plain.ofRecv {ev : Event} (h : ev.Plain) (e : ℕ) : ev.OfRecv e := by
  cases ev <;> first | exact h | trivial

theorem invocations_plain (h : ∀ ev ∈ es, ev.Plain) : invocations e es = [] := by
  apply List.filterMap_eq_nil_iff.mpr
  intro ev hev
  have hp := h ev hev
  cases ev with
  | invoked e' cb msg => cases hp
  | _ => rfl

theorem invocations_other {e' : ℕ} (h : ∀ ev ∈ es, ev.OfRecv e) (hne : e' ≠ e) :
    invocations e' es = [] := by
  apply List.filterMap_eq_nil_iff.mpr
  intro ev hev
  have hp := h ev hev
  cases ev with
  | invoked i cb msg =>
    have hi : ¬ i = e' := fun hi => hne (hi.symm.trans hp)
    simp [hi]
  | _ => rfl

theorem claims_ofRecv (h : ∀ ev ∈ es, ev.OfRecv e) : claims tok es = [] := by
  apply List.filterMap_eq_nil_iff.mpr
  intro ev hev
  have hp := h ev hev
  cases ev with
  | claimed tok' i => cases hp
  | _ => rfl

theorem denotes_ofRecv (hp : ∀ ev ∈ es, ev.OfRecv f) (hlog : s'.log = s.log ++ es)
    (tok : MailboxToken_t) (e : ℕ) (hd : Denotes s' tok e) : Denotes s tok e := by
  unfold Denotes at hd ⊢
  rw [hlog] at hd
  rcases hd with hd | hd
  · rcases List.mem_append.mp hd with hd | hd
    · exact .inl hd
    · exact absurd (hp _ hd) id
  · rcases List.mem_append.mp hd with hd | hd
    · exact .inr hd
    · exact absurd (hp _ hd) id

/-! ### Frames -/

theorem waiting_congr (hh : held s' (.pending e) = held s (.pending e))
    (hst : ∀ q ∈ held s (.pending e), contents s' q = contents s q) :
    waiting s' e = waiting s e := by
  unfold waiting
  rw [hh]
  exact List.map_congr_left hst

theorem Boxed.congr (hb : Boxed s e b) (hc : (s'.endpoints e).claimed_ = (s.endpoints e).claimed_)
    (hcb : (s'.endpoints e).callbacks_ = (s.endpoints e).callbacks_)
    (hw : Msg.waiting s' e = Msg.waiting s e) (hi : invocations e s'.log = invocations e s.log) :
    Boxed s' e b :=
  ⟨hc ▸ hb.claimed, hcb ▸ hb.callbacks, hb.le, hw ▸ hb.waiting, hi ▸ hb.delivered⟩

theorem Names.congr (hn : Names s m) (hc : s'.endpointCount = s.endpointCount)
    (hm : s'.mailboxes_ = s.mailboxes_) (ht : m'.tokens = m.tokens)
    (hd : ∀ tok e, Denotes s' tok e → Denotes s tok e) : Names s' m' := by
  constructor
  · rw [ht, hc, hn.count]
  · intro tok e
    rw [hm, ht]
    exact hn.named tok e
  · intro tok e hden
    rw [hm]
    exact hn.denotes tok e (hd tok e hden)

theorem Drafts.congr (hd : Drafts s m) (hp : s'.payloadCount = s.payloadCount)
    (hc : s'.queueCount = s.queueCount) (hdr : ∀ h < s.queueCount, Msg.draft s' h = Msg.draft s h)
    (hp' : m'.payloadCount = m.payloadCount) (hc' : m'.draftCount = m.draftCount)
    (hd' : m'.drafts = m.drafts) : Drafts s' m' := by
  constructor
  · rw [hp', hp, hd.payloadCount]
  · rw [hc', hc, hd.count]
  · intro h hh
    have hh : h < s.queueCount := hc ▸ hh
    rw [hd', hdr h hh, hd.draft h hh]

theorem Boxes.congr (hb : Boxes s m) (hinv : ∀ e, invocations e s'.log = invocations e s.log)
    (hcl : ∀ tok, Msg.claims tok s'.log = Msg.claims tok s.log)
    (hc : s'.endpointCount = s.endpointCount) (he : s'.endpoints = s.endpoints)
    (hw : ∀ e, waiting s' e = waiting s e) (ht : m'.tokens = m.tokens) (hb' : m'.boxes = m.boxes) :
    Boxes s' m' := by
  constructor
  · intro e tok htok
    rw [ht] at htok
    rw [hb']
    exact (hb.box e tok htok).congr (by rw [he]) (by rw [he]) (hw e) (hinv e)
  · rw [ht, hb']
    exact hb.unnamed
  · intro e hle
    rw [hinv]
    exact hb.silent e (hc ▸ hle)
  · intro tok
    rw [hb', hcl]
    exact hb.claims tok

theorem invocations_emit (hp : ∀ ev ∈ es, ev.Plain) (e : ℕ) :
    invocations e (s.emit es).log = invocations e s.log := by
  have hlog : (s.emit es).log = s.log ++ es := rfl
  rw [hlog, invocations_append, invocations_plain hp, List.append_nil]

theorem claims_emit (hp : ∀ ev ∈ es, ev.OfRecv e) (tok : MailboxToken_t) :
    claims tok (s.emit es).log = claims tok s.log := by
  have hlog : (s.emit es).log = s.log ++ es := rfl
  rw [hlog, claims_append, claims_ofRecv hp, List.append_nil]

theorem Sim.emit (hs : Sim s m) (hp : ∀ ev ∈ es, ev.Plain) : Sim (s.emit es) m := by
  have hp' : ∀ ev ∈ es, ev.OfRecv 0 := fun ev hev => (hp ev hev).ofRecv 0
  constructor
  · exact hs.owned.emit es
  · exact hs.names.congr rfl rfl rfl (denotes_ofRecv hp' rfl)
  · exact hs.drafts.congr rfl rfl (fun _ _ => rfl) rfl rfl rfl
  · exact hs.boxes.congr (invocations_emit hp) (claims_emit hp') rfl rfl (fun _ => rfl) rfl rfl

theorem Sim.logged (hs : Sim s m) (err : Error) : Sim (s.emit [.logged err]) m :=
  hs.emit (by simp [Event.Plain])

/-! ### Drafts -/

theorem Names.token (hn : Names s m) (he : e < s.endpointCount) :
    m.tokens[e]? = some (m.token e) := by
  have hlt : e < m.tokens.length := hn.count.symm ▸ he
  simp [Mail.token, List.getElem?_eq_getElem hlt]

theorem push_of_closed {msg : Message} (hd : ∀ d ∈ m.drafts h, d.isSealed = true) :
    m.push h msg = m := by
  have hsame : (m.drafts h).map (Draft.push msg) = m.drafts h := by
    cases hdh : m.drafts h with
    | none => rfl
    | some d => simp [Draft.push, hd d hdh]
  unfold Mail.push Mail.atDraft
  dsimp only
  rw [hsame, Function.update_eq_self]

theorem Owned.queue_inj (ho : Owned s) {i : ℕ} (hh : s.HasQueue h) (hi : s.HasQueue i)
    (hv : (s.queues h).valid_ = true) (hvi : (s.queues i).valid_ = true) (hne : i ≠ h) :
    (s.queues i).pStorage_ ≠ (s.queues h).pStorage_ := by
  intro heq
  have hpl := ho.apart.one (.queue i) (.queue h) _ (mem_held_queue hi hvi)
    (heq ▸ mem_held_queue hh hv)
  exact hne (Place.queue.inj hpl)

theorem contents_setStorage (q : ℕ) :
    contents (s.setStorage p msgs) q = if q = p then msgs else contents s q := by
  by_cases hq : q = p
  · simp [contents, Sys.setStorage, hq]
  · simp [contents, Sys.setStorage, hq]

theorem draft_setStorage (i : ℕ) : draft (s.setStorage p msgs) i =
    if (s.queues i).valid_ = true then
      some ⟨if (s.queues i).pStorage_ = p then msgs else contents s (s.queues i).pStorage_,
        (s.queues i).sealed_⟩
    else none := by
  unfold draft
  rw [contents_setStorage]
  rfl

theorem Sim.append (hs : Sim s m) (hh : s.HasQueue h) (hv : (s.queues h).valid_ = true)
    (hn : (s.queues h).sealed_ = false) (msg : Message) :
    Sim (s.setStorage (s.queues h).pStorage_ (contents s (s.queues h).pStorage_ ++ [msg]))
      (m.push h msg) where
  owned := hs.owned.setStorage (hs.owned.queue_not_pooled hh hv) _
  names := hs.names.congr rfl rfl rfl (fun _ _ hd => hd)
  drafts := by
    refine ⟨hs.drafts.payloadCount, hs.drafts.count, ?_⟩
    intro i hi
    have hi : s.HasQueue i := hi
    by_cases hih : i = h
    · have hd : m.drafts h = some ⟨contents s (s.queues h).pStorage_, false⟩ := by
        rw [hs.drafts.draft h hh, draft, if_pos hv, hn]
      have hpush : (m.push h msg).drafts h =
          some ⟨contents s (s.queues h).pStorage_ ++ [msg], false⟩ := by
        simp [Mail.push, Mail.atDraft, hd, Draft.push]
      rw [hih, hpush, draft_setStorage, if_pos hv, if_pos rfl, hn]
    · have hpush : (m.push h msg).drafts i = m.drafts i := Function.update_of_ne hih ..
      rw [hpush, hs.drafts.draft i hi, draft_setStorage, draft]
      by_cases hvi : (s.queues i).valid_ = true
      · rw [if_pos hvi, if_pos hvi, if_neg (hs.owned.queue_inj hh hi hv hvi hih)]
      · rw [if_neg hvi, if_neg hvi]
  boxes := by
    have hw : ∀ e, waiting (s.setStorage (s.queues h).pStorage_
        (contents s (s.queues h).pStorage_ ++ [msg])) e = waiting s e := by
      intro e
      apply waiting_congr (by rw [held_setStorage])
      intro q hq
      have hne : q ≠ (s.queues h).pStorage_ := by
        intro hqp
        have hpl := hs.owned.apart.one (.pending e) (.queue h) q hq
          (hqp ▸ mem_held_queue hh hv)
        cases hpl
      rw [contents_setStorage, if_neg hne]
    exact hs.boxes.congr (fun _ => rfl) (fun _ => rfl) rfl rfl hw rfl rfl

theorem Sim.push_impl_ (hs : Sim s m) (hh : s.HasQueue h) (msg : Message) :
    Sim (s.push_impl_ (s.queues h) msg.type msg.mflags msg.payload) (m.push h msg) := by
  have hd := hs.drafts.draft h hh
  unfold Sys.push_impl_
  by_cases hv : (s.queues h).valid_ = true
  · rw [if_pos hv]
    rw [draft, if_pos hv] at hd
    by_cases hn : (s.queues h).sealed_ = true
    · rw [if_pos hn, push_of_closed (by simp [hd, hn])]
      exact hs.logged _
    · rw [if_neg hn]
      exact hs.append hh hv (by simpa using hn) msg
  · rw [draft, if_neg hv] at hd
    rw [if_neg hv, push_of_closed (by simp [hd])]
    exact hs.logged _

theorem Sim.newPayload (hs : Sim s m) :
    Sim { s with payloadCount := s.payloadCount + 1 }
      { m with payloadCount := m.payloadCount + 1 } where
  owned := hs.owned.newPayload
  names := hs.names.congr rfl rfl rfl (fun _ _ hd => hd)
  drafts := ⟨congrArg (· + 1) hs.drafts.payloadCount, hs.drafts.count, hs.drafts.draft⟩
  boxes := hs.boxes.congr (fun _ => rfl) (fun _ => rfl) rfl rfl (fun _ => rfl) rfl rfl

theorem Sim.push_managed_payload (hs : Sim s m) (hh : s.HasQueue h) (type : MessageType)
    (thrown : Option ℕ) :
    Sim (s.push_managed_payload (s.queues h) type thrown)
      (m.push_managed_payload h type thrown) := by
  have hd := hs.drafts.draft h hh
  unfold Sys.push_managed_payload Mail.push_managed_payload
  by_cases hv : (s.queues h).valid_ = true
  · rw [draft, if_pos hv] at hd
    rw [if_pos hv, hd, hs.drafts.payloadCount]
    have hn := hs.newPayload
    rw [hs.drafts.payloadCount] at hn
    cases thrown with
    | none => exact hn.push_impl_ hh ⟨type, .MANAGED_PTR, s.payloadCount + 1⟩
    | some exn => exact hn.emit (by simp [Event.Plain])
  · rw [draft, if_neg hv] at hd
    rw [if_neg hv, hd]
    exact hs.emit (by simp [Event.Plain])

theorem draft_setQueue (i : ℕ) : draft (s.setQueue h mq) i =
    if i = h then (if mq.valid_ then some ⟨contents s mq.pStorage_, mq.sealed_⟩ else none)
    else draft s i := by
  by_cases hi : i = h
  · simp [draft, Sys.setQueue, hi, contents]
  · simp [draft, Sys.setQueue, hi, contents]

theorem pending_ne_queue (e h : ℕ) : Place.pending e ≠ .queue h := nofun

theorem waiting_setQueue (hh : s.HasQueue h) : waiting (s.setQueue h mq) e = waiting s e := by
  apply waiting_congr
  · rw [held_setQueue hh, Function.update_of_ne (pending_ne_queue e h)]
  · exact fun _ _ => rfl

theorem Sim.setQueue (hs : Sim s m) (hh : s.HasQueue h) (ho : Owned (s.setQueue h mq))
    (f : Option Draft → Option Draft)
    (hf : f (draft s h) = if mq.valid_ then some ⟨contents s mq.pStorage_, mq.sealed_⟩ else none) :
    Sim (s.setQueue h mq) (m.atDraft h f) where
  owned := ho
  names := hs.names.congr rfl rfl rfl (fun _ _ hd => hd)
  drafts := by
    refine ⟨hs.drafts.payloadCount, hs.drafts.count, ?_⟩
    intro i hi
    rw [draft_setQueue]
    by_cases hih : i = h
    · rw [if_pos hih, ← hf, ← hs.drafts.draft h hh, hih]
      exact Function.update_self ..
    · rw [if_neg hih, ← hs.drafts.draft i hi]
      exact Function.update_of_ne hih ..
  boxes := hs.boxes.congr (fun _ => rfl) (fun _ => rfl) rfl rfl (fun _ => waiting_setQueue hh) rfl
    rfl

theorem Sim.sealed (hs : Sim s m) (hh : s.HasQueue h) :
    Sim (s.setQueue h { s.queues h with sealed_ := true })
      (m.atDraft h (·.map fun d => { d with isSealed := true })) := by
  apply hs.setQueue hh (hs.owned.sealed hh)
  unfold draft
  split <;> rfl

theorem Sim.get (hs : Sim s m) {pick : Option ℕ} (hf : f < s.factoryCount)
    (hg : s.get f pick = some s') : Sim s' m.addDraft := by
  have ho' : Owned s' := hs.owned.get hf hg
  obtain ⟨p, hp⟩ := hs.owned.got hg
  have hlog : s'.log = s.log ++ [] := by rw [hp.log, List.append_nil]
  have hst : ∀ q, q ≠ p → contents s' q = contents s q := by
    intro q hq
    rw [contents, hp.other q hq]
    rfl
  constructor
  · exact ho'
  · have hnone : ∀ ev ∈ ([] : List Event), ev.OfRecv 0 := nofun
    exact hs.names.congr hp.endpointCount hp.mailboxes_ rfl (denotes_ofRecv hnone hlog)
  · constructor
    · rw [hp.payloadCount]
      exact hs.drafts.payloadCount
    · rw [hp.queueCount, ← hs.drafts.count]
      rfl
    · intro i hi
      rw [hp.queueCount] at hi
      unfold Mail.addDraft draft
      dsimp only
      rw [hp.queues, hs.drafts.count]
      by_cases hin : i = s.queueCount
      · have hempty : contents s' p = [] := hp.empty
        simp [hin, hempty]
      · have hlt : s.HasQueue i := by
          have hlt : i < s.queueCount := by omega
          exact hlt
        rw [Function.update_of_ne hin, Function.update_of_ne hin, hs.drafts.draft i hlt, draft]
        by_cases hv : (s.queues i).valid_ = true
        · -- the new variable has a storage that no variable had
          have hne : (s.queues i).pStorage_ ≠ p := by
            intro heq
            exact hp.outside (.queue i) (fun _ => nofun) (heq ▸ mem_held_queue hlt hv)
          rw [if_pos hv, if_pos hv, hst _ hne]
        · rw [if_neg hv, if_neg hv]
  · have hw : ∀ e, waiting s' e = waiting s e := by
      intro e
      apply waiting_congr
      · rw [hp.held (.pending e) (fun _ => nofun), Function.update_of_ne (pending_ne_queue e _)]
      · intro q hq
        have hne : q ≠ p := fun hqp => hp.outside (.pending e) (fun _ => nofun) (hqp ▸ hq)
        exact hst q hne
    exact hs.boxes.congr (fun _ => by rw [hp.log]) (fun _ => by rw [hp.log]) hp.endpointCount
      hp.endpoints hw rfl rfl

/-! ### Mailboxes -/

theorem Names.inj (hn : Names s m) {e' : ℕ} (he : m.tokens[e]? = some tok)
    (he' : m.tokens[e']? = some tok) : e = e' := by
  have hm := (hn.named tok e).mpr he
  rw [(hn.named tok e').mpr he'] at hm
  exact (Option.some.inj hm).symm

theorem atBox_same {f : Mailbox → Mailbox} (h : f (m.boxes tok) = m.boxes tok) :
    m.atBox tok f = m := by
  unfold Mail.atBox
  rw [h, Function.update_eq_self]

theorem Boxes.atBox (hb : Boxes s m) (hn : Names s m) (htok : m.tokens[e]? = some tok)
    {f : Mailbox → Mailbox} (hc : s'.endpointCount = s.endpointCount)
    (hbox : Boxed s' e (f (m.boxes tok)))
    (hother : ∀ e', e' ≠ e → ∀ b, Boxed s e' b → Boxed s' e' b)
    (hsilent : ∀ e', e' ≠ e → invocations e' s'.log = invocations e' s.log)
    (hcl : (Msg.claims tok s'.log).length = if (f (m.boxes tok)).claimed then 1 else 0)
    (hcl' : ∀ tok', tok' ≠ tok → Msg.claims tok' s'.log = Msg.claims tok' s.log) :
    Boxes s' (m.atBox tok f) := by
  have hsame : ∀ tok', tok' ≠ tok → (m.atBox tok f).boxes tok' = m.boxes tok' :=
    fun tok' h => Function.update_of_ne h ..
  have hself : (m.atBox tok f).boxes tok = f (m.boxes tok) := Function.update_self ..
  have hlt : e < s.endpointCount := hn.count ▸ (List.getElem?_eq_some_iff.mp htok).1
  constructor
  · intro e' tok' htok'
    have htok' : m.tokens[e']? = some tok' := htok'
    by_cases hee : e' = e
    · have heq : tok' = tok := by
        rw [hee, htok] at htok'
        exact (Option.some.inj htok').symm
      rw [heq, hself, hee]
      exact hbox
    · have hne : tok' ≠ tok := by
        intro heq
        exact hee (hn.inj (heq ▸ htok') htok)
      rw [hsame tok' hne]
      exact hother e' hee _ (hb.box e' tok' htok')
  · intro tok' hout
    have hout : tok' ∉ m.tokens := hout
    have hne : tok' ≠ tok := by
      intro heq
      exact hout (heq ▸ List.mem_of_getElem? htok)
    rw [hsame tok' hne]
    exact hb.unnamed tok' hout
  · intro e' hle
    have hne : e' ≠ e := by
      intro heq
      rw [hc, heq] at hle
      omega
    rw [hsilent e' hne]
    exact hb.silent e' (hc ▸ hle)
  · intro tok'
    by_cases heq : tok' = tok
    · rw [heq, hself]
      exact hcl
    · rw [hsame tok' heq, hcl' tok' heq]
      exact hb.claims tok'

theorem Sim.setFlags (hs : Sim s m) (htok : m.tokens[e]? = some tok) {y : MailboxEndpoint}
    (hq : y.queue_ = (s.endpoints e).queue_) {f : Mailbox → Mailbox}
    (hcl : (f (m.boxes tok)).claimed = y.claimed_)
    (hcb : (f (m.boxes tok)).callbacks = y.callbacks_)
    (hacc : (f (m.boxes tok)).accepted = (m.boxes tok).accepted)
    (hrec : (f (m.boxes tok)).received = (m.boxes tok).received)
    (hinv : ∀ e', invocations e' es = [])
    (hden : ∀ tok' e', .claimed tok' e' ∈ es ∨ .mailbox tok' e' ∈ es → tok' = tok ∧ e' = e)
    (hself : (claims tok (s.log ++ es)).length = if (f (m.boxes tok)).claimed then 1 else 0)
    (hclaims : ∀ tok', tok' ≠ tok → claims tok' es = []) :
    Sim ((s.setEndpoint e y).emit es) (m.atBox tok f) := by
  have hlog : ((s.setEndpoint e y).emit es).log = s.log ++ es := rfl
  have hinv' : ∀ e', invocations e' ((s.setEndpoint e y).emit es).log = invocations e' s.log := by
    intro e'
    rw [hlog, invocations_append, hinv, List.append_nil]
  have hw : ∀ e', waiting ((s.setEndpoint e y).emit es) e' = waiting s e' := by
    intro e'
    apply waiting_congr
    · rw [held_emit, held_setEndpoint_eq hq]
    · exact fun _ _ => rfl
  have hy : ((s.setEndpoint e y).emit es).endpoints e = y := Function.update_self ..
  have hb := hs.boxes.box e tok htok
  have hc : ((s.setEndpoint e y).emit es).endpointCount = s.endpointCount := rfl
  constructor
  · exact (hs.owned.setEndpoint (hq ▸ .refl _)).emit es
  · refine ⟨hs.names.count, hs.names.named, ?_⟩
    intro tok' e' hd
    have hd : Denotes s tok' e' ∨ tok' = tok ∧ e' = e := by
      unfold Denotes at hd ⊢
      rw [hlog, List.mem_append, List.mem_append] at hd
      have hnew := hden tok' e'
      tauto
    rcases hd with hd | ⟨ht, he⟩
    · exact hs.names.denotes tok' e' hd
    · rw [ht, he]
      exact (hs.names.named tok e).mpr htok
  · exact hs.drafts.congr rfl rfl (fun _ _ => rfl) rfl rfl rfl
  · apply hs.boxes.atBox hs.names htok hc
    · constructor
      · rw [hy, hcl]
      · rw [hy, hcb]
      · rw [hacc, hrec]
        exact hb.le
      · rw [hacc, hrec, hw]
        exact hb.waiting
      · rw [hinv', hb.delivered]
        unfold Mailbox.delivered
        rw [hacc, hrec]
    · intro e' hne b' hb'
      have he : ((s.setEndpoint e y).emit es).endpoints e' = s.endpoints e' :=
        Function.update_of_ne hne ..
      exact hb'.congr (by rw [he]) (by rw [he]) (hw e') (hinv' e')
    · exact fun e' _ => hinv' e'
    · exact hself
    · intro tok' hne
      rw [hlog, claims_append, hclaims tok' hne, List.append_nil]

theorem emit_nil : s.emit [] = s := by simp [Sys.emit]

theorem Sim.callbacks (hs : Sim s m) (htok : m.tokens[e]? = some tok)
    (g : MessageType → Option ℕ) {f : Mailbox → Mailbox}
    (hf : f (m.boxes tok) = { m.boxes tok with callbacks := g }) :
    Sim (s.setEndpoint e { s.endpoints e with callbacks_ := g }) (m.atBox tok f) := by
  have hq : ({ s.endpoints e with callbacks_ := g } : MailboxEndpoint).queue_ =
    (s.endpoints e).queue_ := rfl
  rw [← emit_nil (s := s.setEndpoint e _)]
  apply hs.setFlags htok hq
  · rw [hf]
    exact (hs.boxes.box e tok htok).claimed
  · rw [hf]
  · rw [hf]
  · rw [hf]
  · exact fun _ => rfl
  · intro tok' e' h
    rcases h with h | h <;> cases h
  · rw [hf, List.append_nil]
    exact hs.boxes.claims tok
  · exact fun _ _ => rfl

theorem Sim.off (hs : Sim s m) (he : e < s.endpointCount) (type : MessageType) :
    Sim (s.off e type) (m.atBox (m.token e) (Mailbox.off type)) := by
  have htok := hs.names.token he
  apply hs.callbacks htok
  rw [Mailbox.off, (hs.boxes.box e _ htok).callbacks]

theorem Sim.on (hs : Sim s m) (he : e < s.endpointCount) (type : MessageType) (cb : ℕ) :
    Sim (s.on e type cb) (m.atBox (m.token e) (Mailbox.on type cb)) := by
  have htok := hs.names.token he
  have hb := hs.boxes.box e _ htok
  unfold Sys.on
  dsimp only
  by_cases hc : (s.endpoints e).claimed_ = true
  · rw [if_pos hc]
    cases hcb : (s.endpoints e).callbacks_ type with
    | some cb' =>
      have hsame : Mailbox.on type cb (m.boxes (m.token e)) = m.boxes (m.token e) := by
        simp [Mailbox.on, hb.callbacks, hcb]
      rw [atBox_same hsame]
      exact hs.logged _
    | none =>
      apply hs.callbacks htok
      simp [Mailbox.on, hb.callbacks, hb.claimed, hc, hcb]
  · have hsame : Mailbox.on type cb (m.boxes (m.token e)) = m.boxes (m.token e) := by
      simp [Mailbox.on, hb.claimed, hc]
    rw [if_neg hc, atBox_same hsame]
    exact hs.logged _

/-! ### Tokens -/

theorem Names.not_mem (hn : Names s m) (h : s.mailboxes_ tok = none) : tok ∉ m.tokens := by
  intro hin
  obtain ⟨e, he⟩ := List.mem_iff_getElem?.mp hin
  rw [(hn.named tok e).mpr he] at h
  cases h

theorem held_mailboxes_ {g : MailboxToken_t → Option ℕ} :
    held { s with mailboxes_ := g } = held s := by
  funext pl
  cases pl <;> rfl

theorem Names.snoc (hn : Names s m) (tok tok' : MailboxToken_t) :
    (m.tokens ++ [tok])[e]? = some tok' ↔
      m.tokens[e]? = some tok' ∨ e = s.endpointCount ∧ tok' = tok := by
  have hlen := hn.count
  rcases Nat.lt_trichotomy e m.tokens.length with hlt | heq | hgt
  · rw [List.getElem?_append_left hlt]
    have hne : e ≠ s.endpointCount := by omega
    simp [hne]
  · have hnone : m.tokens[e]? = none := List.getElem?_eq_none (by omega)
    rw [hnone, heq, List.getElem?_concat_length]
    simp [hlen, eq_comm]
  · have hnone : m.tokens[e]? = none := List.getElem?_eq_none (by omega)
    have hne : e ≠ s.endpointCount := by omega
    rw [hnone, List.getElem?_eq_none (by simp; omega)]
    simp [hne]

theorem Names.newName (hn : Names s m) (h : s.mailboxes_ tok = none) :
    Names { s.newEndpoint 0 with
        mailboxes_ := Function.update s.mailboxes_ tok (some s.endpointCount) }
      { m with tokens := m.tokens ++ [tok] } := by
  constructor
  · rw [List.length_append, hn.count]
    rfl
  · intro tok' e
    rw [hn.snoc, ← hn.named]
    by_cases heq : tok' = tok
    · rw [heq, h]
      simp [eq_comm]
    · simp [heq]
  · intro tok' e hd
    have hm := hn.denotes tok' e hd
    have hne : tok' ≠ tok := by
      intro heq
      rw [heq, h] at hm
      cases hm
    rw [← hm]
    exact Function.update_of_ne hne ..

theorem Boxes.newName (hb : Boxes s m) (hn : Names s m) (ho : Owned s)
    (h : s.mailboxes_ tok = none) :
    Boxes { s.newEndpoint 0 with
        mailboxes_ := Function.update s.mailboxes_ tok (some s.endpointCount) }
      { m with tokens := m.tokens ++ [tok] } := by
  have hw : ∀ e, waiting { s.newEndpoint 0 with
      mailboxes_ := Function.update s.mailboxes_ tok (some s.endpointCount) } e = waiting s e := by
    intro e
    apply waiting_congr
    · rw [held_mailboxes_, held_newEndpoint_eq ho]
    · exact fun _ _ => rfl
  constructor
  · intro e tok' htok'
    rcases (hn.snoc tok tok').mp htok' with htok' | ⟨he, ht⟩
    · have hlt : e < m.tokens.length := (List.getElem?_eq_some_iff.mp htok').1
      have hne : e ≠ s.endpointCount := by
        rw [← hn.count]
        exact hlt.ne
      have he : (s.newEndpoint 0).endpoints e = s.endpoints e := Function.update_of_ne hne ..
      exact (hb.box e tok' htok').congr (congrArg _ he) (congrArg _ he) (hw e) rfl
    · have hnew : (s.newEndpoint 0).endpoints e = { mqfactory_ := 0 } := by
        rw [he]
        exact Function.update_self ..
      have hnone : waiting s e = [] := by simp [waiting, held, he, ho.idle]
      rw [ht, hb.unnamed tok (hn.not_mem h)]
      refine ⟨?_, ?_, le_rfl, ?_, ?_⟩
      · exact (congrArg MailboxEndpoint.claimed_ hnew).symm
      · exact (congrArg MailboxEndpoint.callbacks_ hnew).symm
      · rw [hw, hnone]
        rfl
      · exact hb.silent e he.ge
  · intro tok' hout'
    have hout' : tok' ∉ m.tokens ++ [tok] := hout'
    exact hb.unnamed tok' fun hin => hout' (List.mem_append_left _ hin)
  · intro e hle
    exact hb.silent e (Nat.le_of_succ_le hle)
  · exact hb.claims

theorem Sim.newName (hs : Sim s m) (h : s.mailboxes_ tok = none) :
    Sim { s.newEndpoint 0 with
        mailboxes_ := Function.update s.mailboxes_ tok (some s.endpointCount) }
      { m with tokens := m.tokens ++ [tok] } := by
  constructor
  · have ho := hs.owned.get_entry_ tok
    unfold Sys.get_entry_ at ho
    rwa [h] at ho
  · exact hs.names.newName h
  · exact hs.drafts.congr rfl rfl (fun _ _ => rfl) rfl rfl rfl
  · exact hs.boxes.newName hs.names hs.owned h

theorem Sim.name (hs : Sim s m) (tok : MailboxToken_t) :
    Sim (s.get_entry_ tok).2 (m.name tok) ∧
      (s.get_entry_ tok).2.mailboxes_ tok = some (s.get_entry_ tok).1 := by
  unfold Sys.get_entry_ Mail.name
  cases h : s.mailboxes_ tok with
  | some e =>
    have hin : tok ∈ m.tokens := List.mem_of_getElem? ((hs.names.named tok e).mp h)
    rw [if_pos hin]
    exact ⟨hs, h⟩
  | none =>
    rw [if_neg (hs.names.not_mem h)]
    exact ⟨hs.newName h, Function.update_self ..⟩

theorem Sim.claim_mailbox (hs : Sim s m) (tok : MailboxToken_t) :
    Sim (s.claim_mailbox tok) ((m.name tok).atBox tok fun b => { b with claimed := true }) := by
  obtain ⟨hn, hm⟩ := hs.name tok
  have htok := (hn.names.named tok _).mp hm
  have hb := hn.boxes.box _ tok htok
  have hcl := hn.boxes.claims tok
  unfold Sys.claim_mailbox
  dsimp only
  by_cases hc : ((s.get_entry_ tok).2.endpoints (s.get_entry_ tok).1).claimed_ = true
  · have hsame : { (m.name tok).boxes tok with claimed := true } = (m.name tok).boxes tok := by
      rw [← hb.claimed.trans hc]
    rw [if_pos hc, atBox_same hsame]
    exact hn.emit (by simp [Event.Plain])
  · have hq : ({ (s.get_entry_ tok).2.endpoints (s.get_entry_ tok).1 with
      claimed_ := true } : MailboxEndpoint).queue_ =
      ((s.get_entry_ tok).2.endpoints (s.get_entry_ tok).1).queue_ := rfl
    rw [if_neg hc]
    apply hn.setFlags htok hq rfl hb.callbacks rfl rfl
    · exact fun _ => rfl
    · intro tok' e' h
      simpa using h
    · have hnone : ((m.name tok).boxes tok).claimed ≠ true := by
        rw [hb.claimed]
        exact hc
      rw [if_neg hnone] at hcl
      rw [claims_append, List.length_append, hcl]
      simp [claims]
    · intro tok' hne
      simp [claims, hne.symm]

theorem Sim.get_mailbox (hs : Sim s m) (tok : MailboxToken_t) :
    Sim (s.get_mailbox tok) (m.name tok) := by
  obtain ⟨hn, hm⟩ := hs.name tok
  unfold Sys.get_mailbox
  dsimp only
  have hlog : ((s.get_entry_ tok).2.emit [.mailbox tok (s.get_entry_ tok).1]).log =
      (s.get_entry_ tok).2.log ++ [.mailbox tok (s.get_entry_ tok).1] := rfl
  constructor
  · exact hn.owned.emit _
  · refine ⟨hn.names.count, hn.names.named, ?_⟩
    intro tok' e' hd
    unfold Denotes at hd
    rw [hlog, List.mem_append, List.mem_append] at hd
    rcases hd with (hd | hd) | (hd | hd)
    · exact hn.names.denotes tok' e' (.inl hd)
    · simp at hd
    · exact hn.names.denotes tok' e' (.inr hd)
    · simp only [List.mem_singleton, Event.mailbox.injEq] at hd
      rw [hd.1, hd.2]
      exact hm
  · exact hn.drafts.congr rfl rfl (fun _ _ => rfl) rfl rfl rfl
  · have hinv : ∀ e', invocations e' ((s.get_entry_ tok).2.emit
        [.mailbox tok (s.get_entry_ tok).1]).log = invocations e' (s.get_entry_ tok).2.log := by
      intro e'
      rw [hlog, invocations_append]
      exact List.append_nil _
    have hcl : ∀ tok', claims tok' ((s.get_entry_ tok).2.emit
        [.mailbox tok (s.get_entry_ tok).1]).log = claims tok' (s.get_entry_ tok).2.log := by
      intro tok'
      rw [hlog, claims_append]
      exact List.append_nil _
    exact hn.boxes.congr hinv hcl rfl rfl (fun _ => rfl) rfl rfl

/-! ### send -/

theorem Boxes.accept (hb : Boxes s m) (hn : Names s m) (htok : m.tokens[e]? = some tok)
    {c : List Message} {l : List MessageQueue}
    (hend : s'.endpoints = Function.update s.endpoints e { s.endpoints e with queue_ := l })
    (hec : s'.endpointCount = s.endpointCount) (hlog : s'.log = s.log)
    (hw : waiting s' e = waiting s e ++ [c])
    (hw' : ∀ e', e' ≠ e → waiting s' e' = waiting s e') :
    Boxes s' (m.atBox tok fun b => { b with accepted := b.accepted ++ [c] }) := by
  have hbox := hb.box e tok htok
  have hcl : (Msg.claims tok s'.log).length = if (m.boxes tok).claimed then 1 else 0 := by
    rw [hlog]
    exact hb.claims tok
  have haccepted : Boxed s' e { m.boxes tok with accepted := (m.boxes tok).accepted ++ [c] } := by
    constructor
    · rw [hend, Function.update_self]
      exact hbox.claimed
    · rw [hend, Function.update_self]
      exact hbox.callbacks
    · rw [List.length_append]
      exact Nat.le_add_right_of_le hbox.le
    · rw [hw, List.drop_append_of_le_length hbox.le, hbox.waiting]
    · rw [hlog, hbox.delivered]
      exact (Mailbox.delivered_accept hbox.le).symm
  have hother : ∀ e', e' ≠ e → ∀ b, Boxed s e' b → Boxed s' e' b := by
    intro e' hne b hb'
    have hsame : s'.endpoints e' = s.endpoints e' := by
      rw [hend, Function.update_of_ne hne]
    exact hb'.congr (by rw [hsame]) (by rw [hsame]) (hw' e' hne) (by rw [hlog])
  exact hb.atBox hn htok hec (f := fun b => { b with accepted := b.accepted ++ [c] }) haccepted
    hother (fun e' _ => by rw [hlog]) hcl (fun tok' _ => by rw [hlog])

theorem send_open (hv : (s.queues h).valid_ = true) (hn : (s.queues h).sealed_ = false) :
    s.send e h = (s.setEndpoint e { s.endpoints e with
      queue_ := (s.endpoints e).queue_ ++ [{ s.queues h with sealed_ := true }] }).setQueue h
        { s.queues h with sealed_ := true, valid_ := false } := by
  simp [Sys.send, hv, hn]

theorem waiting_send (hh : s.HasQueue h) (hv : (s.queues h).valid_ = true)
    (hn : (s.queues h).sealed_ = false) :
    waiting (s.send e h) e = waiting s e ++ [contents s (s.queues h).pStorage_] := by
  unfold waiting
  rw [held_send hh hv hn, Function.update_of_ne (pending_ne_queue e h), Function.update_self,
    List.map_append, send_open hv hn]
  rfl

theorem waiting_send_other (hh : s.HasQueue h) (hv : (s.queues h).valid_ = true)
    (hn : (s.queues h).sealed_ = false) {e' : ℕ} (hne : e' ≠ e) :
    waiting (s.send e h) e' = waiting s e' := by
  apply waiting_congr
  · have hpl : Place.pending e' ≠ .pending e := fun heq => hne (Place.pending.inj heq)
    rw [held_send hh hv hn, Function.update_of_ne (pending_ne_queue e' h),
      Function.update_of_ne hpl]
  · intro q _
    rw [send_open hv hn]
    rfl

theorem Sim.sendOpen (hs : Sim s m) (he : e < s.endpointCount) (hh : s.HasQueue h)
    (hv : (s.queues h).valid_ = true) (hn : (s.queues h).sealed_ = false) :
    Sim (s.send e h) ((m.atBox (m.token e) fun b =>
      { b with accepted := b.accepted ++ [contents s (s.queues h).pStorage_] }).atDraft h
        fun _ => none) := by
  have hstate := send_open (e := e) hv hn
  constructor
  · exact hs.owned.send he hh
  · rw [hstate]
    exact hs.names.congr rfl rfl rfl (fun _ _ hd => hd)
  · refine ⟨?_, ?_, ?_⟩
    · rw [hstate]
      exact hs.drafts.payloadCount
    · rw [hstate]
      exact hs.drafts.count
    · intro i hi
      rw [hstate] at hi ⊢
      rw [draft_setQueue]
      by_cases hih : i = h
      · rw [if_pos hih, hih]
        exact Function.update_self ..
      · rw [if_neg hih]
        exact (Function.update_of_ne hih ..).trans (hs.drafts.draft i hi)
  · have hlog : (s.send e h).log = s.log := by
      rw [hstate]
      rfl
    have hec : (s.send e h).endpointCount = s.endpointCount := by
      rw [hstate]
      rfl
    have hend : (s.send e h).endpoints = Function.update s.endpoints e { s.endpoints e with
        queue_ := (s.endpoints e).queue_ ++ [{ s.queues h with sealed_ := true }] } := by
      rw [hstate]
      rfl
    have hboxes := hs.boxes.accept hs.names (hs.names.token he) hend hec hlog
      (waiting_send hh hv hn) (fun e' hne => waiting_send_other hh hv hn hne)
    exact ⟨hboxes.box, hboxes.unnamed, hboxes.silent, hboxes.claims⟩

theorem Sim.send (hs : Sim s m) (he : e < s.endpointCount) (hh : s.HasQueue h) :
    Sim (s.send e h) (m.send e h) := by
  have hd := hs.drafts.draft h hh
  by_cases hv : (s.queues h).valid_ = true
  · rw [draft, if_pos hv] at hd
    by_cases hn : (s.queues h).sealed_ = true
    · have hsend : m.send e h = m := by simp [Mail.send, hd, hn]
      rw [hsend]
      simp only [Sys.send, if_pos hv, if_pos hn]
      exact hs.logged _
    · have hn : (s.queues h).sealed_ = false := by simpa using hn
      have hsend : m.send e h = (m.atBox (m.token e) fun b =>
          { b with accepted := b.accepted ++ [contents s (s.queues h).pStorage_] }).atDraft h
            fun _ => none := by
        simp [Mail.send, hd, hn]
      rw [hsend]
      exact hs.sendOpen he hh hv hn
  · rw [draft, if_neg hv] at hd
    have hsend : m.send e h = m := by simp [Mail.send, hd]
    rw [hsend]
    simp only [Sys.send, if_neg hv]
    exact hs.logged _

/-! ### recv -/

def pumped (callback : Message → List Event) (msg : Message) : List Event :=
  (MessageQueue.pump_msgs callback [msg]).2

theorem pump_msgs_flatMap (callback : Message → List Event) :
    (MessageQueue.pump_msgs callback msgs).2 = msgs.flatMap (pumped callback) := by
  induction msgs with
  | nil => rfl
  | cons msg msgs ih =>
    rw [List.flatMap_cons, ← ih]
    simp [MessageQueue.pump_msgs, pumped]

theorem pumped_ofRecv (msg : Message) : ∀ ev ∈ pumped (s.callback e) msg, ev.OfRecv e := by
  have hcb : ∀ ev ∈ s.callback e msg, ev.OfRecv e := by
    intro ev hev
    unfold Sys.callback at hev
    split at hev
    · rw [List.mem_singleton.mp hev]
      rfl
    · rw [List.mem_singleton.mp hev]
      trivial
  have hfree : ∀ ev ∈ (MessageQueue.free_managed_payload_ msg).2, ev.OfRecv e := by
    intro ev hev
    unfold MessageQueue.free_managed_payload_ at hev
    dsimp only at hev
    split at hev
    · rw [List.mem_singleton.mp hev]
      trivial
    · rw [List.mem_singleton.mp hev]
      trivial
  intro ev hev
  simp only [pumped, MessageQueue.pump_msgs, List.append_nil] at hev
  split at hev
  · cases hev
  · split at hev
    · rw [List.mem_singleton.mp hev]
      trivial
    · split at hev
      · rcases List.mem_append.mp hev with hev | hev
        · exact hcb ev hev
        · exact hfree ev hev
      · exact hcb ev hev

theorem pumped_invocations (msg : Message) :
    invocations e (pumped (s.callback e) msg) = deliver (s.endpoints e).callbacks_ [msg] := by
  have hcb : invocations e (s.callback e msg) =
      ((s.endpoints e).callbacks_ msg.type).toList.map fun cb => (cb, msg) := by
    unfold Sys.callback
    cases (s.endpoints e).callbacks_ msg.type with
    | some cb => simp [invocations]
    | none => rfl
  have hfree : invocations e (MessageQueue.free_managed_payload_ msg).2 = [] := by
    unfold MessageQueue.free_managed_payload_
    dsimp only
    split <;> rfl
  have hdel : msg.type.deliverable = true →
      deliver (s.endpoints e).callbacks_ [msg] =
        ((s.endpoints e).callbacks_ msg.type).toList.map fun cb => (cb, msg) := by
    intro hty
    unfold deliver
    cases h : (s.endpoints e).callbacks_ msg.type with
    | some cb => simp [hty, h]
    | none => simp [hty, h]
  have hnot : msg.type.deliverable ≠ true → deliver (s.endpoints e).callbacks_ [msg] = [] := by
    intro hty
    simp [deliver, hty]
  simp only [pumped, MessageQueue.pump_msgs, List.append_nil]
  by_cases hnull : msg.type = .MSG_NULL
  · have hty : msg.type.deliverable ≠ true := fun h => (MessageType.deliverable_iff.mp h).1 hnull
    rw [if_pos hnull, hnot hty]
    rfl
  · rw [if_neg hnull]
    by_cases hmax : msg.type > .MSG_MAX
    · have hty : msg.type.deliverable ≠ true := fun h => (MessageType.deliverable_iff.mp h).2 hmax
      rw [if_pos hmax, hnot hty]
      rfl
    · have hty : msg.type.deliverable = true := MessageType.deliverable_iff.mpr ⟨hnull, hmax⟩
      rw [if_neg hmax, hdel hty]
      split
      · rw [invocations_append, hcb, hfree, List.append_nil]
      · exact hcb

theorem pump_msgs_invocations :
    invocations e (MessageQueue.pump_msgs (s.callback e) msgs).2 =
      deliver (s.endpoints e).callbacks_ msgs := by
  rw [pump_msgs_flatMap]
  induction msgs with
  | nil => rfl
  | cons msg msgs ih =>
    have hcons : deliver (s.endpoints e).callbacks_ (msg :: msgs) =
        deliver (s.endpoints e).callbacks_ [msg] ++ deliver (s.endpoints e).callbacks_ msgs :=
      List.filterMap_append (l := [msg])
    rw [List.flatMap_cons, invocations_append, ih, hcons, pumped_invocations]

theorem pump_msgs_ofRecv :
    ∀ ev ∈ (MessageQueue.pump_msgs (s.callback e) msgs).2, ev.OfRecv e := by
  rw [pump_msgs_flatMap]
  intro ev hev
  obtain ⟨msg, _, hev⟩ := List.mem_flatMap.mp hev
  exact pumped_ofRecv msg ev hev

theorem Served.events {msgs' : List Message}
    (hs : Served e mq msgs (MessageQueue.pump_msgs (s.callback e) msgs').2 s s') :
    ∃ es, s'.log = s.log ++ es ∧ (∀ ev ∈ es, ev.OfRecv e) ∧
      invocations e es = deliver (s.endpoints e).callbacks_ msgs' := by
  obtain ⟨es', hes', hlog⟩ := hs.log
  have hplain : ∀ ev ∈ MessageQueue.release_check msgs ++ es', ev.Plain := by
    intro ev hev
    rcases List.mem_append.mp hev with hev | hev
    · unfold MessageQueue.release_check at hev
      split at hev
      · rw [List.mem_singleton.mp hev]
        trivial
      · cases hev
    · rcases hes' with hes' | ⟨a, b, hes'⟩
      · rw [hes'] at hev
        cases hev
      · rw [hes', List.mem_singleton] at hev
        rw [hev]
        trivial
  refine ⟨_, hlog, ?_, ?_⟩
  · intro ev hev
    rw [List.append_assoc] at hev
    rcases List.mem_append.mp hev with hev | hev
    · exact pump_msgs_ofRecv ev hev
    · exact (hplain ev hev).ofRecv e
  · rw [List.append_assoc, invocations_append, invocations_plain hplain, List.append_nil,
      pump_msgs_invocations]

/-- A turn takes the front queue from what waits at `e`, and leaves all other messages alone. -/
theorem Served.contents (hs : Served e mq msgs es s s') {q : ℕ} (hq : q ≠ mq.pStorage_) :
    contents s' q = contents s q := by
  rw [Msg.contents, hs.other q hq]
  rfl

theorem Served.waiting (ho : Owned s) (hs : Served e mq msgs es s s') {l : List MessageQueue}
    (hq : (s.endpoints e).queue_ = mq :: l) :
    Msg.waiting s e = Msg.contents s mq.pStorage_ :: Msg.waiting s' e := by
  have hheld := hs.places hq (.pending e) (fun _ => nofun)
  rw [Function.update_self] at hheld
  unfold Msg.waiting
  rw [hheld, held_pending hq, List.map_cons]
  congr 1
  apply List.map_congr_left
  intro q hql
  exact (hs.contents fun hqp => ho.front_not_behind hq (hqp ▸ hql)).symm

theorem Served.waiting_other (ho : Owned s) (hs : Served e mq msgs es s s')
    {l : List MessageQueue} (hq : (s.endpoints e).queue_ = mq :: l) {e' : ℕ} (hne : e' ≠ e) :
    Msg.waiting s' e' = Msg.waiting s e' := by
  have hpl : Place.pending e' ≠ .pending e := fun heq => hne (Place.pending.inj heq)
  apply waiting_congr
  · rw [hs.places hq (.pending e') (fun _ => nofun), Function.update_of_ne hpl]
  · intro q hql
    apply hs.contents
    intro hqp
    exact hpl (ho.apart.one (.pending e') (.pending e) q hql (hqp ▸ mem_held_front hq))

theorem Served.draft (ho : Owned s) (hs : Served e mq msgs es s s') {l : List MessageQueue}
    (hq : (s.endpoints e).queue_ = mq :: l) (hh : s.HasQueue h) :
    Msg.draft s' h = Msg.draft s h := by
  unfold Msg.draft
  rw [hs.queues]
  by_cases hv : (s.queues h).valid_ = true
  · have hne : (s.queues h).pStorage_ ≠ mq.pStorage_ := by
      intro heq
      have hpl := ho.apart.one (.queue h) (.pending e) _ (mem_held_queue hh hv)
        (heq ▸ mem_held_front hq)
      cases hpl
    rw [hs.contents hne]
  · rw [if_neg hv, if_neg hv]

theorem Sim.recvFront (hs : Sim s m) (htok : m.tokens[e]? = some tok) {l : List MessageQueue}
    (hq : (s.endpoints e).queue_ = mq :: l) :
    Sim (s.recvFront e mq) (m.atBox tok Mailbox.receiveOne) := by
  have ho := hs.owned
  have hb := hs.boxes.box e tok htok
  have hsv : Served e mq (MessageQueue.pump_msgs (s.callback e) (contents s mq.pStorage_)).1
      (MessageQueue.pump_msgs (s.callback e) (contents s mq.pStorage_)).2 s (s.recvFront e mq) :=
    served_recvFront (ho.sent e mq (hq ▸ List.mem_cons_self))
  have hdrop := hb.waiting.trans (hsv.waiting ho hq)
  obtain ⟨es, hlog, hofRecv, hinv⟩ := hsv.events
  have hinv' : ∀ e', e' ≠ e → invocations e' (s.recvFront e mq).log = invocations e' s.log := by
    intro e' hne
    rw [hlog, invocations_append, invocations_other hofRecv hne, List.append_nil]
  have hcl : ∀ tok', claims tok' (s.recvFront e mq).log = claims tok' s.log := by
    intro tok'
    rw [hlog, claims_append, claims_ofRecv hofRecv, List.append_nil]
  constructor
  · exact ho.recvFront hq
  · exact hs.names.congr hsv.endpointCount hsv.mailboxes_ rfl (denotes_ofRecv hofRecv hlog)
  · exact hs.drafts.congr hsv.payloadCount hsv.queueCount (fun _ hi => hsv.draft ho hq hi) rfl rfl
      rfl
  · have hself : ((s.recvFront e mq).endpoints e).claimed_ = (s.endpoints e).claimed_ ∧
        ((s.recvFront e mq).endpoints e).callbacks_ = (s.endpoints e).callbacks_ := by
      rw [hsv.endpoints]
      simp [Sys.popQueue, Sys.setEndpoint]
    have hbox : Boxed (s.recvFront e mq) e (m.boxes tok).receiveOne := by
      constructor
      · rw [hself.1]
        exact hb.claimed
      · rw [hself.2]
        exact hb.callbacks
      · have hlen := congrArg List.length hdrop
        simp only [List.length_drop, List.length_cons] at hlen
        simp only [Mailbox.receiveOne, List.length_append, List.length_singleton]
        omega
      · simp only [Mailbox.receiveOne, List.length_append, List.length_singleton]
        rw [← List.tail_drop, hdrop]
        rfl
      · rw [hlog, invocations_append, hinv, hb.delivered, ← hb.callbacks]
        exact (Mailbox.delivered_receiveOne hdrop).symm
    have hother : ∀ e', e' ≠ e → ∀ b, Boxed s e' b → Boxed (s.recvFront e mq) e' b := by
      intro e' hne b hb'
      have hsame : (s.recvFront e mq).endpoints e' = s.endpoints e' := by
        rw [hsv.endpoints]
        exact Function.update_of_ne hne ..
      exact hb'.congr (by rw [hsame]) (by rw [hsame]) (hsv.waiting_other ho hq hne) (hinv' e' hne)
    have hclaims : (claims tok (s.recvFront e mq).log).length =
        if (m.boxes tok).receiveOne.claimed then 1 else 0 := by
      rw [hcl]
      exact hs.boxes.claims tok
    exact hs.boxes.atBox hs.names htok hsv.endpointCount hbox hother hinv' hclaims
      (fun tok' _ => hcl tok')

/-- The mailbox after `n` turns. -/
def Mailbox.receiveMany (n : ℕ) (b : Mailbox) : Mailbox :=
  { b with received := b.received ++ List.replicate n b.callbacks }

theorem receiveOne_receiveMany (n : ℕ) :
    (m.atBox tok (Mailbox.receiveMany n)).atBox tok Mailbox.receiveOne =
      m.atBox tok (Mailbox.receiveMany (n + 1)) := by
  have hsucc : ∀ b : Mailbox, (b.receiveMany n).receiveOne = b.receiveMany (n + 1) := by
    intro b
    simp [Mailbox.receiveMany, Mailbox.receiveOne, List.replicate_succ']
  unfold Mail.atBox
  dsimp only
  rw [Function.update_self, Function.update_idem, hsucc]

theorem Sim.recv (hs : Sim s m) (he : e < s.endpointCount) :
    Sim (s.recv e) (m.atBox (m.token e) Mailbox.receive) := by
  have htok := hs.names.token he
  have hzero : m.atBox (m.token e) (Mailbox.receiveMany 0) = m := by
    apply atBox_same
    simp [Mailbox.receiveMany]
  have hl := recv_front e
    (fun t => ∃ n, Sim t (m.atBox (m.token e) (Mailbox.receiveMany n))) ?_ ⟨0, hzero.symm ▸ hs⟩
  · obtain ⟨⟨n, hn⟩, hq⟩ := hl
    -- no queue is left, so each was received
    have hb := hn.boxes.box e (m.token e) htok
    have hnone : waiting (s.recv e) e = [] := by simp [waiting, held, hq]
    have hle := hb.le
    have hdrop := hb.waiting
    have hself : (m.atBox (m.token e) (Mailbox.receiveMany n)).boxes (m.token e) =
        (m.boxes (m.token e)).receiveMany n := Function.update_self ..
    change _ = waiting (s.recv e) e at hdrop
    rw [hnone, List.drop_eq_nil_iff] at hdrop
    simp only [hself, Mailbox.receiveMany, List.length_append, List.length_replicate] at hle hdrop
    have hcount : n =
        (m.boxes (m.token e)).accepted.length - (m.boxes (m.token e)).received.length := by omega
    have hall : (m.boxes (m.token e)).receiveMany n = (m.boxes (m.token e)).receive := by
      rw [Mailbox.receiveMany, hcount]
      rfl
    have hmail : m.atBox (m.token e) (Mailbox.receiveMany n) =
        m.atBox (m.token e) Mailbox.receive := by
      unfold Mail.atBox
      rw [hall]
    exact hmail ▸ hn
  · intro t mq l hi hq
    obtain ⟨n, hn⟩ := hi
    exact ⟨n + 1, receiveOne_receiveMany (m := m) n ▸ hn.recvFront htok hq⟩

/-! ### Runs -/

/-- What a program does with the router, its endpoints and the queues it gets from them. -/
def Op.OnMail : Op → Bool
  | .claim_mailbox _ | .get_mailbox _ | .get_mq .. | .push .. | .push_managed_payload ..
  | .seal _ | .send .. | .on .. | .off .. | .recv .. => true
  | _ => false

def mailStep (op : Op) (s : Sys) : Option Sys := if op.OnMail then s.step op else none

theorem Sim.step {op : Op} (hs : Sim s m) (h : mailStep op s = some s') : Sim s' (m.step op) := by
  simp only [mailStep, Option.ite_none_right_eq_some] at h
  obtain ⟨hscope, h⟩ := h
  cases op <;> simp only [Op.OnMail, Bool.false_eq_true] at hscope <;>
    simp only [Sys.step, Option.ite_none_right_eq_some, Option.some.injEq] at h
  case push i type mflags payload => exact h.2 ▸ hs.push_impl_ h.1.1 ⟨type, mflags, payload⟩
  case push_managed_payload i type thrown =>
    exact h.2 ▸ hs.push_managed_payload h.1 type thrown
  case «seal» i => exact h.2 ▸ hs.sealed h.1
  case claim_mailbox tok => exact h.2 ▸ hs.claim_mailbox tok
  case get_mailbox tok => exact h.2 ▸ hs.get_mailbox tok
  case get_mq e pick => exact hs.get h.1.2.1 h.2
  case on e type cb => exact h.2 ▸ hs.on h.1.1 type cb
  case off e type => exact h.2 ▸ hs.off h.1.1 type
  case send e i => exact h.2 ▸ hs.send h.1.1.1 h.1.2
  case recv e recvBehavior => exact h.2 ▸ hs.recv h.1.1.1

theorem init_sim (id : ℕ) : Sim (.init id) {} where
  owned := init_owned id
  names := by
    refine ⟨rfl, ?_, ?_⟩
    · intro tok e
      simp [Sys.init]
    · intro tok e hd
      rcases hd with hd | hd <;> cases hd
  drafts := ⟨rfl, rfl, fun h hh => absurd hh (Nat.not_lt_zero h)⟩
  boxes := by
    refine ⟨?_, fun _ _ => rfl, fun _ _ => rfl, fun _ => rfl⟩
    intro e tok htok
    simp at htok

theorem sim_of_follow {ops : List Op} (hs : Sim s m) (h : follow mailStep ops s = some s') :
    Sim s' (ops.foldl Mail.step m) := by
  induction ops generalizing s m with
  | nil =>
    cases h
    exact hs
  | cons op ops ih =>
    simp only [follow, Option.bind_eq_some_iff] at h
    obtain ⟨t, ht, h⟩ := h
    exact ih (hs.step ht) h

/-- What the state `s` shows is what the mail `m` says. -/
structure Delivers (s : Sys) (m : Mail) : Prop where
  claimed : ∀ tok, (claims tok s.log).length ≤ 1
  denotes : ∀ tok tok' e e', Denotes s tok e → Denotes s tok' e' → (tok = tok' ↔ e = e')
  delivered : ∀ tok e, Denotes s tok e → invocations e s.log = (m.boxes tok).delivered

theorem router_delivers (id : ℕ) (ops : List Op) (h : follow mailStep ops (.init id) = some s) :
    Delivers s (mail ops) := by
  have hs : Sim s (mail ops) := sim_of_follow (init_sim id) h
  constructor
  · intro tok
    rw [hs.boxes.claims tok]
    split <;> omega
  · intro tok tok' e e' hd hd'
    have hm := hs.names.denotes tok e hd
    have hm' := hs.names.denotes tok' e' hd'
    constructor
    · intro heq
      rw [heq, hm'] at hm
      exact (Option.some.inj hm).symm
    · intro heq
      have htok := (hs.names.named tok e).mp hm
      rw [heq, (hs.names.named tok' e').mp hm'] at htok
      exact (Option.some.inj htok).symm
  · intro tok e hd
    have htok := (hs.names.named tok e).mp (hs.names.denotes tok e hd)
    exact (hs.boxes.box e tok htok).delivered

/-- Two tokens, a storage that is used again, and messages without a callback. -/
def mailUsage : List Op :=
  [.claim_mailbox 5, .get_mailbox 6, .on 0 .POKE 3, .get_mq 0 none, .push 0 .POKE 0 42,
    .push 0 .DEMO_MSG_A 0 1, .send 0 0, .recv 0 .BLOCK, .get_mq 1 (some 0),
    .push_managed_payload 1 .POKE none, .send 0 1, .get_mq 1 none, .push 2 .POKE 0 7, .send 1 2,
    .recv 0 .NONBLOCK, .claim_mailbox 5]

theorem mailUsage_delivers :
    ∃ s, follow mailStep mailUsage (.init 7) = some s ∧ Delivers s (mail mailUsage) := by
  have hsome : (follow mailStep mailUsage (.init 7)).isSome := by decide
  obtain ⟨s, hs⟩ := Option.isSome_iff_exists.mp hsome
  exact ⟨s, hs, router_delivers 7 mailUsage hs⟩

example : ((mail [.claim_mailbox 5, .get_mailbox 6, .on 0 .POKE 3, .get_mq 0 none,
    .push 0 .POKE 0 42, .push 0 .DEMO_MSG_A 0 1, .send 0 0, .recv 0 .BLOCK]).boxes 5).delivered =
    [(3, ⟨.POKE, 0, 42⟩)] := by decide

end Omulator.Msg
