import Omulator.Msg.System

/-!
# Mail

What the router is for, without storages, pools and handles: each token has a mailbox that keeps
the queues it accepts in their order, and delivers those not yet received when it is asked to.
-/

namespace Omulator.Msg

structure Mailbox where
  claimed : Bool := false
  callbacks : MessageType → Option ℕ := fun _ => none
  /-- the messages of each queue accepted so far -/
  accepted : List (List Message) := []
  /-- for each of the queues received so far, the callbacks there were then -/
  received : List (MessageType → Option ℕ) := []

structure Draft where
  msgs : List Message := []
  isSealed : Bool := false

structure Mail where
  /-- each token that was named, in that order -/
  tokens : List MailboxToken_t := []
  boxes : MailboxToken_t → Mailbox := fun _ => {}
  /-- the drafts, and `none` for those that were sent -/
  drafts : ℕ → Option Draft := fun _ => none
  draftCount : ℕ := 0
  payloadCount : ℕ := 0

def deliver (callbacks : MessageType → Option ℕ) (msgs : List Message) : List (ℕ × Message) :=
  msgs.filterMap fun msg =>
    if msg.type.deliverable then (callbacks msg.type).map fun cb => (cb, msg) else none

namespace Mailbox

def delivered (b : Mailbox) : List (ℕ × Message) :=
  (b.accepted.zip b.received).flatMap fun x => deliver x.2 x.1

def receiveOne (b : Mailbox) : Mailbox := { b with received := b.received ++ [b.callbacks] }

def receive (b : Mailbox) : Mailbox :=
  { b with
    received := b.received ++ List.replicate (b.accepted.length - b.received.length) b.callbacks }

def on (type : MessageType) (cb : ℕ) (b : Mailbox) : Mailbox :=
  if b.claimed && (b.callbacks type).isNone then
    { b with callbacks := Function.update b.callbacks type (some cb) }
  else b

def off (type : MessageType) (b : Mailbox) : Mailbox :=
  { b with callbacks := Function.update b.callbacks type none }

end Mailbox

def Draft.push (msg : Message) (d : Draft) : Draft :=
  if d.isSealed then d else { d with msgs := d.msgs ++ [msg] }

namespace Mail

/-- The token whose mailbox the endpoint `e` is. -/
def token (m : Mail) (e : ℕ) : MailboxToken_t := m.tokens.getD e 0

def name (tok : MailboxToken_t) (m : Mail) : Mail :=
  if tok ∈ m.tokens then m else { m with tokens := m.tokens ++ [tok] }

def atBox (tok : MailboxToken_t) (f : Mailbox → Mailbox) (m : Mail) : Mail :=
  { m with boxes := Function.update m.boxes tok (f (m.boxes tok)) }

def atDraft (h : ℕ) (f : Option Draft → Option Draft) (m : Mail) : Mail :=
  { m with drafts := Function.update m.drafts h (f (m.drafts h)) }

def addDraft (m : Mail) : Mail :=
  { m with
    drafts := Function.update m.drafts m.draftCount (some {})
    draftCount := m.draftCount + 1 }

def push (h : ℕ) (msg : Message) (m : Mail) : Mail := m.atDraft h (·.map (Draft.push msg))

/-- A payload whose constructor throws is numbered, but in no message. -/
def push_managed_payload (h : ℕ) (type : MessageType) (thrown : Option ℕ) (m : Mail) : Mail :=
  match m.drafts h with
  | some _ =>
    let m' : Mail := { m with payloadCount := m.payloadCount + 1 }
    match thrown with
    | none => m'.push h ⟨type, .MANAGED_PTR, m.payloadCount + 1⟩
    | some _ => m'
  | none => m

def send (e h : ℕ) (m : Mail) : Mail :=
  match m.drafts h with
  | some ⟨msgs, false⟩ =>
    (m.atBox (m.token e) fun b => { b with accepted := b.accepted ++ [msgs] }).atDraft h
      fun _ => none
  | _ => m

def step (m : Mail) : Op → Mail
  | .claim_mailbox tok => (m.name tok).atBox tok fun b => { b with claimed := true }
  | .get_mailbox tok => m.name tok
  | .get_mq _ _ => m.addDraft
  | .push h type mflags payload => m.push h ⟨type, mflags, payload⟩
  | .push_managed_payload h type thrown => m.push_managed_payload h type thrown
  | .seal h => m.atDraft h (·.map fun d => { d with isSealed := true })
  | .send e h => m.send e h
  | .on e type cb => m.atBox (m.token e) (Mailbox.on type cb)
  | .off e type => m.atBox (m.token e) (Mailbox.off type)
  | .recv e _ => m.atBox (m.token e) Mailbox.receive
  | _ => m

end Mail

def mail (ops : List Op) : Mail := ops.foldl Mail.step {}

/-! ### What a mailbox delivers -/

variable {b : Mailbox} {msgs : List Message} {rest : List (List Message)}

theorem zip_append_of_le {α β : Type} {as as' : List α} {bs : List β}
    (h : bs.length ≤ as.length) : (as ++ as').zip bs = as.zip bs := by
  induction bs generalizing as with
  | nil => simp
  | cons b bs ih =>
    cases as with
    | nil => simp at h
    | cons a as =>
      have hle : bs.length ≤ as.length := by simpa using h
      simp [ih hle]

theorem Mailbox.delivered_accept (hle : b.received.length ≤ b.accepted.length) :
    ({ b with accepted := b.accepted ++ [msgs] } : Mailbox).delivered = b.delivered := by
  unfold Mailbox.delivered
  rw [zip_append_of_le hle]

theorem Mailbox.delivered_receiveOne (hdrop : b.accepted.drop b.received.length = msgs :: rest) :
    b.receiveOne.delivered = b.delivered ++ deliver b.callbacks msgs := by
  have hlt : b.received.length < b.accepted.length := by
    have hlen := congrArg List.length hdrop
    simp only [List.length_drop, List.length_cons] at hlen
    omega
  have htake : b.accepted = b.accepted.take b.received.length ++ msgs :: rest := by
    rw [← hdrop, List.take_append_drop]
  have hlen : (b.accepted.take b.received.length).length = b.received.length := by
    rw [List.length_take]
    omega
  have hold : b.accepted.zip b.received = (b.accepted.take b.received.length).zip b.received := by
    conv_lhs => rw [htake]
    exact zip_append_of_le (Nat.le_of_eq hlen.symm)
  unfold Mailbox.delivered Mailbox.receiveOne
  dsimp only
  rw [hold, htake, List.take_left' hlen, List.zip_append hlen]
  simp

end Omulator.Msg
