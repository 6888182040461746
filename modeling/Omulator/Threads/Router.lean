import Omulator.Lib.Monitor
import Omulator.Msg.Delivery

/-!
# A MailboxRouter used by several threads (`src/msg/MailboxRouter.cpp`)

Each operation on `mtx_`, on `mailboxes_` and on the `claimed_` of an endpoint is a step. The
endpoints are numbered in the order they are made in.
-/

namespace Omulator.Router
open Omulator.Lib Omulator.Msg

inductive Access where
  | find (mailbox_hsh : MailboxToken_t)
  | try_emplace (mailbox_hsh : MailboxToken_t)
  | claimed (e : ℕ)
  | claim (e : ℕ)
  deriving DecidableEq

/-- `try_emplace` also says whether it has made the endpoint. -/
abbrev Ans : Access → Type
  | .find _ => Option ℕ
  | .try_emplace _ => ℕ × Bool
  | .claimed _ => Bool
  | .claim _ => Unit

structure Memory where
  mailboxes_ : MailboxToken_t → Option ℕ := fun _ => none
  claimed_ : ℕ → Bool := fun _ => false
  endpointCount : ℕ := 0

namespace Memory

def try_emplace (mailbox_hsh : MailboxToken_t) (w : Memory) : (ℕ × Bool) × Memory :=
  match w.mailboxes_ mailbox_hsh with
  | some e => ((e, false), w)
  | none =>
    ((w.endpointCount, true), ⟨Function.update w.mailboxes_ mailbox_hsh (some w.endpointCount),
      Function.update w.claimed_ w.endpointCount false, w.endpointCount + 1⟩)

def claim (e : ℕ) (w : Memory) : Memory :=
  { w with claimed_ := Function.update w.claimed_ e true }

end Memory

def access : (a : Access) → Ans a → Memory → Option Memory
  | .find mailbox_hsh, x, w => if w.mailboxes_ mailbox_hsh = x then some w else none
  | .try_emplace mailbox_hsh, x, w =>
    if (w.try_emplace mailbox_hsh).1 = x then some (w.try_emplace mailbox_hsh).2 else none
  | .claimed e, x, w => if w.claimed_ e = x then some w else none
  | .claim e, _, w => some (w.claim e)

inductive Exception where
  | alreadyClaimed
  | notCreated
  deriving DecidableEq

inductive Result where
  | receiver (e : ℕ)
  | sender (e : ℕ)
  | thrown (e : Exception)
  deriving DecidableEq

/-! ### The methods, under `std::scoped_lock lck(mtx_)` -/

abbrev Method (α : Type) := ExceptT Exception (Script Access Ans) α

def ask (a : Access) : Method (Ans a) := ExceptT.lift (.call a .ret)

def get_entry_ (mailbox_hsh : MailboxToken_t) : Method ℕ := do
  match ← ask (.find mailbox_hsh) with
  | none =>
    let newEntry ← ask (.try_emplace mailbox_hsh)
    if !newEntry.2 then
      throw .notCreated
    return newEntry.1
  | some entry => return entry

def claim_mailbox (mailbox_hsh : MailboxToken_t) : Method Result := do
  let entry ← get_entry_ mailbox_hsh
  if ← ask (.claimed entry) then
    throw .alreadyClaimed
  ask (.claim entry)
  return .receiver entry

def get_mailbox (mailbox_hsh : MailboxToken_t) : Method Result := do
  return .sender (← get_entry_ mailbox_hsh)

inductive Op where
  | claim_mailbox (mailbox_hsh : MailboxToken_t)
  | get_mailbox (mailbox_hsh : MailboxToken_t)
  deriving DecidableEq

def resultOf : Except Exception Result → Result
  | .ok r => r
  | .error e => .thrown e

def outcome (p : Method Result) : Script Access Ans Result := do return resultOf (← p.run)

def router : Monitor Op Result Access Ans Memory where
  body
    | .claim_mailbox mailbox_hsh => outcome (claim_mailbox mailbox_hsh)
    | .get_mailbox mailbox_hsh => outcome (get_mailbox mailbox_hsh)
  access := access

/-! ### The calls, one at a time -/

def Op.msg : Op → Msg.Op
  | claim_mailbox mailbox_hsh => .claim_mailbox mailbox_hsh
  | get_mailbox mailbox_hsh => .get_mailbox mailbox_hsh

def event : Op → Result → Option Event
  | .claim_mailbox mailbox_hsh, .receiver e => some (.claimed mailbox_hsh e)
  | .claim_mailbox _, .thrown .alreadyClaimed => some (.threw .claimTwice)
  | .get_mailbox mailbox_hsh, .sender e => some (.mailbox mailbox_hsh e)
  | _, _ => none

def Performs (s : Sys) (c : Op × Result) (s' : Sys) : Prop :=
  s.step c.1.msg = some s' ∧ ∃ ev, event c.1 c.2 = some ev ∧ s'.log = s.log ++ [ev]

structure Shows (w : Memory) (s : Sys) : Prop where
  mailboxes_ : w.mailboxes_ = s.mailboxes_
  endpointCount : w.endpointCount = s.endpointCount
  endpoint : ∀ tok e, s.mailboxes_ tok = some e → s.HasEndpoint e
  claimed_ : ∀ tok e, s.mailboxes_ tok = some e → w.claimed_ e = (s.endpoints e).claimed_

section
variable {w : Memory} {s : Sys} {tok : MailboxToken_t} {e : ℕ} {α : Type}

abbrev Alone (Q : α → Memory → Prop) (p : Script Access Ans α) (w : Memory) : Prop :=
  router.Alone Q p w

variable {β : Type} {Q : Except Exception β → Memory → Prop}

theorem alone_find {f : Option ℕ → Method β} (hk : Alone Q (f (w.mailboxes_ tok)).run w) :
    Alone Q (ask (.find tok) >>= f).run w := by
  refine Monitor.alone_call (if_pos rfl) (fun y w' hy => ?_) hk
  simp only [router, access] at hy
  split at hy
  · rename_i hfound
    cases hy
    exact ⟨hfound.symm, rfl⟩
  · cases hy

theorem alone_try_emplace {f : ℕ × Bool → Method β}
    (hk : Alone Q (f (w.try_emplace tok).1).run (w.try_emplace tok).2) :
    Alone Q (ask (.try_emplace tok) >>= f).run w := by
  refine Monitor.alone_call (if_pos rfl) (fun y w' hy => ?_) hk
  simp only [router, access] at hy
  split at hy
  · rename_i hmade
    cases hy
    exact ⟨hmade.symm, rfl⟩
  · cases hy

theorem alone_claimed {f : Bool → Method β} (hk : Alone Q (f (w.claimed_ e)).run w) :
    Alone Q (ask (.claimed e) >>= f).run w := by
  refine Monitor.alone_call (if_pos rfl) (fun y w' hy => ?_) hk
  simp only [router, access] at hy
  split at hy
  · rename_i hclaimed
    cases hy
    exact ⟨hclaimed.symm, rfl⟩
  · cases hy

theorem alone_claim {f : Unit → Method β} (hk : Alone Q (f ()).run (w.claim e)) :
    Alone Q (ask (.claim e) >>= f).run w := by
  refine Monitor.alone_call rfl (fun y w' hy => ?_) hk
  cases hy
  exact ⟨rfl, rfl⟩

/-! ### The mailboxes -/

theorem Shows.init (id : ℕ) : Shows {} (.init id) where
  mailboxes_ := rfl
  endpointCount := rfl
  endpoint _ _ h := nomatch h
  claimed_ _ _ h := nomatch h

theorem get_entry_of_some (h : s.mailboxes_ tok = some e) : s.get_entry_ tok = (e, s) := by
  rw [Sys.get_entry_, h]

theorem get_entry_log (s : Sys) (tok : MailboxToken_t) : (s.get_entry_ tok).2.log = s.log := by
  unfold Sys.get_entry_
  split <;> rfl

theorem get_entry_named (s : Sys) (tok : MailboxToken_t) :
    (s.get_entry_ tok).2.mailboxes_ tok = some (s.get_entry_ tok).1 := by
  unfold Sys.get_entry_
  split
  · rename_i h
    exact h
  · exact Function.update_self ..

theorem get_entry_of_none (h : s.mailboxes_ tok = none) : s.get_entry_ tok =
    (s.endpointCount, { s.newEndpoint 0 with
      mailboxes_ := Function.update s.mailboxes_ tok (some s.endpointCount) }) := by
  rw [Sys.get_entry_, h]

theorem try_emplace_of_none (h : w.mailboxes_ tok = none) : w.try_emplace tok =
    ((w.endpointCount, true), ⟨Function.update w.mailboxes_ tok (some w.endpointCount),
      Function.update w.claimed_ w.endpointCount false, w.endpointCount + 1⟩) := by
  rw [Memory.try_emplace, h]

theorem Shows.newEntry (h : Shows w s) (hn : s.mailboxes_ tok = none) :
    (w.try_emplace tok).1 = ((s.get_entry_ tok).1, true) ∧
      Shows (w.try_emplace tok).2 (s.get_entry_ tok).2 := by
  have hw : w.mailboxes_ tok = none := by rw [h.mailboxes_, hn]
  have hold : ∀ tok' e, s.mailboxes_ tok' = some e → e ≠ s.endpointCount := fun tok' e he =>
    Nat.ne_of_lt (h.endpoint tok' e he).1
  rw [get_entry_of_none hn, try_emplace_of_none hw, h.mailboxes_, h.endpointCount]
  refine ⟨rfl, rfl, rfl, fun tok' e he => ?_, fun tok' e he => ?_⟩
  · dsimp only at he
    by_cases htok : tok' = tok
    · subst htok
      rw [Function.update_self] at he
      cases he
      exact ⟨Nat.lt_succ_self _, by simp [Sys.newEndpoint]⟩
    · rw [Function.update_of_ne htok] at he
      obtain ⟨hlt, halive⟩ := h.endpoint tok' e he
      refine ⟨Nat.lt_succ_of_lt hlt, ?_⟩
      simpa [Sys.newEndpoint, hold tok' e he] using halive
  · dsimp only at he
    by_cases htok : tok' = tok
    · subst htok
      rw [Function.update_self] at he
      cases he
      simp [Sys.newEndpoint]
    · rw [Function.update_of_ne htok] at he
      simpa [Sys.newEndpoint, hold tok' e he] using h.claimed_ tok' e he

theorem alone_bind {α : Type} {p : Method α} {f : α → Method β}
    (h : Alone (fun r w' => match r with
      | .ok a => Alone Q (f a).run w'
      | .error e => Q (.error e) w') p.run w) : Alone Q (p >>= f).run w := by
  rw [ExceptT.run_bind]
  refine (Script.safe_bind _ _ _).mpr (Script.safe_mono h ?_)
  intro r w' hr
  cases r with
  | ok a => exact hr
  | error e => exact hr

theorem alone_get_entry (h : Shows w s) : Alone
    (fun r w' => r = .ok (s.get_entry_ tok).1 ∧ Shows w' (s.get_entry_ tok).2)
    (get_entry_ tok).run w := by
  refine alone_find ?_
  rw [h.mailboxes_]
  cases hm : s.mailboxes_ tok with
  | some e =>
    rw [get_entry_of_some hm]
    exact ⟨rfl, h⟩
  | none =>
    obtain ⟨hmade, hshows⟩ := h.newEntry hm
    refine alone_try_emplace ?_
    rw [hmade]
    exact ⟨rfl, hshows⟩

theorem Shows.emit (h : Shows w s) (es : List Event) : Shows w (s.emit es) :=
  ⟨h.mailboxes_, h.endpointCount, h.endpoint, h.claimed_⟩

theorem Shows.claim (h : Shows w s) (he : s.mailboxes_ tok = some e) :
    Shows (w.claim e) (s.setEndpoint e { s.endpoints e with claimed_ := true }) := by
  refine ⟨h.mailboxes_, h.endpointCount, fun tok' e' he' => ?_, fun tok' e' he' => ?_⟩
  · obtain ⟨hlt, halive⟩ := h.endpoint tok' e' he'
    refine ⟨hlt, ?_⟩
    by_cases hee : e' = e
    · subst hee
      simpa [Sys.setEndpoint] using halive
    · simpa [Sys.setEndpoint, hee] using halive
  · by_cases hee : e' = e
    · subst hee
      simp [Sys.setEndpoint, Memory.claim]
    · simpa [Sys.setEndpoint, Memory.claim, hee] using h.claimed_ tok' e' he'

/-! ### The methods -/

theorem alone_outcome {p : Method Result} {Q : Result → Memory → Prop}
    (h : Alone (fun r w' => Q (resultOf r) w') p.run w) : Alone Q (outcome p) w :=
  (Script.safe_bind _ _ _).mpr h

theorem right_claim_mailbox (h : Shows w s) :
    Alone (fun r w' => ∃ s', Performs s (.claim_mailbox tok, r) s' ∧ Shows w' s')
      (router.body (.claim_mailbox tok)) w := by
  have hstep : s.step (.claim_mailbox tok) = some (s.claim_mailbox tok) := if_pos (h.endpoint tok)
  refine alone_outcome (alone_bind (Script.safe_mono (alone_get_entry h) ?_))
  rintro r w' ⟨rfl, h'⟩
  refine alone_claimed ?_
  have hnamed := get_entry_named s tok
  rw [h'.claimed_ _ _ hnamed]
  by_cases hclaimed : ((s.get_entry_ tok).2.endpoints (s.get_entry_ tok).1).claimed_ = true
  · have hcall : s.claim_mailbox tok = (s.get_entry_ tok).2.emit [.threw .claimTwice] :=
      if_pos hclaimed
    rw [hclaimed]
    refine ⟨s.claim_mailbox tok, ⟨hstep, .threw .claimTwice, rfl, ?_⟩, ?_⟩
    · rw [hcall, ← get_entry_log s tok]
      rfl
    · rw [hcall]
      exact h'.emit _
  · have hcall : s.claim_mailbox tok = ((s.get_entry_ tok).2.setEndpoint (s.get_entry_ tok).1
        { (s.get_entry_ tok).2.endpoints (s.get_entry_ tok).1 with claimed_ := true }).emit
          [.claimed tok (s.get_entry_ tok).1] := if_neg hclaimed
    rw [Bool.not_eq_true] at hclaimed
    rw [hclaimed]
    refine alone_claim ?_
    refine ⟨s.claim_mailbox tok, ⟨hstep, .claimed tok (s.get_entry_ tok).1, rfl, ?_⟩, ?_⟩
    · rw [hcall, ← get_entry_log s tok]
      rfl
    · rw [hcall]
      exact (h'.claim hnamed).emit _

theorem right_get_mailbox (h : Shows w s) :
    Alone (fun r w' => ∃ s', Performs s (.get_mailbox tok, r) s' ∧ Shows w' s')
      (router.body (.get_mailbox tok)) w := by
  have hstep : s.step (.get_mailbox tok) = some (s.get_mailbox tok) := if_pos (h.endpoint tok)
  refine alone_outcome (alone_bind (Script.safe_mono (alone_get_entry h) ?_))
  rintro r w' ⟨rfl, h'⟩
  refine ⟨s.get_mailbox tok, ⟨hstep, .mailbox tok (s.get_entry_ tok).1, rfl, ?_⟩, h'.emit _⟩
  rw [← get_entry_log s tok]
  rfl

theorem right : router.Right Performs Shows := by
  intro op w s h
  cases op with
  | claim_mailbox tok => exact right_claim_mailbox h
  | get_mailbox tok => exact right_get_mailbox h

theorem sim_of_sequence {T : Type} {L : List (T × Op × Result)} {s' : Sys} {m : Mail}
    (hs : Sim s m) (h : Sequence Performs s L s') : ∃ m', Sim s' m' := by
  induction L generalizing s m with
  | nil =>
    cases h
    exact ⟨m, hs⟩
  | cons c L ih =>
    obtain ⟨u, ⟨hstep, -⟩, hrest⟩ := h
    obtain ⟨t, op, r⟩ := c
    cases op with
    | claim_mailbox tok =>
      simp only [Op.msg, Sys.step, Option.ite_none_right_eq_some, Option.some.injEq] at hstep
      obtain ⟨-, rfl⟩ := hstep
      exact ih (hs.claim_mailbox tok) hrest
    | get_mailbox tok =>
      simp only [Op.msg, Sys.step, Option.ite_none_right_eq_some, Option.some.injEq] at hstep
      obtain ⟨-, rfl⟩ := hstep
      exact ih (hs.get_mailbox tok) hrest

end

/-- Threads that claim and get mailboxes get what they would get one after the other: for each token
at most one of them claims the mailbox, and tokens and endpoints go together one to one. Nobody
touches `mailboxes_`, or reads or sets a `claimed_`, without `mtx_`. -/
theorem router_linearizable (id : ℕ)
    {s : Threads ℕ Op Result (Monitor.Access Access) (Monitor.Answer Ans) (Monitor.Memory ℕ Memory)}
    (h : Run (router.object ℕ).Steps ⟨⟨none, {}⟩, fun _ => none, []⟩ s) :
    (∃ L s', Linearizes Performs (.init id) s.history L ∧ Sequence Performs (.init id) L s' ∧
      (∀ tok, (claims tok s'.log).length ≤ 1) ∧
      ∀ tok tok' e e', Denotes s' tok e → Denotes s' tok' e' → (tok = tok' ↔ e = e')) ∧
    ∀ t a k, s.calls t = some (.call a k) → (router.object ℕ).fine t a s.memory := by
  obtain ⟨⟨L, hL⟩, hfine⟩ := Monitor.linearizable right (Shows.init id) h
  obtain ⟨s', hs'⟩ := hL.legal
  obtain ⟨m, hm⟩ := sim_of_sequence (init_sim id) hs'
  refine ⟨⟨L, s', hL, hs', fun tok => ?_, fun tok tok' e e' he he' => ?_⟩, hfine⟩
  · rw [hm.boxes.claims tok]
    split
    · exact Nat.le_refl 1
    · exact Nat.zero_le 1
  · have htok := (hm.names.named tok e).mp (hm.names.denotes tok e he)
    have htok' := (hm.names.named tok' e').mp (hm.names.denotes tok' e' he')
    constructor
    · rintro rfl
      have hsame := hm.names.denotes tok e' he'
      rw [hm.names.denotes tok e he] at hsame
      exact Option.some.inj hsame
    · rintro rfl
      rw [htok] at htok'
      exact Option.some.inj htok'

def twoClaims : List (Object.Act ℕ Op (Monitor.Access Access) (Monitor.Answer Ans)) :=
  [.invoke 0 (.claim_mailbox 5), .invoke 1 (.claim_mailbox 5), .access 0 .lock (), .retry 1,
    .access 0 (.under (.find 5)) none, .access 0 (.under (.try_emplace 5)) ((0 : ℕ), true),
    .access 0 (.under (.claimed 0)) false, .access 0 (.under (.claim 0)) (),
    .access 0 .unlock (), .access 1 .lock (), .access 1 (.under (.find 5)) (some (0 : ℕ)),
    .access 1 (.under (.claimed 0)) true, .access 1 .unlock (), .ret 1, .ret 0]

theorem two_claims_linearizable : ∃ s,
    follow (router.object ℕ).step twoClaims ⟨⟨none, {}⟩, fun _ => none, []⟩ = some s ∧
    s.history = [.invoke 0 (.claim_mailbox 5), .invoke 1 (.claim_mailbox 5),
      .ret 1 (.thrown .alreadyClaimed), .ret 0 (.receiver 0)] ∧
    ∃ L, Linearizes Performs (.init 0) s.history L := by
  obtain ⟨s, hs⟩ : ∃ s,
      follow (router.object ℕ).step twoClaims ⟨⟨none, {}⟩, fun _ => none, []⟩ = some s := ⟨_, rfl⟩
  obtain ⟨⟨L, s', hL, -⟩, -⟩ := router_linearizable 0 (run_of_follow hs)
  refine ⟨s, hs, ?_, L, hL⟩
  cases hs
  rfl

end Omulator.Router
