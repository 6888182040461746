import Omulator.Lib.Cycle
import Omulator.Lib.Transition
import Omulator.Msg.Message
import Mathlib.Data.Finset.Basic
import Mathlib.Logic.Function.Basic

/-!
# Several MailboxEndpoints used by several threads (`src/msg/MailboxEndpoint.cpp`)

Each acquisition and each release of a mutex is a step. `recv` keeps the mutex of its endpoint
while it runs the callbacks, and a callback may call `send`, `on` and `off` of any endpoint.
What a callback calls is up to the user of the endpoint; the mutex of the pool in `submit` is
held for no other mutex and is left out.
-/

namespace Omulator.Endpoints
open Omulator.Lib Relation
open Omulator.Msg (MessageType)

inductive RecvBehavior where
  | BLOCK
  | NONBLOCK
  deriving DecidableEq

/-- A call a callback may make; a MessageQueue is its two flags and the types of its messages. -/
inductive Act where
  | send (e : ℕ) (valid sealed : Bool) (msgs : List MessageType)
  | on (e : ℕ) (type : MessageType)
  | off (e : ℕ) (type : MessageType)

structure MailboxEndpoint where
  claimed_ : Bool := false
  /-- the types with a callback -/
  callbacks_ : Finset MessageType := ∅
  queue_ : List (List MessageType) := []
  /-- the thread that has locked it -/
  mtx_ : Option ℕ := none

inductive Place where
  | idle
  /-- in `send`, `on` or `off`, before the lock and under it -/
  | wants (a : Act)
  | holds (a : Act)
  /-- in `recv(BLOCK)`, before the `unique_lock`, at the test of the wait, and waiting -/
  | blocking (e : ℕ)
  | checking (e : ℕ)
  | asleep (e : ℕ)
  /-- in the loop of `recv`, before `queue_.empty()` and before the `scoped_lock` -/
  | looping (e : ℕ)
  | locking (e : ℕ)
  /-- under the lock, with the messages that are left of the first queue -/
  | pumping (e : ℕ) (msgs : List MessageType)
  | inCallback (e : ℕ) (msgs : List MessageType)
  /-- in a call the callback makes, before its lock and under it -/
  | callbackWants (e : ℕ) (msgs : List MessageType) (a : Act)
  | callbackHolds (e : ℕ) (msgs : List MessageType) (a : Act)

structure System where
  endpoints : ℕ → MailboxEndpoint := fun _ => {}
  threads : ℕ → Place := fun _ => .idle

namespace Act

def endpoint : Act → ℕ
  | .send e _ _ _ | .on e _ | .off e _ => e

def locks (a : Act) (s : System) : Bool :=
  match a with
  | .send _ valid isSealed _ => valid && !isSealed
  | .on e _ => (s.endpoints e).claimed_
  | .off _ _ => true

def perform (a : Act) (x : MailboxEndpoint) : MailboxEndpoint :=
  match a with
  | .send _ _ _ msgs => { x with queue_ := x.queue_ ++ [msgs] }
  | .on _ type => { x with callbacks_ := insert type x.callbacks_ }
  | .off _ type => { x with callbacks_ := x.callbacks_.erase type }

end Act

namespace Place

def wanted : Place → Option ℕ
  | .wants a | .callbackWants _ _ a => some a.endpoint
  | .blocking e | .locking e => some e
  | _ => none

def held : Place → List ℕ
  | .holds a => [a.endpoint]
  | .checking e | .pumping e _ | .inCallback e _ | .callbackWants e _ _ => [e]
  | .callbackHolds e _ a => [e, a.endpoint]
  | _ => []

end Place

namespace System

def goto (t : ℕ) (p : Place) (s : System) : System :=
  { s with threads := Function.update s.threads t p }

def acquire (t e : ℕ) (p : Place) (s : System) : Option System :=
  if (s.endpoints e).mtx_ = none then
    some ({ s with
      endpoints := Function.update s.endpoints e { s.endpoints e with mtx_ := some t } }.goto t p)
  else none

def release (t e : ℕ) (f : MailboxEndpoint → MailboxEndpoint) (p : Place) (s : System) : System :=
  { s with
    endpoints := Function.update s.endpoints e { f (s.endpoints e) with mtx_ := none } }.goto t p

def go (t : ℕ) (s : System) : Option System :=
  match s.threads t with
  | .idle => none
  | .wants a => s.acquire t a.endpoint (.holds a)
  | .holds a => some (s.release t a.endpoint a.perform .idle)
  | .blocking e => s.acquire t e (.checking e)
  | .checking e =>
    some (s.release t e id (if (s.endpoints e).queue_ = [] then .asleep e else .looping e))
  -- `notify_all`, or for no reason
  | .asleep e => some (s.goto t (.blocking e))
  | .looping e => some (s.goto t (if (s.endpoints e).queue_ = [] then .idle else .locking e))
  | .locking e => s.acquire t e (.pumping e ((s.endpoints e).queue_.headD []))
  -- `MSG_NULL` and what is above `MSG_MAX` is passed to no callback
  | .pumping e (type :: msgs) =>
    some (s.goto t (if type.deliverable ∧ type ∈ (s.endpoints e).callbacks_ then .inCallback e msgs
      else .pumping e msgs))
  | .pumping e [] =>
    some (s.release t e (fun x => { x with queue_ := x.queue_.tail }) (.looping e))
  | .inCallback e msgs => some (s.goto t (.pumping e msgs))
  | .callbackWants e msgs a => s.acquire t a.endpoint (.callbackHolds e msgs a)
  | .callbackHolds e msgs a => some (s.release t a.endpoint a.perform (.inCallback e msgs))

end System

inductive Label where
  | claim (e : ℕ)
  /-- the thread, or the callback it is in, calls `send`, `on` or `off` -/
  | call (t : ℕ) (a : Act)
  | recv (t e : ℕ) (recvBehavior : RecvBehavior)
  | go (t : ℕ)
  /-- the callback throws, which unlocks the mutex and leaves `recv` -/
  | throws (t : ℕ)

namespace System

def step : Label → System → Option System
  | .claim e, s =>
    some { s with
      endpoints := Function.update s.endpoints e { s.endpoints e with claimed_ := true } }
  | .call t a, s =>
    match s.threads t with
    | .idle => some (if a.locks s then s.goto t (.wants a) else s)
    | .inCallback e msgs => some (if a.locks s then s.goto t (.callbackWants e msgs a) else s)
    | _ => none
  | .recv t e recvBehavior, s =>
    match s.threads t with
    | .idle => some (s.goto t (if recvBehavior = .BLOCK then .blocking e else .looping e))
    | _ => none
  | .go t, s => s.go t
  | .throws t, s =>
    match s.threads t with
    | .inCallback e _ => some (s.release t e id .idle)
    | _ => none

def Step (s : System) (l : Label) (s' : System) : Prop := s.step l = some s'

end System

def Waits (s : System) (t u : ℕ) : Prop :=
  ∃ e, (s.threads t).wanted = some e ∧ (s.endpoints e).mtx_ = some u

/-- A thread waits for a mutex it holds itself, or threads wait for one another in a circle. -/
def Deadlocked (s : System) : Prop := ∃ t, TransGen (Waits s) t t

/-- Where a callback of `e` makes a call that locks `f`, `R` relates `e` to `f`. -/
def Obeys (R : ℕ → ℕ → Prop) (s : System) (l : Label) : Prop :=
  ∀ t a, l = .call t a → a.locks s = true →
    ∀ e msgs, s.threads t = .inCallback e msgs → R e a.endpoint

/-! ### Who holds what -/

structure Inv (R : ℕ → ℕ → Prop) (s : System) : Prop where
  owned : ∀ e t, (s.endpoints e).mtx_ = some t → e ∈ (s.threads t).held
  obeyed : ∀ t e msgs a, s.threads t = .callbackWants e msgs a → R e a.endpoint

section
variable {R : ℕ → ℕ → Prop} {s s' : System} {t e : ℕ} {p : Place}

theorem Inv.start : Inv R {} where
  owned e t h := by cases h
  obeyed t e msgs a h := by cases h

theorem Inv.move (h : Inv R s) (hthreads : s'.threads = Function.update s.threads t p)
    (hothers : ∀ e u, u ≠ t → (s'.endpoints e).mtx_ = some u → (s.endpoints e).mtx_ = some u)
    (hself : ∀ e, (s'.endpoints e).mtx_ = some t → e ∈ p.held)
    (hR : ∀ e msgs a, p = .callbackWants e msgs a → R e a.endpoint) : Inv R s' where
  owned e u hu := by
    rw [hthreads]
    by_cases hut : u = t
    · subst hut
      rw [Function.update_self]
      exact hself e hu
    · rw [Function.update_of_ne hut]
      exact h.owned e u (hothers e u hut hu)
  obeyed u e msgs a hu := by
    rw [hthreads] at hu
    by_cases hut : u = t
    · subst hut
      rw [Function.update_self] at hu
      exact hR e msgs a hu
    · rw [Function.update_of_ne hut] at hu
      exact h.obeyed u e msgs a hu

theorem Inv.goto (h : Inv R s) (hheld : ∀ e ∈ (s.threads t).held, e ∈ p.held)
    (hR : ∀ e msgs a, p = .callbackWants e msgs a → R e a.endpoint) : Inv R (s.goto t p) :=
  h.move rfl (fun _ _ _ hu => hu) (fun e he => hheld e (h.owned e t he)) hR

theorem Inv.acquire (h : Inv R s) (hs : s.acquire t e p = some s')
    (hheld : ∀ f ∈ (s.threads t).held, f ∈ p.held) (he : e ∈ p.held)
    (hR : ∀ e msgs a, p = .callbackWants e msgs a → R e a.endpoint) : Inv R s' := by
  unfold System.acquire at hs
  split at hs
  · cases hs
    refine h.move rfl ?_ ?_ hR
    · intro f u hut hu
      by_cases hfe : f = e
      · subst hfe
        have hu' : some t = some u := by simpa [System.goto] using hu
        exact absurd (Option.some.inj hu').symm hut
      · simpa [System.goto, hfe] using hu
    · intro f hf
      by_cases hfe : f = e
      · rw [hfe]
        exact he
      · exact hheld f (h.owned f t (by simpa [System.goto, hfe] using hf))
  · cases hs

theorem Inv.release (h : Inv R s) (f : MailboxEndpoint → MailboxEndpoint)
    (hheld : ∀ g ∈ (s.threads t).held, g ≠ e → g ∈ p.held)
    (hR : ∀ e msgs a, p = .callbackWants e msgs a → R e a.endpoint) :
    Inv R (s.release t e f p) := by
  refine h.move rfl ?_ ?_ hR
  · intro g u _ hu
    by_cases hge : g = e
    · simp [System.release, System.goto, hge] at hu
    · simpa [System.release, System.goto, hge] using hu
  · intro g hg
    by_cases hge : g = e
    · simp [System.release, System.goto, hge] at hg
    · exact hheld g (h.owned g t (by simpa [System.release, System.goto, hge] using hg)) hge

theorem Inv.go (h : Inv R s) (hs : s.go t = some s') : Inv R s' := by
  unfold System.go at hs
  cases hp : s.threads t with
  | idle =>
    rw [hp] at hs
    cases hs
  | wants a =>
    rw [hp] at hs
    exact h.acquire hs (by simp [hp, Place.held]) (by simp [Place.held]) (by simp)
  | holds a =>
    rw [hp] at hs
    cases hs
    exact h.release _ (by simp [hp, Place.held]) (by simp)
  | blocking e =>
    rw [hp] at hs
    exact h.acquire hs (by simp [hp, Place.held]) (by simp [Place.held]) (by simp)
  | checking e =>
    rw [hp] at hs
    cases hs
    refine h.release _ (by simp [hp, Place.held]) ?_
    intro e' msgs a ha
    split at ha <;> cases ha
  | asleep e =>
    rw [hp] at hs
    cases hs
    exact h.goto (by simp [hp, Place.held]) (by simp)
  | looping e =>
    rw [hp] at hs
    cases hs
    refine h.goto (by simp [hp, Place.held]) ?_
    intro e' msgs a ha
    split at ha <;> cases ha
  | locking e =>
    rw [hp] at hs
    exact h.acquire hs (by simp [hp, Place.held]) (by simp [Place.held]) (by simp)
  | pumping e msgs =>
    rw [hp] at hs
    cases msgs with
    | nil =>
      cases hs
      exact h.release _ (by simp [hp, Place.held]) (by simp)
    | cons type msgs =>
      cases hs
      refine h.goto ?_ ?_
      · intro f hf
        rw [hp] at hf
        split <;> exact hf
      · intro e' msgs' a ha
        split at ha <;> cases ha
  | inCallback e msgs =>
    rw [hp] at hs
    cases hs
    exact h.goto (by simp [hp, Place.held]) (by simp)
  | callbackWants e msgs a =>
    rw [hp] at hs
    exact h.acquire hs (by simp [hp, Place.held]) (by simp [Place.held]) (by simp)
  | callbackHolds e msgs a =>
    rw [hp] at hs
    cases hs
    refine h.release _ ?_ (by simp)
    intro g hg hne
    rw [hp] at hg
    simpa [Place.held, hne] using hg

theorem Inv.step {l : Label} (h : Inv R s) (hok : Obeys R s l) (hs : System.Step s l s') :
    Inv R s' := by
  unfold System.Step System.step at hs
  cases l with
  | claim e =>
    cases hs
    refine ⟨?_, h.obeyed⟩
    intro f u hu
    refine h.owned f u ?_
    by_cases hfe : f = e
    · subst hfe
      simpa using hu
    · simpa [hfe] using hu
  | call t a =>
    dsimp only at hs
    split at hs
    · next hp =>
      cases hs
      split
      · exact h.goto (by simp [hp, Place.held]) (by simp)
      · exact h
    · next e msgs hp =>
      cases hs
      split
      · next hlock =>
        refine h.goto (by simp [hp, Place.held]) ?_
        intro e' msgs' a' ha
        cases ha
        exact hok t a rfl hlock e msgs hp
      · exact h
    · cases hs
  | recv t e recvBehavior =>
    dsimp only at hs
    split at hs
    · next hp =>
      cases hs
      refine h.goto (by simp [hp, Place.held]) ?_
      intro e' msgs a ha
      split at ha <;> cases ha
    · cases hs
  | go t => exact h.go hs
  | throws t =>
    dsimp only at hs
    split at hs
    · next e msgs hp =>
      cases hs
      exact h.release _ (by simp [hp, Place.held]) (by simp)
    · cases hs

/-! ### A circle of waiting threads is a circle of calls -/

/-- A thread that holds a mutex and waits for another is in a callback. -/
theorem Inv.waits (h : Inv R s) {u : ℕ} (hw : Waits s t u) :
    ∃ e, (s.threads t).wanted = some e ∧ ∀ f, (s.threads u).wanted = some f → R e f := by
  obtain ⟨e, he, hu⟩ := hw
  refine ⟨e, he, fun f hf => ?_⟩
  have hheld := h.owned e u hu
  cases hp : s.threads u with
  | callbackWants e' msgs a =>
    rw [hp] at hheld hf
    have hR := h.obeyed u e' msgs a hp
    have hee : e = e' := by simpa [Place.held] using hheld
    cases hf
    rw [hee]
    exact hR
  | _ =>
    rw [hp] at hheld hf
    simp [Place.held, Place.wanted] at hheld hf

theorem Inv.not_deadlocked (h : Inv R s) (hR : ∀ e, ¬ TransGen R e e) : ¬ Deadlocked s := by
  rintro ⟨t, ht⟩
  obtain ⟨e, he, hcycle⟩ := transGen_wanted (fun t u hw => h.waits hw) ht
  exact hR e (hcycle e he)

end

/-! ### A circle of calls comes to a deadlock -/

namespace System

def put (t e : ℕ) (p : Place) (x : MailboxEndpoint) (s : System) : System :=
  ⟨Function.update s.endpoints e x, Function.update s.threads t p⟩

section
variable (t e : ℕ) (p q : Place) (x : MailboxEndpoint) (s : System)

@[simp] theorem put_threads : (s.put t e p x).threads t = p := Function.update_self ..
@[simp] theorem put_endpoints : (s.put t e p x).endpoints e = x := Function.update_self ..
theorem put_threads_ne {u : ℕ} (h : u ≠ t) : (s.put t e p x).threads u = s.threads u :=
  Function.update_of_ne h ..
theorem put_endpoints_ne {f : ℕ} (h : f ≠ e) : (s.put t e p x).endpoints f = s.endpoints f :=
  Function.update_of_ne h ..

@[simp] theorem put_goto : (s.put t e p x).goto t q = s.put t e q x := by
  simp [put, goto]

@[simp] theorem put_acquire (h : x.mtx_ = none) :
    (s.put t e p x).acquire t e q = some (s.put t e q { x with mtx_ := some t }) := by
  simp [put, acquire, goto, h]

@[simp] theorem put_release (f : MailboxEndpoint → MailboxEndpoint) :
    (s.put t e p x).release t e f q = s.put t e q { f x with mtx_ := none } := by
  simp [put, release, goto]

end
end System

section
variable {R : ℕ → ℕ → Prop} {s : System} {t e f : ℕ}

theorem obeys_of_not_call {l : Label} (h : ∀ t a, l ≠ .call t a) : Obeys R s l :=
  fun t a hl => absurd hl (h t a)

theorem obeys_of_idle {a : Act} (h : s.threads t = .idle) : Obeys R s (.call t a) := by
  intro u a' hl _ e msgs hu
  cases hl
  rw [h] at hu
  cases hu

def claimed : MailboxEndpoint := { claimed_ := true }
def ready : MailboxEndpoint := { claimed_ := true, callbacks_ := {.POKE} }
def loaded : MailboxEndpoint := { claimed_ := true, callbacks_ := {.POKE}, queue_ := [[.POKE]] }

theorem run_into_call (hidle : s.threads t = .idle) (hfree : s.endpoints e = {}) (hR : R e f) :
    RunUnder System.Step (Obeys R) s
      (s.put t e (.callbackWants e [] (.off f .POKE)) { loaded with mtx_ := some t }) := by
  have hpoke : MessageType.POKE.deliverable = true := by decide
  have h1 : RunUnder System.Step (Obeys R) s (s.put t e .idle claimed) := by
    refine .next .start (a := .claim e) (obeys_of_not_call (by simp)) ?_
    have hthreads : Function.update s.threads t .idle = s.threads :=
      Function.update_eq_self_iff.mpr hidle.symm
    simp [System.Step, System.step, System.put, hthreads, hfree, claimed]
  have h2 := h1.next (a := .call t (.on e .POKE)) (obeys_of_idle (System.put_threads ..))
    (u := s.put t e (.wants (.on e .POKE)) claimed)
    (by simp [System.Step, System.step, Act.locks, claimed])
  have h3 := h2.next (a := .go t) (obeys_of_not_call (by simp))
    (u := s.put t e (.holds (.on e .POKE)) { claimed with mtx_ := some t })
    (by simp [System.Step, System.step, System.go, Act.endpoint, claimed])
  have h4 := h3.next (a := .go t) (obeys_of_not_call (by simp))
    (u := s.put t e .idle ready)
    (by simp [System.Step, System.step, System.go, Act.endpoint, Act.perform, claimed, ready])
  have h5 := h4.next (a := .call t (.send e true false [.POKE]))
    (obeys_of_idle (System.put_threads ..))
    (u := s.put t e (.wants (.send e true false [.POKE])) ready)
    (by simp [System.Step, System.step, Act.locks])
  have h6 := h5.next (a := .go t) (obeys_of_not_call (by simp))
    (u := s.put t e (.holds (.send e true false [.POKE])) { ready with mtx_ := some t })
    (by simp [System.Step, System.step, System.go, Act.endpoint, ready])
  have h7 := h6.next (a := .go t) (obeys_of_not_call (by simp))
    (u := s.put t e .idle loaded)
    (by simp [System.Step, System.step, System.go, Act.endpoint, Act.perform, ready, loaded])
  have h8 := h7.next (a := .recv t e .NONBLOCK) (obeys_of_not_call (by simp))
    (u := s.put t e (.looping e) loaded) (by simp [System.Step, System.step])
  have h9 := h8.next (a := .go t) (obeys_of_not_call (by simp))
    (u := s.put t e (.locking e) loaded)
    (by simp [System.Step, System.step, System.go, loaded])
  have h10 := h9.next (a := .go t) (obeys_of_not_call (by simp))
    (u := s.put t e (.pumping e [.POKE]) { loaded with mtx_ := some t })
    (by simp [System.Step, System.step, System.go, loaded])
  have h11 := h10.next (a := .go t) (obeys_of_not_call (by simp))
    (u := s.put t e (.inCallback e []) { loaded with mtx_ := some t })
    (by simp [System.Step, System.step, System.go, loaded, hpoke])
  have hcalls : Obeys R (s.put t e (.inCallback e []) { loaded with mtx_ := some t })
      (.call t (.off f .POKE)) := by
    intro u a hl _ e' msgs hu
    cases hl
    rw [System.put_threads] at hu
    cases hu
    exact hR
  exact h11.next hcalls (by simp [System.Step, System.step, Act.locks, loaded])

/-- Along a walk through different endpoints, one thread after the other stops in a callback that
calls the next endpoint. -/
theorem run_along {p : ℕ → ℕ} {k : ℕ} (hR : ∀ m < k, R (p m) (p (m + 1)))
    (hdiff : ∀ i < k, ∀ i' < i, p i' ≠ p i) (m : ℕ) (hm : m ≤ k) :
    ∃ s, RunUnder System.Step (Obeys R) {} s ∧
      (∀ i < m, (s.threads i).wanted = some (p (i + 1)) ∧ (s.endpoints (p i)).mtx_ = some i) ∧
      (∀ i, m ≤ i → s.threads i = .idle) ∧
      ∀ e, (∀ i < m, p i ≠ e) → s.endpoints e = {} := by
  induction m with
  | zero => exact ⟨{}, .start, by simp, fun _ _ => rfl, fun _ _ => rfl⟩
  | succ m ih =>
    obtain ⟨s, hrun, hstopped, hidle, hfree⟩ := ih (by omega)
    have hrest := run_into_call (hidle m le_rfl) (hfree (p m) fun i hi => hdiff m (by omega) i hi)
      (hR m (by omega))
    refine ⟨_, hrun.trans hrest, ?_, ?_, ?_⟩
    · intro i hi
      by_cases him : i = m
      · subst him
        rw [System.put_threads, System.put_endpoints]
        exact ⟨rfl, rfl⟩
      · rw [System.put_threads_ne _ _ _ _ _ him,
          System.put_endpoints_ne _ _ _ _ _ (hdiff m (by omega) i (by omega))]
        exact hstopped i (by omega)
    · intro i hi
      rw [System.put_threads_ne _ _ _ _ _ (by omega)]
      exact hidle i (by omega)
    · intro e he
      rw [System.put_endpoints_ne _ _ _ _ _ (he m (by omega)).symm]
      exact hfree e fun i hi => he i (by omega)

theorem deadlock_of_circle (h : TransGen R e e) :
    ∃ s, RunUnder System.Step (Obeys R) {} s ∧ Deadlocked s := by
  obtain ⟨p, j, k, hjk, hback, hR, hdiff⟩ := exists_first_return h
  obtain ⟨s, hrun, hstopped, _, _⟩ := run_along hR hdiff k le_rfl
  refine ⟨s, hrun, j, ?_⟩
  have hnext : ∀ i, i + 1 < k → Waits s i (i + 1) := fun i hi =>
    ⟨p (i + 1), (hstopped i (by omega)).1, (hstopped (i + 1) hi).2⟩
  have hwalk : ∀ d, j + d < k → ReflTransGen (Waits s) j (j + d) := by
    intro d hd
    induction d with
    | zero => exact .refl
    | succ d ih => exact (ih (by omega)).tail (hnext (j + d) (by omega))
  obtain ⟨d, rfl⟩ : ∃ d, k = j + d + 1 := ⟨k - j - 1, by omega⟩
  have hlast : Waits s (j + d) j := by
    refine ⟨p (j + d + 1), (hstopped (j + d) (by omega)).1, ?_⟩
    rw [← hback]
    exact (hstopped j hjk).2
  exact .tail' (hwalk d (by omega)) hlast

end

/-- When the callbacks of each endpoint `e` may lock the endpoints that `R` relates it to, and no
others, no run comes to a deadlock exactly if `R` has no circle. -/
theorem deadlock_free_iff (R : ℕ → ℕ → Prop) :
    (∀ s, RunUnder System.Step (Obeys R) {} s → ¬ Deadlocked s) ↔ ∀ e, ¬ TransGen R e e := by
  constructor
  · intro h e he
    obtain ⟨s, hrun, hdead⟩ := deadlock_of_circle he
    exact h s hrun hdead
  · intro hR s hrun
    have hinv : Inv R s := hrun.invariant (Inv R) Inv.start fun _ _ _ hI hok hs => hI.step hok hs
    exact hinv.not_deadlocked hR

/-- A callback sends to the endpoint that is receiving. -/
def sendsToItself : List Label :=
  [.claim 0, .call 0 (.on 0 .POKE), .go 0, .go 0, .call 0 (.send 0 true false [.POKE]), .go 0,
    .go 0, .recv 0 0 .NONBLOCK, .go 0, .go 0, .go 0, .call 0 (.send 0 true false [.POKE])]

/-- It waits for the mutex that its own thread holds. -/
theorem waits_for_itself : ∃ s, Run System.Step {} s ∧ Waits s 0 0 ∧
    ¬ ∀ s, Run System.Step {} s → ¬ Deadlocked s := by
  obtain ⟨s, hs⟩ : ∃ s, follow System.step sendsToItself {} = some s := ⟨_, rfl⟩
  have hrun : Run System.Step {} s := run_of_follow hs
  have hwaits : Waits s 0 0 := by
    cases hs
    exact ⟨0, rfl, rfl⟩
  exact ⟨s, hrun, hwaits, fun h => h s hrun ⟨0, .single hwaits⟩⟩

end Omulator.Endpoints
