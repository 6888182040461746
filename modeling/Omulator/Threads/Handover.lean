import Omulator.Threads.Custody
import Mathlib.Algebra.BigOperators.Group.Finset.Piecewise

/-!
# What the threads can rely on (`src/msg/MessageQueueFactory.cpp`, `src/msg/MailboxEndpoint.cpp`)

No two threads are at one storage, what was sent is received in order, and in the end the factory
deletes each storage once.
-/

namespace Omulator.Storages
open Omulator.Lib Omulator.Msg

variable {ι : Type} {id_ : ℕ} {receiver : ℕ → ι} {s s' : System ι} {t : ι} {p : ℕ}

/-! ### One thread at a storage -/

theorem Inv.first_held {e i : ℕ} (h : Inv id_ receiver s) (hm : (s.endpoints e).mtx_ = some t)
    (hpassed : (s.endpoints e).passed = some i)
    (hp : p ∈ (s.endpoints e).queue_.head?.toList.map MessageQueue.pStorage_) :
    ∃ f, p ∈ s.held (.queue f) ∧ (s.endpoints f).mtx_ = some t := by
  refine ⟨e, ?_, hm⟩
  cases hq : (s.endpoints e).queue_ with
  | nil =>
    rw [hq] at hp
    cases hp
  | cons mq mqs =>
    obtain ⟨hv, -⟩ := (h.lined e).first mq mqs hq
    rw [hpassed] at hv
    rw [hq] at hp
    have hp : p = mq.pStorage_ := by simpa using hp
    simp [System.held, MailboxEndpoint.holds, hq, hp, show mq.valid_ = true from hv]

theorem Inv.touched_held (h : Inv id_ receiver s) (hp : p ∈ s.touched t) :
    (∃ k, p ∈ s.held (.var t k)) ∨ p ∈ s.held (.submit t) ∨
      ∃ e, p ∈ s.held (.queue e) ∧ (s.endpoints e).mtx_ = some t := by
  have hok := (h.fits t).ok
  rcases List.mem_append.mp hp with hp | hp
  · cases hpl : (s.threads t).place with
    | pushing k msg =>
      rw [hpl] at hok hp
      obtain ⟨mq, hvar, hv⟩ := hok
      have hp : p = mq.pStorage_ := by simpa [hvar] using hp
      refine .inl ⟨k, ?_⟩
      simp [System.held, Thread.owns, hvar, hv, hpl, hp, Place.sent]
    | pumping e i =>
      rw [hpl] at hok hp
      refine .inr (.inr (h.first_held (((h.fits t).owner e).mp ?_) hok.2.2 hp))
      simp [Thread.locks, hpl, Place.locks]
    | clearing e q =>
      rw [hpl] at hp
      refine .inr (.inl ?_)
      simp only [System.held, hpl]
      exact hp
    | user | counting _ | creating _ | sending _ _ | queueing _ _ | notifying _ _ | marking _
    | blocking _ | woken _ | looping _ | locking _ | taking _ | enqueuing _ _ | popping _
    | unlocking _ =>
      rw [hpl] at hp
      cases hp
  · obtain ⟨c, hc, hp⟩ := List.mem_flatMap.mp hp
    obtain ⟨-, -, hpassed⟩ := (h.fits t).calls c hc
    refine .inr (.inr (h.first_held (((h.fits t).owner c.1).mp ?_) hpassed hp))
    exact List.mem_append_right _ (List.mem_map_of_mem hc)

theorem Inv.alone {u : ι} (h : Inv id_ receiver s) (ht : p ∈ s.touched t) (hu : p ∈ s.touched u) :
    t = u := by
  rcases h.touched_held ht with ⟨k, hk⟩ | ht | ⟨e, he, hm⟩
  · rcases h.touched_held hu with ⟨k', hk'⟩ | hu | ⟨e', he', -⟩
    · cases h.placed.apart.one _ _ p hk hk'
      rfl
    · cases h.placed.apart.one _ _ p hk hu
    · cases h.placed.apart.one _ _ p hk he'
  · rcases h.touched_held hu with ⟨k', hk'⟩ | hu | ⟨e', he', -⟩
    · cases h.placed.apart.one _ _ p ht hk'
    · cases h.placed.apart.one _ _ p ht hu
      rfl
    · cases h.placed.apart.one _ _ p ht he'
  · rcases h.touched_held hu with ⟨k', hk'⟩ | hu | ⟨e', he', hm'⟩
    · cases h.placed.apart.one _ _ p he hk'
    · cases h.placed.apart.one _ _ p he hu
    · cases h.placed.apart.one _ _ p he he'
      rw [hm] at hm'
      exact Option.some.inj hm'

theorem Inv.not_pooled (h : Inv id_ receiver s) (ht : p ∈ s.touched t) : p ∉ s.cQueue := by
  intro hpool
  have hpool : p ∈ s.held .pool := hpool
  rcases h.touched_held ht with ⟨k, hk⟩ | ht | ⟨e, he, -⟩
  · cases h.placed.apart.one _ _ p hk hpool
  · cases h.placed.apart.one _ _ p ht hpool
  · cases h.placed.apart.one _ _ p he hpool

/-! ### The counter of the factory -/

variable [DecidableEq ι]

def System.Counted [Fintype ι] (s : System ι) : Prop :=
  s.numActiveQueues_ = s.allocated + ∑ t, (s.threads t).place.pending

theorem sum_pending [Fintype ι] (f : ι → Thread) (w : Thread) :
    (∑ u, (Function.update f t w u).place.pending) + (f t).place.pending =
      (∑ u, (f u).place.pending) + w.place.pending := by
  have hsum := Finset.sum_erase_add Finset.univ (fun u => (f u).place.pending) (Finset.mem_univ t)
  have hsum' := Finset.sum_erase_add Finset.univ
    (fun u => (Function.update f t w u).place.pending) (Finset.mem_univ t)
  have hsame : ∑ u ∈ Finset.univ.erase t, (Function.update f t w u).place.pending =
      ∑ u ∈ Finset.univ.erase t, (f u).place.pending := by
    refine Finset.sum_congr rfl fun u hu => ?_
    rw [Function.update_of_ne (Finset.ne_of_mem_erase hu)]
  simp only [Function.update_self] at hsum'
  omega

def Keeps (s s' : System ι) : Prop :=
  ∃ t w, s'.threads = Function.update s.threads t w ∧
    s'.numActiveQueues_ + s.allocated + (s.threads t).place.pending =
      s.numActiveQueues_ + s'.allocated + w.place.pending

theorem Keeps.counted [Fintype ι] (h : Keeps s s') (hs : s.Counted) : s'.Counted := by
  obtain ⟨t, w, hth, heq⟩ := h
  have hsum := sum_pending (t := t) s.threads w
  unfold System.Counted at hs ⊢
  rw [hth]
  omega

theorem Keeps.move {w : Thread} (hth : s'.threads = Function.update s.threads t w)
    (hnum : s'.numActiveQueues_ = s.numActiveQueues_) (halloc : s'.allocated = s.allocated)
    (hp : (s.threads t).place.pending = 0) (hp' : w.place.pending = 0) : Keeps s s' :=
  ⟨t, w, hth, by rw [hnum, halloc, hp, hp']⟩

theorem Keeps.same (t : ι) (hth : s'.threads = s.threads)
    (hnum : s'.numActiveQueues_ = s.numActiveQueues_) (halloc : s'.allocated = s.allocated) :
    Keeps s s' :=
  ⟨t, s.threads t, by rw [hth, Function.update_eq_self], by rw [hnum, halloc]⟩

theorem keeps_acquire {e : ℕ} {pl : Place} (hs : s.acquire t e pl = some s')
    (hp : (s.threads t).place.pending = 0) (hp' : pl.pending = 0) : Keeps s s' := by
  unfold System.acquire at hs
  split at hs
  · cases hs
    exact .move (w := { s.threads t with place := pl }) rfl rfl rfl hp hp'
  · cases hs

theorem keeps_submit {e : ℕ} {mq : MessageQueue} {mqs : List MessageQueue}
    (hp : (s.threads t).place.pending = 0) : Keeps s (s.submit id_ t e mq mqs) := by
  unfold System.submit
  split
  · exact .move (w := { s.threads t with place := .popping e }) rfl rfl rfl hp rfl
  · dsimp only
    split
    · exact .move (w := { s.threads t with place := .popping e }) rfl rfl rfl hp rfl
    · exact .move (w := { s.threads t with place := .clearing e mq.pStorage_ }) rfl rfl rfl hp rfl

theorem keeps_take {e : ℕ} (hp : (s.threads t).place.pending = 0) :
    Keeps s (s.take id_ t e) := by
  unfold System.take
  split
  · exact .same t rfl rfl rfl
  · split
    · exact keeps_submit (s := s.report .pumpInvalid) hp
    · split
      · exact keeps_submit (s := s.report .pumpUnsealed) hp
      · exact .move (w := { s.threads t with place := .pumping e 0 }) rfl rfl rfl hp rfl

theorem keeps_pump {e i : ℕ} {found : Bool} (hp : (s.threads t).place.pending = 0) :
    Keeps s (s.pump id_ t e i found) := by
  unfold System.pump
  split
  · exact .same t rfl rfl rfl
  · split
    · exact keeps_submit hp
    · have hnext : Keeps s ((s.pass e i ‹_›).goto t (.pumping e (i + 1))) :=
        .move (w := { s.threads t with place := .pumping e (i + 1) }) rfl rfl rfl hp rfl
      split
      · split
        · exact .move (w := { s.threads t with calls := (e, i) :: (s.threads t).calls
                                               place := .user }) rfl rfl rfl hp rfl
        · exact hnext
      · split
        · exact hnext
        · exact hnext

theorem keeps_go {found : Bool} (hs : s.go id_ t found = some s') : Keeps s s' := by
  unfold System.go at hs
  cases hp : (s.threads t).place with
  | user =>
    simp only [hp] at hs
    split at hs
    · cases hs
    · rename_i e i calls _
      cases hs
      exact .move (w := { s.threads t with calls := calls, place := .pumping e (i + 1) })
        rfl rfl rfl (by rw [hp]; rfl) rfl
  | counting k =>
    simp only [hp] at hs
    cases hs
    refine ⟨t, { s.threads t with place := .creating k }, rfl, ?_⟩
    simp only [hp, System.goto, System.setThread, Place.pending]
    omega
  | creating k =>
    simp only [hp] at hs
    cases hs
    refine ⟨t, _, rfl, ?_⟩
    simp only [hp, System.newVar, System.setThread, Place.pending]
    omega
  | sending k e | locking e =>
    simp only [hp] at hs
    exact keeps_acquire hs (by rw [hp]; rfl) rfl
  | blocking e =>
    simp only [hp] at hs
    split at hs
    · cases hs
    · exact keeps_acquire hs (by rw [hp]; rfl) rfl
  | pushing k msg | queueing k e =>
    simp only [hp] at hs
    split at hs
    · cases hs
    · cases hs
      exact .move rfl rfl rfl (by rw [hp]; rfl) rfl
  | marking k =>
    simp only [hp] at hs
    split at hs
    · cases hs
    · rename_i mq _
      cases hs
      refine .move (w := { s.threads t with
        vars := Function.update (s.threads t).vars k (some { mq with valid_ := false })
        place := .user }) ?_ rfl rfl (by rw [hp]; rfl) rfl
      simp [System.setVar, System.goto, System.setThread]
  | popping e =>
    simp only [hp] at hs
    split at hs
    · cases hs
      exact .same t rfl rfl rfl
    · cases hs
      exact .move rfl rfl rfl (by rw [hp]; rfl) rfl
  | notifying k e | woken e | unlocking e =>
    simp only [hp] at hs
    cases hs
    exact .move rfl rfl rfl (by rw [hp]; rfl) rfl
  | looping e =>
    simp only [hp] at hs
    cases hs
    refine .move (t := t) rfl rfl rfl (by rw [hp]; rfl) ?_
    split <;> rfl
  | taking e =>
    simp only [hp] at hs
    cases hs
    exact keeps_take (by rw [hp]; rfl)
  | pumping e i =>
    simp only [hp] at hs
    cases hs
    exact keeps_pump (by rw [hp]; rfl)
  | clearing e p | enqueuing e p =>
    simp only [hp] at hs
    cases hs
    exact .move rfl rfl rfl (by rw [hp]; rfl) rfl

theorem keeps_step {l : Label ι} (hs : System.Step id_ s l s') : Keeps s s' := by
  unfold System.Step System.step at hs
  cases l with
  | get t k pick =>
    simp only at hs
    split at hs
    · rename_i hp _
      cases pick with
      | none =>
        cases hs
        exact .move (w := { s.threads t with place := .counting k }) rfl rfl rfl (by rw [hp]; rfl)
          rfl
      | some p =>
        simp only [System.get] at hs
        split at hs
        · cases hs
          exact .move rfl rfl rfl (by rw [hp]; rfl) rfl
        · cases hs
    · cases hs
  | push t k msg =>
    simp only at hs
    split at hs
    · rename_i mq hp _
      cases hs
      unfold System.push
      split
      · exact .same t rfl rfl rfl
      · split
        · exact .same t rfl rfl rfl
        · exact .move (w := { s.threads t with place := .pushing k msg }) rfl rfl rfl
            (by rw [hp]; rfl) rfl
    · cases hs
  | send t k e =>
    simp only at hs
    split at hs
    · rename_i mq hp _
      cases hs
      unfold System.send
      split
      · exact .same t rfl rfl rfl
      · split
        · exact .same t rfl rfl rfl
        · refine .move (w := { s.threads t with
            vars := Function.update (s.threads t).vars k (some { mq with sealed_ := true })
            place := .sending k e }) ?_ rfl rfl (by rw [hp]; rfl) rfl
          simp [System.setVar, System.goto, System.setThread]
    · cases hs
  | recv t e recvBehavior =>
    simp only at hs
    split at hs
    · rename_i hp
      cases hs
      refine .move rfl rfl rfl (by rw [hp]; rfl) ?_
      split <;> rfl
    · cases hs
  | go t found => exact keeps_go hs

theorem counted_of_run [Fintype ι]
    (h : RunUnder (System.Step id_) (fun _ l => OneReceiver receiver l) {} s) : s.Counted := by
  refine h.invariant System.Counted ?_ fun _ _ _ hC _ hs => (keeps_step hs).counted hC
  simp [System.Counted, Place.pending]

/-! ### The end -/

/-- Nobody is in a call any more, and no variable has a queue that was never sent. -/
def System.AtRest (s : System ι) : Prop :=
  ∀ t, (s.threads t).place = .user ∧ (s.threads t).calls = [] ∧
    ∀ k mq, (s.threads t).vars k = some mq → mq.valid_ = false

structure Returned (s s' : System ι) (ps : List ℕ) : Prop where
  cQueue : s'.cQueue = s.cQueue ++ ps
  log : s'.log = s.log
  ids : ∀ p, (s'.heap p).id = (s.heap p).id
  counter : s'.numActiveQueues_ = s.numActiveQueues_

omit [DecidableEq ι] in
theorem discard_endpoints (mqs : List MessageQueue) :
    (mqs.foldl (System.discard id_) s).endpoints = s.endpoints := by
  induction mqs generalizing s with
  | nil => rfl
  | cons mq mqs ih =>
    rw [List.foldl_cons, ih]
    unfold System.discard
    split
    · rfl
    · split <;> rfl

omit [DecidableEq ι] in
theorem discard_all {mqs : List MessageQueue} (hv : ∀ mq ∈ mqs, mq.valid_ = true)
    (hids : ∀ mq ∈ mqs, (s.heap mq.pStorage_).id = id_) :
    Returned s (mqs.foldl (System.discard id_) s) (mqs.map MessageQueue.pStorage_) := by
  induction mqs generalizing s with
  | nil => exact ⟨(List.append_nil _).symm, rfl, fun _ => rfl, rfl⟩
  | cons mq mqs ih =>
    obtain ⟨hv0, hv⟩ := List.forall_mem_cons.mp hv
    obtain ⟨hid, hids⟩ := List.forall_mem_cons.mp hids
    have hone : s.discard id_ mq =
        { s.setStorage mq.pStorage_ [] with cQueue := s.cQueue ++ [mq.pStorage_] } := by
      simp [System.discard, hv0, hid]
    have hheap : ∀ p, ((s.discard id_ mq).heap p).id = (s.heap p).id := by
      intro p
      rw [hone]
      simp only [System.setStorage]
      by_cases hp : p = mq.pStorage_
      · rw [hp, Function.update_self]
      · rw [Function.update_of_ne hp]
    have hrest := ih (s := s.discard id_ mq) hv fun mq' hmq' => by rw [hheap, hids mq' hmq']
    refine ⟨?_, ?_, ?_, ?_⟩
    · rw [List.foldl_cons, hrest.cQueue, hone]
      simp
    · rw [List.foldl_cons, hrest.log, hone]
      rfl
    · intro p
      rw [List.foldl_cons, hrest.ids, hheap]
    · rw [List.foldl_cons, hrest.counter, hone]
      rfl

omit [DecidableEq ι] in
theorem destroy_all {es : List ℕ} (hnd : es.Nodup)
    (hv : ∀ e ∈ es, ∀ mq ∈ (s.endpoints e).queue_, mq.valid_ = true)
    (hids : ∀ e ∈ es, ∀ mq ∈ (s.endpoints e).queue_, (s.heap mq.pStorage_).id = id_) :
    Returned s (es.foldl (System.destroyEndpoint id_) s)
      (es.flatMap fun e => (s.endpoints e).queue_.map MessageQueue.pStorage_) := by
  induction es generalizing s with
  | nil => exact ⟨(List.append_nil _).symm, rfl, fun _ => rfl, rfl⟩
  | cons e es ih =>
    obtain ⟨he, hnd⟩ := List.nodup_cons.mp hnd
    obtain ⟨hv0, hv⟩ := List.forall_mem_cons.mp hv
    obtain ⟨hids0, hids⟩ := List.forall_mem_cons.mp hids
    have hone := discard_all hv0 hids0
    have heps : ∀ f ∈ es, (s.destroyEndpoint id_ e).endpoints f = s.endpoints f := by
      intro f hf
      have hfe : f ≠ e := by
        intro hfe
        exact he (hfe ▸ hf)
      simp only [System.destroyEndpoint, System.setEndpoint, Function.update_of_ne hfe,
        discard_endpoints]
    have hrest := ih (s := s.destroyEndpoint id_ e) hnd
      (fun f hf => by rw [heps f hf]; exact hv f hf)
      (fun f hf mq hmq => by
        rw [heps f hf] at hmq
        exact (hone.ids mq.pStorage_).trans (hids f hf mq hmq))
    rw [List.flatMap_congr fun f hf => by rw [heps f hf]] at hrest
    refine ⟨?_, hrest.log.trans hone.log, fun p => (hrest.ids p).trans (hone.ids p),
      hrest.counter.trans hone.counter⟩
    have hq : (s.destroyEndpoint id_ e).cQueue = _ := hone.cQueue
    rw [List.foldl_cons, hrest.cQueue, hq, List.flatMap_cons, List.append_assoc]

omit [DecidableEq ι] in
/-- What is at rest is in the pool, or in an endpoint. -/
theorem Inv.at_rest (h : Inv id_ receiver s) (hrest : s.AtRest) (e : ℕ) :
    (∀ mq ∈ (s.endpoints e).queue_, mq.valid_ = true) ∧
      s.held (.queue e) = (s.endpoints e).queue_.map MessageQueue.pStorage_ := by
  have hm : (s.endpoints e).mtx_ = none := by
    cases hm : (s.endpoints e).mtx_ with
    | none => rfl
    | some t =>
      have hl := ((h.fits t).owner e).mpr hm
      simp only [Thread.locks, (hrest t).1, (hrest t).2.1] at hl
      cases hl
  have hpassed := (h.lined e).free hm
  have hall : ∀ mq ∈ (s.endpoints e).queue_, mq.valid_ = true := by
    cases hq : (s.endpoints e).queue_ with
    | nil => simp
    | cons mq mqs =>
      obtain ⟨hv, hvs⟩ := (h.lined e).first mq mqs hq
      rw [hpassed] at hv
      exact List.forall_mem_cons.mpr ⟨hv, hvs⟩
  refine ⟨hall, ?_⟩
  simp only [System.held, MailboxEndpoint.holds, List.filter_eq_self.mpr hall]

/-- In every run no two threads are at one storage, no thread is at a storage of the pool, `recv`
only takes queues that are there, valid and sealed, and passes on what was sent, in the order in
which it was sent; what it has not passed on is still in the queue. -/
theorem storages_handed_over (id_ : ℕ) (receiver : ℕ → ι) (s : System ι)
    (h : RunUnder (System.Step id_) (fun _ l => OneReceiver receiver l) {} s) :
    (∀ t u p, p ∈ s.touched t → p ∈ s.touched u → t = u) ∧
    (∀ t p, p ∈ s.touched t → p ∉ s.cQueue) ∧
    (∀ e, (s.endpoints e).received <+: deliverable (s.endpoints e).accepted.flatten ∧
      ((s.endpoints e).queue_ = [] →
        (s.endpoints e).received = deliverable (s.endpoints e).accepted.flatten)) ∧
    (∀ err ∈ s.log, internal err = false) ∧ s.undefined = false := by
  have hI := inv_of_run h
  refine ⟨fun t u p => hI.alone, fun t p => hI.not_pooled, fun e => ⟨⟨_, hI.filled.mail e⟩, ?_⟩,
    hI.quiet, hI.defined⟩
  intro hq
  have hmail := hI.filled.mail e
  simp only [MailboxEndpoint.left, hq, deliverable, List.filter_nil, List.append_nil] at hmail
  exact hmail

/-- A message goes from the thread `true` to the thread `false`, and the storage comes back. -/
def poke : List (Label Bool) :=
  [.get true 0 none, .go true false, .go true false, .push true 0 ⟨.POKE, .FLAGS_NULL, 4⟩,
    .go true false, .send true 0 5, .go true false, .go true false, .go true false, .go true false,
    .recv false 5 .BLOCK, .go false false, .go false false, .go false false, .go false false,
    .go false false, .go false true, .go false false, .go false false, .go false false,
    .go false false, .go false false, .go false false, .go false false, .get true 1 (some 0)]

theorem poke_handed_over : ∃ s, follow (System.step 7) poke {} = some s ∧
    (s.endpoints 5).received = [⟨.POKE, .FLAGS_NULL, 4⟩] ∧
    (s.threads true).vars 1 = some ⟨0, false, true⟩ ∧
    (s.endpoints 5).received <+: deliverable (s.endpoints 5).accepted.flatten := by
  obtain ⟨s, hs⟩ : ∃ s, follow (System.step 7) poke {} = some s := ⟨_, rfl⟩
  have hall := storages_handed_over 7 (fun _ => false) s
    (runUnder_of_follow hs (by simp [poke, OneReceiver]))
  refine ⟨s, hs, ?_, ?_, (hall.2.2.1 5).1⟩
  · cases hs
    rfl
  · cases hs
    rfl

/-- When the threads have come to rest, the destructors of the endpoints and of the factory delete
each storage once, and report nothing. -/
theorem storages_deleted [Fintype ι] (id_ : ℕ) (receiver : ℕ → ι) (s : System ι)
    (h : RunUnder (System.Step id_) (fun _ l => OneReceiver receiver l) {} s) (hrest : s.AtRest)
    (es : List ℕ) (hnd : es.Nodup) (hes : ∀ e, e ∉ es → (s.endpoints e).queue_ = []) :
    (es.foldl (System.destroyEndpoint id_) s).destroyFactory.1.Perm (List.range s.allocated) ∧
    (es.foldl (System.destroyEndpoint id_) s).destroyFactory.2 = [] ∧
    (es.foldl (System.destroyEndpoint id_) s).log = s.log := by
  have hI := inv_of_run h
  have hheld : ∀ e, (s.endpoints e).queue_.map MessageQueue.pStorage_ = s.held (.queue e) :=
    fun e => (hI.at_rest hrest e).2.symm
  have hids : ∀ e ∈ es, ∀ mq ∈ (s.endpoints e).queue_, (s.heap mq.pStorage_).id = id_ := by
    intro e _ mq hmq
    exact hI.filled.ids _
      (hI.placed.apart.live (.queue e) _ (hheld e ▸ List.mem_map_of_mem hmq))
  have hall := destroy_all hnd (fun e _ => (hI.at_rest hrest e).1) hids
  have hperm : (s.cQueue ++ es.flatMap fun e => s.held (.queue e)).Perm
      (List.range s.allocated) := by
    refine (List.perm_ext_iff_of_nodup ?_ List.nodup_range).mpr fun p => ?_
    · refine List.nodup_append.mpr ⟨hI.placed.apart.nodup .pool, ?_, ?_⟩
      · refine List.nodup_flatMap.mpr ⟨fun e _ => hI.placed.apart.nodup (.queue e), ?_⟩
        refine hnd.imp fun hne p hp hp' => hne ?_
        cases hI.placed.apart.one _ _ p hp hp'
        rfl
      · intro p hp q hq hpq
        obtain ⟨e, -, hq⟩ := List.mem_flatMap.mp hq
        cases hI.placed.apart.one .pool _ p hp (hpq ▸ hq)
    · rw [List.mem_append, List.mem_flatMap, List.mem_range]
      refine ⟨?_, fun hp => ?_⟩
      · rintro (hp | ⟨e, -, hp⟩)
        · exact hI.placed.apart.live .pool p hp
        · exact hI.placed.apart.live _ p hp
      · obtain ⟨y, hy⟩ := hI.placed.somewhere p hp
        cases y with
        | pool => exact .inl hy
        | var t k =>
          simp only [System.held, Thread.owns] at hy
          split at hy
          · rename_i mq hvar
            simp [(hrest t).2.2 k mq hvar] at hy
          · cases hy
        | submit t =>
          simp only [System.held, (hrest t).1] at hy
          cases hy
        | queue e =>
          refine .inr ⟨e, ?_, hy⟩
          by_contra he
          rw [← hheld, hes e he] at hy
          cases hy
  have hpool : (es.foldl (System.destroyEndpoint id_) s).cQueue =
      s.cQueue ++ es.flatMap fun e => s.held (.queue e) := by
    rw [hall.cQueue, List.flatMap_congr fun e _ => hheld e]
  refine ⟨(List.Perm.of_eq hpool).trans hperm, ?_, hall.log⟩
  have hcount := counted_of_run h
  have hpending : ∑ t, (s.threads t).place.pending = 0 :=
    Finset.sum_eq_zero fun t _ => by rw [(hrest t).1]; rfl
  have hnum : s.numActiveQueues_ = s.allocated := by
    rw [hcount, hpending, Nat.add_zero]
  have hlen : (es.foldl (System.destroyEndpoint id_) s).cQueue.length = s.allocated := by
    rw [hpool, hperm.length_eq, List.length_range]
  refine if_neg (not_not_intro ?_)
  rw [hall.counter, hlen, hnum]

/-- A queue that is never received. -/
theorem unread_deleted : ∃ s, follow (System.step 7) (poke.take 10) {} = some s ∧
    (s.endpoints 5).queue_ ≠ [] ∧
    ([5].foldl (System.destroyEndpoint 7) s).destroyFactory.1.Perm (List.range s.allocated) := by
  obtain ⟨s, hs⟩ : ∃ s, follow (System.step 7) (poke.take 10) {} = some s := ⟨_, rfl⟩
  have hrun : RunUnder (System.Step 7) (fun _ l => OneReceiver (fun _ => false) l) {} s :=
    runUnder_of_follow hs (by simp [poke, OneReceiver])
  have heps : ∃ x y z, s.endpoints = Function.update (Function.update (Function.update
      (fun _ => {}) 5 x) 5 y) 5 z ∧ z.queue_ ≠ [] := by
    cases hs
    exact ⟨_, _, _, rfl, List.cons_ne_nil _ _⟩
  have hvars : ∃ x y mq, (s.threads true).vars = Function.update (Function.update (Function.update
      (fun _ => none) 0 x) 0 y) 0 (some mq) ∧ mq.valid_ = false := by
    cases hs
    exact ⟨_, _, _, rfl, rfl⟩
  have hidle : (s.threads true).place = .user ∧ (s.threads true).calls = [] ∧
      s.threads false = {} := by
    cases hs
    exact ⟨rfl, rfl, rfl⟩
  obtain ⟨x, y, z, heps, hz⟩ := heps
  obtain ⟨x', y', mq, hvars, hmq⟩ := hvars
  refine ⟨s, hs, by rw [heps]; exact hz, ?_⟩
  refine (storages_deleted 7 (fun _ => false) s hrun ?_ [5] (by simp) ?_).1
  · intro t
    cases t with
    | false =>
      rw [hidle.2.2]
      exact ⟨rfl, rfl, by simp⟩
    | true =>
      refine ⟨hidle.1, hidle.2.1, fun k mq' hk => ?_⟩
      rw [hvars, Function.update_idem, Function.update_idem] at hk
      by_cases hk0 : k = 0
      · rw [hk0, Function.update_self] at hk
        rw [← Option.some.inj hk]
        exact hmq
      · rw [Function.update_of_ne hk0] at hk
        cases hk
  · intro e he
    have he : e ≠ 5 := by simpa using he
    rw [heps, Function.update_of_ne he, Function.update_of_ne he, Function.update_of_ne he]

end Omulator.Storages
