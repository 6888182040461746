import Omulator.Lib.Apart
import Omulator.Msg.System
import Mathlib.Data.Finset.Card

/-!
# Where the storages are

A storage is in a pool, in a valid queue variable or in the queue of an endpoint, and in one such
place at most. An operation takes a storage out of its place, or puts one that is nowhere into a
place.
-/

namespace Omulator.Msg
open Omulator.Lib

inductive Place where
  | pool (f : ℕ)
  | queue (h : ℕ)
  | pending (e : ℕ)
  deriving DecidableEq

def MessageQueue.held (mq : MessageQueue) : List ℕ := if mq.valid_ then [mq.pStorage_] else []

def held (s : Sys) : Place → List ℕ
  | .pool f => (s.factories f).cQueue
  | .queue h => if h < s.queueCount then (s.queues h).held else []
  | .pending e => (s.endpoints e).queue_.map MessageQueue.pStorage_

def allocated (s : Sys) (f : ℕ) : Finset ℕ :=
  (Finset.range s.storageCount).filter fun p => (s.storages p).id = (s.factories f).id_

/-- What the factories know of the storages. -/
structure Counted (s : Sys) : Prop where
  ids : ∀ f g, f < s.factoryCount → g < s.factoryCount →
    (s.factories f).id_ = (s.factories g).id_ → f = g
  made : ∀ f, f < s.factoryCount → (s.factories f).numActiveQueues_ = (allocated s f).card
  origin : ∀ p, p < s.storageCount → ∃ f < s.factoryCount, (s.storages p).id = (s.factories f).id_

structure Owned (s : Sys) : Prop where
  apart : Apart (held s) fun p => p < s.storageCount
  empty : ∀ f, ∀ p ∈ (s.factories f).cQueue, s.storages p = ⟨(s.factories f).id_, []⟩
  sent : ∀ e, ∀ mq ∈ (s.endpoints e).queue_, mq.sealed_ = true ∧ mq.valid_ = true
  idle : ∀ e, s.endpointCount ≤ e → (s.endpoints e).queue_ = []
  counted : Counted s

structure Free (s : Sys) (p : ℕ) : Prop where
  lt : p < s.storageCount
  nowhere : ∀ pl, p ∉ held s pl

variable {s s' : Sys} {p f e h : ℕ} {mq : MessageQueue} {x : MessageQueueFactory}
  {y : MailboxEndpoint}

/-! ### What the setters do to the places -/

section
open Function (update)

@[simp] theorem held_emit (es : List Event) : held (s.emit es) = held s := by
  funext pl
  cases pl <;> rfl

@[simp] theorem held_setStorage (msgs : List Message) : held (s.setStorage p msgs) = held s := by
  funext pl
  cases pl <;> rfl

@[simp] theorem held_newStorage {id : ℕ} : held (s.newStorage id) = held s := by
  funext pl
  cases pl <;> rfl

theorem held_setFactory : held (s.setFactory f x) = update (held s) (.pool f) x.cQueue := by
  rw [Function.eq_update_iff]
  constructor
  · simp [held, Sys.setFactory]
  · intro pl hpl
    cases pl with
    | pool g =>
      have hg : g ≠ f := fun hg => hpl (hg ▸ rfl)
      simp [held, Sys.setFactory, hg]
    | queue i => rfl
    | pending i => rfl

theorem held_setEndpoint :
    held (s.setEndpoint e y) =
      update (held s) (.pending e) (y.queue_.map MessageQueue.pStorage_) := by
  rw [Function.eq_update_iff]
  constructor
  · simp [held, Sys.setEndpoint]
  · intro pl hpl
    cases pl with
    | pool g => rfl
    | queue i => rfl
    | pending i =>
      have hi : i ≠ e := fun hi => hpl (hi ▸ rfl)
      simp [held, Sys.setEndpoint, hi]

theorem held_setQueue (hh : s.HasQueue h) :
    held (s.setQueue h mq) = update (held s) (.queue h) mq.held := by
  rw [Function.eq_update_iff]
  constructor
  · have hlt : h < s.queueCount := hh
    simp [held, Sys.setQueue, hlt]
  · intro pl hpl
    cases pl with
    | pool g => rfl
    | queue i =>
      have hi : i ≠ h := fun hi => hpl (hi ▸ rfl)
      simp [held, Sys.setQueue, hi]
    | pending i => rfl

theorem held_addQueue :
    held (s.addQueue mq) = update (held s) (.queue s.queueCount) mq.held := by
  rw [Function.eq_update_iff]
  constructor
  · simp [held, Sys.addQueue]
  · intro pl hpl
    cases pl with
    | pool g => rfl
    | queue i =>
      have hi : i ≠ s.queueCount := fun hi => hpl (hi ▸ rfl)
      have hlt : i < s.queueCount + 1 ↔ i < s.queueCount := by omega
      simp [held, Sys.addQueue, hi, hlt]
    | pending i => rfl

theorem held_newFactory {id : ℕ} :
    held (s.newFactory id) = update (held s) (.pool s.factoryCount) [] := by
  rw [Function.eq_update_iff]
  constructor
  · simp [held, Sys.newFactory]
  · intro pl hpl
    cases pl with
    | pool g =>
      have hg : g ≠ s.factoryCount := fun hg => hpl (hg ▸ rfl)
      simp [held, Sys.newFactory, hg]
    | queue i => rfl
    | pending i => rfl

theorem held_newEndpoint :
    held (s.newEndpoint f) = update (held s) (.pending s.endpointCount) [] := by
  rw [Function.eq_update_iff]
  constructor
  · simp [held, Sys.newEndpoint]
  · intro pl hpl
    cases pl with
    | pool g => rfl
    | queue i => rfl
    | pending i =>
      have hi : i ≠ s.endpointCount := fun hi => hpl (hi ▸ rfl)
      simp [held, Sys.newEndpoint, hi]

end

/-! ### What the setters do to the count -/

/-- All that `Counted` depends on. -/
def ledger (s : Sys) : (ℕ → ℕ) × ℕ × (ℕ → ℕ × ℕ) × ℕ :=
  (fun p => (s.storages p).id, s.storageCount,
    fun f => ((s.factories f).id_, (s.factories f).numActiveQueues_), s.factoryCount)

theorem Counted.congr (hc : Counted s) (h : ledger s' = ledger s) : Counted s' := by
  simp only [ledger, Prod.mk.injEq, funext_iff] at h
  obtain ⟨hst, hsc, hf, hfc⟩ := h
  have hid : ∀ f, (s'.factories f).id_ = (s.factories f).id_ := fun f => (hf f).1
  have hal : ∀ f, allocated s' f = allocated s f := by
    intro f
    unfold allocated
    simp only [hst, hsc, hid]
  constructor
  · intro f g hf' hg' heq
    rw [hid, hid] at heq
    exact hc.ids f g (hfc ▸ hf') (hfc ▸ hg') heq
  · intro f hf'
    rw [(hf f).2, hal]
    exact hc.made f (hfc ▸ hf')
  · intro p hp
    obtain ⟨f, hf', hpf⟩ := hc.origin p (hsc ▸ hp)
    exact ⟨f, hfc ▸ hf', by rw [hst, hid, hpf]⟩

theorem ledger_setStorage (msgs : List Message) : ledger (s.setStorage p msgs) = ledger s := by
  have hid : ∀ q, ((s.setStorage p msgs).storages q).id = (s.storages q).id := by
    intro q
    by_cases hq : q = p
    · simp [Sys.setStorage, hq]
    · simp [Sys.setStorage, hq]
  unfold ledger
  rw [funext hid]
  rfl

theorem ledger_setFactory (hid : x.id_ = (s.factories f).id_)
    (hn : x.numActiveQueues_ = (s.factories f).numActiveQueues_) :
    ledger (s.setFactory f x) = ledger s := by
  have hfac : ∀ g, (((s.setFactory f x).factories g).id_,
      ((s.setFactory f x).factories g).numActiveQueues_) =
      ((s.factories g).id_, (s.factories g).numActiveQueues_) := by
    intro g
    by_cases hg : g = f
    · simp [Sys.setFactory, hg, hid, hn]
    · simp [Sys.setFactory, hg]
  unfold ledger
  rw [funext hfac]
  rfl

/-! ### Out of a place -/

theorem Owned.emit (ho : Owned s) (es : List Event) : Owned (s.emit es) where
  apart := (held_emit es).symm ▸ ho.apart
  empty := ho.empty
  sent := ho.sent
  idle := ho.idle
  counted := ho.counted.congr rfl

theorem Owned.setStorage (ho : Owned s) (hp : ∀ f, p ∉ (s.factories f).cQueue)
    (msgs : List Message) : Owned (s.setStorage p msgs) where
  apart := (held_setStorage msgs).symm ▸ ho.apart
  empty f q hq := by
    have hne : q ≠ p := fun hqp => hp f (hqp ▸ hq)
    have hst : (s.setStorage p msgs).storages q = s.storages q := Function.update_of_ne hne ..
    rw [hst]
    exact ho.empty f q hq
  sent := ho.sent
  idle := ho.idle
  counted := ho.counted.congr (ledger_setStorage msgs)

theorem Owned.setQueue (ho : Owned s) (hh : s.HasQueue h)
    (hl : mq.held.Sublist (held s (.queue h))) : Owned (s.setQueue h mq) where
  apart := by
    rw [held_setQueue hh]
    exact ho.apart.drop hl
  empty := ho.empty
  sent := ho.sent
  idle := ho.idle
  counted := ho.counted.congr rfl

theorem Owned.setEndpoint (ho : Owned s) (hl : y.queue_.Sublist (s.endpoints e).queue_) :
    Owned (s.setEndpoint e y) where
  apart := by
    rw [held_setEndpoint]
    exact ho.apart.drop (hl.map _)
  empty := ho.empty
  sent i mq hmq := by
    by_cases hi : i = e
    · have hy : mq ∈ y.queue_ := by simpa [Sys.setEndpoint, hi] using hmq
      exact ho.sent e mq (hl.subset hy)
    · have hy : mq ∈ (s.endpoints i).queue_ := by simpa [Sys.setEndpoint, hi] using hmq
      exact ho.sent i mq hy
  idle i hi := by
    have hn : (s.endpoints i).queue_ = [] := ho.idle i hi
    by_cases hie : i = e
    · have hy : y.queue_ = [] := List.sublist_nil.mp (hn ▸ hie ▸ hl)
      simp [Sys.setEndpoint, hie, hy]
    · simp [Sys.setEndpoint, hie, hn]
  counted := ho.counted.congr rfl

theorem Owned.setFactory (ho : Owned s) (hl : x.cQueue.Sublist (s.factories f).cQueue)
    (hid : x.id_ = (s.factories f).id_)
    (hn : x.numActiveQueues_ = (s.factories f).numActiveQueues_) : Owned (s.setFactory f x) where
  apart := by
    rw [held_setFactory]
    exact ho.apart.drop hl
  empty g q hq := by
    by_cases hg : g = f
    · have hx : q ∈ x.cQueue := by simpa [Sys.setFactory, hg] using hq
      have hst := ho.empty f q (hl.subset hx)
      simpa [Sys.setFactory, hg, hid] using hst
    · have hx : q ∈ (s.factories g).cQueue := by simpa [Sys.setFactory, hg] using hq
      simpa [Sys.setFactory, hg] using ho.empty g q hx
  sent := ho.sent
  idle := ho.idle
  counted := ho.counted.congr (ledger_setFactory hid hn)

theorem held_queue (hh : s.HasQueue h) : held s (.queue h) = (s.queues h).held := if_pos hh

theorem mem_held_queue (hh : s.HasQueue h) (hv : (s.queues h).valid_ = true) :
    (s.queues h).pStorage_ ∈ held s (.queue h) := by
  rw [held_queue hh, MessageQueue.held, if_pos hv]
  exact List.mem_singleton_self _

theorem Owned.not_pooled (ho : Owned s) {pl : Place} (hp : p ∈ held s pl)
    (hpl : ∀ f, pl ≠ .pool f) (f : ℕ) : p ∉ (s.factories f).cQueue := by
  intro hf
  exact hpl f (ho.apart.one pl (.pool f) p hp hf)

theorem Owned.free_queue (ho : Owned s) (hh : s.HasQueue h) (hv : (s.queues h).valid_ = true)
    (hmq : mq.valid_ = false) : Free (s.setQueue h mq) (s.queues h).pStorage_ where
  lt := ho.apart.live _ _ (mem_held_queue hh hv)
  nowhere := by
    have hn : (s.queues h).pStorage_ ∉ mq.held := by simp [MessageQueue.held, hmq]
    rw [held_setQueue hh]
    exact ho.apart.free_of_drop (mem_held_queue hh hv) hn

theorem Owned.free_pool (ho : Owned s) (hp : p ∈ (s.factories f).cQueue) :
    Free (s.setFactory f { s.factories f with cQueue := (s.factories f).cQueue.erase p }) p where
  lt := ho.apart.live (.pool f) p hp
  nowhere := by
    have hn : p ∉ (s.factories f).cQueue.erase p := (ho.apart.nodup (.pool f)).not_mem_erase
    rw [held_setFactory]
    exact ho.apart.free_of_drop (i := .pool f) hp hn

theorem held_pending {l : List MessageQueue} (hq : (s.endpoints e).queue_ = mq :: l) :
    held s (.pending e) = mq.pStorage_ :: l.map MessageQueue.pStorage_ := by
  simp [held, hq]

theorem mem_held_front {l : List MessageQueue} (hq : (s.endpoints e).queue_ = mq :: l) :
    mq.pStorage_ ∈ held s (.pending e) := held_pending hq ▸ List.mem_cons_self

theorem Owned.front_not_behind (ho : Owned s) {l : List MessageQueue}
    (hq : (s.endpoints e).queue_ = mq :: l) : mq.pStorage_ ∉ l.map MessageQueue.pStorage_ := by
  have hnd := ho.apart.nodup (.pending e)
  rw [held_pending hq] at hnd
  exact (List.nodup_cons.mp hnd).1

theorem Owned.free_front (ho : Owned s) {l : List MessageQueue}
    (hq : (s.endpoints e).queue_ = mq :: l) : Free (s.popQueue e) mq.pStorage_ where
  lt := ho.apart.live _ _ (mem_held_front hq)
  nowhere := by
    unfold Sys.popQueue
    rw [held_setEndpoint, hq]
    exact ho.apart.free_of_drop (mem_held_front hq) (ho.front_not_behind hq)

/-! ### Into a place -/

theorem Free.congr (hf : Free s p) (hheld : held s' = held s)
    (hc : s'.storageCount = s.storageCount) : Free s' p :=
  ⟨hc ▸ hf.lt, hheld ▸ hf.nowhere⟩

theorem Owned.putQueue (ho : Owned s) (hh : s.HasQueue h)
    (hf : mq.valid_ = true → Free s mq.pStorage_) : Owned (s.setQueue h mq) where
  apart := by
    rw [held_setQueue hh, MessageQueue.held]
    by_cases hv : mq.valid_ = true
    · rw [if_pos hv]
      exact ho.apart.put (hf hv).lt (hf hv).nowhere (List.nil_sublist _) (.refl _)
    · rw [if_neg hv]
      exact ho.apart.drop (List.nil_sublist _)
  empty := ho.empty
  sent := ho.sent
  idle := ho.idle
  counted := ho.counted.congr rfl

theorem Owned.addQueue (ho : Owned s) (hf : mq.valid_ = true → Free s mq.pStorage_) :
    Owned (s.addQueue mq) where
  apart := by
    rw [held_addQueue, MessageQueue.held]
    by_cases hv : mq.valid_ = true
    · rw [if_pos hv]
      exact ho.apart.put (hf hv).lt (hf hv).nowhere (List.nil_sublist _) (.refl _)
    · rw [if_neg hv]
      exact ho.apart.drop (List.nil_sublist _)
  empty := ho.empty
  sent := ho.sent
  idle := ho.idle
  counted := ho.counted.congr rfl

theorem Owned.addPool (ho : Owned s) (hf : Free s p)
    (hst : s.storages p = ⟨(s.factories f).id_, []⟩) :
    Owned (s.setFactory f { s.factories f with cQueue := (s.factories f).cQueue ++ [p] }) where
  apart := by
    rw [held_setFactory]
    exact ho.apart.put hf.lt hf.nowhere (.refl _) (List.perm_append_singleton ..)
  empty g q hq := by
    by_cases hg : g = f
    · have hx : q ∈ (s.factories f).cQueue ∨ q = p := by simpa [Sys.setFactory, hg] using hq
      have hst' : s.storages q = ⟨(s.factories f).id_, []⟩ := by
        rcases hx with hx | hx
        · exact ho.empty f q hx
        · rw [hx, hst]
      simpa [Sys.setFactory, hg] using hst'
    · have hx : q ∈ (s.factories g).cQueue := by simpa [Sys.setFactory, hg] using hq
      simpa [Sys.setFactory, hg] using ho.empty g q hx
  sent := ho.sent
  idle := ho.idle
  counted := ho.counted.congr (ledger_setFactory rfl rfl)

theorem Owned.addPending (ho : Owned s) (he : e < s.endpointCount) (hf : Free s mq.pStorage_)
    (hmq : mq.sealed_ = true ∧ mq.valid_ = true) :
    Owned (s.setEndpoint e { s.endpoints e with queue_ := (s.endpoints e).queue_ ++ [mq] }) where
  apart := by
    have hp : (((s.endpoints e).queue_ ++ [mq]).map MessageQueue.pStorage_).Perm
        (mq.pStorage_ :: held s (.pending e)) := by
      rw [List.map_append]
      exact List.perm_append_singleton ..
    rw [held_setEndpoint]
    exact ho.apart.put hf.lt hf.nowhere (.refl _) hp
  empty := ho.empty
  sent i mq' hmq' := by
    by_cases hi : i = e
    · have hy : mq' ∈ (s.endpoints e).queue_ ∨ mq' = mq := by
        simpa [Sys.setEndpoint, hi] using hmq'
      rcases hy with hy | hy
      · exact ho.sent e mq' hy
      · exact hy ▸ hmq
    · have hy : mq' ∈ (s.endpoints i).queue_ := by simpa [Sys.setEndpoint, hi] using hmq'
      exact ho.sent i mq' hy
  idle i hi := by
    have hne : i ≠ e := fun hie => absurd hi (hie ▸ he.not_ge)
    simp [Sys.setEndpoint, hne, ho.idle i hi]
  counted := ho.counted.congr rfl

end Omulator.Msg
