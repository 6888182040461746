import Omulator.Di.TypeMap
import Omulator.Lib.Transition
import Omulator.Msg.Message
import Mathlib.Data.Finset.Basic
import Mathlib.Logic.Function.Basic

/-!
# Tearing an Injector down (`src/di/Injector.cpp`, `TypeMap.hpp`, `src/Subsystem.cpp`)

`~Injector` erases one type after the other, each under the mutex of the `TypeMap`. To erase a
`Subsystem` is to stop its thread and to join it; the thread runs callbacks, and these may look
up instances in the same `TypeMap`. A step is one acquisition or release of a mutex, one step
of a callback, or the join.
-/

namespace Omulator.Teardown
open Omulator.Lib Omulator.Di Omulator.Msg

inductive MapOp where
  | has_key (T : Hash_t)
  | ref (T : Hash_t)
  | emplace (T : Hash_t)

/-- Code that a subsystem's thread runs: TypeMap calls, which tell whether the type is there, and
steps that concern nobody else. -/
inductive Callback where
  | ret
  | throw
  | step (k : Callback)
  | call (op : MapOp) (k : Bool → Callback)

/-- `get<T>()` on the root, with what `makeDependency_` does where there is no instance. -/
def Callback.get (T : Hash_t) (makeDependency_ k : Callback) : Callback :=
  .call (.has_key T) fun
    | true => .call (.ref T) fun
      | true => k
      | false => .throw
    | false => makeDependency_

def Callback.calls : Callback → Bool
  | .ret | .throw => false
  | .step k => k.calls
  | .call _ _ => true

structure Program where
  /-- the subsystem that is the instance of a type -/
  subsystem : Hash_t → Option ℕ
  onStart : ℕ → Callback
  onEnd : ℕ → Callback
  on : ℕ → MessageType → Option Callback

/-- `POKE` has a callback from the constructor on. -/
def Program.callbacks_ (p : Program) (k : ℕ) (type : MessageType) : Option Callback :=
  if type = .POKE then some .ret else p.on k type

/-- Where a subsystem's thread is in `thrd_proc_`, and in `recv` when it is there. -/
inductive Phase where
  /-- `startSignal_.wait` -/
  | waitStart
  | onStart (cb : Callback)
  /-- `while(!stoken.stop_requested())` -/
  | checkStop
  /-- `cv_.wait` -/
  | waitMail
  | woken
  /-- `queue_.empty()` -/
  | testEmpty
  | lockMail
  /-- `pump_msgs`, with the messages to come -/
  | pumping (rest : List MessageType)
  | callback (cb : Callback) (rest : List MessageType)
  | onEnd (cb : Callback)
  | exited

def Phase.code : Phase → Callback
  | .onStart cb | .callback cb _ | .onEnd cb => cb
  | _ => .ret

inductive Stage where
  | stop
  | start
  /-- `sender_.send_single_message(POKE)` -/
  | poke
  | poked
  | join

/-- Where `~Injector` is. -/
inductive Destroyer where
  | next (rest : List Hash_t)
  /-- `TypeMap::erase`, which has the mutex -/
  | erase (T : Hash_t) (rest : List Hash_t)
  /-- `~Subsystem`, and then `~jthread` -/
  | subsystem (k : ℕ) (stage : Stage) (rest : List Hash_t)
  | unlock (rest : List Hash_t)

inductive Owner where
  | destroyer
  | subsystem (k : ℕ)
  | sender
  deriving DecidableEq

structure Thread where
  phase : Phase := .waitStart
  startSignal_ : Bool := false
  stop_requested : Bool := false
  queue_ : List (List MessageType) := []
  /-- the mailbox's mutex -/
  mtx_ : Option Owner := none

structure Sys where
  destroyer : Destroyer
  /-- the types in the map -/
  map_ : Finset Hash_t
  /-- the TypeMap's mutex -/
  mtx_ : Option Owner
  threads : ℕ → Thread

/-- Some program has created the instances in `map_`, and comes to destroy its Injector. -/
def Sys.init (invocationList_ : List Hash_t) (map_ : Finset Hash_t) : Sys :=
  ⟨.next invocationList_.reverse, map_, none, fun _ => {}⟩

inductive Label where
  | destroyer
  | subsystem (k : ℕ)
  /-- `start()` and `stop()` from elsewhere -/
  | start (k : ℕ)
  | stop (k : ℕ)
  /-- another thread's `send`: it takes the mailbox's mutex, and pushes and releases it -/
  | send (k : ℕ)
  | sent (k : ℕ) (mq : List MessageType)

namespace Sys

def setThread (k : ℕ) (th : Thread) (s : Sys) : Sys :=
  { s with threads := Function.update s.threads k th }

def run (op : MapOp) (s : Sys) : Bool × Finset Hash_t :=
  match op with
  | .has_key T | .ref T => (decide (T ∈ s.map_), s.map_)
  | .emplace T => (decide (T ∈ s.map_), insert T s.map_)

/-- One step of the code a thread runs; `none` while it waits for the TypeMap's mutex. -/
def stepCode (k : ℕ) (cb : Callback) (s : Sys) : Option (Callback × Sys) :=
  match cb with
  | .ret | .throw => none
  | .step cb => some (cb, s)
  | .call op cont =>
    match s.mtx_ with
    | none => some (.call op cont, { s with mtx_ := some (.subsystem k) })
    | some o =>
      if o = .subsystem k then
        some (cont (s.run op).1, { s with mtx_ := none, map_ := (s.run op).2 })
      else none

/-- One step of `thrd_proc_`; `none` while the thread waits. -/
def stepThread (p : Program) (k : ℕ) (s : Sys) : Option Sys :=
  let th := s.threads k
  let goto := fun ph => some (s.setThread k { th with phase := ph })
  let exec := fun cb (ph : Callback → Phase) =>
    (s.stepCode k cb).map fun r => r.2.setThread k { th with phase := ph r.1 }
  match th.phase with
  | .waitStart => if th.startSignal_ then goto (.onStart (p.onStart k)) else none
  | .onStart .ret => goto .checkStop
  | .onStart .throw => goto .exited
  | .onStart cb => exec cb .onStart
  | .checkStop => if th.stop_requested then goto (.onEnd (p.onEnd k)) else goto .waitMail
  | .waitMail =>
    if th.mtx_ = none ∧ th.queue_ ≠ [] then
      some (s.setThread k { th with phase := .woken, mtx_ := some (.subsystem k) })
    else none
  | .woken => some (s.setThread k { th with phase := .testEmpty, mtx_ := none })
  | .testEmpty => if th.queue_ = [] then goto .checkStop else goto .lockMail
  | .lockMail =>
    if th.mtx_ = none then
      some (s.setThread k
        { th with phase := .pumping (th.queue_.headD []), mtx_ := some (.subsystem k) })
    else none
  | .pumping [] =>
    some (s.setThread k
      { th with phase := .testEmpty, queue_ := th.queue_.tail, mtx_ := none })
  | .pumping (type :: rest) =>
    if type.deliverable then
      match p.callbacks_ k type with
      | some cb => goto (.callback cb rest)
      | none => goto (.pumping rest)
    else goto (.pumping rest)
  | .callback .ret rest => goto (.pumping rest)
  -- `scoped_lock` releases the mailbox; the queue stays at the front
  | .callback .throw _ => some (s.setThread k { th with phase := .exited, mtx_ := none })
  | .callback cb rest => exec cb (.callback · rest)
  | .onEnd .ret | .onEnd .throw => goto .exited
  | .onEnd cb => exec cb .onEnd
  | .exited => none

/-- One step of `~Injector`; `none` while it waits, and at its end. -/
def stepDestroyer (p : Program) (s : Sys) : Option Sys :=
  match s.destroyer with
  | .next [] => none
  | .next (T :: rest) =>
    if s.mtx_ = none then some { s with destroyer := .erase T rest, mtx_ := some .destroyer }
    else none
  | .erase T rest =>
    if T ∈ s.map_ then
      match p.subsystem T with
      | some k => some { s with destroyer := .subsystem k .stop rest, map_ := s.map_.erase T }
      | none => some { s with destroyer := .unlock rest, map_ := s.map_.erase T }
    else some { s with destroyer := .unlock rest }
  | .subsystem k .stop rest =>
    some (({ s with destroyer := .subsystem k .start rest } : Sys).setThread k
      { s.threads k with stop_requested := true })
  | .subsystem k .start rest =>
    some (({ s with destroyer := .subsystem k .poke rest } : Sys).setThread k
      { s.threads k with startSignal_ := true })
  | .subsystem k .poke rest =>
    if (s.threads k).mtx_ = none then
      some (({ s with destroyer := .subsystem k .poked rest } : Sys).setThread k
        { s.threads k with mtx_ := some .destroyer })
    else none
  | .subsystem k .poked rest =>
    some (({ s with destroyer := .subsystem k .join rest } : Sys).setThread k
      { s.threads k with queue_ := (s.threads k).queue_ ++ [[.POKE]], mtx_ := none })
  | .subsystem k .join rest =>
    match (s.threads k).phase with
    | .exited => some { s with destroyer := .unlock rest }
    | _ => none
  | .unlock rest => some { s with destroyer := .next rest, mtx_ := none }

def step (p : Program) (l : Label) (s : Sys) : Option Sys :=
  match l with
  | .destroyer => s.stepDestroyer p
  | .subsystem k => s.stepThread p k
  | .start k => some (s.setThread k { s.threads k with startSignal_ := true })
  | .stop k => some (s.setThread k { s.threads k with stop_requested := true })
  | .send k =>
    if (s.threads k).mtx_ = none then
      some (s.setThread k { s.threads k with mtx_ := some .sender })
    else none
  | .sent k mq =>
    if (s.threads k).mtx_ = some .sender then
      some (s.setThread k
        { s.threads k with queue_ := (s.threads k).queue_ ++ [mq], mtx_ := none })
    else none

@[simp] theorem setThread_destroyer (k : ℕ) (th : Thread) (s : Sys) :
    (s.setThread k th).destroyer = s.destroyer := rfl
@[simp] theorem setThread_map (k : ℕ) (th : Thread) (s : Sys) :
    (s.setThread k th).map_ = s.map_ := rfl
@[simp] theorem setThread_mtx (k : ℕ) (th : Thread) (s : Sys) :
    (s.setThread k th).mtx_ = s.mtx_ := rfl
@[simp] theorem setThread_self (k : ℕ) (th : Thread) (s : Sys) :
    (s.setThread k th).threads k = th := Function.update_self ..
@[simp] theorem setThread_ne {j k : ℕ} (h : j ≠ k) (th : Thread) (s : Sys) :
    (s.setThread k th).threads j = s.threads j := Function.update_of_ne h ..

end Sys

/-! ### What a step can do -/

section
variable {p : Program} {s s' : Sys} {k : ℕ}

def begins (p : Program) (s : Sys) (k : ℕ) : Callback :=
  match (s.threads k).phase with
  | .waitStart => p.onStart k
  | .checkStop => if (s.threads k).stop_requested then p.onEnd k else .ret
  | .pumping (type :: _) =>
    if type.deliverable then (p.callbacks_ k type).getD .ret else .ret
  | _ => .ret

/-- What a step of the thread `k` leaves alone: the map, as long as the destroying thread has the
mutex, and a callback that makes TypeMap calls is one it was in or enters now. -/
structure Moves (p : Program) (k : ℕ) (s s' : Sys) : Prop where
  destroyer : s'.destroyer = s.destroyer
  others : ∀ j, j ≠ k → s'.threads j = s.threads j
  map : s.mtx_ = some .destroyer → s'.mtx_ = some .destroyer ∧ s'.map_ = s.map_
  mail : (s'.threads k).mtx_ = (s.threads k).mtx_ ∨ (s'.threads k).mtx_ = none ∨
    (s'.threads k).mtx_ = some (.subsystem k)
  calls : (s'.threads k).phase.code.calls = true →
    (s.threads k).phase.code.calls = true ∨ (begins p s k).calls = true

theorem Moves.setThread {th : Thread} (hmail : th.mtx_ = (s.threads k).mtx_ ∨ th.mtx_ = none ∨
      th.mtx_ = some (.subsystem k))
    (hcalls : th.phase.code.calls = true →
      (s.threads k).phase.code.calls = true ∨ (begins p s k).calls = true) :
    Moves p k s (s.setThread k th) where
  destroyer := rfl
  others j hj := Sys.setThread_ne hj th s
  map h := ⟨h, rfl⟩
  mail := by
    rw [Sys.setThread_self]
    exact hmail
  calls h := by
    rw [Sys.setThread_self] at h
    exact hcalls h

theorem stepCode_cases {cb cb' : Callback} (h : s.stepCode k cb = some (cb', s')) :
    s'.destroyer = s.destroyer ∧ s'.threads = s.threads ∧
    (s.mtx_ = some .destroyer → s' = s) ∧ (cb'.calls = true → cb.calls = true) := by
  cases cb with
  | ret => cases h
  | throw => cases h
  | step cb =>
    cases h
    exact ⟨rfl, rfl, fun _ => rfl, id⟩
  | call op cont =>
    cases hm : s.mtx_ with
    | none =>
      simp only [Sys.stepCode, hm] at h
      cases h
      exact ⟨rfl, rfl, by simp, fun _ => rfl⟩
    | some o =>
      simp only [Sys.stepCode, hm] at h
      split at h
      · rename_i ho
        subst ho
        cases h
        exact ⟨rfl, rfl, by simp, fun _ => rfl⟩
      · cases h

theorem Moves.exec {cb : Callback} (ph : Callback → Phase) (hph : ∀ c, (ph c).code = c)
    (hat : (s.threads k).phase.code = cb)
    (h : (s.stepCode k cb).map (fun r => r.2.setThread k { s.threads k with phase := ph r.1 }) =
      some s') : Moves p k s s' := by
  rw [Option.map_eq_some_iff] at h
  obtain ⟨⟨cb', s₁⟩, hr, hs'⟩ := h
  obtain ⟨hdes, hth, hmap, hcalls⟩ := stepCode_cases hr
  subst hs'
  refine ⟨hdes, fun j hj => ?_, fun hm => ?_, ?_, fun hc => ?_⟩
  · rw [Sys.setThread_ne hj, hth]
  · have he : s₁ = s := hmap hm
    exact ⟨by rw [Sys.setThread_mtx, he, hm], by rw [Sys.setThread_map, he]⟩
  · rw [Sys.setThread_self]
    exact Or.inl rfl
  · rw [Sys.setThread_self, hph] at hc
    rw [hat]
    exact Or.inl (hcalls hc)

theorem stepThread_moves (h : s.stepThread p k = some s') : Moves p k s s' := by
  unfold Sys.stepThread at h
  dsimp only at h
  split at h <;> rename_i hph
  · -- waitStart
    split at h
    · cases h
      exact .setThread (by simp) fun hc => Or.inr (by simpa [begins, hph, Phase.code] using hc)
    · cases h
  · cases h
    exact .setThread (by simp) (by simp [Phase.code, Callback.calls])
  · cases h
    exact .setThread (by simp) (by simp [Phase.code, Callback.calls])
  · exact .exec .onStart (fun _ => rfl) (by rw [hph]; rfl) h
  · -- checkStop
    split at h
    · rename_i hstop
      cases h
      exact .setThread (by simp) fun hc =>
        Or.inr (by simpa [begins, hph, hstop, Phase.code] using hc)
    · cases h
      exact .setThread (by simp) (by simp [Phase.code, Callback.calls])
  · split at h
    · cases h
      exact .setThread (by simp) (by simp [Phase.code, Callback.calls])
    · cases h
  · cases h
    exact .setThread (by simp) (by simp [Phase.code, Callback.calls])
  · split at h <;> cases h <;> exact .setThread (by simp) (by simp [Phase.code, Callback.calls])
  · split at h
    · cases h
      exact .setThread (by simp) (by simp [Phase.code, Callback.calls])
    · cases h
  · cases h
    exact .setThread (by simp) (by simp [Phase.code, Callback.calls])
  · -- pumping
    split at h
    · rename_i hdel
      split at h
      · rename_i cb hcb
        cases h
        exact .setThread (by simp) fun hc =>
          Or.inr (by simpa [begins, hph, hdel, hcb, Phase.code] using hc)
      · cases h
        exact .setThread (by simp) (by simp [Phase.code, Callback.calls])
    · cases h
      exact .setThread (by simp) (by simp [Phase.code, Callback.calls])
  · cases h
    exact .setThread (by simp) (by simp [Phase.code, Callback.calls])
  · cases h
    exact .setThread (by simp) (by simp [Phase.code, Callback.calls])
  · exact .exec (.callback · _) (fun _ => rfl) (by rw [hph]; rfl) h
  · cases h
    exact .setThread (by simp) (by simp [Phase.code, Callback.calls])
  · cases h
    exact .setThread (by simp) (by simp [Phase.code, Callback.calls])
  · exact .exec .onEnd (fun _ => rfl) (by rw [hph]; rfl) h
  · cases h

/-! ### The deadlock, and when there is none -/

/-- `~Injector` is on the way to destroy the subsystem `k`, under the mutex of the TypeMap. -/
def Erasing (p : Program) (s : Sys) (k : ℕ) : Prop :=
  match s.destroyer with
  | .erase T _ => T ∈ s.map_ ∧ p.subsystem T = some k
  | .subsystem j _ _ => j = k
  | _ => False

/-- It waits in the join for the thread of `k`, or in `send` for the mailbox that the thread keeps
locked while it runs a callback. -/
def AwaitsThread (s : Sys) (k : ℕ) : Prop :=
  ∃ rest, s.destroyer = .subsystem k .join rest ∨
    s.destroyer = .subsystem k .poke rest ∧ (s.threads k).mtx_ = some (.subsystem k)

/-- The thread of `k` waits for the mutex that the destroying thread has. -/
def AwaitsMap (s : Sys) (k : ℕ) : Prop :=
  s.mtx_ = some .destroyer ∧ ∃ op cont, (s.threads k).phase.code = .call op cont

/-- `~Injector` starts to erase a subsystem only when its thread is in no callback that makes
another TypeMap call, and while it does, the thread enters none. -/
def Quiet (p : Program) (s : Sys) : Label → Prop
  | .destroyer => ∀ T rest k, s.destroyer = .next (T :: rest) → T ∈ s.map_ →
      p.subsystem T = some k → (s.threads k).phase.code.calls = false
  | .subsystem k => Erasing p s k → (begins p s k).calls = false
  | _ => True

def Step (p : Program) (s : Sys) (l : Label) (s' : Sys) : Prop := s.step p l = some s'

/-- Who has the mutexes, in every state: the TypeMap's while `~Injector` erases, and a mailbox's
while its thread, a sender or `~Subsystem` uses it. -/
structure Locks (s : Sys) : Prop where
  held : (∀ rest, s.destroyer ≠ .next rest) → s.mtx_ = some .destroyer
  mail : ∀ k o, (s.threads k).mtx_ = some o → o = .sender ∨ o = .subsystem k ∨
    o = .destroyer ∧ ∃ rest, s.destroyer = .subsystem k .poked rest

def Still (p : Program) (s : Sys) : Prop :=
  ∀ k, Erasing p s k → (s.threads k).phase.code.calls = false

theorem init_locks (l : List Hash_t) (m : Finset Hash_t) : Locks (.init l m) where
  held h := absurd rfl (h _)
  mail k o h := by cases h

theorem init_still (p : Program) (l : List Hash_t) (m : Finset Hash_t) :
    Still p (.init l m) := fun k h => by cases h

theorem Locks.mail_set {th : Thread} (h : Locks s)
    (hth : ∀ o, th.mtx_ = some o → o = .sender ∨ o = .subsystem k ∨
      o = .destroyer ∧ ∃ rest, s.destroyer = .subsystem k .poked rest) :
    Locks (s.setThread k th) where
  held := h.held
  mail j o hj := by
    by_cases hjk : j = k
    · subst hjk
      rw [Sys.setThread_self] at hj
      exact hth o hj
    · rw [Sys.setThread_ne hjk] at hj
      exact h.mail j o hj

theorem Locks.moves (h : Locks s) (hm : Moves p k s s') : Locks s' where
  held hn := by
    rw [hm.destroyer] at hn
    exact (hm.map (h.held hn)).1
  mail j o hj := by
    rw [hm.destroyer]
    by_cases hjk : j = k
    · subst hjk
      rcases hm.mail with he | he | he
      · exact h.mail j o (he ▸ hj)
      · rw [he] at hj
        cases hj
      · rw [he] at hj
        cases hj
        exact Or.inr (Or.inl rfl)
    · rw [hm.others j hjk] at hj
      exact h.mail j o hj

theorem Locks.goto (h : Locks s) (hpoked : ∀ k rest, s.destroyer ≠ .subsystem k .poked rest)
    (hmtx : s'.mtx_ = some .destroyer) (hth : s'.threads = s.threads) : Locks s' where
  held _ := hmtx
  mail k o hk := by
    rw [hth] at hk
    rcases h.mail k o hk with he | he | ⟨-, rest, he⟩
    · exact Or.inl he
    · exact Or.inr (Or.inl he)
    · exact absurd he (hpoked k rest)

theorem Locks.stage {stage stage' : Stage} {rest : List Hash_t} {th : Thread} (h : Locks s)
    (hd : s.destroyer = .subsystem k stage rest)
    (hth : ∀ o, th.mtx_ = some o → o = .sender ∨ o = .subsystem k ∨
      o = .destroyer ∧ stage' = .poked) :
    Locks (({ s with destroyer := .subsystem k stage' rest } : Sys).setThread k th) where
  held _ := h.held (by simp [hd])
  mail j o hj := by
    by_cases hjk : j = k
    · subst hjk
      rw [Sys.setThread_self] at hj
      rcases hth o hj with he | he | ⟨he, hst⟩
      · exact Or.inl he
      · exact Or.inr (Or.inl he)
      · exact Or.inr (Or.inr ⟨he, rest, by rw [Sys.setThread_destroyer, hst]⟩)
    · rw [Sys.setThread_ne hjk] at hj
      rcases h.mail j o hj with he | he | ⟨-, rest', he⟩
      · exact Or.inl he
      · exact Or.inr (Or.inl he)
      · rw [hd] at he
        cases he
        exact absurd rfl hjk

theorem stepDestroyer_locks (h : Locks s) (hs : s.stepDestroyer p = some s') : Locks s' := by
  have hkeep : ∀ k stage rest, s.destroyer = .subsystem k stage rest → stage ≠ .poked →
      ∀ o, (s.threads k).mtx_ = some o → o = .sender ∨ o = .subsystem k := by
    intro k stage rest hd hst o ho
    rcases h.mail k o ho with he | he | ⟨-, rest', he⟩
    · exact Or.inl he
    · exact Or.inr he
    · rw [hd] at he
      cases he
      exact absurd rfl hst
  unfold Sys.stepDestroyer at hs
  split at hs <;> rename_i hd
  · cases hs
  · split at hs
    · cases hs
      exact h.goto (by simp [hd]) rfl rfl
    · cases hs
  · have hheld : s.mtx_ = some .destroyer := h.held (by simp [hd])
    split at hs
    · split at hs <;> cases hs <;> exact h.goto (by simp [hd]) hheld rfl
    · cases hs
      exact h.goto (by simp [hd]) hheld rfl
  · cases hs
    exact h.stage hd fun o ho => (hkeep _ _ _ hd (by simp) o ho).imp_right Or.inl
  · cases hs
    exact h.stage hd fun o ho => (hkeep _ _ _ hd (by simp) o ho).imp_right Or.inl
  · split at hs
    · cases hs
      exact h.stage hd fun o ho => Or.inr (Or.inr ⟨by simpa using ho.symm, rfl⟩)
    · cases hs
  · cases hs
    exact h.stage hd fun o ho => by cases ho
  · have hheld : s.mtx_ = some .destroyer := h.held (by simp [hd])
    split at hs
    · cases hs
      exact h.goto (by simp [hd]) hheld rfl
    · cases hs
  · cases hs
    refine ⟨fun hn => absurd rfl (hn _), fun k o hk => ?_⟩
    rcases h.mail k o hk with he | he | ⟨-, rest, he⟩
    · exact Or.inl he
    · exact Or.inr (Or.inl he)
    · rw [hd] at he
      cases he

theorem step_locks {l : Label} (h : Locks s) (hs : Step p s l s') : Locks s' := by
  unfold Step at hs
  cases l with
  | destroyer => exact stepDestroyer_locks h hs
  | subsystem k => exact h.moves (stepThread_moves hs)
  | start k =>
    cases hs
    exact h.mail_set (h.mail k)
  | stop k =>
    cases hs
    exact h.mail_set (h.mail k)
  | send k =>
    simp only [Sys.step] at hs
    split at hs
    · cases hs
      exact h.mail_set fun o ho => Or.inl (by simpa using ho.symm)
    · cases hs
  | sent k mq =>
    simp only [Sys.step] at hs
    split at hs
    · cases hs
      exact h.mail_set fun o ho => by cases ho
    · cases hs

/-! ### Quiet runs -/

theorem setThread_phase {th : Thread} (h : th.phase = (s.threads k).phase) (j : ℕ) :
    ((s.setThread k th).threads j).phase = (s.threads j).phase := by
  by_cases hj : j = k
  · subst hj
    rw [Sys.setThread_self, h]
  · rw [Sys.setThread_ne hj]

theorem Still.same (h : Still p s) (he : ∀ k, Erasing p s' k → Erasing p s k)
    (hph : ∀ j, (s'.threads j).phase = (s.threads j).phase) : Still p s' := by
  intro k hk
  rw [hph]
  exact h k (he k hk)

theorem Still.moves (h : Still p s) (hl : Locks s) (hm : Moves p k s s')
    (hq : Erasing p s k → (begins p s k).calls = false) : Still p s' := by
  intro j hj
  have he : Erasing p s j := by
    unfold Erasing at hj ⊢
    rw [hm.destroyer] at hj
    cases hd : s.destroyer with
    | next rest => rw [hd] at hj; exact hj
    | unlock rest => rw [hd] at hj; exact hj
    | subsystem i stage rest => rw [hd] at hj; exact hj
    | erase T rest =>
      have hheld : s.mtx_ = some .destroyer := hl.held (by simp [hd])
      rw [hd, (hm.map hheld).2] at hj
      exact hj
  by_cases hjk : j = k
  · subst hjk
    by_contra hc
    rcases hm.calls (by simpa using hc) with hb | hb
    · rw [h j he] at hb
      cases hb
    · rw [hq he] at hb
      cases hb
  · rw [hm.others j hjk]
    exact h j he

theorem Still.stage {stage stage' : Stage} {rest : List Hash_t} (h : Still p s)
    (hd : s.destroyer = .subsystem k stage rest) (hd' : s'.destroyer = .subsystem k stage' rest)
    (hph : ∀ j, (s'.threads j).phase = (s.threads j).phase) : Still p s' := by
  refine h.same (fun j hj => ?_) hph
  unfold Erasing at hj ⊢
  rw [hd'] at hj
  rw [hd]
  exact hj

theorem still_of_none (h : ∀ k, ¬ Erasing p s k) : Still p s := fun k hk => absurd hk (h k)

theorem stepDestroyer_still (h : Still p s) (hq : Quiet p s .destroyer)
    (hs : s.stepDestroyer p = some s') : Still p s' := by
  unfold Sys.stepDestroyer at hs
  split at hs <;> rename_i hd
  · cases hs
  · split at hs
    · cases hs
      exact fun k hk => hq _ _ k hd hk.1 hk.2
    · cases hs
  · split at hs
    · rename_i T rest hT
      split at hs
      · rename_i k hk
        cases hs
        intro j hj
        have hkj : k = j := hj
        subst hkj
        refine h k ?_
        unfold Erasing
        rw [hd]
        exact ⟨hT, hk⟩
      · cases hs
        exact still_of_none fun k hk => hk
    · cases hs
      exact still_of_none fun k hk => hk
  · cases hs
    exact h.stage hd rfl (setThread_phase rfl)
  · cases hs
    exact h.stage hd rfl (setThread_phase rfl)
  · split at hs
    · cases hs
      exact h.stage hd rfl (setThread_phase rfl)
    · cases hs
  · cases hs
    exact h.stage hd rfl (setThread_phase rfl)
  · split at hs
    · cases hs
      exact still_of_none fun k hk => hk
    · cases hs
  · cases hs
    exact still_of_none fun k hk => hk

theorem step_still {l : Label} (h : Still p s) (hl : Locks s) (hq : Quiet p s l)
    (hs : Step p s l s') : Still p s' := by
  unfold Step at hs
  cases l with
  | destroyer => exact stepDestroyer_still h hq hs
  | subsystem k => exact h.moves hl (stepThread_moves hs) hq
  | start k =>
    cases hs
    exact h.same (fun _ => id) (setThread_phase rfl)
  | stop k =>
    cases hs
    exact h.same (fun _ => id) (setThread_phase rfl)
  | send k =>
    simp only [Sys.step] at hs
    split at hs
    · cases hs
      exact h.same (fun _ => id) (setThread_phase rfl)
    · cases hs
  | sent k mq =>
    simp only [Sys.step] at hs
    split at hs
    · cases hs
      exact h.same (fun _ => id) (setThread_phase rfl)
    · cases hs

theorem Still.no_deadlock (h : Still p s) (k : ℕ) : ¬ (AwaitsThread s k ∧ AwaitsMap s k) := by
  rintro ⟨⟨rest, hwait⟩, -, op, cont, hcode⟩
  have he : Erasing p s k := by
    unfold Erasing
    rcases hwait with hd | ⟨hd, -⟩ <;> rw [hd]
  have hquiet := h k he
  rw [hcode] at hquiet
  cases hquiet

/-! ### A step that is not quiet ends in the deadlock -/

/-- The thread goes on to its next TypeMap call, and waits there. -/
theorem run_to_call (hl : Locks s) (hheld : s.mtx_ = some .destroyer) (cb : Callback)
    (hcode : (s.threads k).phase.code = cb) (hcalls : cb.calls = true) :
    ∃ u, Run (Step p) s u ∧ u.destroyer = s.destroyer ∧ AwaitsMap u k ∧
      (u.threads k).mtx_ = (s.threads k).mtx_ := by
  induction cb generalizing s with
  | ret => cases hcalls
  | throw => cases hcalls
  | call op cont _ => exact ⟨s, .start, rfl, ⟨hheld, op, cont, hcode⟩, rfl⟩
  | step cb ih =>
    have hstep : ∃ ph, ph.code = cb ∧
        Step p s (.subsystem k) (s.setThread k { s.threads k with phase := ph }) := by
      cases hph : (s.threads k).phase with
      | onStart c =>
        rw [hph] at hcode
        cases hcode
        exact ⟨.onStart cb, rfl, by simp only [Step, Sys.step, Sys.stepThread, hph]; rfl⟩
      | callback c rest =>
        rw [hph] at hcode
        cases hcode
        exact ⟨.callback cb rest, rfl, by simp only [Step, Sys.step, Sys.stepThread, hph]; rfl⟩
      | onEnd c =>
        rw [hph] at hcode
        cases hcode
        exact ⟨.onEnd cb, rfl, by simp only [Step, Sys.step, Sys.stepThread, hph]; rfl⟩
      | _ =>
        rw [hph] at hcode
        cases hcode
    obtain ⟨ph, hphase, hs⟩ := hstep
    obtain ⟨u, hrun, hd, hmap, hmail⟩ :=
      ih (s := s.setThread k { s.threads k with phase := ph }) (step_locks hl hs) hheld
        (by rw [Sys.setThread_self]; exact hphase) hcalls
    rw [Sys.setThread_self] at hmail
    exact ⟨u, (Run.next' .start hs).trans hrun, hd, hmap, hmail⟩

/-- From where it stands, `~Injector` comes to wait for the thread of `k`, which stays in its
phase. -/
def Reaches (p : Program) (s : Sys) (k : ℕ) : Prop :=
  ∃ u, Run (Step p) s u ∧ AwaitsThread u k ∧ (u.threads k).phase = (s.threads k).phase

theorem Reaches.of_step {l : Label} (hs : Step p s l s')
    (hph : (s'.threads k).phase = (s.threads k).phase) (h : Reaches p s' k) : Reaches p s k := by
  obtain ⟨u, hrun, hwait, hu⟩ := h
  exact ⟨u, (Run.next' .start hs).trans hrun, hwait, hu.trans hph⟩

variable {rest : List Hash_t}

theorem reaches_of_poked (hd : s.destroyer = .subsystem k .poked rest) : Reaches p s k := by
  have hs : ∃ s', Step p s .destroyer s' ∧ s'.destroyer = .subsystem k .join rest ∧
      (s'.threads k).phase = (s.threads k).phase := by
    apply Exists.intro
    refine ⟨?_, ?_, ?_⟩
    · simp only [Step, Sys.step, Sys.stepDestroyer, hd]
      rfl
    · rfl
    · rw [Sys.setThread_self]
  obtain ⟨s', hs, hd', hph⟩ := hs
  exact .of_step hs hph ⟨s', .start, ⟨rest, Or.inl hd'⟩, rfl⟩

theorem reaches_of_free (hd : s.destroyer = .subsystem k .poke rest)
    (hm : (s.threads k).mtx_ = none) : Reaches p s k := by
  have hs : ∃ s', Step p s .destroyer s' ∧ s'.destroyer = .subsystem k .poked rest ∧
      (s'.threads k).phase = (s.threads k).phase := by
    apply Exists.intro
    refine ⟨?_, ?_, ?_⟩
    · simp only [Step, Sys.step, Sys.stepDestroyer, hd, hm, if_pos]
      rfl
    · rfl
    · rw [Sys.setThread_self]
  obtain ⟨s', hs, hd', hph⟩ := hs
  exact .of_step hs hph (reaches_of_poked hd')

/-- A sender that has the mailbox lets it go; the thread itself does not. -/
theorem reaches_of_poke (hl : Locks s) (hd : s.destroyer = .subsystem k .poke rest) :
    Reaches p s k := by
  cases hm : (s.threads k).mtx_ with
  | none => exact reaches_of_free hd hm
  | some o =>
    rcases hl.mail k o hm with rfl | rfl | ⟨-, rest', he⟩
    · have hs : ∃ s', Step p s (.sent k []) s' ∧ s'.destroyer = .subsystem k .poke rest ∧
          (s'.threads k).mtx_ = none ∧ (s'.threads k).phase = (s.threads k).phase := by
        apply Exists.intro
        refine ⟨?_, ?_, ?_, ?_⟩
        · simp only [Step, Sys.step, hm, if_pos]
          rfl
        · exact hd
        · rw [Sys.setThread_self]
        · rw [Sys.setThread_self]
      obtain ⟨s', hs, hd', hm', hph⟩ := hs
      exact .of_step hs hph (reaches_of_free hd' hm')
    · exact ⟨s, .start, ⟨rest, Or.inr ⟨hd, hm⟩⟩, rfl⟩
    · rw [hd] at he
      cases he

theorem reaches_of_start (hl : Locks s) (hd : s.destroyer = .subsystem k .start rest) :
    Reaches p s k := by
  have hs : ∃ s', Step p s .destroyer s' ∧ s'.destroyer = .subsystem k .poke rest ∧
      (s'.threads k).phase = (s.threads k).phase := by
    apply Exists.intro
    refine ⟨?_, ?_, ?_⟩
    · simp only [Step, Sys.step, Sys.stepDestroyer, hd]
      rfl
    · rfl
    · rw [Sys.setThread_self]
  obtain ⟨s', hs, hd', hph⟩ := hs
  exact .of_step hs hph (reaches_of_poke (step_locks hl hs) hd')

theorem reaches_of_stop (hl : Locks s) (hd : s.destroyer = .subsystem k .stop rest) :
    Reaches p s k := by
  have hs : ∃ s', Step p s .destroyer s' ∧ s'.destroyer = .subsystem k .start rest ∧
      (s'.threads k).phase = (s.threads k).phase := by
    apply Exists.intro
    refine ⟨?_, ?_, ?_⟩
    · simp only [Step, Sys.step, Sys.stepDestroyer, hd]
      rfl
    · rfl
    · rw [Sys.setThread_self]
  obtain ⟨s', hs, hd', hph⟩ := hs
  exact .of_step hs hph (reaches_of_start (step_locks hl hs) hd')

theorem reaches_of_erasing (hl : Locks s) (he : Erasing p s k) : Reaches p s k := by
  unfold Erasing at he
  cases hd : s.destroyer with
  | next rest =>
    rw [hd] at he
    cases he
  | unlock rest =>
    rw [hd] at he
    cases he
  | erase T rest =>
    rw [hd] at he
    have hs : ∃ s', Step p s .destroyer s' ∧ s'.destroyer = .subsystem k .stop rest ∧
        (s'.threads k).phase = (s.threads k).phase := by
      apply Exists.intro
      refine ⟨?_, ?_, ?_⟩
      · simp only [Step, Sys.step, Sys.stepDestroyer, hd, he.1, he.2, if_pos]
        rfl
      · rfl
      · rfl
    obtain ⟨s', hs, hd', hph⟩ := hs
    exact .of_step hs hph (reaches_of_stop (step_locks hl hs) hd')
  | subsystem j stage rest =>
    rw [hd] at he
    have hjk : j = k := he
    subst hjk
    cases stage with
    | stop => exact reaches_of_stop hl hd
    | start => exact reaches_of_start hl hd
    | poke => exact reaches_of_poke hl hd
    | poked => exact reaches_of_poked hd
    | join => exact ⟨s, .start, ⟨rest, Or.inl hd⟩, rfl⟩

theorem run_locks {u : Sys} (hl : Locks s) (h : Run (Step p) s u) : Locks u :=
  h.invariant Locks hl fun _ _ _ ht _ hs => step_locks ht hs

theorem erasing_deadlocks (hl : Locks s) (he : Erasing p s k)
    (hcalls : (s.threads k).phase.code.calls = true) :
    ∃ u, Run (Step p) s u ∧ AwaitsThread u k ∧ AwaitsMap u k := by
  obtain ⟨t, hrun, ⟨rest, hwait⟩, hph⟩ := reaches_of_erasing hl he
  have hlt := run_locks hl hrun
  have hheld : t.mtx_ = some .destroyer := hlt.held fun rest' hn => by
    rcases hwait with hd | ⟨hd, -⟩ <;> rw [hd] at hn <;> cases hn
  rw [← hph] at hcalls
  obtain ⟨u, hrun', hd, hmap, hmail⟩ := run_to_call hlt hheld _ rfl hcalls
  refine ⟨u, hrun.trans hrun', ⟨rest, ?_⟩, hmap⟩
  rw [hd, hmail]
  exact hwait

theorem begins_code (h : s.stepThread p k = some s') (hb : (begins p s k).calls = true) :
    (s'.threads k).phase.code = begins p s k ∧ s'.destroyer = s.destroyer ∧
      s'.map_ = s.map_ := by
  unfold Sys.stepThread at h
  dsimp only at h
  unfold begins at hb ⊢
  cases hph : (s.threads k).phase with
  | waitStart =>
    simp only [hph] at h hb ⊢
    split at h
    · cases h
      exact ⟨by rw [Sys.setThread_self]; rfl, rfl, rfl⟩
    · cases h
  | checkStop =>
    simp only [hph] at h hb ⊢
    split at hb
    · rename_i hstop
      rw [if_pos hstop] at h ⊢
      cases h
      exact ⟨by rw [Sys.setThread_self]; rfl, rfl, rfl⟩
    · cases hb
  | pumping rest =>
    cases rest with
    | nil => simp [hph, Callback.calls] at hb
    | cons type rest =>
      simp only [hph] at h hb ⊢
      split at hb
      · rename_i hdel
        rw [if_pos hdel] at h ⊢
        cases hcb : p.callbacks_ k type with
        | none => simp [hcb, Callback.calls] at hb
        | some cb =>
          rw [hcb] at h
          cases h
          exact ⟨by rw [Sys.setThread_self]; rfl, rfl, rfl⟩
      · cases hb
  | _ =>
    rw [hph] at hb
    cases hb

theorem unquiet_deadlocks {l : Label} (hl : Locks s) (hs : Step p s l s') (hq : ¬ Quiet p s l) :
    ∃ u, Run (Step p) s u ∧ ∃ k, AwaitsThread u k ∧ AwaitsMap u k := by
  have hl' := step_locks hl hs
  have hmain : ∃ k, Erasing p s' k ∧ (s'.threads k).phase.code.calls = true := by
    cases l with
    | destroyer =>
      unfold Quiet at hq
      push Not at hq
      obtain ⟨T, rest, k, hd, hT, hk, hcalls⟩ := hq
      unfold Step Sys.step Sys.stepDestroyer at hs
      rw [hd] at hs
      dsimp only at hs
      split at hs
      · cases hs
        exact ⟨k, ⟨hT, hk⟩, by simpa using hcalls⟩
      · cases hs
    | subsystem k =>
      unfold Quiet at hq
      push Not at hq
      obtain ⟨he, hcalls⟩ := hq
      have hb : (begins p s k).calls = true := by simpa using hcalls
      obtain ⟨hcode, hd, hmap⟩ := begins_code hs hb
      refine ⟨k, ?_, by rw [hcode]; exact hb⟩
      unfold Erasing at he ⊢
      rw [hd, hmap]
      exact he
    | start k => exact absurd trivial hq
    | stop k => exact absurd trivial hq
    | send k => exact absurd trivial hq
    | sent k mq => exact absurd trivial hq
  obtain ⟨k, he, hcalls⟩ := hmain
  obtain ⟨u, hrun, hdead⟩ := erasing_deadlocks hl' he hcalls
  exact ⟨u, (Run.next' .start hs).trans hrun, k, hdead⟩

/-- In a run whose steps are quiet, the destroying thread never waits for a thread that waits for
the mutex it has; and it never does in any run exactly when every step of every run is quiet. -/
theorem teardown_deadlocks_iff (p : Program) (invocationList_ : List Hash_t)
    (map_ : Finset Hash_t) :
    (∀ s, RunUnder (Step p) (Quiet p) (.init invocationList_ map_) s →
      ∀ k, ¬ (AwaitsThread s k ∧ AwaitsMap s k)) ∧
    ((∀ s, Run (Step p) (.init invocationList_ map_) s →
      ∀ k, ¬ (AwaitsThread s k ∧ AwaitsMap s k)) ↔
      ∀ s l s', Run (Step p) (.init invocationList_ map_) s → Step p s l s' → Quiet p s l) := by
  have hquiet : ∀ s, RunUnder (Step p) (Quiet p) (.init invocationList_ map_) s →
      ∀ k, ¬ (AwaitsThread s k ∧ AwaitsMap s k) := by
    intro s h
    have hinv : Locks s ∧ Still p s := h.invariant (fun s => Locks s ∧ Still p s)
      ⟨init_locks _ _, init_still p _ _⟩ fun _ _ _ ht hq hs =>
        ⟨step_locks ht.1 hs, step_still ht.2 ht.1 hq hs⟩
    exact hinv.2.no_deadlock
  refine ⟨hquiet, fun h s l s' hrun hs => ?_, fun h s hrun => ?_⟩
  · by_contra hq
    obtain ⟨u, hu, k, hdead⟩ := unquiet_deadlocks (run_locks (init_locks _ _) hrun) hs hq
    exact h u (hrun.trans hu) k hdead
  · refine hquiet s ?_
    induction hrun with
    | start => exact .start
    | next ht _ hs ih => exact .next ih (h _ _ _ ht hs) hs

end

/-- The type 5 is a subsystem that looks the type 7 up when the window has changed its size. -/
def resizeProgram : Program where
  subsystem T := if T = 5 then some 0 else none
  onStart _ := .ret
  onEnd _ := .ret
  on _ type := if type = .HANDLE_RESIZE then some (.get 7 .ret .ret) else none

/-- The thread waits for mail, has looked at its stop token, and the message comes. The Injector is
destroyed, up to the join, before the thread wakes. -/
def resizeSchedule : List Label :=
  [.start 0, .subsystem 0, .subsystem 0, .subsystem 0, .send 0, .sent 0 [.HANDLE_RESIZE]] ++
  List.replicate 6 .destroyer ++ List.replicate 5 (.subsystem 0)

theorem resize_deadlocks :
    (∃ s, Run (Step resizeProgram) (.init [7, 5] {7, 5}) s ∧
      s.destroyer = .subsystem 0 .join [7] ∧ AwaitsMap s 0) ∧
    ¬ ∀ (p : Program) (invocationList_ : List Hash_t) (map_ : Finset Hash_t) (s : Sys),
      Run (Step p) (.init invocationList_ map_) s → ∀ k rest,
        ¬ (s.destroyer = .subsystem k .join rest ∧ AwaitsMap s k) := by
  have hrun : ∃ s, follow (Sys.step resizeProgram) resizeSchedule (.init [7, 5] {7, 5}) = some s ∧
      s.destroyer = .subsystem 0 .join [7] ∧ AwaitsMap s 0 :=
    ⟨_, rfl, rfl, rfl, _, _, rfl⟩
  obtain ⟨s, hs, hd, hmap⟩ := hrun
  have hr : Run (Step resizeProgram) (.init [7, 5] {7, 5}) s := run_of_follow hs
  exact ⟨⟨s, hr, hd, hmap⟩, fun h => h _ _ _ s hr 0 [7] ⟨hd, hmap⟩⟩

end Omulator.Teardown
