import Omulator.Di.TypeMap
import Omulator.Lib.Linear
import Omulator.Lib.Transition
import Mathlib.Logic.Function.Basic

/-!
# Who owns what a TypeContainer points to (`include/omulator/di/TypeMap.hpp`)

Any number of containers of one type, each with an index. Pointers are addresses here: that of an
object can be given to another one when the object has been deleted.
-/

namespace Omulator.Di
open Lib

namespace TypeContainer

/-- `operator=(TypeContainer &&)`: what is assigned to, and what is left of `rhs`. -/
def move (rhs : TypeContainer) : TypeContainer × TypeContainer :=
  (⟨rhs.ptr_, rhs.hasOwnership_⟩, { rhs with hasOwnership_ := false })

def owned (c : TypeContainer) : Option Addr := if c.hasOwnership_ then c.ptr_ else none

theorem release_eq (c : TypeContainer) : c.release_ = c.owned.toList := by
  unfold release_ owned
  split <;> rfl

end TypeContainer

structure Containers where
  containers : ℕ → Option TypeContainer := fun _ => none
  /-- the objects made by `createInstance` or given to `reset`, that have not been deleted -/
  live : List Addr := []
  /-- which of them `release` has returned, call by call -/
  handed : List Addr := []
  /-- something has been deleted that was not there -/
  undefined : Bool := false

inductive ContainerOp where
  | construct (i : ℕ)
  /-- `made` is the new object, `none` when its constructor throws -/
  | createInstance (i : ℕ) (made : Option Addr)
  /-- with a new object -/
  | reset (i : ℕ) (pVal : Addr)
  | setref (i : ℕ) (pT : Option Addr)
  | release (i : ℕ)
  | moveConstruct (i rhs : ℕ)
  | moveAssign (i rhs : ℕ)
  | destroy (i : ℕ)
  deriving DecidableEq, Repr

/-- Where an object is that has not been deleted. -/
inductive Holder where
  | container (i : ℕ)
  | released (k : ℕ)
  deriving DecidableEq, Repr

namespace Containers

def set (i : ℕ) (c : Option TypeContainer) (s : Containers) : Containers :=
  { s with containers := Function.update s.containers i c }

def make (a : Addr) (s : Containers) : Containers := { s with live := a :: s.live }

def delete (as : List Addr) (s : Containers) : Containers :=
  { s with
    live := s.live.filter (· ∉ as)
    undefined := s.undefined || as.any (· ∉ s.live) }

/-- `none` where a container is not there, or another one is, or where an address is in use. -/
def step (op : ContainerOp) (s : Containers) : Option Containers :=
  match op with
  | .construct i =>
    match s.containers i with
    | none => some (s.set i (some {}))
    | some _ => none
  | .createInstance i made =>
    match s.containers i, made with
    | none, _ => none
    | some _, none => some s
    | some c, some a =>
      if a ∈ s.live then none else some ((s.make a).set i (some (c.createInstance a)))
  | .reset i pVal =>
    match s.containers i with
    | none => none
    | some c =>
      if pVal ∈ s.live then none
      else
        let r := c.reset (some pVal)
        some (((s.make pVal).delete r.2).set i (some r.1))
  | .setref i pT =>
    match s.containers i with
    | none => none
    | some c =>
      let r := c.setref pT
      some ((s.delete r.2).set i (some r.1))
  | .release i =>
    match s.containers i with
    | none => none
    | some c =>
      let r := c.release
      some { s.set i (some r.2) with handed := s.handed ++ r.1.toList.filter (· ∈ s.live) }
  | .moveConstruct i rhs =>
    match s.containers i, s.containers rhs with
    | none, some r => some ((s.set i (some r.move.1)).set rhs (some r.move.2))
    | _, _ => none
  | .moveAssign i rhs =>
    match s.containers i, s.containers rhs with
    | some _, some r => some ((s.set i (some r.move.1)).set rhs (some r.move.2))
    | _, _ => none
  | .destroy i =>
    match s.containers i with
    | none => none
    | some c => some ((s.delete c.release_).set i none)

def Step (s : Containers) (op : ContainerOp) (t : Containers) : Prop := s.step op = some t

def held (s : Containers) : Holder → Option Addr
  | .container i => (s.containers i).bind TypeContainer.owned
  | .released k => s.handed[k]?

/-- Every object has one owner, or has been handed out once; nothing is deleted that is not there,
and when there are no containers any more, what is there has been handed out. -/
structure Owned (s : Containers) : Prop where
  linear : Linear s.held (· ∈ s.live)
  defined : s.undefined = false
  drained : (∀ i, s.containers i = none) → ∀ a ∈ s.live, a ∈ s.handed

end Containers

namespace ContainerOp

/-- The container whose object is to be deleted, if it owns one. -/
def replaces : ContainerOp → Option ℕ
  | .createInstance i (some _) | .reset i _ | .setref i _ | .moveAssign i _ | .destroy i => some i
  | _ => none

def Deletes (s : Containers) (op : ContainerOp) : Prop :=
  ∀ t, Containers.Step s op t → ∀ i, op.replaces = some i →
    ∀ a, s.held (.container i) = some a → a ∉ t.live

/-- What is assigned to owns nothing, and what is released is owned, or is not an object. -/
def Careful (s : Containers) : ContainerOp → Prop
  | .createInstance i made => made = none ∨ s.held (.container i) = none
  | .moveAssign i _ => s.held (.container i) = none
  | .release i => ∀ c a, s.containers i = some c → c.ptr_ = some a → a ∈ s.live →
      c.hasOwnership_ = true
  | _ => True

end ContainerOp

/-! ### What a step does -/

namespace Containers
variable {i rhs : ℕ} {s t : Containers} {c r : TypeContainer} {a b : Addr}

@[simp] theorem set_self (x : Option TypeContainer) : (s.set i x).containers i = x :=
  Function.update_self ..

theorem set_ne {j : ℕ} (x : Option TypeContainer) (hj : j ≠ i) :
    (s.set i x).containers j = s.containers j := Function.update_of_ne hj ..

theorem held_container (h : s.containers i = some c) : s.held (.container i) = c.owned := by
  rw [held, h, Option.bind_some]

theorem held_of_none (h : s.containers i = none) : s.held (.container i) = none := by
  rw [held, h, Option.bind_none]

theorem held_set (x : Option TypeContainer) {h : Holder} (hh : h ≠ .container i) :
    (s.set i x).held h = s.held h := by
  cases h with
  | released k => rfl
  | container j =>
    have hj : j ≠ i := fun heq => hh (heq ▸ rfl)
    rw [held, held, set_ne x hj]

theorem mem_delete {as : List Addr} : b ∈ (s.delete as).live ↔ b ∈ s.live ∧ b ∉ as := by
  rw [delete, List.mem_filter, decide_eq_true_iff]

theorem mem_make : b ∈ (s.make a).live ↔ b ∈ s.live ∨ b = a := by
  rw [make, List.mem_cons, or_comm]

def moved (i rhs : ℕ) (r : TypeContainer) (s : Containers) : Containers :=
  (s.set i (some r)).set rhs (some { r with hasOwnership_ := false })

def hand (a : Option Addr) (s : Containers) : Containers :=
  { s with handed := s.handed ++ a.toList.filter (· ∈ s.live) }

theorem hand_of_live (ha : a ∈ s.live) :
    s.hand (some a) = { s with handed := s.handed ++ [a] } := by
  rw [hand, Option.toList_some, List.filter_singleton, decide_eq_true ha]
  rfl

theorem hand_of_not_live {p : Option Addr} (hp : ∀ a, p = some a → a ∉ s.live) :
    s.hand p = s := by
  cases p with
  | none => rw [hand, Option.toList_none, List.filter_nil, List.append_nil]
  | some a =>
    rw [hand, Option.toList_some, List.filter_singleton, decide_eq_false (hp a rfl)]
    exact congrArg (fun l => { s with handed := l }) (List.append_nil _)

inductive Stepped (s : Containers) : ContainerOp → Containers → Prop
  | failed {i : ℕ} : Stepped s (.createInstance i none) s
  | construct {i : ℕ} (hi : s.containers i = none) :
    Stepped s (.construct i) (s.set i (some {}))
  | createInstance {i : ℕ} {c : TypeContainer} {a : Addr} (hi : s.containers i = some c)
      (ha : a ∉ s.live) :
    Stepped s (.createInstance i (some a)) ((s.make a).set i (some ⟨some a, true⟩))
  | reset {i : ℕ} {c : TypeContainer} {a : Addr} (hi : s.containers i = some c)
      (ha : a ∉ s.live) :
    Stepped s (.reset i a) (((s.make a).delete c.release_).set i (some ⟨some a, true⟩))
  | setref {i : ℕ} {c : TypeContainer} {p : Option Addr} (hi : s.containers i = some c) :
    Stepped s (.setref i p) ((s.delete c.release_).set i (some ⟨p, false⟩))
  | release {i : ℕ} {c : TypeContainer} (hi : s.containers i = some c) :
    Stepped s (.release i) ((s.set i (some {})).hand c.ptr_)
  | moveConstruct {i rhs : ℕ} {r : TypeContainer} (hi : s.containers i = none)
      (hr : s.containers rhs = some r) :
    Stepped s (.moveConstruct i rhs) (s.moved i rhs r)
  | moveAssign {i rhs : ℕ} {c r : TypeContainer} (hi : s.containers i = some c)
      (hr : s.containers rhs = some r) :
    Stepped s (.moveAssign i rhs) (s.moved i rhs r)
  | destroy {i : ℕ} {c : TypeContainer} (hi : s.containers i = some c) :
    Stepped s (.destroy i) ((s.delete c.release_).set i none)

theorem step_cases {op : ContainerOp} (hs : Step s op t) : Stepped s op t := by
  unfold Step step at hs
  cases op with
  | construct i =>
    simp only at hs
    split at hs
    · rename_i hi
      cases hs
      exact .construct hi
    · cases hs
  | createInstance i made =>
    simp only at hs
    split at hs
    · cases hs
    · cases hs
      exact .failed
    · rename_i c a hi
      split at hs
      · cases hs
      · rename_i ha
        cases hs
        exact .createInstance hi ha
  | reset i pVal =>
    simp only at hs
    split at hs
    · cases hs
    · rename_i c hi
      split at hs
      · cases hs
      · rename_i ha
        cases hs
        exact .reset hi ha
  | setref i pT =>
    simp only at hs
    split at hs
    · cases hs
    · rename_i c hi
      cases hs
      exact .setref hi
  | release i =>
    simp only at hs
    split at hs
    · cases hs
    · rename_i c hi
      cases hs
      exact .release hi
  | moveConstruct i rhs =>
    simp only at hs
    split at hs
    · rename_i r hi hr
      cases hs
      exact .moveConstruct hi hr
    · cases hs
  | moveAssign i rhs =>
    simp only at hs
    split at hs
    · rename_i c r hi hr
      cases hs
      exact .moveAssign hi hr
    · cases hs
  | destroy i =>
    simp only at hs
    split at hs
    · cases hs
    · rename_i c hi
      cases hs
      exact .destroy hi

/-! ### The objects and their owners -/

structure Inv (s : Containers) : Prop where
  linear : Linear s.held (· ∈ s.live)
  defined : s.undefined = false

theorem inv_start : Inv {} where
  linear := by
    refine ⟨?_, ?_, nofun⟩
    · intro h _ _ hh
      cases h <;> cases hh
    · intro h _ hh
      cases h <;> cases hh
  defined := rfl

theorem Inv.owned (h : Inv s) : Owned s where
  linear := h.linear
  defined := h.defined
  drained hnone a ha := by
    obtain ⟨holder, hh⟩ := h.linear.kept a ha
    cases holder with
    | container i =>
      rw [held_of_none (hnone i)] at hh
      cases hh
    | released k => exact List.mem_of_getElem? hh

theorem Inv.live_of_release (h : Inv s) (hc : s.containers i = some c) :
    ∀ a ∈ c.release_, a ∈ s.live := by
  intro a ha
  rw [c.release_eq, Option.mem_toList, ← held_container hc] at ha
  exact h.linear.alive _ a ha

theorem delete_defined {as : List Addr} (hs : s.undefined = false) (has : ∀ a ∈ as, a ∈ s.live) :
    (s.delete as).undefined = false := by
  change (s.undefined || as.any (· ∉ s.live)) = false
  rw [hs, Bool.false_or, List.any_eq_false]
  intro a ha
  rw [decide_eq_true_iff]
  exact not_not_intro (has a ha)

theorem Inv.drop (h : Inv s) (hc : s.containers i = some c) {x : Option TypeContainer}
    (hx : x.bind TypeContainer.owned = none) : Inv ((s.delete c.release_).set i x) := by
  refine ⟨?_, delete_defined h.defined (h.live_of_release hc)⟩
  have hself : ((s.delete c.release_).set i x).held (.container i) = none := by
    rw [held, set_self, hx]
  have hne : ∀ k, k ≠ .container i → ((s.delete c.release_).set i x).held k = s.held k :=
    fun k hk => held_set (s := s.delete c.release_) x hk
  have hlive : ∀ b, b ∈ ((s.delete c.release_).set i x).live ↔ b ∈ s.live ∧ b ∉ c.release_ :=
    fun b => mem_delete
  cases ho : c.owned with
  | none =>
    have hheld := held_container hc
    rw [ho] at hheld
    refine h.linear.congr (fun k => ?_) (fun b => ?_)
    · by_cases hk : k = .container i
      · rw [hk, hself, hheld]
      · exact hne k hk
    · rw [hlive, c.release_eq, ho, Option.toList_none]
      exact and_iff_left List.not_mem_nil
  | some a =>
    refine h.linear.take ((held_container hc).trans ho) hne hself fun b => ?_
    rw [hlive, c.release_eq, ho, Option.toList_some, List.mem_singleton]

theorem Inv.construct (h : Inv s) (hi : s.containers i = none) : Inv (s.set i (some {})) := by
  refine ⟨h.linear.congr (fun k => ?_) (fun _ => Iff.rfl), h.defined⟩
  by_cases hk : k = .container i
  · rw [hk, held_container (set_self _), held_of_none hi]
    rfl
  · exact held_set _ hk

theorem Inv.createInstance (h : Inv s) (hi : s.held (.container i) = none) (ha : a ∉ s.live) :
    Inv ((s.make a).set i (some ⟨some a, true⟩)) := by
  refine ⟨h.linear.give hi ha (fun k hk => ?_) ?_ (fun b => mem_make), h.defined⟩
  · exact held_set (s := s.make a) _ hk
  · exact held_container (set_self _)

theorem Inv.reset (h : Inv s) (hc : s.containers i = some c) (ha : a ∉ s.live) :
    Inv (((s.make a).delete c.release_).set i (some ⟨some a, true⟩)) := by
  have hdrop : Inv ((s.delete c.release_).set i (some {})) := h.drop hc rfl
  have hnot : a ∉ c.release_ := fun hm => ha (h.live_of_release hc a hm)
  have hmem : ∀ b, b ∈ (((s.make a).delete c.release_).set i (some ⟨some a, true⟩)).live ↔
      b ∈ ((s.delete c.release_).set i (some {})).live ∨ b = a := by
    intro b
    change b ∈ ((s.make a).delete c.release_).live ↔ b ∈ (s.delete c.release_).live ∨ b = a
    rw [mem_delete, mem_delete, mem_make]
    constructor
    · rintro ⟨hb | hb, hn⟩
      · exact .inl ⟨hb, hn⟩
      · exact .inr hb
    · rintro (⟨hb, hn⟩ | hb)
      · exact ⟨.inl hb, hn⟩
      · exact ⟨.inr hb, hb ▸ hnot⟩
  refine ⟨hdrop.linear.give (held_container (set_self _)) (fun hm => ha (mem_delete.mp hm).1)
    (fun k hk => ?_) (held_container (set_self _)) hmem, delete_defined h.defined fun b hb => ?_⟩
  · rw [held_set _ hk, held_set _ hk]
    rfl
  · exact mem_make.mpr (.inl (h.live_of_release hc b hb))

theorem held_hand {i : ℕ} {p : Option Addr} :
    (s.hand p).held (.container i) = s.held (.container i) := rfl

theorem Inv.release (h : Inv s) (hc : s.containers i = some c)
    (hcare : ∀ a, c.ptr_ = some a → a ∈ s.live → c.hasOwnership_ = true) :
    Inv ((s.set i (some {})).hand c.ptr_) := by
  have hheld := held_container hc
  have hself : (s.set i (some {})).held (.container i) = none := held_container (set_self _)
  by_cases hptr : ∃ a, c.ptr_ = some a ∧ a ∈ s.live
  · obtain ⟨a, ha, hlive⟩ := hptr
    have hown : c.owned = some a := by rw [TypeContainer.owned, if_pos (hcare a ha hlive), ha]
    have hhand := hand_of_live (s := s.set i (some {})) hlive
    rw [ha]
    refine ⟨?_, h.defined⟩
    refine h.linear.pass (j := .released s.handed.length) (hheld.trans hown)
      (List.getElem?_length _) ?_ (held_hand.trans hself) ?_ (fun _ => Iff.rfl)
    · intro k hk hj
      rw [hhand]
      cases k with
      | container j => exact held_set (some {}) hk
      | released k =>
        change (s.handed ++ [a])[k]? = s.handed[k]?
        have hkne : k ≠ s.handed.length := fun heq => hj (heq ▸ rfl)
        grind
    · rw [hhand]
      exact List.getElem?_concat_length
  · have hout : ∀ a, c.ptr_ = some a → a ∉ (s.set i (some {})).live :=
      fun a ha hlive => hptr ⟨a, ha, hlive⟩
    have hnone : s.held (.container i) = none := by
      cases ho : s.held (.container i) with
      | none => rfl
      | some a =>
        have hpa : c.ptr_ = some a := by
          rw [hheld, TypeContainer.owned] at ho
          split at ho
          · exact ho
          · cases ho
        exact absurd (h.linear.alive _ a ho) (hout a hpa)
    rw [hand_of_not_live hout]
    refine ⟨h.linear.congr (fun k => ?_) (fun _ => Iff.rfl), h.defined⟩
    by_cases hk : k = .container i
    · rw [hk, hself, hnone]
    · exact held_set _ hk

theorem held_moved {h : Holder} (hi : h ≠ .container i) (hrhs : h ≠ .container rhs) :
    (s.moved i rhs r).held h = s.held h := by
  rw [moved, held_set _ hrhs, held_set _ hi]

theorem held_moved_from : (s.moved i rhs r).held (.container rhs) = none :=
  held_container (set_self _)

theorem held_moved_to (hne : i ≠ rhs) : (s.moved i rhs r).held (.container i) = r.owned := by
  refine held_container ?_
  rw [moved, set_ne _ hne, set_self]

theorem Inv.moved (h : Inv s) (hi : s.held (.container i) = none)
    (hr : s.containers rhs = some r) : Inv (s.moved i rhs r) := by
  refine ⟨?_, h.defined⟩
  have hheld := held_container hr
  cases ho : r.owned with
  | none =>
    refine h.linear.congr (fun k => ?_) (fun _ => Iff.rfl)
    by_cases hrhs : k = .container rhs
    · rw [hrhs, held_moved_from, hheld, ho]
    · by_cases hk : k = .container i
      · have hne : i ≠ rhs := fun heq => hrhs (heq ▸ hk)
        rw [hk, held_moved_to hne, ho, hi]
      · exact held_moved hk hrhs
  | some a =>
    have hne : i ≠ rhs := by
      intro heq
      rw [heq, hheld, ho] at hi
      cases hi
    exact h.linear.pass (hheld.trans ho) hi (fun k hr hk => held_moved hk hr) held_moved_from
      ((held_moved_to hne).trans ho) (fun _ => Iff.rfl)

/-! ### Careful operations -/

theorem Inv.step_careful {op : ContainerOp} (h : Inv s) (hs : Step s op t) (hc : op.Careful s) :
    Inv t := by
  cases step_cases hs with
  | failed => exact h
  | construct hi => exact h.construct hi
  | createInstance hi ha => exact h.createInstance (hc.resolve_left nofun) ha
  | reset hi ha => exact h.reset hi ha
  | setref hi => exact h.drop hi rfl
  | @release i c hi => exact h.release hi fun a => hc c a hi
  | moveConstruct hi hr => exact h.moved (held_of_none hi) hr
  | moveAssign hi hr => exact h.moved hc hr
  | destroy hi => exact h.drop hi rfl

theorem deletes_of_careful {op : ContainerOp} (hc : op.Careful s) : op.Deletes s := by
  intro t hs j hj a ha
  have hgone : ∀ {c : TypeContainer} {u : Containers} {x : Option TypeContainer},
      s.containers j = some c → a ∉ ((u.delete c.release_).set j x).live := by
    intro c u x hi hm
    rw [held_container hi] at ha
    refine (mem_delete.mp hm).2 ?_
    rw [c.release_eq, ha]
    exact Option.mem_toList.mpr rfl
  cases step_cases hs with
  | failed => cases hj
  | construct hi => cases hj
  | createInstance hi hnew =>
    cases hj
    exact absurd ((hc.resolve_left nofun).symm.trans ha) nofun
  | reset hi hnew =>
    cases hj
    exact hgone hi
  | setref hi =>
    cases hj
    exact hgone hi
  | release hi => cases hj
  | moveConstruct hi hr => cases hj
  | moveAssign hi hr =>
    cases hj
    exact absurd (hc.symm.trans ha) nofun
  | destroy hi =>
    cases hj
    exact hgone hi

theorem none_of_createInstance (h : Inv s) (ha : a ∉ s.live)
    (ht : Owned ((s.make a).set i (some ⟨some a, true⟩))) : s.held (.container i) = none := by
  cases hb : s.held (.container i) with
  | none => rfl
  | some b =>
    have hlive : b ∈ s.live := h.linear.alive _ b hb
    have hstays : b ∈ (s.make a).live := mem_make.mpr (.inl hlive)
    refine absurd ht.linear (h.linear.not_of_lost hb (fun k hk => ?_) ?_ hstays)
    · rw [held_set (s := s.make a) _ hk]
      exact id
    · rw [held_container (set_self _)]
      intro heq
      cases heq
      exact ha hlive

theorem none_of_moved (h : Inv s) (hr : s.containers rhs = some r) (ht : Owned (s.moved i rhs r)) :
    s.held (.container i) = none := by
  cases hb : s.held (.container i) with
  | none => rfl
  | some b =>
    have hlive : b ∈ s.live := h.linear.alive _ b hb
    have hself : (s.moved i rhs r).held (.container i) ≠ some b := by
      by_cases hne : i = rhs
      · rw [hne, held_moved_from]
        nofun
      · rw [held_moved_to hne]
        intro ho
        have hheld := (held_container hr).trans ho
        exact hne (Holder.container.inj (h.linear.one _ _ b hb hheld))
    refine absurd ht.linear (h.linear.not_of_lost hb (fun k hk hkb => ?_) hself hlive)
    by_cases hrhs : k = .container rhs
    · rw [hrhs, held_moved_from] at hkb
      cases hkb
    · rwa [held_moved hk hrhs] at hkb

/-- An object that is handed out by one who does not own it has another owner, or has been handed
out before. -/
theorem owns_of_release (h : Inv s) (hi : s.containers i = some c)
    (ht : Owned ((s.set i (some {})).hand c.ptr_)) (ha : c.ptr_ = some a) (hlive : a ∈ s.live) :
    c.hasOwnership_ = true := by
  by_contra hno
  have hnone : s.held (.container i) = none := by
    rw [held_container hi, TypeContainer.owned, if_neg hno]
  obtain ⟨k, hk⟩ := h.linear.kept a hlive
  have hki : k ≠ .container i := by
    intro heq
    rw [heq, hnone] at hk
    cases hk
  have hhand := hand_of_live (s := s.set i (some {})) hlive
  rw [ha, hhand] at ht
  have hlast := ht.linear.one k (.released s.handed.length) a ?_ List.getElem?_concat_length
  · rw [hlast] at hk
    exact absurd ((List.getElem?_length s.handed).symm.trans hk) nofun
  · cases k with
    | container j => exact (held_set (some {}) hki).trans hk
    | released k =>
      have hlt : k < s.handed.length := (List.getElem?_eq_some_iff.mp hk).1
      exact (List.getElem?_append_left hlt).trans hk

theorem careful_of_owned {op : ContainerOp} (h : Inv s) (hs : Step s op t) (ht : Owned t) :
    op.Careful s := by
  cases step_cases hs with
  | failed => exact .inl rfl
  | createInstance hi ha => exact .inr (none_of_createInstance h ha ht)
  | release hi =>
    intro c' a hc' hp hlive
    cases hi.symm.trans hc'
    exact owns_of_release h hi ht hp hlive
  | moveAssign hi hr => exact none_of_moved h hr ht
  | construct _ | reset _ _ | setref _ | moveConstruct _ _ | destroy _ => trivial

/-- Containers own their objects linearly, and delete what they own when they are given something
else, exactly in the runs that overwrite and release with care. -/
theorem objects_owned_iff (tr : List (ContainerOp × Containers)) (htr : IsTrace Step {} tr) :
    StepsMeet (fun s op => op.Careful s) {} tr ↔
      StatesMeet Owned tr ∧ StepsMeet (fun s op => op.Deletes s) {} tr := by
  have hexact : ∀ (s : Containers) (op : ContainerOp) (t : Containers), Inv s → Step s op t →
      (op.Careful s ↔ t.Owned) := fun _ _ _ h hs =>
    ⟨fun hc => (h.step_careful hs hc).owned, careful_of_owned h hs⟩
  have hkeep : ∀ (s : Containers) (op : ContainerOp) (t : Containers), Inv s → Step s op t →
      op.Careful s → Inv t := fun _ _ _ h hs hc => h.step_careful hs hc
  have hiff := steps_iff_states Inv hexact hkeep {} tr inv_start htr
  rw [← hiff]
  refine ⟨fun hc => ⟨hc, ?_⟩, And.left⟩
  exact stepsMeet_imp Inv (fun _ _ _ _ _ hc => deletes_of_careful hc) hkeep {} tr inv_start htr hc

/-- An object goes from one container to another and is released; a second one is reset. -/
theorem passed_and_released : ∃ tr, record step
      [.construct 0, .createInstance 0 (some (.obj 4)), .moveConstruct 1 0, .release 1,
        .setref 0 (some (.obj 9)), .release 0, .reset 1 (.obj 5), .reset 1 (.obj 6),
        .destroy 1] {} = some tr ∧
      StatesMeet Owned tr ∧ StepsMeet (fun s op => op.Deletes s) {} tr := by
  obtain ⟨tr, htr⟩ : ∃ tr, record step
      [.construct 0, .createInstance 0 (some (.obj 4)), .moveConstruct 1 0, .release 1,
        .setref 0 (some (.obj 9)), .release 0, .reset 1 (.obj 5), .reset 1 (.obj 6),
        .destroy 1] {} = some tr := ⟨_, rfl⟩
  have hiff := objects_owned_iff tr (isTrace_of_record htr)
  cases htr
  refine ⟨_, rfl, hiff.mp ⟨trivial, .inr rfl, trivial, ?_, trivial, ?_, trivial, trivial, trivial,
    trivial⟩⟩
  · intro c a hc _ _
    cases hc
    rfl
  · intro c a hc hp hlive
    cases hc
    cases hp
    exact absurd hlive (by decide)

/-- A second `createInstance` loses the first object; what was moved from still hands out what
another container owns, and deletes. -/
theorem created_twice :
    (follow step [.construct 0, .createInstance 0 (some (.obj 4)),
      .createInstance 0 (some (.obj 5)), .destroy 0] {}).map (fun s => (s.live, s.handed)) =
        some ([.obj 4], []) ∧
    (follow step [.construct 0, .createInstance 0 (some (.obj 4)), .moveConstruct 1 0, .release 0,
      .destroy 1] {}).map (fun s => (s.live, s.handed)) = some ([], [.obj 4]) ∧
    ¬ ∀ s, Run Step {} s → Owned s := by
  refine ⟨by decide, by decide, ?_⟩
  intro h
  obtain ⟨s, hs⟩ : ∃ s, follow step [.construct 0, .createInstance 0 (some (.obj 4)),
      .moveConstruct 1 0, .release 0] {} = some s := ⟨_, rfl⟩
  have hone := (h s (run_of_follow hs)).linear.one (.container 1) (.released 0) (.obj 4)
  cases hs
  exact absurd (hone rfl rfl) nofun

end Containers
end Omulator.Di
