import Omulator.Di.TypeMap
import Omulator.Lib.Transition
import Mathlib.Logic.Function.Basic

/-!
# Concurrent insertions into a TypeMap (`include/omulator/di/TypeMap.hpp`)

Each of the four insertions asks `has_key` first and inserts later, and takes the mutex once
for either. The calls are for one type; each of them goes through these two steps.
-/

namespace Omulator.Insertions
open Omulator.Lib Omulator.Di

/-- A call, with the object it is about: the one the constructor makes, `none` if it throws,
or the one passed in. -/
inductive Insertion where
  | emplace (made : Option Addr)
  | emplace_impl (impl : Option Addr)
  | emplace_ptr (pT : Option Addr)
  | emplace_external_ptr (pT : Option Addr)
  deriving DecidableEq

namespace Insertion

/-- The instance the call wants to have in the map. -/
def instance? : Insertion → Option Addr
  | emplace p | emplace_impl p | emplace_ptr p | emplace_external_ptr p => p

def throws : Insertion → Bool
  | emplace none => true
  | _ => false

/-- What is done under the mutex, after `has_key` returned false. -/
def block (T : Hash_t) (m : TypeMap) : Insertion → TypeMap × List Addr
  | emplace none => (m.emplaceNode T {}, [])
  | emplace (some a) => (m.emplaceNode T {}).updateAt T fun c => (c.createInstance a, [])
  | emplace_impl impl => (m.emplaceNode T {}).updateAt T fun c => c.setref impl
  | emplace_ptr pT =>
    let ctr := (({} : TypeContainer).reset pT).1
    (m.emplaceNode T ctr, if m.has_key T then ctr.release_ else [])
  | emplace_external_ptr pT => (m.emplaceNode T (({} : TypeContainer).setref pT).1, [])

/-- What is deleted when `has_key` returned true: `emplace_ptr` has taken ownership by then. -/
def refused : Insertion → List Addr
  | emplace_ptr pT => pT.toList
  | _ => []

/-- The call when nobody is between the two steps. -/
def atOnce (T : Hash_t) (m : TypeMap) : Insertion → TypeMap × List Addr
  | emplace made => m.emplace T made
  | emplace_impl impl => m.emplace_impl T impl
  | emplace_ptr pT => m.emplace_ptr T pT
  | emplace_external_ptr pT => (m.emplace_external_ptr T pT, [])

theorem atOnce_eq (T : Hash_t) (m : TypeMap) (c : Insertion) :
    c.atOnce T m = if m.has_key T then (m, c.refused) else c.block T m := by
  cases h : m.has_key T with
  | true =>
    cases c with
    | emplace made => exact TypeMap.emplace_of_has h made
    | emplace_impl impl => exact TypeMap.emplace_impl_of_has h impl
    | emplace_ptr pT => exact TypeMap.emplace_ptr_of_has h pT
    | emplace_external_ptr pT => simp [atOnce, TypeMap.emplace_external_ptr, h, refused]
  | false =>
    cases c with
    | emplace made => cases made <;> simp [atOnce, block, TypeMap.emplace, h]
    | emplace_impl impl => simp [atOnce, block, TypeMap.emplace_impl, h]
    | emplace_ptr pT => simp [atOnce, block, TypeMap.emplace_ptr, h]
    | emplace_external_ptr pT => simp [atOnce, block, TypeMap.emplace_external_ptr, h]

theorem block_new {T : Hash_t} {m : TypeMap} {c : Insertion} (h : m.has_key T = false) :
    ∃ e, (c.block T m).1.lookup T = some e ∧ e.ptr_ = c.instance? := by
  cases c with
  | emplace made =>
    cases made with
    | none => exact ⟨{}, by simp [block, TypeMap.emplaceNode, h], rfl⟩
    | some a =>
      exact ⟨⟨some a, true⟩, by
        simp [block, TypeMap.emplaceNode, h, TypeMap.updateAt, TypeContainer.createInstance], rfl⟩
  | emplace_impl impl =>
    exact ⟨⟨impl, false⟩, by
      simp [block, TypeMap.emplaceNode, h, TypeMap.updateAt, TypeContainer.setref], rfl⟩
  | emplace_ptr pT => exact ⟨⟨pT, true⟩, by simp [block, TypeMap.emplaceNode, h], rfl⟩
  | emplace_external_ptr pT =>
    exact ⟨⟨pT, false⟩, by simp [block, TypeMap.emplaceNode, h, TypeContainer.setref], rfl⟩

end Insertion

inductive Place where
  | begin
  /-- `has_key` returned false; the mutex is still to be taken -/
  | checked
  | returned (found : Bool)
  | threw
  deriving DecidableEq

variable {ι : Type}

/-- The calls are numbered by `ι`. -/
structure Sys (ι : Type) where
  map_ : TypeMap := ∅
  place : ι → Place := fun _ => .begin
  deleted : List Addr := []

inductive Label (ι : Type) where
  | check (i : ι)
  | insert (i : ι)

/-- The object that `ref<T>()` designates stays the same. -/
def Keeps (T : Hash_t) (s t : Sys ι) : Prop :=
  ∀ e, s.map_.lookup T = some e → ∃ e', t.map_.lookup T = some e' ∧ e'.ptr_ = e.ptr_

theorem Keeps.trans {T : Hash_t} {s t u : Sys ι} (h : Keeps T s t) (h' : Keeps T t u) :
    Keeps T s u := by
  intro e he
  obtain ⟨e', he', hp⟩ := h e he
  obtain ⟨e'', he'', hp'⟩ := h' e' he'
  exact ⟨e'', he'', hp'.trans hp⟩

variable [DecidableEq ι] (T : Hash_t) (call : ι → Insertion)

namespace Sys

def goto (s : Sys ι) (i : ι) (p : Place) : Sys ι :=
  { s with place := Function.update s.place i p }

def step (l : Label ι) (s : Sys ι) : Option (Sys ι) :=
  match l with
  | .check i =>
    match s.place i with
    | .begin =>
      if s.map_.has_key T then
        some ({ s with deleted := s.deleted ++ (call i).refused }.goto i (.returned true))
      else some (s.goto i .checked)
    | _ => none
  | .insert i =>
    match s.place i with
    | .checked =>
      let r := (call i).block T s.map_
      some ({ s with map_ := r.1, deleted := s.deleted ++ r.2 }.goto i
        (if (call i).throws then .threw else .returned false))
    | _ => none

def Step (s : Sys ι) (l : Label ι) (t : Sys ι) : Prop := s.step T call l = some t

end Sys

/-- No call has returned while the type is absent. Once it is there, one call has returned
false, and `ref<T>()` is the instance of that call; the others return true. -/
def Linear (s : Sys ι) : Prop :=
  (∀ i, s.place i ≠ .threw) ∧
  match s.map_.lookup T with
  | none => ∀ i b, s.place i ≠ .returned b
  | some e => ∃ i, e.ptr_ = (call i).instance? ∧ ∀ j, s.place j = .returned false ↔ j = i

/-- A call enters the second step while the type is absent, and its constructor returns. -/
def Lone (s : Sys ι) : Label ι → Prop
  | .check _ => True
  | .insert i => s.map_.has_key T = false ∧ (call i).throws = false

section
variable {T call} {s t : Sys ι} {i : ι} {l : Label ι}

theorem check_cases (h : Sys.Step T call s (.check i) t) : s.place i = .begin ∧
    t.map_ = s.map_ ∧ ((∃ e, s.map_.lookup T = some e ∧
        t.place = Function.update s.place i (.returned true)) ∨
      s.map_.lookup T = none ∧ t.place = Function.update s.place i .checked) := by
  simp only [Sys.Step, Sys.step] at h
  cases hp : s.place i with
  | begin =>
    rw [hp] at h
    cases hk : s.map_.has_key T with
    | true =>
      obtain ⟨e, he⟩ := (TypeMap.has_key_iff _ _).mp hk
      simp only [hk, if_true] at h
      cases h
      exact ⟨rfl, rfl, Or.inl ⟨e, he, rfl⟩⟩
    | false =>
      simp only [hk] at h
      cases h
      exact ⟨rfl, rfl, Or.inr ⟨(TypeMap.not_has_key_iff _ _).mp hk, rfl⟩⟩
  | checked | returned _ | threw =>
    rw [hp] at h
    cases h

theorem insert_cases (h : Sys.Step T call s (.insert i) t) : s.place i = .checked ∧
    t.map_ = ((call i).block T s.map_).1 ∧
    t.place = Function.update s.place i (if (call i).throws then .threw else .returned false) := by
  simp only [Sys.Step, Sys.step] at h
  cases hp : s.place i with
  | checked =>
    rw [hp] at h
    cases h
    exact ⟨rfl, rfl, rfl⟩
  | begin | returned _ | threw =>
    rw [hp] at h
    cases h

theorem Linear.check (hL : Linear T call s) (h : Sys.Step T call s (.check i) t) :
    Linear T call t := by
  obtain ⟨hp, hm, ⟨e, he, hpl⟩ | ⟨he, hpl⟩⟩ := check_cases h
  · have hs := hL.2
    rw [he] at hs
    obtain ⟨k, hk, hu⟩ := hs
    refine ⟨?_, ?_⟩
    · intro j
      rw [hpl]
      by_cases hj : j = i
      · simp [hj]
      · rw [Function.update_of_ne hj]
        exact hL.1 j
    · rw [hm, he]
      refine ⟨k, hk, fun j => ?_⟩
      rw [hpl]
      by_cases hj : j = i
      · subst hj
        have hne : j ≠ k := by
          intro hjk
          rw [(hu j).mpr hjk] at hp
          cases hp
        simp [hne]
      · rw [Function.update_of_ne hj]
        exact hu j
  · have hs := hL.2
    rw [he] at hs
    refine ⟨?_, ?_⟩
    · intro j
      rw [hpl]
      by_cases hj : j = i
      · simp [hj]
      · rw [Function.update_of_ne hj]
        exact hL.1 j
    · rw [hm, he]
      intro j b
      rw [hpl]
      by_cases hj : j = i
      · simp [hj]
      · rw [Function.update_of_ne hj]
        exact hs j b

theorem Linear.insert (hL : Linear T call s) (h : Sys.Step T call s (.insert i) t)
    (hok : Lone T call s (.insert i)) : Linear T call t := by
  obtain ⟨hp, hm, hpl⟩ := insert_cases h
  obtain ⟨e, he, hptr⟩ := Insertion.block_new (c := call i) hok.1
  have hs := hL.2
  rw [(TypeMap.not_has_key_iff _ _).mp hok.1] at hs
  have hi : t.place = Function.update s.place i (.returned false) := by
    rw [hpl, hok.2]
    rfl
  refine ⟨?_, ?_⟩
  · intro j
    rw [hi]
    by_cases hj : j = i
    · simp [hj]
    · rw [Function.update_of_ne hj]
      exact hL.1 j
  · rw [hm, he]
    refine ⟨i, hptr, fun j => ?_⟩
    rw [hi]
    by_cases hj : j = i
    · simp [hj]
    · rw [Function.update_of_ne hj]
      exact ⟨fun hr => absurd hr (hs j false), fun hr => absurd hr hj⟩

theorem Linear.lone (hL : Linear T call s) (h : Sys.Step T call s (.insert i) t)
    (ht : Linear T call t) : Lone T call s (.insert i) := by
  obtain ⟨hp, hm, hpl⟩ := insert_cases h
  have hi : t.place i = if (call i).throws then .threw else .returned false := by
    rw [hpl, Function.update_self]
  have hthrow : (call i).throws = false := by
    cases hc : (call i).throws with
    | false => rfl
    | true =>
      rw [hc] at hi
      exact absurd hi (ht.1 i)
  refine ⟨?_, hthrow⟩
  rw [hthrow] at hi
  cases hk : s.map_.has_key T with
  | false => rfl
  | true =>
    obtain ⟨e, he⟩ := (TypeMap.has_key_iff _ _).mp hk
    have hs := hL.2
    rw [he] at hs
    obtain ⟨k, -, hu⟩ := hs
    have hki : k ≠ i := by
      intro hki
      rw [← hki, (hu k).mpr rfl] at hp
      cases hp
    have hk' : t.place k = .returned false := by
      rw [hpl, Function.update_of_ne hki]
      exact (hu k).mpr rfl
    have hs' := ht.2
    cases hl : t.map_.lookup T with
    | none =>
      rw [hl] at hs'
      exact absurd hi (hs' i false)
    | some e' =>
      rw [hl] at hs'
      obtain ⟨k', -, hu'⟩ := hs'
      exact absurd (((hu' k).mp hk').trans ((hu' i).mp hi).symm) hki

theorem lone_iff_linear (hL : Linear T call s) (h : Sys.Step T call s l t) :
    Lone T call s l ↔ Linear T call t := by
  cases l with
  | check i => exact ⟨fun _ => hL.check h, fun _ => trivial⟩
  | insert i => exact ⟨hL.insert h, hL.lone h⟩

theorem keeps_of_lone (h : Sys.Step T call s l t) (hok : Lone T call s l) : Keeps T s t := by
  intro e he
  cases l with
  | check i =>
    obtain ⟨-, hm, -⟩ := check_cases h
    rw [hm]
    exact ⟨e, he, rfl⟩
  | insert i =>
    rw [(TypeMap.not_has_key_iff _ _).mp hok.1] at he
    cases he

theorem keeps_all {tr : List (Label ι × Sys ι)} (htr : IsTrace (Sys.Step T call) s tr)
    (hok : StepsMeet (Lone T call) s tr) : ∀ x ∈ tr, Keeps T s x.2 := by
  induction tr generalizing s with
  | nil => simp
  | cons y tr ih =>
    have hy := keeps_of_lone htr.1 hok.1
    intro x hx
    rcases List.mem_cons.mp hx with rfl | hx
    · exact hy
    · exact hy.trans (ih htr.2 hok.2 x hx)

theorem keeps_pairwise {tr : List (Label ι × Sys ι)} (htr : IsTrace (Sys.Step T call) s tr)
    (hok : StepsMeet (Lone T call) s tr) : tr.Pairwise fun x y => Keeps T x.2 y.2 := by
  induction tr generalizing s with
  | nil => exact List.Pairwise.nil
  | cons y tr ih => exact List.Pairwise.cons (keeps_all htr.2 hok.2) (ih htr.2 hok.2)

end

/-- In every interleaving one call returns false, the others return true and `ref<T>()` stays
what the first insertion made it, exactly when every insertion finds the type absent, and no
constructor throws. -/
theorem insertions_linear_iff (m : TypeMap) (hm : m.lookup T = none)
    (tr : List (Label ι × Sys ι)) (htr : IsTrace (Sys.Step T call) { map_ := m } tr) :
    StepsMeet (Lone T call) { map_ := m } tr ↔
      StatesMeet (Linear T call) tr ∧ tr.Pairwise fun x y => Keeps T x.2 y.2 := by
  have hi : Linear T call ({ map_ := m } : Sys ι) := by
    refine ⟨by simp, ?_⟩
    rw [hm]
    simp
  have hiff := steps_iff_states (Linear T call) (fun _ _ _ hL h => lone_iff_linear hL h)
    (fun _ _ _ hL h hok => (lone_iff_linear hL h).mp hok) _ tr hi htr
  exact ⟨fun hok => ⟨hiff.mp hok, keeps_pairwise htr hok⟩, fun h => hiff.mpr h.1⟩

/-- An `emplace`, and an `emplace_ptr` that comes after it. -/
theorem one_after_the_other : ∃ tr,
    record (Sys.step 7 fun i : Bool => if i then .emplace_ptr (some (.obj 2)) else
      .emplace (some (.obj 1))) [.check false, .insert false, .check true] {} = some tr ∧
    StatesMeet (Linear 7 fun i : Bool => if i then .emplace_ptr (some (.obj 2)) else
      .emplace (some (.obj 1))) tr := by
  obtain ⟨tr, htr⟩ : ∃ tr, record (Sys.step 7 fun i : Bool =>
      if i then .emplace_ptr (some (.obj 2)) else .emplace (some (.obj 1)))
      [.check false, .insert false, .check true] {} = some tr := ⟨_, rfl⟩
  have hiff := insertions_linear_iff 7 _ ∅ rfl tr (isTrace_of_record htr)
  cases htr
  exact ⟨_, rfl, (hiff.mp ⟨trivial, ⟨rfl, rfl⟩, trivial, trivial⟩).1⟩

/-- Two calls of `emplace` have both found the type absent: both return false, and the second
instance replaces the first. -/
theorem both_return_false :
    (follow (Sys.step 7 fun i : Bool => .emplace (some (.obj (if i then 2 else 1))))
      [.check false, .check true, .insert false, .insert true] {}).map
        (fun s => (s.place false, s.place true, (s.map_.lookup 7).map TypeContainer.ptr_)) =
      some (.returned false, .returned false, some (some (.obj 2))) ∧
    ¬ ∀ s, Run (Sys.Step 7 fun i : Bool => .emplace (some (.obj (if i then 2 else 1)))) {} s →
      Linear 7 (fun i : Bool => .emplace (some (.obj (if i then 2 else 1)))) s := by
  refine ⟨rfl, ?_⟩
  intro h
  obtain ⟨s, hs⟩ : ∃ s, follow (Sys.step 7 fun i : Bool =>
      .emplace (some (.obj (if i then 2 else 1))))
      [.check false, .check true, .insert false, .insert true] {} = some s := ⟨_, rfl⟩
  have hl := (h s (run_of_follow hs)).2
  cases hs
  obtain ⟨i, -, hi⟩ := hl
  have h1 : false = i := (hi false).mp rfl
  have h2 : true = i := (hi true).mp rfl
  cases h1.trans h2.symm

end Omulator.Insertions
