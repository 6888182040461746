import Mathlib.Data.List.AList

/-!
# TypeContainer and TypeMap (`include/omulator/di/TypeMap.hpp`)

Objects are identities: a pointer is `none` for `nullptr`. An operation that
deletes objects returns the list of those it deletes.
-/

namespace Omulator.Di

/-- `util::Hash_t`; a type is represented by its `TypeHash`. -/
abbrev Hash_t := ℕ

inductive Addr where
  | injector (i : ℕ)
  | obj (n : ℕ)
  deriving DecidableEq, Repr

structure TypeContainer where
  ptr_ : Option Addr := none
  hasOwnership_ : Bool := false
  deriving DecidableEq, Repr

namespace TypeContainer

/-- The destructor's `release_`: what the container deletes. -/
def release_ (c : TypeContainer) : List Addr :=
  if c.hasOwnership_ then c.ptr_.toList else []

def setref (c : TypeContainer) (pT : Option Addr) : TypeContainer × List Addr :=
  (⟨pT, false⟩, c.release_)

def reset (c : TypeContainer) (pVal : Option Addr) : TypeContainer × List Addr :=
  let r := c.setref pVal
  ({ r.1 with hasOwnership_ := true }, r.2)

/-- `ptr_` is cleared before `setref(nullptr)`, which therefore deletes nothing. -/
def release (c : TypeContainer) : Option Addr × TypeContainer :=
  (c.ptr_, ({ c with ptr_ := none } : TypeContainer).setref none |>.1)

/-- `createInstance` overwrites `ptr_` without releasing what was there. -/
def createInstance (_ : TypeContainer) (a : Addr) : TypeContainer := ⟨some a, true⟩

def has_value (c : TypeContainer) : Bool := c.ptr_.isSome

@[simp] theorem reset_new (p : Option Addr) : ({} : TypeContainer).reset p = (⟨p, true⟩, []) := rfl

@[simp] theorem release_fst (c : TypeContainer) : c.release.1 = c.ptr_ := rfl

end TypeContainer

/-- `map_`, with one container for each hash in it. -/
abbrev TypeMap := AList fun _ : Hash_t => TypeContainer

namespace TypeMap

def has_key (m : TypeMap) (T : Hash_t) : Bool := (m.lookup T).isSome

/-- `std::unordered_map::emplace`: an entry that is there stays. -/
def emplaceNode (m : TypeMap) (T : Hash_t) (c : TypeContainer) : TypeMap :=
  if m.has_key T then m else m.insert T c

/-- `map_.at(T)`, changed in place by `f`. -/
def updateAt (m : TypeMap) (T : Hash_t) (f : TypeContainer → TypeContainer × List Addr) :
    TypeMap × List Addr :=
  match m.lookup T with
  | none => (m, [])
  | some c => (m.insert T (f c).1, (f c).2)

/-- `emplace<T>()`; `made` is the object the constructor makes, `none` when it throws:
the empty container stays in the map then. -/
def emplace (m : TypeMap) (T : Hash_t) (made : Option Addr) : TypeMap × List Addr :=
  if m.has_key T then (m, [])
  else
    let m' := m.emplaceNode T {}
    match made with
    | none => (m', [])
    | some a => m'.updateAt T fun c => (c.createInstance a, [])

def emplace_impl (m : TypeMap) (Interface : Hash_t) (impl : Option Addr) : TypeMap × List Addr :=
  if m.has_key Interface then (m, [])
  else (m.emplaceNode Interface {}).updateAt Interface fun c => c.setref impl

/-- The container is built first, so `pT` is deleted when the key is there already. -/
def emplace_ptr (m : TypeMap) (T : Hash_t) (pT : Option Addr) : TypeMap × List Addr :=
  let ctr := (({} : TypeContainer).reset pT).1
  if m.has_key T then (m, ctr.release_) else (m.emplaceNode T ctr, [])

def emplace_external_ptr (m : TypeMap) (T : Hash_t) (pT : Option Addr) : TypeMap :=
  if m.has_key T then m else m.emplaceNode T (({} : TypeContainer).setref pT).1

/-- `map_.erase(hsh)`: destroying the container deletes the object it owns. -/
def eraseKey (m : TypeMap) (T : Hash_t) : TypeMap × List Addr :=
  match m.lookup T with
  | none => (m, [])
  | some c => (m.erase T, c.release_)

/-! ### What each operation does -/

theorem has_key_iff (m : TypeMap) (T : Hash_t) : m.has_key T = true ↔ ∃ c, m.lookup T = some c :=
  Option.isSome_iff_exists

theorem not_has_key_iff (m : TypeMap) (T : Hash_t) : m.has_key T = false ↔ m.lookup T = none := by
  simp [has_key]

theorem emplace_of_has {m : TypeMap} {T : Hash_t} (h : m.has_key T = true) (made : Option Addr) :
    m.emplace T made = (m, []) := by simp [emplace, h]

theorem emplace_of_not_has {m : TypeMap} {T : Hash_t} (h : m.has_key T = false)
    (made : Option Addr) : m.emplace T made = (m.insert T ⟨made, made.isSome⟩, []) := by
  cases made with
  | none => simp [emplace, emplaceNode, h]
  | some a =>
    simp [emplace, emplaceNode, h, updateAt, TypeContainer.createInstance, AList.insert_insert]

theorem emplace_impl_of_has {m : TypeMap} {T : Hash_t} (h : m.has_key T = true)
    (impl : Option Addr) : m.emplace_impl T impl = (m, []) := by simp [emplace_impl, h]

theorem emplace_impl_of_not_has {m : TypeMap} {T : Hash_t} (h : m.has_key T = false)
    (impl : Option Addr) : m.emplace_impl T impl = (m.insert T ⟨impl, false⟩, []) := by
  simp [emplace_impl, emplaceNode, h, updateAt, TypeContainer.setref, TypeContainer.release_,
    AList.insert_insert]

theorem emplace_ptr_of_has {m : TypeMap} {T : Hash_t} (h : m.has_key T = true)
    (pT : Option Addr) : m.emplace_ptr T pT = (m, pT.toList) := by
  simp [emplace_ptr, h, TypeContainer.release_]

theorem emplace_ptr_of_not_has {m : TypeMap} {T : Hash_t} (h : m.has_key T = false)
    (pT : Option Addr) : m.emplace_ptr T pT = (m.insert T ⟨pT, true⟩, []) := by
  simp [emplace_ptr, emplaceNode, h]

theorem emplace_lookup (m : TypeMap) (T : Hash_t) (made : Option Addr) :
    (m.emplace T made).1.lookup T = some ((m.lookup T).getD ⟨made, made.isSome⟩) := by
  cases h : m.lookup T with
  | none =>
    have hk : m.has_key T = false := (not_has_key_iff m T).mpr h
    rw [emplace_of_not_has hk, AList.lookup_insert, Option.getD_none]
  | some c =>
    have hk : m.has_key T = true := (has_key_iff m T).mpr ⟨c, h⟩
    rw [emplace_of_has hk, h, Option.getD_some]

theorem emplace_impl_lookup (m : TypeMap) (T : Hash_t) (impl : Option Addr) :
    (m.emplace_impl T impl).1.lookup T = some ((m.lookup T).getD ⟨impl, false⟩) := by
  cases h : m.lookup T with
  | none =>
    have hk : m.has_key T = false := (not_has_key_iff m T).mpr h
    rw [emplace_impl_of_not_has hk, AList.lookup_insert, Option.getD_none]
  | some c =>
    have hk : m.has_key T = true := (has_key_iff m T).mpr ⟨c, h⟩
    rw [emplace_impl_of_has hk, h, Option.getD_some]

theorem emplace_ptr_lookup (m : TypeMap) (T : Hash_t) (pT : Option Addr) :
    (m.emplace_ptr T pT).1.lookup T = some ((m.lookup T).getD ⟨pT, true⟩) := by
  cases h : m.lookup T with
  | none =>
    have hk : m.has_key T = false := (not_has_key_iff m T).mpr h
    rw [emplace_ptr_of_not_has hk, AList.lookup_insert, Option.getD_none]
  | some c =>
    have hk : m.has_key T = true := (has_key_iff m T).mpr ⟨c, h⟩
    rw [emplace_ptr_of_has hk, h, Option.getD_some]

theorem eraseKey_map (m : TypeMap) (T : Hash_t) : (m.eraseKey T).1 = m.erase T := by
  unfold eraseKey
  cases h : m.lookup T with
  | none =>
    have hk : T ∉ m := AList.lookup_eq_none.mp h
    have he : (m.erase T).entries = m.entries := List.kerase_of_notMem_keys hk
    exact (AList.ext he).symm
  | some c => rfl

/-! ### Adding one entry -/

/-- `m'` is `m`, with an entry for `T` added if it had none. -/
def Adds (T : Hash_t) (m m' : TypeMap) : Prop :=
  (∀ U, U ≠ T → m'.lookup U = m.lookup U) ∧ ((m.lookup T).isSome → m' = m)

variable {T U : Hash_t} {m m' : TypeMap}

theorem Adds.refl (T : Hash_t) (m : TypeMap) : m.Adds T m := ⟨fun _ _ => rfl, fun _ => rfl⟩

theorem Adds.lookup_of_some (h : m.Adds T m') {c : TypeContainer} (hc : m.lookup U = some c) :
    m'.lookup U = some c := by
  by_cases hU : U = T
  · subst hU
    rw [h.2 (by simp [hc]), hc]
  · rw [h.1 U hU, hc]

theorem adds_insert (m : TypeMap) (T : Hash_t) (c : TypeContainer) (h : m.lookup T = none) :
    m.Adds T (m.insert T c) :=
  ⟨fun _ hU => AList.lookup_insert_ne hU, fun hs => by simp [h] at hs⟩

theorem adds_emplace (m : TypeMap) (T : Hash_t) (made : Option Addr) :
    m.Adds T (m.emplace T made).1 := by
  cases h : m.has_key T with
  | true => rw [emplace_of_has h]; exact .refl T m
  | false =>
    rw [emplace_of_not_has h]
    exact adds_insert m T _ ((not_has_key_iff m T).mp h)

theorem adds_emplace_impl (m : TypeMap) (T : Hash_t) (impl : Option Addr) :
    m.Adds T (m.emplace_impl T impl).1 := by
  cases h : m.has_key T with
  | true => rw [emplace_impl_of_has h]; exact .refl T m
  | false =>
    rw [emplace_impl_of_not_has h]
    exact adds_insert m T _ ((not_has_key_iff m T).mp h)

theorem adds_emplace_ptr (m : TypeMap) (T : Hash_t) (pT : Option Addr) :
    m.Adds T (m.emplace_ptr T pT).1 := by
  cases h : m.has_key T with
  | true => rw [emplace_ptr_of_has h]; exact .refl T m
  | false =>
    rw [emplace_ptr_of_not_has h]
    exact adds_insert m T _ ((not_has_key_iff m T).mp h)

end TypeMap
end Omulator.Di
