import Omulator.Di.TypeMap
import Omulator.Lib.Interleaving
import Omulator.Lib.Transition
import Mathlib.Data.Finset.Basic
import Mathlib.Logic.Function.Basic

/-!
# Injection by several threads (`include/omulator/di/Injector.hpp`)

Threads that call `get` on one root Injector. A step is one read or write of `isInCycleCheck_`,
one operation on `typeHashStack_` or `invocationList_`, one acquisition or release of
`injectionMtx_`, or one TypeMap call.
-/

namespace Omulator.Injection
open Omulator.Lib Omulator.Di

/-- What a recipe does: `get` one dependency after the other, then `return new T`. -/
inductive Body where
  | new
  | get (U : Hash_t) (k : Option Addr → Body)

inductive Recipe where
  | fn (body : Body)
  /-- the recipe of `bindImpl<Interface, impl>` -/
  | bind (impl : Hash_t)

inductive Body.Asks : Body → Hash_t → Prop
  | here (U : Hash_t) (k : Option Addr → Body) : (Body.get U k).Asks U
  | there {U V : Hash_t} {k : Option Addr → Body} (p : Option Addr) (h : (k p).Asks V) :
      (Body.get U k).Asks V

/-- The recipe for `T` may ask for `U`. -/
def DependsOn (recipeMap_ : Hash_t → Option Recipe) (T U : Hash_t) : Prop :=
  match recipeMap_ T with
  | none => False
  | some (.fn body) => body.Asks U
  | some (.bind impl) => U = impl

/-- Recipes whose dependencies form no cycle. -/
structure Recipes where
  recipeMap_ : Hash_t → Option Recipe
  is_abstract : Hash_t → Bool
  default_initializable : Hash_t → Bool
  acyclic : WellFounded fun U T => DependsOn recipeMap_ T U

/-- `inject_` has a way to make `T`: it is bound, or it is not abstract and there is a recipe for it
or a default constructor. -/
def Recipes.makes (R : Recipes) (T : Hash_t) : Bool :=
  match R.recipeMap_ T with
  | some (.bind _) => true
  | some (.fn _) => !R.is_abstract T
  | none => !R.is_abstract T && R.default_initializable T

inductive Exn where
  | cycle (T : Hash_t)
  | noImpl (T : Hash_t)
  | noRecipe (T : Hash_t)
  /-- thrown by `map_.at` -/
  | outOfRange
  deriving DecidableEq

/-- The next step of a `get<T>()`. Inside an injection, `top` is whether it has the mutex. -/
inductive Pc where
  /-- `get`: `has_instance<T>()` -/
  | has_instance
  /-- `makeDependency_`: `if(isInCycleCheck_)` -/
  | readFlag
  | contains
  | lock
  | setFlag
  | insert (top : Bool)
  /-- `inject_`: `find_recipe_`, and the recipe begins -/
  | find (top : Bool)
  | body (top : Bool) (b : Body)
  | bound (top : Bool) (impl : Hash_t)
  | emplace_impl (top : Bool) (p : Option Addr)
  | emplace_ptr (top : Bool) (p : Option Addr)
  | emplace (top : Bool)
  | clearFlag
  | unlock
  | erase
  | push_back
  /-- `get`: `typeMap_.ref<T>()` -/
  | ref

structure Frame where
  type : Hash_t
  pc : Pc

/-- A thread with its calls of `get`: those to come, the one it is in, innermost `get` first, and
what the others gave. -/
structure Thread where
  calls : List Hash_t
  frames : List Frame := []
  returned : List (Option Addr) := []
  thrown : List Exn := []

structure Shared (n : ℕ) where
  typeMap_ : TypeMap
  invocationList_ : List Hash_t := []
  typeHashStack_ : Finset Hash_t := ∅
  injectionMtx_ : Option (Fin n) := none
  isInCycleCheck_ : Bool := false
  /-- the next object to be allocated -/
  fresh : ℕ := 0
  /-- the types whose recipe has been run, once for each time -/
  ran : List Hash_t := []

structure Sys (n : ℕ) where
  shared : Shared n
  threads : Fin n → Thread

def Sys.init {n : ℕ} (calls : Fin n → List Hash_t) (typeMap_ : TypeMap) : Sys n :=
  ⟨{ typeMap_ }, fun t => { calls := calls t }⟩

inductive Result (n : ℕ) where
  | goto (pc : Pc) (sh : Shared n)
  | throw (e : Exn)
  | wait

section
variable {n : ℕ} (R : Recipes)

def Pc.leave (top : Bool) : Pc := if top then .clearFlag else .erase

/-- One step of `get<T>()` in the thread `t`. -/
def advance (t : Fin n) (T : Hash_t) (sh : Shared n) : Pc → Result n
  | .has_instance => .goto (if sh.typeMap_.has_key T then .ref else .readFlag) sh
  | .readFlag => .goto (if sh.isInCycleCheck_ then .contains else .lock) sh
  | .contains => if T ∈ sh.typeHashStack_ then .throw (.cycle T) else .goto (.insert false) sh
  | .lock =>
    match sh.injectionMtx_ with
    | none => .goto .setFlag { sh with injectionMtx_ := some t }
    | some _ => .wait
  | .setFlag => .goto (.insert true) { sh with isInCycleCheck_ := true }
  | .insert top => .goto (.find top) { sh with typeHashStack_ := insert T sh.typeHashStack_ }
  | .find top =>
    match R.recipeMap_ T with
    | some (.fn body) => .goto (.body top body) { sh with ran := sh.ran ++ [T] }
    | some (.bind impl) => .goto (.bound top impl) { sh with ran := sh.ran ++ [T] }
    | none =>
      if R.is_abstract T then .throw (.noImpl T)
      else if R.default_initializable T then .goto (.emplace top) sh
      else .throw (.noRecipe T)
  | .body top .new =>
    let sh' := { sh with fresh := sh.fresh + 1 }
    if R.is_abstract T then .goto (.leave top) sh'
    else .goto (.emplace_ptr top (some (.obj sh.fresh))) sh'
  | .emplace_impl top p =>
    .goto (if R.is_abstract T then .leave top else .emplace_ptr top none)
      { sh with typeMap_ := (sh.typeMap_.emplace_impl T p).1 }
  | .emplace_ptr top p => .goto (.leave top) { sh with typeMap_ := (sh.typeMap_.emplace_ptr T p).1 }
  | .emplace top =>
    .goto (.leave top) { sh with
      typeMap_ := (sh.typeMap_.emplace T (some (.obj sh.fresh))).1
      fresh := sh.fresh + 1 }
  | .clearFlag => .goto .unlock { sh with isInCycleCheck_ := false }
  | .unlock => .goto .erase { sh with injectionMtx_ := none }
  | .erase => .goto .push_back { sh with typeHashStack_ := sh.typeHashStack_.erase T }
  | .push_back => .goto .ref { sh with invocationList_ := sh.invocationList_ ++ [T] }
  -- calls and returns are steps of the thread
  | .body _ (.get _ _) | .bound _ _ | .ref => .wait

def Pc.asks : Pc → Option Hash_t
  | .body _ (.get U _) => some U
  | .bound _ impl => some impl
  | _ => none

def Pc.resume (p : Option Addr) : Pc → Pc
  | .body top (.get _ k) => .body top (k p)
  | .bound top _ => .emplace_impl top p
  | pc => pc

namespace Thread

def return_ (th : Thread) (p : Option Addr) : List Frame → Thread
  | [] => { th with frames := [], returned := th.returned ++ [p] }
  | f :: fs => { th with frames := { f with pc := f.pc.resume p } :: fs }

/-- An exception leaves all the frames. -/
def throw_ (th : Thread) (e : Exn) : Thread := { th with frames := [], thrown := th.thrown ++ [e] }

end Thread

/-- `scoped_lock` releases the mutex, and nothing else is undone. -/
def Shared.unwind (t : Fin n) (sh : Shared n) : Shared n :=
  if sh.injectionMtx_ = some t then { sh with injectionMtx_ := none } else sh

def Sys.set (s : Sys n) (t : Fin n) (th : Thread) (sh : Shared n) : Sys n :=
  ⟨sh, Function.update s.threads t th⟩

def Sys.step (t : Fin n) (s : Sys n) : Option (Sys n) :=
  let th := s.threads t
  let sh := s.shared
  match th.frames with
  | [] =>
    match th.calls with
    | [] => none
    | T :: calls => some (s.set t { th with calls, frames := [⟨T, .has_instance⟩] } sh)
  | f :: fs =>
    match f.pc.asks with
    | some U => some (s.set t { th with frames := ⟨U, .has_instance⟩ :: f :: fs } sh)
    | none =>
      match f.pc with
      | .ref =>
        match sh.typeMap_.lookup f.type with
        | none => some (s.set t (th.throw_ .outOfRange) (sh.unwind t))
        | some c => some (s.set t (th.return_ c.ptr_ fs) sh)
      | pc =>
        match advance R t f.type sh pc with
        | .goto pc' sh' => some (s.set t { th with frames := { f with pc := pc' } :: fs } sh')
        | .throw e => some (s.set t (th.throw_ e) (sh.unwind t))
        | .wait => none

end

/-- The thread has made all its calls, and each of them has ended. -/
def Thread.Done (th : Thread) : Prop := th.calls = [] ∧ th.frames = []

def Step {n : ℕ} (R : Recipes) (s : Sys n) (t : Fin n) (s' : Sys n) : Prop :=
  s.step R t = some s'

end Omulator.Injection
