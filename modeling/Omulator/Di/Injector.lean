import Omulator.Di.TypeMap
import Omulator.Lib.Comp
import Mathlib.Data.Finset.Card
import Mathlib.Logic.Function.Basic

/-!
# Injector (`include/omulator/di/Injector.hpp`, `src/di/Injector.cpp`)

The injectors of one program, each with its recipes, its instances and the
bookkeeping of the cycle check, and `get` and `creat` on any of them. A recipe
is user code; what it may do is ask its injector for instances, with whatever
each request gives deciding how it goes on, and then return a pointer or throw.
-/

namespace Omulator.Di
open Omulator.Lib

def injectorHash : Hash_t := 0

inductive Exn where
  | cycle (T : Hash_t)
  | noImpl (T : Hash_t)
  | noRecipe (T : Hash_t)
  | creatFailed (T : Hash_t)
  /-- thrown by `map_.at` -/
  | outOfRange
  /-- thrown by a recipe or a constructor -/
  | user (n : ℕ)
  deriving DecidableEq, Repr

/-- What a request gives back: an exception, or a pointer (`none` where the code
makes a reference out of a null pointer). -/
abbrev Outcome := Except Exn (Option Addr)

/-- The body of a recipe, as far as its injector can see it. -/
inductive Prog where
  /-- `return new T(...)` -/
  | new
  /-- `return p` -/
  | ret (p : Option Addr)
  | throw (e : Exn)
  | get (U : Hash_t) (k : Outcome → Prog)
  | creat (U : Hash_t) (k : Outcome → Prog)

/-- What `recipeMap_` holds for a type. A recipe may keep state of its own, so its
body depends on the moment it is invoked at. -/
inductive Recipe where
  /-- a recipe for `T` whose return type is `T *`: `containerize` makes the container for the
  return type, and `inject_` reinterprets it as one for `T` -/
  | fn (body : ℕ → Prog)
  /-- the recipe of `bindImpl<Interface, impl>` -/
  | bind (impl : Hash_t)
  /-- the recipe for `Injector` that every injector is constructed with -/
  | child

/-- A constructor argument of `addCtorRecipe`: `TDep &` and `TDep *` are asked for
with `get`, `TDep` with `creat`. -/
inductive Dep where
  | ref (T : Hash_t)
  | value (T : Hash_t)
  deriving DecidableEq

/-- The recipe `addCtorRecipe<T, Ts...>` adds. C++ leaves the order of the arguments open: the
list has them in the one the compiler evaluates them in. -/
def ctorRecipe : List Dep → Prog
  | [] => .new
  | .ref T :: Ts => .get T fun
    | .error e => .throw e
    | .ok _ => ctorRecipe Ts
  | .value T :: Ts => .creat T fun
    | .error e => .throw e
    | .ok _ => ctorRecipe Ts

structure Types where
  is_abstract : Hash_t → Bool
  default_initializable : Hash_t → Bool
  /-- what the default constructor throws at a given moment, if it throws -/
  ctor : Hash_t → ℕ → Option ℕ
  injector_concrete : is_abstract injectorHash = false

inductive Kind where
  | get
  | creat
  deriving DecidableEq, Repr

inductive Event where
  /-- `get<T>()` or `creat<T>()` is called on `i` -/
  | asked (kind : Kind) (i : ℕ) (T : Hash_t)
  /-- `asked` runs a recipe for `T`, which receives `given` as its `Injector &` -/
  | recipe (T : Hash_t) (asked given : ℕ)
  /-- the recipe that began at the moment `start` returns `p` -/
  | recipeEnd (start : ℕ) (p : Option Addr)
  /-- `T` was default-initialized -/
  | built (T : Hash_t) (a : Addr)
  /-- `get<T>()` on `i` returns `p` -/
  | got (i : ℕ) (T : Hash_t) (p : Option Addr)
  /-- the type map of `i` takes ownership of `a` -/
  | managed (i : ℕ) (T : Hash_t) (a : Addr)
  | destroyed (a : Addr)
  /-- "Overriding an existing recipe for T" -/
  | overriding (T : Hash_t)
  deriving DecidableEq, Repr

structure Injector where
  recipeMap_ : AList fun _ : Hash_t => Recipe
  typeMap_ : TypeMap
  invocationList_ : List Hash_t
  typeHashStack_ : Finset Hash_t
  isInCycleCheck_ : Bool
  pUpstream_ : Option ℕ

/-- `Injector()` and `Injector(Injector *)`, constructing the injector `self`. -/
def Injector.construct (self : ℕ) (pUpstream : Option ℕ) : Injector where
  recipeMap_ := (∅ : AList fun _ : Hash_t => Recipe).insert injectorHash .child
  typeMap_ := TypeMap.emplace_external_ptr ∅ injectorHash (some (.injector self))
  invocationList_ := []
  typeHashStack_ := ∅
  isInCycleCheck_ := false
  pUpstream_ := pUpstream

theorem Injector.construct_recipe {self : ℕ} {pUpstream : Option ℕ} {T : Hash_t} {r : Recipe}
    (h : (Injector.construct self pUpstream).recipeMap_.lookup T = some r) :
    T = injectorHash ∧ r = .child := by
  by_cases hT : T = injectorHash
  · subst hT
    cases h
    exact ⟨rfl, rfl⟩
  · have hl : (Injector.construct self pUpstream).recipeMap_.lookup T = none :=
      AList.lookup_insert_ne hT
    rw [hl] at h
    cases h

theorem Injector.construct_entry {self : ℕ} {pUpstream : Option ℕ} {T : Hash_t}
    {c : TypeContainer}
    (h : (Injector.construct self pUpstream).typeMap_.lookup T = some c) :
    T = injectorHash ∧ c = ⟨some (.injector self), false⟩ := by
  by_cases hT : T = injectorHash
  · subst hT
    cases h
    exact ⟨rfl, rfl⟩
  · have hl : (Injector.construct self pUpstream).typeMap_.lookup T = none :=
      AList.lookup_insert_ne hT
    rw [hl] at h
    cases h

structure World where
  inj : ℕ → Injector
  /-- injectors constructed so far -/
  count : ℕ
  /-- the next object to be allocated -/
  fresh : ℕ
  trace : List Event

namespace World

def root : World := ⟨fun _ => Injector.construct 0 none, 1, 0, []⟩

def emit (e : Event) (w : World) : World := { w with trace := w.trace ++ [e] }

def destroyAll (as : List Addr) (w : World) : World :=
  { w with trace := w.trace ++ as.map .destroyed }

def alloc (w : World) : World := { w with fresh := w.fresh + 1 }

def upd (i : ℕ) (f : Injector → Injector) (w : World) : World :=
  { w with inj := Function.update w.inj i (f (w.inj i)) }

/-- `new Injector(pUpstream)`. -/
def newChild (pUpstream : ℕ) (w : World) : World :=
  { w with
    inj := Function.update w.inj w.count (Injector.construct w.count (some pUpstream))
    count := w.count + 1 }

def has_instance (i : ℕ) (T : Hash_t) (w : World) : Bool := (w.inj i).typeMap_.has_key T

/-- `find_recipe_`: the nearest recipe and the injector whose `addRecipe` made it.
`depth` bounds the climb; an injector is younger than its parent. -/
def find_recipe_ (w : World) (hsh : Hash_t) : (depth : ℕ) → ℕ → Option (ℕ × Recipe)
  | 0, _ => none
  | depth + 1, i =>
    match (w.inj i).recipeMap_.lookup hsh with
    | some recipe => some (i, recipe)
    | none =>
      match (w.inj i).pUpstream_ with
      | none => none
      | some pUpstream => find_recipe_ w hsh depth pUpstream

/-- A type map operation on injector `i`, with what it deletes. -/
def onTypeMap (i : ℕ) (f : TypeMap → TypeMap × List Addr) (w : World) : World :=
  (w.upd i fun x => { x with typeMap_ := (f x.typeMap_).1 }).destroyAll
    (f (w.inj i).typeMap_).2

def emplace_impl (i : ℕ) (Interface : Hash_t) (impl : Option Addr) : World → World :=
  onTypeMap i (·.emplace_impl Interface impl)

/-- `typeMap_.emplace_ptr<T>(pVal)`; a non-null pointer that goes in is managed from now on. -/
def emplace_ptr (i : ℕ) (T : Hash_t) (pVal : Option Addr) (w : World) : World :=
  let w' := w.onTypeMap i (·.emplace_ptr T pVal)
  match pVal with
  | none => w'
  | some a => if w.has_instance i T then w' else w'.emit (.managed i T a)

end World

/-- A request a program can make of an injector. -/
structure Call where
  kind : Kind
  inj : ℕ
  type : Hash_t
  deriving DecidableEq, Repr

abbrev M := Comp World Exn

inductive DepType_t where
  | REFERENCE
  | NEW_VALUE
  deriving DecidableEq, Repr

section
open Comp
variable (ty : Types) (rec : Call → M (Option Addr))

/-- The requests of a recipe go to the injector it was given. -/
def runProg (i : ℕ) : Prog → M (Option Addr)
  | .new => look fun w => change World.alloc (ret (some (.obj w.fresh)))
  | .ret p => ret p
  | .throw e => raise e
  | .get U k => attempt (rec ⟨.get, i, U⟩) fun r => runProg i (k r)
  | .creat U k => attempt (rec ⟨.creat, i, U⟩) fun r => runProg i (k r)

/-- `recipe(injector)` for the recipe of type `T`, begun at the moment `start`. -/
def runRecipe (injector : ℕ) (T : Hash_t) (start : ℕ) : Recipe → M (Option Addr)
  | .fn body => runProg rec injector (body start)
  | .bind impl =>
    andThen (rec ⟨.get, injector, impl⟩) fun p =>
    change (World.emplace_impl injector T p) (ret none)
  | .child => look fun w => change (World.newChild injector) (ret (some (.injector w.count)))

/-- `recipeClosure` of `addRecipe`: the closure captured `this`, the injector the
recipe was added to, and ignores the injector it is called with. The body works with `this`
too: `runRecipe` sends its requests there. -/
def recipeClosure (this : ℕ) (T : Hash_t) (recipe : Recipe) (asked : ℕ) : M TypeContainer :=
  look fun w =>
    change (World.emit (.recipe T asked this)) <|
    andThen (runRecipe rec this T w.trace.length recipe) fun pT =>
    change (World.emit (.recipeEnd w.trace.length pT)) <|
    ret (({} : TypeContainer).reset pT).1

/-- `retval.createInstance()`. -/
def createInstance (T : Hash_t) : M TypeContainer := look fun w =>
  match ty.ctor T w.trace.length with
  | some n => raise (.user n)
  | none =>
    change (fun w => (World.alloc w).emit (.built T (.obj w.fresh))) <|
    ret (({} : TypeContainer).createInstance (.obj w.fresh))

/-- `typeMap_.emplace<T>()`. -/
def emplaceDefault (i : ℕ) (T : Hash_t) : M TypeContainer := look fun w =>
  if w.has_instance i T then ret {}
  else
    match ty.ctor T w.trace.length with
    | some n => change (World.onTypeMap i (·.emplace T none)) (raise (.user n))
    | none =>
      change (fun w => (((World.alloc w).onTypeMap i (·.emplace T (some (.obj w.fresh)))).emit
        (.built T (.obj w.fresh))).emit (.managed i T (.obj w.fresh))) (ret {})

/-- What `inject_` does with the container the recipe returned. The container of an
abstract type is a temporary and dies at once. -/
def place (i : ℕ) (T : Hash_t) (depType : DepType_t) (anyValue : TypeContainer) :
    M TypeContainer :=
  if ty.is_abstract T then change (World.destroyAll anyValue.release_) (ret {})
  else
    match depType with
    | .NEW_VALUE => ret (({} : TypeContainer).reset anyValue.release.1).1
    | .REFERENCE => change (World.emplace_ptr i T anyValue.release.1) (ret {})

def inject_ (i : ℕ) (T : Hash_t) (depType : DepType_t) : M TypeContainer := look fun w =>
  match w.find_recipe_ T (i + 1) i with
  | some (owner, recipe) => andThen (recipeClosure rec owner T recipe i) (place ty i T depType)
  | none =>
    if ty.is_abstract T then raise (.noImpl T)
    else if ty.default_initializable T then
      match depType with
      | .NEW_VALUE => createInstance ty T
      | .REFERENCE => emplaceDefault ty i T
    else raise (.noRecipe T)

/-- `typeHashStack_.erase(thash)` and, unless a new value was made,
`invocationList_.push_back(thash)`. -/
def finish (i : ℕ) (T : Hash_t) (depType : DepType_t) : World → World :=
  World.upd i fun x =>
    { x with
      typeHashStack_ := x.typeHashStack_.erase T
      invocationList_ := if depType = .NEW_VALUE then x.invocationList_
        else x.invocationList_ ++ [T] }

def pushType (i : ℕ) (T : Hash_t) : World → World :=
  World.upd i fun x => { x with typeHashStack_ := insert T x.typeHashStack_ }

def setCycleCheck (i : ℕ) (b : Bool) : World → World :=
  World.upd i fun x => { x with isInCycleCheck_ := b }

def makeDependency_ (i : ℕ) (T : Hash_t) (depType : DepType_t) : M TypeContainer :=
  look fun w =>
    if (w.inj i).isInCycleCheck_ then
      if T ∈ (w.inj i).typeHashStack_ then raise (.cycle T)
      else
        change (pushType i T) <|
        andThen (inject_ ty rec i T depType) fun retval =>
        change (finish i T depType) (ret retval)
    else
      change (setCycleCheck i true) <|
      change (pushType i T) <|
      andThen (inject_ ty rec i T depType) fun retval =>
      change (setCycleCheck i false) <|
      change (finish i T depType) (ret retval)

/-- `return typeMap_.ref<T>()`. -/
def refOf (i : ℕ) (T : Hash_t) : M (Option Addr) := look fun w =>
  match (w.inj i).typeMap_.lookup T with
  | none => raise .outOfRange
  | some c => change (World.emit (.got i T c.ptr_)) (ret c.ptr_)

def get (i : ℕ) (T : Hash_t) : M (Option Addr) :=
  change (World.emit (.asked .get i T)) <| look fun w =>
    if w.has_instance i T then refOf i T
    else
      match (w.inj i).pUpstream_ with
      | none => andThen (makeDependency_ ty rec i T .REFERENCE) fun _ => refOf i T
      | some pUpstream =>
        if w.has_instance pUpstream T then
          andThen (rec ⟨.get, pUpstream, T⟩) fun p => change (World.emit (.got i T p)) (ret p)
        else andThen (makeDependency_ ty rec i T .REFERENCE) fun _ => refOf i T

def creat (i : ℕ) (T : Hash_t) : M (Option Addr) :=
  change (World.emit (.asked .creat i T)) <|
  andThen (makeDependency_ ty rec i T .NEW_VALUE) fun ctr =>
  if ctr.has_value then ret ctr.release.1 else raise (.creatFailed T)

def callBody (c : Call) : M (Option Addr) :=
  match c.kind with
  | .get => get ty rec c.inj c.type
  | .creat => creat ty rec c.inj c.type

end

/-- `get` or `creat`, nested at most `fuel` deep. -/
def exec (ty : Types) (fuel : ℕ) (c : Call) : M (Option Addr) := Comp.fix (callBody ty) fuel c

namespace World

/-- `recipeMap_.insert_or_assign(thash, recipeClosure)`, after the warning. -/
def insertRecipe (i : ℕ) (T : Hash_t) (recipe : Recipe) (w : World) : World :=
  let w' := if ((w.inj i).recipeMap_.lookup T).isSome then w.emit (.overriding T) else w
  w'.upd i fun x => { x with recipeMap_ := x.recipeMap_.insert T recipe }

def addRecipe (i : ℕ) (T : Hash_t) (body : ℕ → Prog) : World → World :=
  insertRecipe i T (.fn body)

def addCtorRecipe (i : ℕ) (T : Hash_t) (Ts : List Dep) : World → World :=
  addRecipe i T fun _ => ctorRecipe Ts

def bindImpl (i : ℕ) (Interface Implementation : Hash_t) : World → World :=
  insertRecipe i Interface (.bind Implementation)

/-- `~Injector`: the entries of `invocationList_` from the back, then the map itself
with whatever entries are left in it. -/
def destroyInjector (i : ℕ) (w : World) : World :=
  let erase := fun (w : World) (thash : Hash_t) => w.onTypeMap i (·.eraseKey thash)
  let w' := (w.inj i).invocationList_.reverse.foldl erase w
  ((w'.inj i).typeMap_.keys.foldl erase w').emit (.destroyed (.injector i))

/-! ### The parts of the world each update leaves alone -/

section
variable (w : World) (i j : ℕ) (e : Event) (as : List Addr) (f : Injector → Injector)
  (g : TypeMap → TypeMap × List Addr)

@[simp] theorem emit_inj : (w.emit e).inj = w.inj := rfl
@[simp] theorem emit_count : (w.emit e).count = w.count := rfl
@[simp] theorem emit_fresh : (w.emit e).fresh = w.fresh := rfl
@[simp] theorem emit_trace : (w.emit e).trace = w.trace ++ [e] := rfl

@[simp] theorem destroyAll_inj : (w.destroyAll as).inj = w.inj := rfl
@[simp] theorem destroyAll_count : (w.destroyAll as).count = w.count := rfl
@[simp] theorem destroyAll_fresh : (w.destroyAll as).fresh = w.fresh := rfl
@[simp] theorem destroyAll_trace :
    (w.destroyAll as).trace = w.trace ++ as.map .destroyed := rfl

@[simp] theorem alloc_inj : w.alloc.inj = w.inj := rfl
@[simp] theorem alloc_count : w.alloc.count = w.count := rfl
@[simp] theorem alloc_fresh : w.alloc.fresh = w.fresh + 1 := rfl
@[simp] theorem alloc_trace : w.alloc.trace = w.trace := rfl

@[simp] theorem upd_count : (w.upd i f).count = w.count := rfl
@[simp] theorem upd_fresh : (w.upd i f).fresh = w.fresh := rfl
@[simp] theorem upd_trace : (w.upd i f).trace = w.trace := rfl
@[simp] theorem upd_inj_self : (w.upd i f).inj i = f (w.inj i) := Function.update_self ..
@[simp] theorem upd_inj_ne (h : j ≠ i) : (w.upd i f).inj j = w.inj j :=
  Function.update_of_ne h ..

@[simp] theorem onTypeMap_count : (w.onTypeMap i g).count = w.count := rfl
@[simp] theorem onTypeMap_fresh : (w.onTypeMap i g).fresh = w.fresh := rfl
@[simp] theorem onTypeMap_trace : (w.onTypeMap i g).trace =
    w.trace ++ (g (w.inj i).typeMap_).2.map .destroyed := rfl
@[simp] theorem onTypeMap_inj_self : (w.onTypeMap i g).inj i =
    { w.inj i with typeMap_ := (g (w.inj i).typeMap_).1 } := Function.update_self ..
@[simp] theorem onTypeMap_inj_ne (h : j ≠ i) : (w.onTypeMap i g).inj j = w.inj j :=
  Function.update_of_ne h ..

@[simp] theorem newChild_count : (w.newChild i).count = w.count + 1 := rfl
@[simp] theorem newChild_fresh : (w.newChild i).fresh = w.fresh := rfl
@[simp] theorem newChild_trace : (w.newChild i).trace = w.trace := rfl
@[simp] theorem newChild_inj_self :
    (w.newChild i).inj w.count = .construct w.count (some i) := Function.update_self ..
@[simp] theorem newChild_inj_ne (h : j ≠ w.count) : (w.newChild i).inj j = w.inj j :=
  Function.update_of_ne h ..

end
end World
end Omulator.Di
