import Omulator.Lib.Linearizable
import Omulator.Props.Tags
import Mathlib.Logic.Function.Basic

/-!
# A PropertyMap used by several threads (`PropertyMap.hpp`, `util/Spinlock.hpp`)

Each operation on a mutex, an atomic or a spinlock, each operation on `map_`, and each access to
a character of a `std::string` is a step. Assigning to a `std::string` leaves any characters in it
before the new ones are written.
-/

namespace Omulator.Properties
open Omulator.Lib Omulator.Props

/-- Accesses to the node of a key name the key. -/
inductive Access where
  | lock
  /-- the end of the method's `scoped_lock`, with the reference that is returned -/
  | unlock (ref : Option (PropType × String))
  | find (key : String)
  | emplace (T : PropType) (key : String)
  | error (msg : String)
  | load (T : PropType) (key : String)
  | store (newVal : PropVariant_t) (key : String)
  | test_and_set (key : String)
  | clear (key : String)
  | size (key : String)
  | char (key : String) (i : ℕ)
  | resize (key : String) (size : ℕ)
  | putChar (key : String) (i : ℕ) (c : Char)
  deriving DecidableEq

/-- `find` gives the tag of the entry it finds, and `resize` the characters that it leaves. -/
abbrev Access.Ans : Access → Type
  | find _ => Option Hash_t
  | load T _ => T.Val
  | size _ => ℕ
  | char _ _ => Char
  | resize _ _ => List Char
  | _ => Unit

/-- Who has locked `mtx_`, and who has set the flag of the node of a key. -/
structure Memory where
  map : PropertyMap := {}
  refs : List (PropType × String) := []
  mtx_ : Option ℕ := none
  lock_ : String → Option ℕ := fun _ => none

namespace Memory

def text (w : Memory) (key : String) : Option (List Char) :=
  ((w.map.map_.lookup key).bind (·.storage.load .string)).map String.toList

def put (w : Memory) (key : String) (e : MapEntry) : Memory := { w with map := w.map.put key e }

def setVal (w : Memory) (key : String) (v : PropVariant_t) : Option Memory := do
  let e ← w.map.map_.lookup key
  let st ← e.storage.store v.index v.val
  return w.put key { e with storage := st }

end Memory

variable (C : Compiler) (memory : String → UInt64)

/-- `emplace` does nothing when there is an entry, and `test_and_set` on a set flag is repeated. -/
def access (t : ℕ) : (a : Access) → a.Ans → Memory → Option Memory
  | .lock, _, w => if w.mtx_ = none then some { w with mtx_ := some t } else none
  | .unlock ref, _, w => some { w with mtx_ := none, refs := ref.toList ++ w.refs }
  | .find key, x, w => if (w.map.map_.lookup key).map (·.tag) = x then some w else none
  | .emplace T key, _, w =>
    match w.map.map_.lookup key with
    | none => some (w.put key (.new C (C.TypeHash T) (memory key)))
    | some _ => some w
  | .error msg, _, w => some { w with map := { w.map with errors := w.map.errors ++ [msg] } }
  | .load T key, x, w =>
    if (w.map.map_.lookup key).bind (·.storage.load T) = some x then some w else none
  | .store newVal key, _, w => w.setVal key newVal
  | .test_and_set key, _, w =>
    if w.lock_ key = none then some { w with lock_ := Function.update w.lock_ key (some t) }
    else none
  | .clear key, _, w => some { w with lock_ := Function.update w.lock_ key none }
  | .size key, x, w => if (w.text key).map List.length = some x then some w else none
  | .char key i, x, w => if (w.text key).bind (·[i]?) = some x then some w else none
  | .resize key size, x, w =>
    if x.length = size then w.setVal key ⟨.string, String.ofList x⟩ else none
  | .putChar key i c, _, w => do
    let cs ← w.text key
    w.setVal key ⟨.string, String.ofList (cs.set i c)⟩

/-- `map_` is for the owner of `mtx_` alone, and the characters of a string are for the thread that
has set the flag. No thread waits for what it has itself, no member is accessed as another, and
nothing is logged. -/
def fine (t : ℕ) : Access → Memory → Prop
  | .lock, w => w.mtx_ ≠ some t
  | .unlock _, w | .find _, w | .emplace _ _, w => w.mtx_ = some t
  | .error _, _ => False
  | .load T key, w => ((w.map.map_.lookup key).bind (·.storage.load T)).isSome = true
  | .store newVal key, w => (w.setVal key newVal).isSome = true
  | .test_and_set key, w => w.lock_ key ≠ some t ∧ (w.text key).isSome = true
  | .clear key, w | .size key, w | .resize key _, w =>
    w.lock_ key = some t ∧ (w.text key).isSome = true
  | .char key i, w | .putChar key i _, w =>
    w.lock_ key = some t ∧ ∃ cs, w.text key = some cs ∧ i < cs.length

/-! ### The methods -/

abbrev Proc := Script Access Access.Ans

def ask (a : Access) : Proc a.Ans := .call a .ret

abbrev Method (α : Type) := ExceptT Error Proc α

namespace PropertyValue

def copyChars (key : String) : ℕ → ℕ → Proc (List Char)
  | _, 0 => return []
  | i, n + 1 => do
    let c ← ask (.char key i)
    let cs ← copyChars key (i + 1) n
    return c :: cs

def putChars (key : String) : ℕ → List Char → Proc Unit
  | _, [] => return ()
  | i, c :: cs => do
    ask (.putChar key i c)
    putChars key (i + 1) cs

def get (key : String) : (T : PropType) → Proc T.Val
  | .S64 => ask (.load .S64 key)
  | .U64 => ask (.load .U64 key)
  | .bool => ask (.load .bool key)
  | .double => ask (.load .double key)
  | .string => do
    ask (.test_and_set key)
    let n ← ask (.size key)
    let cs ← copyChars key 0 n
    ask (.clear key)
    return String.ofList cs

def set (key : String) : (T : PropType) → T.Val → Proc Unit
  | .S64, newVal => ask (.store ⟨.S64, newVal⟩ key)
  | .U64, newVal => ask (.store ⟨.U64, newVal⟩ key)
  | .bool, newVal => ask (.store ⟨.bool, newVal⟩ key)
  | .double, newVal => ask (.store ⟨.double, newVal⟩ key)
  | .string, (newVal : String) => do
    ask (.test_and_set key)
    let _ ← ask (.resize key newVal.toList.length)
    putChars key 0 newVal.toList
    ask (.clear key)

end PropertyValue

namespace PropertyMap

/-- The body of a method that begins with `std::scoped_lock lck{mtx_}`; a reference that is given
out is given out by `gives`. -/
def scoped_lock {α : Type} (gives : Except Error α → Option (PropType × String))
    (body : Method α) : Method α := ExceptT.mk do
  ask .lock
  let r ← body.run
  ask (.unlock (gives r))
  return r

def get_prop_ (T : PropType) (key : String) : Method Unit := ExceptT.mk do
  match ← ask (.find key) with
  | none =>
    ask (.emplace T key)
    return .ok ()
  | some tag =>
    return if tag ≠ C.TypeHash T then .error (Props.PropertyMap.mismatch key) else .ok ()

def get_prop (T : PropType) (key : String) : Method Unit :=
  scoped_lock (fun r => r.toOption.map fun _ => (T, key)) (get_prop_ C T key)

def query_prop_ (key : String) : Proc (Bool × Hash_t) := do
  match ← ask (.find key) with
  | some tag => return (true, tag)
  | none => return (false, 0)

def query_prop (key : String) : Method (Bool × Hash_t) :=
  scoped_lock (fun _ => none) (ExceptT.lift (query_prop_ key))

/-- `get_prop_<T>(key).get()`. -/
def get_variant_ (T : PropType) (key : String) : Method PropVariant_t := do
  get_prop_ C T key
  return ⟨T, ← ExceptT.lift (PropertyValue.get key T)⟩

def get_prop_variant (key : String) : Method PropVariant_t := scoped_lock (fun _ => none) do
  let (found, hsh) ← ExceptT.lift (query_prop_ key)
  if !found then
    return ⟨.string, Props.PropertyMap.KEY_NOT_FOUND_STR⟩
  else if hsh = C.TypeHash .S64 then
    get_variant_ C .S64 key
  else if hsh = C.TypeHash .U64 then
    get_variant_ C .U64 key
  else if hsh = C.TypeHash .bool then
    get_variant_ C .bool key
  else if hsh = C.TypeHash .double then
    get_variant_ C .double key
  else if hsh = C.TypeHash .string then
    get_variant_ C .string key
  else
    return ⟨.string, Props.PropertyMap.INVALID_TAG_STR⟩

def set_variant_ (T : PropType) (prop : String) (val : PropVariant_t) : Method Bool := do
  get_prop_ C T prop
  match C.extract_variant_ T val with
  | some v =>
    ExceptT.lift (PropertyValue.set prop T v)
    return true
  | none => throw .undefined

def get_set_ (T : PropType) (prop : String) (val : PropVariant_t) : Method Bool := do
  get_prop_ C T prop
  match val.get? T with
  | some v =>
    ExceptT.lift (PropertyValue.set prop T v)
    return true
  | none => throw (.runtime_error "bad_variant_access")

def set_prop_variant (prop : String) (val : PropVariant_t) : Method Bool :=
  scoped_lock (fun _ => none) do
    let (found, hsh) ← ExceptT.lift (query_prop_ prop)
    if found then
      if hsh = C.TypeHash .S64 then
        set_variant_ C .S64 prop val
      else if hsh = C.TypeHash .U64 then
        set_variant_ C .U64 prop val
      else if hsh = C.TypeHash .bool then
        set_variant_ C .bool prop val
      else if hsh = C.TypeHash .double then
        set_variant_ C .double prop val
      else if hsh = C.TypeHash .string then
        set_variant_ C .string prop val
      else
        ExceptT.lift (ask (.error
          ("Failed to set existing property '" ++ prop ++ "' due to invalid type")))
        return false
    else
      if val.holds_alternative .S64 then
        get_set_ C .S64 prop val
      else if val.holds_alternative .U64 then
        get_set_ C .U64 prop val
      else if val.holds_alternative .bool then
        get_set_ C .bool prop val
      else if val.holds_alternative .double then
        get_set_ C .double prop val
      else if val.holds_alternative .string then
        get_set_ C .string prop val
      else
        ExceptT.lift (ask (.error ("Failed to set property '" ++ prop ++ "' due to invalid type")))
        return false

end PropertyMap

def outOf {α : Type} (f : α → Out) : Except Error α → Out
  | .ok a => f a
  | .error e => .thrown e

def outcome {α : Type} (f : α → Out) (p : Method α) : Proc Out := do return outOf f (← p.run)

def body : Op → Proc Out
  | .get_prop T key => outcome (fun _ => .reference) (PropertyMap.get_prop C T key)
  | .get T key => (fun v => .value ⟨T, v⟩) <$> PropertyValue.get key T
  | .set T key newVal => (fun _ => .void) <$> PropertyValue.set key T newVal
  | .get_prop_variant key => outcome .value (PropertyMap.get_prop_variant C key)
  | .query_prop key => outcome (fun r => .answer r.1 r.2) (PropertyMap.query_prop key)
  | .set_prop_variant key val => outcome .set (PropertyMap.set_prop_variant C key val)

/-- A `PropertyValue` is used through a reference that some thread was given. -/
def object : Object ℕ Op Out Access Access.Ans Memory where
  admits op w := op.uses.all w.refs.contains
  body := body C
  access := access C memory
  fine := fine

end Omulator.Properties
