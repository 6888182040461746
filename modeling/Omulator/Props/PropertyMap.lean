import Omulator.Lib.Transition
import Omulator.Props.Variant
import Mathlib.Data.List.AList

/-!
# PropertyMap (`include/omulator/PropertyMap.hpp`)

A method runs on the map's state and gives a result or an exception together with the
state it leaves. A `PropertyValue<T>` is the union member of a key's node: nodes of
`map_` never move and nothing erases them, so a reference stays good.
-/

namespace Omulator.Props

open Lib

/-- The union of a `MapEntry`: a live `stringVal`, or eight bytes for the trivial members. -/
inductive Storage where
  | word (bits : UInt64)
  | stringVal (s : String)
  deriving DecidableEq, Repr

structure MapEntry where
  tag : Hash_t
  storage : Storage
  deriving DecidableEq, Repr

structure PropertyMap where
  map_ : AList fun _ : String => MapEntry := ∅
  /-- the texts given to `logger_.error` -/
  errors : List String := []
  deriving DecidableEq

def PropertyMap.put (m : PropertyMap) (key : String) (e : MapEntry) : PropertyMap :=
  { m with map_ := m.map_.insert key e }

inductive Error where
  | runtime_error (what : String)
  /-- `map_` has no node for the reference, or its union holds another kind of member, or the cast
  of a `double` to an integer is undefined -/
  | undefined
  deriving DecidableEq, Repr

abbrev M := ExceptT Error (StateM PropertyMap)

/-- The result and the map that are left when `f` is called on `m`. -/
def M.exec {α : Type} (f : M α) (m : PropertyMap) : Except Error α × PropertyMap := f.run.run m

section
variable {α β : Type} (m : PropertyMap)

@[simp] theorem exec_pure (a : α) : (pure a : M α).exec m = (.ok a, m) := rfl

@[simp] theorem exec_throw (e : Error) : (throw e : M α).exec m = (.error e, m) := rfl

@[simp] theorem exec_get : (get : M PropertyMap).exec m = (.ok m, m) := rfl

@[simp] theorem exec_set (m' : PropertyMap) : (set m' : M PUnit).exec m = (.ok (), m') := rfl

theorem exec_bind (f : M α) (g : α → M β) : (f >>= g).exec m =
    match f.exec m with
    | (.ok a, m') => (g a).exec m'
    | (.error e, m') => (.error e, m') := by
  show (ExceptT.bind f g).run.run m = _
  simp only [ExceptT.bind, ExceptT.run, ExceptT.mk, M.exec, bind, StateT.bind, StateT.run]
  rcases (f m) with ⟨r, m'⟩
  cases r with
  | ok a => rfl
  | error e => rfl

theorem exec_map (f : α → β) (g : M α) :
    (f <$> g).exec m = ((g.exec m).1.map f, (g.exec m).2) := by
  rw [← bind_pure_comp, exec_bind]
  rcases g.exec m with ⟨r, m'⟩
  cases r with
  | ok a => rfl
  | error e => rfl

theorem exec_bind_ok {f : M α} {g : α → M β} {a : α} {m m' : PropertyMap}
    (h : f.exec m = (.ok a, m')) : (f >>= g).exec m = (g a).exec m' := by
  rw [exec_bind, h]

end

/-! ### PropertyValue -/

namespace Storage

/-- `val_.load`, or the copy of `val_` made under the lock: a `bool` is the low byte. -/
def load : (T : PropType) → Storage → Option T.Val
  | .S64, word b => some (show Int64 from b.toInt64)
  | .U64, word b => some (show UInt64 from b)
  | .bool, word b => some (show Bool from b % 256 ≠ 0)
  | .double, word b => some (show Double from ⟨b⟩)
  | .string, stringVal s => some (show String from s)
  | .string, word _ => none
  | .S64, stringVal _ | .U64, stringVal _ | .bool, stringVal _ | .double, stringVal _ => none

/-- `val_.store`, or the assignment to `val_`. -/
def store : (T : PropType) → T.Val → Storage → Option Storage
  | .S64, (v : Int64), word _ => some (word v.toUInt64)
  | .U64, (v : UInt64), word _ => some (word v)
  | .bool, (v : Bool), word b => some (word (b / 256 * 256 + v.toUInt64))
  | .double, (v : Double), word _ => some (word v.bits)
  | .string, (v : String), stringVal _ => some (stringVal v)
  | .string, _, word _ => none
  | .S64, _, stringVal _ | .U64, _, stringVal _ | .bool, _, stringVal _ | .double, _, stringVal _ =>
    none

theorem low_byte (b : UInt64) (v : Bool) :
    decide ((b / 256 * 256 + v.toUInt64) % 256 ≠ 0) = v := by
  have h : ((b / 256 * 256 + v.toUInt64) % 256).toNat = v.toNat := by
    cases v with
    | false => simp [Bool.toUInt64, UInt64.toNat_mul, UInt64.toNat_div, UInt64.toNat_mod]
    | true => simp [Bool.toUInt64, UInt64.toNat_mul, UInt64.toNat_div, UInt64.toNat_mod]
  have h' : (b / 256 * 256 + v.toUInt64) % 256 = 0 ↔ v.toNat = 0 := by
    rw [← h, ← UInt64.toNat_inj]
    exact Iff.rfl
  cases v with
  | false => simp [h']
  | true => simp [h']

theorem store_of_load {T : PropType} {s : Storage} {v : T.Val} (h : s.load T = some v)
    (w : T.Val) : ∃ s', s.store T w = some s' ∧ s'.load T = some w := by
  cases s with
  | word b => cases T with
    | string => simp [load] at h
    | S64 | U64 | double => exact ⟨_, rfl, rfl⟩
    | bool => exact ⟨_, rfl, congrArg some (low_byte b w)⟩
  | stringVal x => cases T with
    | string => exact ⟨_, rfl, rfl⟩
    | S64 | U64 | bool | double => simp [load] at h

end Storage

/-- A `PropertyValue<T> &`, by the key of the node it is in. -/
structure PropertyValue (T : PropType) where
  key : String
  deriving DecidableEq

namespace PropertyValue

def get {T : PropType} (p : PropertyValue T) : M T.Val := do
  let m ← MonadState.get
  match (m.map_.lookup p.key).bind (·.storage.load T) with
  | some v => return v
  | none => throw .undefined

def set {T : PropType} (p : PropertyValue T) (newVal : T.Val) : M Unit := do
  let m ← MonadState.get
  match m.map_.lookup p.key with
  | none => throw .undefined
  | some e =>
    match e.storage.store T newVal with
    | some s => MonadStateOf.set (m.put p.key { e with storage := s })
    | none => throw .undefined

end PropertyValue

/-! ### The map -/

-- `memory key` is what the eight bytes of the union hold when the node of `key`, which is
-- made once at most, is allocated.
variable (C : Compiler) (memory : String → UInt64)

/-- Only `stringVal` is constructed: the bytes of the other members stay as they are. -/
def MapEntry.new (tagArg : Hash_t) (bytes : UInt64) : MapEntry :=
  ⟨tagArg, if tagArg = C.TypeHash .string then .stringVal "" else .word bytes⟩

namespace PropertyMap

def INVALID_TAG_STR : String := "INVALID_TAG"

def KEY_NOT_FOUND_STR : String := "NOT_FOUND"

def mismatch (key : String) : Error :=
  .runtime_error ("Attempted to interpret a PropertyValue as a different type from what it was " ++
    "previously interpreted as for key " ++ key)

/-- The choice of the union's member at the end of the source's function is made by the
type of the reference. -/
def get_prop_ (T : PropType) (key : String) : M (PropertyValue T) := do
  let m ← get
  match m.map_.lookup key with
  | none => set (m.put key (.new C (C.TypeHash T) (memory key)))
  | some e => if e.tag ≠ C.TypeHash T then throw (mismatch key)
  return ⟨key⟩

def get_prop (T : PropType) (key : String) : M (PropertyValue T) := get_prop_ C memory T key

def query_prop_ (key : String) : M (Bool × Hash_t) := do
  let m ← get
  match m.map_.lookup key with
  | some e => return (true, e.tag)
  | none => return (false, 0)

def query_prop (key : String) : M (Bool × Hash_t) := query_prop_ key

def error (msg : String) : M Unit := modify fun m => { m with errors := m.errors ++ [msg] }

/-- `retval = get_prop_<T>(key).get()`. -/
def get_variant_ (T : PropType) (key : String) : M PropVariant_t := do
  let p ← get_prop_ C memory T key
  return ⟨T, ← p.get⟩

def get_prop_variant (key : String) : M PropVariant_t := do
  let (found, hsh) ← query_prop_ key
  if !found then
    return ⟨.string, KEY_NOT_FOUND_STR⟩
  else if hsh = C.TypeHash .S64 then
    get_variant_ C memory .S64 key
  else if hsh = C.TypeHash .U64 then
    get_variant_ C memory .U64 key
  else if hsh = C.TypeHash .bool then
    get_variant_ C memory .bool key
  else if hsh = C.TypeHash .double then
    get_variant_ C memory .double key
  else if hsh = C.TypeHash .string then
    get_variant_ C memory .string key
  else
    return ⟨.string, INVALID_TAG_STR⟩

/-- `get_prop_<T>(prop).set(extract_variant_<T>(val))`. -/
def set_variant_ (T : PropType) (prop : String) (val : PropVariant_t) : M Unit := do
  let p ← get_prop_ C memory T prop
  match C.extract_variant_ T val with
  | some v => p.set v
  | none => throw .undefined

/-- `std::get` throws when the variant holds another type. -/
def get_set_ (T : PropType) (prop : String) (val : PropVariant_t) : M Unit := do
  let p ← get_prop_ C memory T prop
  match val.get? T with
  | some v => p.set v
  | none => throw (.runtime_error "bad_variant_access")

def set_prop_variant (prop : String) (val : PropVariant_t) : M Bool := do
  let (found, hsh) ← query_prop_ prop
  if found then
    if hsh = C.TypeHash .S64 then
      set_variant_ C memory .S64 prop val
    else if hsh = C.TypeHash .U64 then
      set_variant_ C memory .U64 prop val
    else if hsh = C.TypeHash .bool then
      set_variant_ C memory .bool prop val
    else if hsh = C.TypeHash .double then
      set_variant_ C memory .double prop val
    else if hsh = C.TypeHash .string then
      set_variant_ C memory .string prop val
    else
      error ("Failed to set existing property '" ++ prop ++ "' due to invalid type")
      return false
    return true
  else
    if val.holds_alternative .S64 then
      get_set_ C memory .S64 prop val
    else if val.holds_alternative .U64 then
      get_set_ C memory .U64 prop val
    else if val.holds_alternative .bool then
      get_set_ C memory .bool prop val
    else if val.holds_alternative .double then
      get_set_ C memory .double prop val
    else if val.holds_alternative .string then
      get_set_ C memory .string prop val
    else
      error ("Failed to set property '" ++ prop ++ "' due to invalid type")
      return false
    return true

end PropertyMap

/-! ### What each operation does -/

namespace PropertyMap

@[simp] theorem lookup_put (m : PropertyMap) (key : String) (e : MapEntry) :
    (m.put key e).map_.lookup key = some e := by simp [put]

theorem lookup_put_ne (m : PropertyMap) {key k : String} (e : MapEntry) (h : k ≠ key) :
    (m.put key e).map_.lookup k = m.map_.lookup k := by simp [put, AList.lookup_insert_ne h]

@[simp] theorem errors_put (m : PropertyMap) (key : String) (e : MapEntry) :
    (m.put key e).errors = m.errors := rfl

end PropertyMap

/-- What the bytes of a new node read as: `stringVal` alone is constructed. -/
def PropType.raw : (T : PropType) → UInt64 → T.Val
  | S64, b => b.toInt64
  | U64, b => b
  | bool, b => decide (b % 256 ≠ 0)
  | double, b => ⟨b⟩
  | string, _ => ""

/-- The entry has the tag of `T`, and its member of type `T` is alive with value `v`. -/
def MapEntry.Reads (e : MapEntry) (T : PropType) (v : T.Val) : Prop :=
  e.tag = C.TypeHash T ∧ e.storage.load T = some v

theorem MapEntry.Reads.unique {C : Compiler} {e : MapEntry} {T U : PropType} {v : T.Val}
    (h : e.Reads C T v) (hu : e.tag = C.TypeHash U) : T = U := C.distinct (h.1.symm.trans hu)

theorem MapEntry.new_reads (T : PropType) (b : UInt64) :
    (MapEntry.new C (C.TypeHash T) b).Reads C T (T.raw b) := by
  refine ⟨rfl, ?_⟩
  cases T with
  | string => simp [new, Storage.load, PropType.raw]
  | S64 | U64 | bool | double =>
    have h : ∀ T : PropType, T ≠ .string → C.TypeHash T ≠ C.TypeHash .string :=
      fun T hT h => hT (C.distinct h)
    simp [new, Storage.load, PropType.raw, h]

section
variable {C} {m : PropertyMap} {key : String} {T : PropType} {e : MapEntry} {v : T.Val}

theorem get_of_reads {p : PropertyValue T} (h : m.map_.lookup p.key = some e)
    (hr : e.Reads C T v) : p.get.exec m = (.ok v, m) := by
  rw [PropertyValue.get, exec_bind_ok (exec_get m), h]
  simp [hr.2]

theorem set_of_reads {p : PropertyValue T} (h : m.map_.lookup p.key = some e)
    (hr : e.Reads C T v) (w : T.Val) :
    ∃ e', e'.Reads C T w ∧ (p.set w).exec m = (.ok (), m.put p.key e') := by
  obtain ⟨s, hs, hl⟩ := Storage.store_of_load hr.2 w
  refine ⟨{ e with storage := s }, ⟨hr.1, hl⟩, ?_⟩
  rw [PropertyValue.set, exec_bind_ok (exec_get m), h]
  simp [hs]

theorem get_prop_same (h : m.map_.lookup key = some e) (ht : e.tag = C.TypeHash T) :
    (PropertyMap.get_prop_ C memory T key).exec m = (.ok ⟨key⟩, m) := by
  rw [PropertyMap.get_prop_, exec_bind_ok (exec_get m), h]
  simp [ht]

theorem get_prop_other (h : m.map_.lookup key = some e) (ht : e.tag ≠ C.TypeHash T) :
    (PropertyMap.get_prop_ C memory T key).exec m = (.error (PropertyMap.mismatch key), m) := by
  rw [PropertyMap.get_prop_, exec_bind_ok (exec_get m), h]
  simp [ht]

theorem get_prop_absent (h : m.map_.lookup key = none) :
    (PropertyMap.get_prop_ C memory T key).exec m =
      (.ok ⟨key⟩, m.put key (.new C (C.TypeHash T) (memory key))) := by
  rw [PropertyMap.get_prop_, exec_bind_ok (exec_get m), h]
  exact exec_bind_ok (exec_set m _)

theorem query_present (h : m.map_.lookup key = some e) :
    (PropertyMap.query_prop_ key).exec m = (.ok (true, e.tag), m) := by
  rw [PropertyMap.query_prop_, exec_bind_ok (exec_get m), h]
  rfl

theorem query_absent (h : m.map_.lookup key = none) :
    (PropertyMap.query_prop_ key).exec m = (.ok (false, 0), m) := by
  rw [PropertyMap.query_prop_, exec_bind_ok (exec_get m), h]
  rfl

theorem get_variant_of_reads (h : m.map_.lookup key = some e) (hr : e.Reads C T v) :
    (PropertyMap.get_variant_ C memory T key).exec m = (.ok ⟨T, v⟩, m) := by
  rw [PropertyMap.get_variant_, exec_bind_ok (get_prop_same memory h hr.1),
    exec_bind_ok (get_of_reads h hr)]
  rfl

theorem set_variant_of_reads (h : m.map_.lookup key = some e) (hr : e.Reads C T v)
    {val : PropVariant_t} {w : T.Val} (hw : C.extract_variant_ T val = some w) :
    ∃ e', e'.Reads C T w ∧
      (PropertyMap.set_variant_ C memory T key val).exec m = (.ok (), m.put key e') := by
  obtain ⟨e', he', hx⟩ := set_of_reads (p := ⟨key⟩) h hr w
  refine ⟨e', he', ?_⟩
  rw [PropertyMap.set_variant_, exec_bind_ok (get_prop_same memory h hr.1), hw, hx]

theorem set_variant_undefined (h : m.map_.lookup key = some e) (hr : e.Reads C T v)
    {val : PropVariant_t} (hn : C.extract_variant_ T val = none) :
    (PropertyMap.set_variant_ C memory T key val).exec m = (.error .undefined, m) := by
  rw [PropertyMap.set_variant_, exec_bind_ok (get_prop_same memory h hr.1), hn, exec_throw]

theorem get_set_absent (h : m.map_.lookup key = none) (v : T.Val) :
    ∃ e', e'.Reads C T v ∧
      (PropertyMap.get_set_ C memory T key ⟨T, v⟩).exec m = (.ok (), m.put key e') := by
  have hn := MapEntry.new_reads C T (memory key)
  obtain ⟨e', he', hx⟩ := set_of_reads (m := m.put key (.new C (C.TypeHash T) (memory key)))
    (p := ⟨key⟩) (by simp) hn v
  refine ⟨e', he', ?_⟩
  rw [PropertyMap.get_set_, exec_bind_ok (get_prop_absent memory h)]
  simp only [PropVariant_t.get?_mk]
  rw [hx]
  simp [PropertyMap.put, AList.insert_insert]

theorem get_prop_variant_absent (h : m.map_.lookup key = none) :
    (PropertyMap.get_prop_variant C memory key).exec m =
      (.ok ⟨.string, PropertyMap.KEY_NOT_FOUND_STR⟩, m) := by
  rw [PropertyMap.get_prop_variant, exec_bind_ok (query_absent h)]
  rfl

theorem get_prop_variant_present (h : m.map_.lookup key = some e) (hr : e.Reads C T v) :
    (PropertyMap.get_prop_variant C memory key).exec m = (.ok ⟨T, v⟩, m) := by
  have hv := get_variant_of_reads memory h hr
  rw [PropertyMap.get_prop_variant, exec_bind_ok (query_present h), hr.1]
  cases T with
  | S64 | U64 | bool | double | string => simp [C.distinct.eq_iff, hv]

theorem set_prop_variant_eq (h : m.map_.lookup key = some e) (hr : e.Reads C T v)
    (val : PropVariant_t) : (PropertyMap.set_prop_variant C memory key val).exec m =
      (((PropertyMap.set_variant_ C memory T key val).exec m).1.map fun _ => true,
        ((PropertyMap.set_variant_ C memory T key val).exec m).2) := by
  rw [PropertyMap.set_prop_variant, exec_bind_ok (query_present h), hr.1]
  cases T with
  | S64 | U64 | bool | double | string => simp [C.distinct.eq_iff, exec_map]

theorem set_prop_variant_present (h : m.map_.lookup key = some e) (hr : e.Reads C T v)
    {val : PropVariant_t} {w : T.Val} (hw : C.extract_variant_ T val = some w) :
    ∃ e', e'.Reads C T w ∧
      (PropertyMap.set_prop_variant C memory key val).exec m = (.ok true, m.put key e') := by
  obtain ⟨e', he', hx⟩ := set_variant_of_reads memory h hr hw
  refine ⟨e', he', ?_⟩
  rw [set_prop_variant_eq memory h hr, hx]
  rfl

theorem set_prop_variant_undefined (h : m.map_.lookup key = some e) (hr : e.Reads C T v)
    {val : PropVariant_t} (hn : C.extract_variant_ T val = none) :
    (PropertyMap.set_prop_variant C memory key val).exec m = (.error .undefined, m) := by
  rw [set_prop_variant_eq memory h hr, set_variant_undefined memory h hr hn]
  rfl

theorem set_prop_variant_absent (h : m.map_.lookup key = none) (val : PropVariant_t) :
    ∃ e', e'.Reads C val.index val.val ∧
      (PropertyMap.set_prop_variant C memory key val).exec m = (.ok true, m.put key e') := by
  obtain ⟨T, v⟩ := val
  obtain ⟨e', he', hx⟩ := get_set_absent (C := C) memory h v
  refine ⟨e', he', ?_⟩
  rw [PropertyMap.set_prop_variant, exec_bind_ok (query_absent h)]
  cases T with
  | S64 | U64 | bool | double | string =>
    simp [PropVariant_t.holds_alternative, exec_map, hx, Except.map]

end

/-! ### Sequences of calls -/

/-- `get` and `set` go through a reference that `get_prop` returned before. -/
inductive Op where
  | get_prop (T : PropType) (key : String)
  | get (T : PropType) (key : String)
  | set (T : PropType) (key : String) (newVal : T.Val)
  | get_prop_variant (key : String)
  | query_prop (key : String)
  | set_prop_variant (key : String) (val : PropVariant_t)

inductive Out where
  | reference
  | value (v : PropVariant_t)
  | answer (found : Bool) (hsh : Hash_t)
  | set (success : Bool)
  | void
  | thrown (e : Error)
  deriving DecidableEq

namespace Op

def key : Op → String
  | get_prop _ key | get _ key | set _ key _ | get_prop_variant key | query_prop key
  | set_prop_variant key _ => key

def uses : Op → Option (PropType × String)
  | get T key | set T key _ => some (T, key)
  | _ => none

def gives : Op → List (PropType × String)
  | get_prop T key => [(T, key)]
  | _ => []

def call : Op → M Out
  | get_prop T key => (fun _ => .reference) <$> PropertyMap.get_prop C memory T key
  | get T key => (fun v => .value ⟨T, v⟩) <$> PropertyValue.get ⟨key⟩
  | set T key newVal => (fun _ => .void) <$> PropertyValue.set (⟨key⟩ : PropertyValue T) newVal
  | get_prop_variant key => .value <$> PropertyMap.get_prop_variant C memory key
  | query_prop key => (fun r => .answer r.1 r.2) <$> PropertyMap.query_prop key
  | set_prop_variant key val => .set <$> PropertyMap.set_prop_variant C memory key val

end Op

structure Session where
  map : PropertyMap := {}
  refs : List (PropType × String) := []

def Session.step (s : Session) (op : Op) : Option (Session × Out) :=
  if ∀ r ∈ op.uses, r ∈ s.refs then
    match (op.call C memory).exec s.map with
    | (.ok o, m) => some (⟨m, op.gives ++ s.refs⟩, o)
    | (.error e, m) => some (⟨m, s.refs⟩, .thrown e)
  else none

def Session.Performs (s : Session) (x : Op × Out) (t : Session) : Prop :=
  s.step C memory x.1 = some (t, x.2)

theorem Session.step_ok {C : Compiler} {memory : String → UInt64} {s : Session} {op : Op}
    {o : Out} {m : PropertyMap} (hu : ∀ r ∈ op.uses, r ∈ s.refs)
    (hx : (op.call C memory).exec s.map = (.ok o, m)) :
    s.step C memory op = some (⟨m, op.gives ++ s.refs⟩, o) := by
  rw [step, if_pos hu, hx]

theorem Session.step_error {C : Compiler} {memory : String → UInt64} {s : Session} {op : Op}
    {e : Error} {m : PropertyMap} (hu : ∀ r ∈ op.uses, r ∈ s.refs)
    (hx : (op.call C memory).exec s.map = (.error e, m)) :
    s.step C memory op = some (⟨m, s.refs⟩, .thrown e) := by
  rw [step, if_pos hu, hx]

def Session.trace (s : Session) : List Op → Option (List ((Op × Out) × Session))
  | [] => some []
  | op :: ops => do
    let (t, o) ← s.step C memory op
    let tr ← t.trace ops
    return ((op, o), t) :: tr

theorem Session.isTrace_of_trace {C : Compiler} {memory : String → UInt64} {s : Session}
    {ops : List Op} {tr : List ((Op × Out) × Session)} (h : s.trace C memory ops = some tr) :
    IsTrace (Session.Performs C memory) s tr ∧ tr.map (fun x => x.1.1) = ops := by
  induction ops generalizing s tr with
  | nil =>
    cases h
    exact ⟨trivial, rfl⟩
  | cons op ops ih =>
    simp only [trace, Option.bind_eq_bind, Option.bind_eq_some_iff] at h
    obtain ⟨⟨t, o⟩, ht, tr', htr, hx⟩ := h
    cases hx
    obtain ⟨hi, hm⟩ := ih htr
    exact ⟨⟨ht, hi⟩, congrArg (op :: ·) hm⟩

theorem Session.Performs.uses {C : Compiler} {memory : String → UInt64} {s t : Session}
    {x : Op × Out} (h : s.Performs C memory x t) : ∀ r ∈ x.1.uses, r ∈ s.refs := by
  by_contra hn
  rw [Performs, step, if_neg hn] at h
  cases h

/-- The map after a call is the one the method leaves, and a reference is new if it
was just returned. -/
theorem Session.Performs.map_eq {C : Compiler} {memory : String → UInt64} {s t : Session}
    {x : Op × Out} (h : s.Performs C memory x t) :
    t.map = ((x.1.call C memory).exec s.map).2 ∧
      ((∃ e, ((x.1.call C memory).exec s.map).1 = .error e ∧ x.2 = .thrown e ∧ t.refs = s.refs) ∨
        ((x.1.call C memory).exec s.map).1 = .ok x.2 ∧ t.refs = x.1.gives ++ s.refs) := by
  have hu := h.uses
  rw [Performs, step, if_pos hu] at h
  rcases hx : (x.1.call C memory).exec s.map with ⟨r, m⟩
  rw [hx] at h
  cases r with
  | ok o =>
    obtain ⟨rfl, ho⟩ := Prod.mk.inj (Option.some.inj h)
    exact ⟨rfl, Or.inr ⟨congrArg Except.ok ho, rfl⟩⟩
  | error e =>
    obtain ⟨rfl, ho⟩ := Prod.mk.inj (Option.some.inj h)
    exact ⟨rfl, Or.inl ⟨e, rfl, ho.symm, rfl⟩⟩

end Omulator.Props
