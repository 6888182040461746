import Omulator.Lib.Floating

/-!
# Property values (`include/omulator/PropertyMap.hpp`)

The five types of a property, `PropVariant_t`, and the conversions of
`extract_variant_`, of which those of a `double` to an integer are partial.
-/

namespace Omulator.Props
open Lib.Floating

/-- `prop_map_type`. -/
inductive PropType where
  | S64 | U64 | bool | double | string
  deriving DecidableEq, Repr

/-- A `double` is its bit pattern: what is stored is what is read. -/
structure Double where
  bits : UInt64
  deriving DecidableEq, Repr

namespace Double

def unpack (d : Double) : Float.Model.UnpackedFloat :=
  Float.Model.UnpackedFloat.unpack .binary64 d.bits.toBitVec

/-- `static_cast<S64>(d)`: `none` where the cast is undefined. -/
def toS64 (d : Double) : Option Int64 := (toSigned 64 d.unpack).map Int64.ofInt

/-- `static_cast<U64>(d)`. -/
def toU64 (d : Double) : Option UInt64 := (toUnsigned 64 d.unpack).map UInt64.ofNat

end Double

def PropType.Val : PropType → Type
  | S64 => Int64
  | U64 => UInt64
  | bool => Bool
  | double => Double
  | string => String

instance : (T : PropType) → DecidableEq T.Val
  | .S64 => inferInstanceAs (DecidableEq Int64)
  | .U64 => inferInstanceAs (DecidableEq UInt64)
  | .bool => inferInstanceAs (DecidableEq Bool)
  | .double => inferInstanceAs (DecidableEq Double)
  | .string => inferInstanceAs (DecidableEq String)

def PropType.zero : (T : PropType) → T.Val
  | S64 => (0 : Int64)
  | U64 => (0 : UInt64)
  | bool => false
  | double => ⟨0⟩
  | string => ""

abbrev Hash_t := UInt64

/-- What the compiler and its library decide: `util::TypeHash` of the five types, which
would not compile if two of them were equal (`get_prop_` would return a reference to a
member of another type), and what else it does with a `double`, its text format included. -/
structure Compiler where
  TypeHash : PropType → Hash_t
  distinct : Function.Injective TypeHash
  ofS64 : Int64 → Double
  ofU64 : UInt64 → Double
  ofBool : Bool → Double
  toBool : Double → Bool
  /-- `ss << d` -/
  format : Double → String
  /-- `double t{}; iss >> t` -/
  scan : String → Double

/-- One in which the hashes are small and nothing is converted to a `double`. -/
def Compiler.sample : Compiler where
  TypeHash
    | .S64 => 1
    | .U64 => 2
    | .bool => 3
    | .double => 4
    | .string => 5
  distinct T U h := by
    cases T <;> cases U <;> first | rfl | exact absurd h (by decide)
  ofS64 _ := ⟨0⟩
  ofU64 _ := ⟨0⟩
  ofBool _ := ⟨0⟩
  toBool _ := false
  format _ := "0"
  scan _ := ⟨0⟩

/-- `std::variant<S64, U64, bool, double, std::string>` (never valueless: only an exception
while a value is put in could make it so). -/
structure PropVariant_t where
  index : PropType
  val : index.Val
  deriving DecidableEq

namespace PropVariant_t

def holds_alternative (T : PropType) (v : PropVariant_t) : Bool := v.index = T

/-- `std::get<T>`, for a variant that holds it. -/
def get? (T : PropType) (v : PropVariant_t) : Option T.Val :=
  if h : v.index = T then some (h ▸ v.val) else none

@[simp] theorem get?_mk (T : PropType) (x : T.Val) : get? T ⟨T, x⟩ = some x := by simp [get?]

end PropVariant_t

/-! ### Reading a number from a text -/

/-- `std::isspace` of the classic locale. -/
def isspace (c : Char) : Bool :=
  c = ' ' || c = '\t' || c = '\n' || c = '\r' || c.val = 11 || c.val = 12

def digits : List Char → List Char := List.takeWhile Char.isDigit

def magnitude (cs : List Char) : ℕ := cs.foldl (fun n c => 10 * n + (c.toNat - '0'.toNat)) 0

/-- Blanks, a sign and decimal digits: the sign is negative, and the digits read. -/
def scanInt (s : String) : Bool × List Char :=
  match s.toList.dropWhile isspace with
  | '-' :: cs => (true, digits cs)
  | '+' :: cs => (false, digits cs)
  | cs => (false, digits cs)

/-- `long t{}; iss >> t`: no digits leave 0, and a number out of range gives the nearest bound. -/
def scanS64 (s : String) : Int64 :=
  let (neg, ds) := scanInt s
  let n : ℤ := magnitude ds
  Int64.ofInt (max (-2 ^ 63) (min (if neg then -n else n) (2 ^ 63 - 1)))

/-- `unsigned long t{}; iss >> t`: a negative number in range wraps around. -/
def scanU64 (s : String) : UInt64 :=
  let (neg, ds) := scanInt s
  let n := magnitude ds
  if 2 ^ 64 ≤ n then UInt64.ofNat (2 ^ 64 - 1)
  else if neg then UInt64.ofNat (2 ^ 64 - n) else UInt64.ofNat n

/-- `bool t{}; iss >> t` reads a `long`, and anything but 0 gives true. -/
def scanBool (s : String) : Bool := scanS64 s ≠ 0

/-! ### Conversions -/

variable (C : Compiler)

namespace Compiler

/-- `static_cast<S64>`, or the text read as one; the three functions below likewise. -/
def castS64 : (U : PropType) → U.Val → Option Int64
  | .S64, (v : Int64) => some v
  | .U64, (v : UInt64) => some v.toInt64
  | .bool, (v : Bool) => some (if v then 1 else 0)
  | .double, (v : Double) => v.toS64
  | .string, (v : String) => some (scanS64 v)

def castU64 : (U : PropType) → U.Val → Option UInt64
  | .S64, (v : Int64) => some v.toUInt64
  | .U64, (v : UInt64) => some v
  | .bool, (v : Bool) => some (if v then 1 else 0)
  | .double, (v : Double) => v.toU64
  | .string, (v : String) => some (scanU64 v)

def castBool : (U : PropType) → U.Val → Bool
  | .S64, (v : Int64) => v ≠ 0
  | .U64, (v : UInt64) => v ≠ 0
  | .bool, (v : Bool) => v
  | .double, (v : Double) => C.toBool v
  | .string, (v : String) => scanBool v

def castDouble : (U : PropType) → U.Val → Double
  | .S64, (v : Int64) => C.ofS64 v
  | .U64, (v : UInt64) => C.ofU64 v
  | .bool, (v : Bool) => C.ofBool v
  | .double, (v : Double) => v
  | .string, (v : String) => C.scan v

def extract_variant_string_ (v : PropVariant_t) : String :=
  match v with
  | ⟨.S64, (v : Int64)⟩ => toString v.toInt
  | ⟨.U64, (v : UInt64)⟩ => toString v.toNat
  | ⟨.bool, (v : Bool)⟩ => if v then "true" else "false"
  | ⟨.double, (v : Double)⟩ => C.format v
  | ⟨.string, (v : String)⟩ => v

/-- `none` where a cast is undefined. The last branch of the source, a variant that holds none of
the five, does not arise. -/
def extract_variant_ (T : PropType) (v : PropVariant_t) : Option T.Val :=
  match v.get? T with
  | some x => some x
  | none =>
    match T with
    | .S64 => castS64 v.index v.val
    | .U64 => castU64 v.index v.val
    | .bool => some (C.castBool v.index v.val)
    | .double => some (C.castDouble v.index v.val)
    | .string => some (C.extract_variant_string_ v)

@[simp] theorem extract_variant_mk (T : PropType) (x : T.Val) :
    C.extract_variant_ T ⟨T, x⟩ = some x := by simp [extract_variant_]

end Compiler

/-! ### Where they are defined -/

/-- A `double` is for an integer type only what is left in its range without the fraction: not a
NaN, no infinity, and no number beyond. -/
def Castable : PropType → PropVariant_t → Prop
  | .S64, ⟨.double, d⟩ => ∃ q, value (Double.unpack d) = some q ∧ -2 ^ 63 - 1 < q ∧ q < 2 ^ 63
  | .U64, ⟨.double, d⟩ => ∃ q, value (Double.unpack d) = some q ∧ -1 < q ∧ q < 2 ^ 64
  | _, _ => True

theorem extract_variant_isSome_iff {C : Compiler} {T : PropType} {v : PropVariant_t} :
    (C.extract_variant_ T v).isSome ↔ Castable T v := by
  obtain ⟨U, x⟩ := v
  cases T with
  | bool | double | string =>
    refine iff_of_true ?_ trivial
    unfold Compiler.extract_variant_
    split <;> rfl
  | S64 =>
    cases U with
    | S64 | U64 | bool | string => exact iff_of_true rfl trivial
    | double =>
      have hcast : (C.extract_variant_ .S64 ⟨.double, x⟩).isSome = (toSigned 64 _).isSome :=
        Option.isSome_map
      rw [hcast]
      exact toSigned_isSome_iff
  | U64 =>
    cases U with
    | S64 | U64 | bool | string => exact iff_of_true rfl trivial
    | double =>
      have hcast : (C.extract_variant_ .U64 ⟨.double, x⟩).isSome = (toUnsigned 64 _).isSome :=
        Option.isSome_map
      rw [hcast]
      exact toUnsigned_isSome_iff

example : scanS64 "  -12ab" = -12 := by decide

end Omulator.Props
