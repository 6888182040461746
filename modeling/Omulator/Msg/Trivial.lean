import Omulator.Lib.Floating
import Omulator.Msg.Journey

/-!
# Trivial payloads (`Message.hpp`, `MessageQueue.hpp`, `MailboxReceiver.hpp`, `MailboxSender.hpp`)

The types that a payload can have without being allocated, the casts that `push` and the lambda of
`on_trivial_payload` make of their values, and the way of a message with such a payload.
-/

namespace Omulator.Msg
open Omulator.Lib Omulator.Lib.Floating

/-- The arithmetic types and the pointers; `long double` has more than eight bytes. -/
inductive TrivialType where
  | unsigned (bytes : ℕ)
  | signed (bytes : ℕ)
  | bool
  | float
  | double
  | pointer
  deriving DecidableEq, Repr

namespace TrivialType

/-- Signed integers are kept in two's complement. -/
def Val : TrivialType → Type
  | .unsigned bytes | .signed bytes => BitVec (8 * bytes)
  | .bool => Bool
  | .float => Float32
  | .double => Float
  | .pointer => UInt64

def sizeof : TrivialType → ℕ
  | .unsigned bytes | .signed bytes => bytes
  | .bool => 1
  | .float => 4
  | .double | .pointer => 8

/-- All of these types have default values, and convert to `U64` or are pointers. -/
def valid_trivial_payload_type (T : TrivialType) : Prop := T.sizeof ≤ 8

/-- `static_cast<const U64>(payload)` and `reinterpret_cast<const U64>(payload)`: `none` where the
cast is undefined. -/
def toU64 : (T : TrivialType) → T.Val → Option UInt64
  | .unsigned _, v => some (UInt64.ofBitVec (v.setWidth 64))
  | .signed _, v => some (UInt64.ofBitVec (v.signExtend 64))
  | .bool, v => some (Bool.toUInt64 v)
  | .float, v => (toUnsigned 64 v.toModel.unpack).map UInt64.ofNat
  | .double, v => (toUnsigned 64 v.toModel.unpack).map UInt64.ofNat
  | .pointer, v => some v

/-- `static_cast<T>(msg.payload)` and `reinterpret_cast<T>(msg.payload)`. -/
def ofU64 : (T : TrivialType) → UInt64 → T.Val
  | .unsigned bytes, n => n.toBitVec.setWidth (8 * bytes)
  | .signed bytes, n => n.toBitVec.setWidth (8 * bytes)
  | .bool, n => n != 0
  | .float, n => n.toFloat32
  | .double, n => n.toFloat
  | .pointer, n => n

/-- `==`; that of floating-point values is not the equality of their bits. -/
instance : (T : TrivialType) → BEq T.Val
  | .unsigned bytes | .signed bytes => inferInstanceAs (BEq (BitVec (8 * bytes)))
  | .bool => inferInstanceAs (BEq Bool)
  | .float => inferInstanceAs (BEq Float32)
  | .double => inferInstanceAs (BEq Float)
  | .pointer => inferInstanceAs (BEq UInt64)

/-- A floating-point value is a whole number that `U64` has. -/
def Whole : (T : TrivialType) → T.Val → Prop
  | .float, v => ∃ n : ℕ, n < 2 ^ 64 ∧ value v.toModel.unpack = some (n : ℚ)
  | .double, v => ∃ n : ℕ, n < 2 ^ 64 ∧ value v.toModel.unpack = some (n : ℚ)
  | _, _ => True

def RoundTrips (T : TrivialType) (v : T.Val) : Prop :=
  ∃ n, T.toU64 v = some n ∧ (T.ofU64 n == v) = true

theorem toUnsigned_lt {f : Float.Model.UnpackedFloat} {w n : ℕ} (h : toUnsigned w f = some n) :
    n < 2 ^ w := by
  cases f with
  | zero s =>
    cases h
    exact Nat.two_pow_pos w
  | finite s m e hm => exact ((toUnsigned_finite_iff hm).mp h).2
  | infinity s => cases h
  | notANumber => cases h

theorem exists_cast_iff {f : Float.Model.UnpackedFloat} {P : UInt64 → Prop} {Q : ℕ → Prop}
    (h : ∀ k < 2 ^ 64, P (UInt64.ofNat k) ↔ Q k) :
    (∃ n, (toUnsigned 64 f).map UInt64.ofNat = some n ∧ P n) ↔
      ∃ k, toUnsigned 64 f = some k ∧ Q k := by
  constructor
  · rintro ⟨n, hcast, hP⟩
    obtain ⟨k, hk, rfl⟩ := Option.map_eq_some_iff.mp hcast
    exact ⟨k, hk, (h k (toUnsigned_lt hk)).mp hP⟩
  · rintro ⟨k, hk, hQ⟩
    exact ⟨_, Option.map_eq_some_iff.mpr ⟨k, hk, rfl⟩, (h k (toUnsigned_lt hk)).mpr hQ⟩

theorem roundTrips_double (v : Float) : RoundTrips .double v ↔ Whole .double v := by
  refine Iff.trans ?_ (back_iff wide_binary64 64 v.toModel.toBits.toBitVec)
  refine exists_cast_iff fun k hk => ?_
  have hval : (UInt64.ofNat k).toNat = k := UInt64.toNat_ofNat_of_lt' hk
  change (Float.Model.UnpackedFloat.unpack _ (Float.Model.UnpackedFloat.pack _
    (Float.Model.UnpackedFloat.ofNat _ (UInt64.ofNat k).toNat))).beq _ = true ↔ _
  rw [hval]
  exact Iff.rfl

theorem roundTrips_float (v : Float32) : RoundTrips .float v ↔ Whole .float v := by
  refine Iff.trans ?_ (back_iff wide_binary32 64 v.toModel.toBits.toBitVec)
  refine exists_cast_iff fun k hk => ?_
  have hval : (UInt64.ofNat k).toNat = k := UInt64.toNat_ofNat_of_lt' hk
  change (Float.Model.UnpackedFloat.unpack _ (Float.Model.UnpackedFloat.pack _
    (Float.Model.UnpackedFloat.ofNat _ (UInt64.ofNat k).toNat))).beq _ = true ↔ _
  rw [hval]
  exact Iff.rfl

theorem roundTrips_unsigned {bytes : ℕ} (h : bytes ≤ 8) (v : BitVec (8 * bytes)) :
    RoundTrips (.unsigned bytes) v := by
  refine ⟨_, rfl, ?_⟩
  change ((v.setWidth 64).setWidth (8 * bytes) == v) = true
  rw [BitVec.setWidth_setWidth_of_le v (by omega), BitVec.setWidth_eq, beq_self_eq_true]

theorem roundTrips_signed {bytes : ℕ} (h : bytes ≤ 8) (v : BitVec (8 * bytes)) :
    RoundTrips (.signed bytes) v := by
  refine ⟨_, rfl, ?_⟩
  change ((v.signExtend 64).setWidth (8 * bytes) == v) = true
  rw [beq_iff_eq]
  ext i hi
  have hi64 : i < 64 := by omega
  simp [BitVec.getElem_signExtend, hi, hi64]

theorem roundTrips_bool (v : Bool) : RoundTrips .bool v := by
  refine ⟨_, rfl, ?_⟩
  cases v <;> rfl

theorem roundTrips_pointer (v : UInt64) : RoundTrips .pointer v :=
  ⟨v, rfl, beq_self_eq_true v⟩

theorem roundTrips_iff {T : TrivialType} (hT : T.valid_trivial_payload_type) (v : T.Val) :
    RoundTrips T v ↔ Whole T v := by
  cases T with
  | unsigned bytes => exact iff_of_true (roundTrips_unsigned hT v) trivial
  | signed bytes => exact iff_of_true (roundTrips_signed hT v) trivial
  | bool => exact iff_of_true (roundTrips_bool v) trivial
  | float => exact roundTrips_float v
  | double => exact roundTrips_double v
  | pointer => exact iff_of_true (roundTrips_pointer v) trivial

end TrivialType

/-! ### The callback -/

/-- What the lambda of `on_trivial_payload<T>` calls `callback` with. -/
def on_trivial_payload (T : TrivialType) (msg : Message) : T.Val :=
  T.ofU64 (UInt64.ofNat msg.payload)

/-- The cast of `v` is defined, and on each way of its message the callback is called with a value
equal to `v`. -/
def Arrives (T : TrivialType) (v : T.Val) : Prop :=
  ∃ n, T.toU64 v = some n ∧ ∀ (type : MessageType) (j : Journey type n.toNat),
    ∃ calls, j.Calls calls ∧ (j.cb, ⟨type, .FLAGS_NULL, n.toNat⟩) ∈ calls ∧
      (on_trivial_payload T ⟨type, .FLAGS_NULL, n.toNat⟩ == v) = true

theorem on_trivial_payload_toNat (T : TrivialType) (type : MessageType) (n : UInt64) :
    on_trivial_payload T ⟨type, .FLAGS_NULL, n.toNat⟩ = T.ofU64 n :=
  congrArg T.ofU64 (UInt64.ofNat_toNat)

theorem arrives_iff_roundTrips (T : TrivialType) (v : T.Val) : Arrives T v ↔ T.RoundTrips v := by
  constructor
  · rintro ⟨n, hcast, hall⟩
    obtain ⟨calls, -, -, heq⟩ := hall .POKE (.direct n.toNat)
    exact ⟨n, hcast, on_trivial_payload_toNat T .POKE n ▸ heq⟩
  · rintro ⟨n, hcast, heq⟩
    refine ⟨n, hcast, ?_⟩
    intro type j
    obtain ⟨calls, hcalls, hin⟩ := j.called
    exact ⟨calls, hcalls, hin, on_trivial_payload_toNat T type n ▸ heq⟩

theorem trivial_payload_arrives_iff (T : TrivialType) (hT : T.valid_trivial_payload_type)
    (v : T.Val) : Arrives T v ↔ T.Whole v :=
  (arrives_iff_roundTrips T v).trans (TrivialType.roundTrips_iff hT v)

/-- Three is received as three. -/
example : Arrives .double (Float.ofBits 0x4008000000000000) :=
  (arrives_iff_roundTrips _ _).mpr ⟨3, by decide, by decide⟩

theorem minusOne_arrives : Arrives (.signed 4) (-1 : BitVec 32) :=
  (trivial_payload_arrives_iff (.signed 4) (by decide : 4 ≤ 8) (-1 : BitVec 32)).mpr trivial

/-- One and a half is received as one. -/
theorem fraction_lost : ¬ ∀ T : TrivialType, T.valid_trivial_payload_type →
    ∀ v : T.Val, Arrives T v := by
  intro hall
  have hback := (arrives_iff_roundTrips _ _).mp
    (hall .double (Nat.le_refl 8) (Float.ofBits 0x3FF8000000000000))
  obtain ⟨n, hcast, heq⟩ := hback
  have hone : TrivialType.toU64 .double (Float.ofBits 0x3FF8000000000000) = some 1 := by decide
  rw [hone] at hcast
  cases hcast
  exact absurd heq (by decide)

end Omulator.Msg
