import Mathlib.Data.Nat.ModEq
import Mathlib.Data.Nat.Prime.Basic

/-!
# Type hashes (`include/omulator/util/TypeHash.hpp`)

FNV-1a over the text that names a type, in 32 and in 64 bits. Every round is a bijection of the
hash, so texts that differ in one character keep different hashes to the end.
-/

namespace Omulator.Util

inductive HashSize_t where
  | uint32_t
  | uint64_t
  deriving DecidableEq

def HashSize_t.bits : HashSize_t → ℕ
  | uint32_t => 32
  | uint64_t => 64

def FNV_BASIS_32 : BitVec 32 := 0x811C9DC5#32
def FNV_PRIME_32 : BitVec 32 := 0x01000193#32
def FNV_BASIS_64 : BitVec 64 := 0xCBF29CE484222325#64
def FNV_PRIME_64 : BitVec 64 := 0x00000100000001B3#64

/-- The second and the third template argument that go with the first. -/
def HashSize_t.fnv_basis : (H : HashSize_t) → BitVec H.bits
  | uint32_t => FNV_BASIS_32
  | uint64_t => FNV_BASIS_64

def HashSize_t.fnv_prime : (H : HashSize_t) → BitVec H.bits
  | uint32_t => FNV_PRIME_32
  | uint64_t => FNV_PRIME_64

/-- `static_cast<HashSize_t>(c)`; whether `char` has a sign is up to the compiler. -/
def castChar (charSigned : Bool) (w : ℕ) (c : BitVec 8) : BitVec w :=
  if charSigned then c.signExtend w else c.setWidth w

section
variable {w : ℕ} (charSigned : Bool) (fnv_prime : BitVec w)

def fnv1a_round (hash : BitVec w) (c : BitVec 8) : BitVec w :=
  (hash ^^^ castChar charSigned w c) * fnv_prime

/-- `fnv1a_hash(sv)`, with `hash` for the basis. -/
def fnv1a_hash (hash : BitVec w) (sv : List (BitVec 8)) : BitVec w :=
  sv.foldl (fnv1a_round charSigned fnv_prime) hash

variable {charSigned} {fnv_prime}

/-! ### Each round is a bijection -/

theorem castChar_setWidth (hw : 8 ≤ w) (c : BitVec 8) :
    (castChar charSigned w c).setWidth 8 = c := by
  unfold castChar
  split
  · ext i hi
    have hiw : i < w := by omega
    simp [BitVec.getElem_signExtend, hi, hiw]
  · rw [BitVec.setWidth_setWidth_of_le c hw, BitVec.setWidth_eq]

theorem castChar_ne (charSigned : Bool) (hw : 8 ≤ w) {c d : BitVec 8} (h : c ≠ d) :
    castChar charSigned w c ≠ castChar charSigned w d := by
  intro heq
  have hback := congrArg (BitVec.setWidth 8) heq
  rw [castChar_setWidth hw, castChar_setWidth hw] at hback
  exact h hback

theorem mul_ne_of_odd (hp : fnv_prime.toNat % 2 = 1) {x y : BitVec w} (h : x ≠ y) :
    x * fnv_prime ≠ y * fnv_prime := by
  intro heq
  have hmod : x.toNat * fnv_prime.toNat ≡ y.toNat * fnv_prime.toNat [MOD 2 ^ w] := by
    have hnat := congrArg BitVec.toNat heq
    rwa [BitVec.toNat_mul, BitVec.toNat_mul] at hnat
  have hcop : Nat.gcd (2 ^ w) fnv_prime.toNat = 1 :=
    Nat.Coprime.pow_left w (Nat.coprime_two_left.mpr (Nat.odd_iff.mpr hp))
  have hxy : x.toNat ≡ y.toNat [MOD 2 ^ w] := Nat.ModEq.cancel_right_of_coprime hcop hmod
  have hx : x.toNat % 2 ^ w = y.toNat % 2 ^ w := hxy
  rw [Nat.mod_eq_of_lt x.isLt, Nat.mod_eq_of_lt y.isLt] at hx
  exact h (BitVec.eq_of_toNat_eq hx)

theorem fnv1a_round_ne_of_hash (hp : fnv_prime.toNat % 2 = 1) {x y : BitVec w} (h : x ≠ y)
    (c : BitVec 8) :
    fnv1a_round charSigned fnv_prime x c ≠ fnv1a_round charSigned fnv_prime y c := by
  refine mul_ne_of_odd hp fun heq => h ?_
  exact (BitVec.xor_left_inj _).mp heq

theorem fnv1a_round_ne_of_char (charSigned : Bool) (hw : 8 ≤ w)
    (hp : fnv_prime.toNat % 2 = 1) {c d : BitVec 8} (h : c ≠ d) (x : BitVec w) :
    fnv1a_round charSigned fnv_prime x c ≠ fnv1a_round charSigned fnv_prime x d := by
  refine mul_ne_of_odd hp fun heq => castChar_ne charSigned hw h ?_
  exact (BitVec.xor_right_inj _).mp heq

/-- Hashes that differ keep differing while the same characters are read. -/
theorem fnv1a_hash_ne (hp : fnv_prime.toNat % 2 = 1) (sv : List (BitVec 8)) {x y : BitVec w}
    (h : x ≠ y) :
    fnv1a_hash charSigned fnv_prime x sv ≠ fnv1a_hash charSigned fnv_prime y sv := by
  induction sv generalizing x y with
  | nil => exact h
  | cons c sv ih => exact ih (fnv1a_round_ne_of_hash hp h c)

theorem fnv1a_hash_append (x : BitVec w) (p s : List (BitVec 8)) :
    fnv1a_hash charSigned fnv_prime x (p ++ s) =
      fnv1a_hash charSigned fnv_prime (fnv1a_hash charSigned fnv_prime x p) s :=
  List.foldl_append

end

theorem HashSize_t.bits_le (H : HashSize_t) : 8 ≤ H.bits := by
  cases H with
  | uint32_t => decide
  | uint64_t => decide

theorem HashSize_t.fnv_prime_odd (H : HashSize_t) : H.fnv_prime.toNat % 2 = 1 := by
  cases H with
  | uint32_t => decide
  | uint64_t => decide

/-- Two texts that differ in one character have different hashes. -/
theorem fnv1a_hash_separates (H : HashSize_t) (charSigned : Bool) (p s : List (BitVec 8))
    (c d : BitVec 8) (hcd : c ≠ d) :
    fnv1a_hash charSigned H.fnv_prime H.fnv_basis (p ++ c :: s) ≠
      fnv1a_hash charSigned H.fnv_prime H.fnv_basis (p ++ d :: s) := by
  rw [fnv1a_hash_append, fnv1a_hash_append]
  have hround := fnv1a_round_ne_of_char charSigned H.bits_le H.fnv_prime_odd hcd
    (fnv1a_hash charSigned H.fnv_prime H.fnv_basis p)
  exact fnv1a_hash_ne H.fnv_prime_odd s hround

/-- `int` and `ins`. -/
theorem fnv1a_hash_int_ins :
    fnv1a_hash true FNV_PRIME_64 FNV_BASIS_64 [0x69, 0x6e, 0x74] ≠
      fnv1a_hash true FNV_PRIME_64 FNV_BASIS_64 [0x69, 0x6e, 0x73] :=
  fnv1a_hash_separates .uint64_t true [0x69, 0x6e] [] 0x74 0x73 (by decide)

/-- The published hash of `a`. -/
example : fnv1a_hash true FNV_PRIME_32 FNV_BASIS_32 [0x61] = 0xE40C292C#32 := by decide

end Omulator.Util
