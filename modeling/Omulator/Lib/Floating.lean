import Mathlib

/-!
# Whole numbers in binary floating-point formats

Which values of a format come back when they are truncated to a whole number, and that number is
converted to the format again. The formats, the packed values and their conversions are those of
the language.
-/

namespace Omulator.Lib.Floating
open Float.Model (Format UnpackedFloat totalExponent)
open Float.Model.UnpackedFloat

/-- The format has the exponent 0, and the number 1. -/
structure Wide (spec : Format) : Prop where
  low : 1 ≤ spec.exponentBias + spec.mantissaBitsWithoutImplicit
  high : spec.exponentBias + spec.mantissaBitsWithoutImplicit + 1 < 2 ^ spec.exponentBits

theorem wide_binary32 : Wide .binary32 := ⟨by decide, by decide⟩

theorem wide_binary64 : Wide .binary64 := ⟨by decide, by decide⟩

/-- The exponent is the one that the format has for the number. -/
def Canonical (spec : Format) (m : ℕ) (e : ℤ) : Prop :=
  e = spec.targetExponent (totalExponent m e)

/-- The exponent is not that of infinity, nor beyond it. -/
def Fits (spec : Format) (e : ℤ) : Prop :=
  e + spec.exponentBias + spec.mantissaBitsWithoutImplicit + 1 < (2 ^ spec.exponentBits : ℕ)

variable {spec : Format} {s : Sign} {m n : ℕ} {e : ℤ}

theorem minExponent_eq : spec.minExponent =
    1 - ((spec.exponentBias : ℤ) + spec.mantissaBitsWithoutImplicit) := by
  have hpos : 0 < 2 ^ (spec.exponentBits - 1) := Nat.two_pow_pos _
  have hcast : ((2 ^ (spec.exponentBits - 1) : ℕ) : ℤ) = 2 ^ (spec.exponentBits - 1) :=
    Int.natCast_pow 2 _
  simp only [Format.minExponent, Format.exponentBias, Format.mantissaBits]
  omega

theorem canonical_iff : Canonical spec m e ↔
    spec.minExponent ≤ e ∧ m.log2 ≤ spec.mantissaBitsWithoutImplicit ∧
      (e = spec.minExponent ∨ m.log2 = spec.mantissaBitsWithoutImplicit) := by
  simp only [Canonical, Format.targetExponent, totalExponent, Format.mantissaBits]
  omega

/-! ### Packed values -/

theorem ofBitVec_toBitVec (s : Sign) : Sign.ofBitVec s.toBitVec = s := by
  cases s <;> rfl

theorem unpackSign_packComponents {exponent : BitVec spec.exponentBits}
    {mantissa : BitVec spec.mantissaBitsWithoutImplicit} :
    unpackSign (packComponents spec s exponent mantissa) = s.toBitVec := by
  ext i hi
  have h0 : i = 0 := Nat.lt_one_iff.mp hi
  subst h0
  simp [unpackSign, packComponents, BitVec.getLsbD_append, ← BitVec.getLsbD_eq_getElem]

theorem toNat_implicit {w : ℕ} (b : BitVec w) : (1#1 ++ b).toNat = 2 ^ w + b.toNat := by
  have hor := Nat.two_pow_add_eq_or_of_lt b.isLt 1
  rw [BitVec.toNat_append, Nat.shiftLeft_eq]
  simpa using hor.symm

theorem log2_implicit {w : ℕ} (b : BitVec w) : (1#1 ++ b).toNat.log2 = w := by
  have hb := b.isLt
  rw [toNat_implicit, Nat.log2_eq_iff (by omega), Nat.pow_succ]
  omega

theorem toNat_ne_of_ne {w : ℕ} {b c : BitVec w} (h : b ≠ c) : b.toNat ≠ c.toNat :=
  fun heq => h (BitVec.eq_of_toNat_eq heq)

theorem toNat_neg_one {w : ℕ} : (-1#w).toNat = 2 ^ w - 1 := by
  rw [BitVec.neg_one_eq_allOnes, BitVec.toNat_allOnes]

theorem unpack_finite (hw : Wide spec) {b : BitVec spec.numBits} {hm : 0 < m}
    (h : unpack spec b = .finite s m e hm) : Canonical spec m e ∧ Fits spec e := by
  have hlow := hw.low
  have hhigh := hw.high
  rw [canonical_iff, minExponent_eq, Fits]
  simp only [unpack] at h
  split at h
  · split at h <;> cases h
  · rename_i hmax
    have hlt := (unpackExponent b).isLt
    have hne := toNat_ne_of_ne hmax
    rw [toNat_neg_one] at hne
    split at h
    · rename_i hzero
      split at h
      · cases h
      · cases h
        have hlog : (unpackMantissa b).toNat.log2 < spec.mantissaBitsWithoutImplicit :=
          (Nat.log2_lt hm.ne').mpr (unpackMantissa b).isLt
        rw [hzero, BitVec.toNat_zero]
        omega
    · rename_i hzero
      cases h
      have hpos := toNat_ne_of_ne hzero
      rw [BitVec.toNat_zero] at hpos
      rw [log2_implicit]
      omega

theorem ofNat_ne {w k : ℕ} {b : BitVec w} (hk : k < 2 ^ w) (h : k ≠ b.toNat) :
    BitVec.ofNat w k ≠ b := by
  intro heq
  rw [← heq, BitVec.toNat_ofNat, Nat.mod_eq_of_lt hk] at h
  exact h rfl

theorem ofNat_ne_neg_one {w k : ℕ} (h : k + 1 < 2 ^ w) : BitVec.ofNat w k ≠ -1#_ := by
  refine ofNat_ne (by omega) ?_
  rw [toNat_neg_one]
  omega

theorem ofNat_ne_zero {w k : ℕ} (hpos : 0 < k) (h : k < 2 ^ w) : BitVec.ofNat w k ≠ 0#_ := by
  refine ofNat_ne h ?_
  rw [BitVec.toNat_zero]
  exact hpos.ne'

theorem unpack_pack_zero (hw : Wide spec) (s : Sign) :
    unpack spec (pack spec (.zero s)) = .zero s := by
  have hhigh := hw.high
  have hne : (0#(spec.exponentBits)) ≠ -1#_ := ofNat_ne_neg_one (by omega)
  simp [unpack, pack, packedZero, hne]

theorem toNat_ofNat_implicit {w : ℕ} (hm : 0 < m) (h : m.log2 = w) :
    (1#1 ++ BitVec.ofNat w m).toNat = m := by
  have hlo : 2 ^ m.log2 ≤ m := Nat.log2_self_le hm.ne'
  have hhi : m < 2 ^ (m.log2 + 1) := Nat.lt_log2_self
  rw [h] at hlo
  rw [h, Nat.pow_succ] at hhi
  rw [toNat_implicit, BitVec.toNat_ofNat, Nat.mod_eq_sub_mod hlo, Nat.mod_eq_of_lt (by omega)]
  omega

theorem unpack_pack_normal (hf : Fits spec e) (hmin : spec.minExponent ≤ e)
    (hfull : m.log2 = spec.mantissaBitsWithoutImplicit) (hm : 0 < m) :
    unpack spec (pack spec (.finite s m e hm)) = .finite s m e hm := by
  rw [minExponent_eq] at hmin
  rw [Fits] at hf
  have hlt : (e + spec.exponentBias + spec.mantissaBitsWithoutImplicit).toNat + 1 <
      2 ^ spec.exponentBits := by omega
  have hpos : 0 < (e + spec.exponentBias + spec.mantissaBitsWithoutImplicit).toNat := by omega
  have hback : ((e + spec.exponentBias + spec.mantissaBitsWithoutImplicit).toNat : ℤ) -
      (spec.exponentBias + spec.mantissaBitsWithoutImplicit) = e := by omega
  generalize hbiased : (e + spec.exponentBias + spec.mantissaBitsWithoutImplicit).toNat = biased
    at *
  have hmax : BitVec.ofNat spec.exponentBits biased ≠ -1#_ := ofNat_ne_neg_one hlt
  have hzero : BitVec.ofNat spec.exponentBits biased ≠ 0#_ := ofNat_ne_zero hpos (by omega)
  have hexp : (BitVec.ofNat spec.exponentBits biased).toNat = biased := by
    rw [BitVec.toNat_ofNat, Nat.mod_eq_of_lt (by omega)]
  have hmant := toNat_ofNat_implicit hm hfull
  have hbits : m.log2 + 1 = spec.mantissaBits := by
    rw [hfull, Format.mantissaBits, Nat.add_comm]
  simp only [pack, hbiased, if_neg (Nat.not_le.mpr hlt), if_pos hbits, unpack,
    unpackExponent_packComponents, unpackMantissa_packComponents, unpackSign_packComponents,
    ofBitVec_toBitVec, if_neg hmax, if_neg hzero, hmant, hexp, hback]

theorem unpack_pack_subnormal (hf : Fits spec e) (hmin : spec.minExponent = e)
    (hlog : m.log2 < spec.mantissaBitsWithoutImplicit) (hm : 0 < m) :
    unpack spec (pack spec (.finite s m e hm)) = .finite s m e hm := by
  rw [minExponent_eq] at hmin
  rw [Fits] at hf
  have hlt : (e + spec.exponentBias + spec.mantissaBitsWithoutImplicit).toNat + 1 <
      2 ^ spec.exponentBits := by omega
  have hleast : ((0 : ℕ) : ℤ) - (spec.exponentBias + spec.mantissaBitsWithoutImplicit) + 1 =
      e := by omega
  have hbits : m.log2 + 1 ≠ spec.mantissaBits := by
    rw [Format.mantissaBits, Nat.add_comm]
    exact fun heq => hlog.ne (Nat.add_left_cancel heq)
  have hsmall : m < 2 ^ spec.mantissaBitsWithoutImplicit := (Nat.log2_lt hm.ne').mp hlog
  have hmant : (BitVec.ofNat spec.mantissaBitsWithoutImplicit m).toNat = m := by
    rw [BitVec.toNat_ofNat, Nat.mod_eq_of_lt hsmall]
  have hsome : BitVec.ofNat spec.mantissaBitsWithoutImplicit m ≠ 0#_ := ofNat_ne_zero hm hsmall
  have hnone : (0#(spec.exponentBits)) ≠ -1#_ := ofNat_ne_neg_one (by omega)
  simp only [pack, if_neg (Nat.not_le.mpr hlt), if_neg hbits, unpack,
    unpackExponent_packComponents, unpackMantissa_packComponents, unpackSign_packComponents,
    ofBitVec_toBitVec, if_neg hnone, if_pos, dif_neg hsome, hmant, BitVec.toNat_zero, hleast]

theorem unpack_pack_finite (hc : Canonical spec m e) (hf : Fits spec e) (hm : 0 < m) :
    unpack spec (pack spec (.finite s m e hm)) = .finite s m e hm := by
  rw [canonical_iff] at hc
  obtain ⟨hmin, hlog, hnormal⟩ := hc
  by_cases hfull : m.log2 = spec.mantissaBitsWithoutImplicit
  · exact unpack_pack_normal hf hmin hfull hm
  · have hleast : spec.minExponent = e := (hnormal.resolve_right hfull).symm
    exact unpack_pack_subnormal hf hleast (Nat.lt_of_le_of_ne hlog hfull) hm

/-! ### Whole numbers as values of a format -/

theorem shiftRight_mantissa (k : ℕ) :
    ((⟨m, false, false⟩ : ExtendedMantissa) >>> k).mantissa = m / 2 ^ k := by
  induction k with
  | zero => exact (Nat.div_one m).symm
  | succ k ih =>
    change (((⟨m, false, false⟩ : ExtendedMantissa) >>> k).shiftRightOne).mantissa = _
    rw [ExtendedMantissa.shiftRightOne, ih, Nat.div_div_eq_div_mul, Nat.pow_succ]

theorem shiftRight_of_dvd {k : ℕ} (h : 2 ^ k ∣ m) :
    (⟨m, false, false⟩ : ExtendedMantissa) >>> k = ⟨m / 2 ^ k, false, false⟩ := by
  induction k with
  | zero =>
    change (⟨m, false, false⟩ : ExtendedMantissa) = _
    rw [Nat.pow_zero, Nat.div_one]
  | succ k ih =>
    have hk : 2 ^ k ∣ m := (Nat.pow_dvd_pow 2 (Nat.le_succ k)).trans h
    have heven : m / 2 ^ k % 2 = 0 := by
      obtain ⟨c, hc⟩ := h
      rw [hc, Nat.pow_succ, Nat.mul_assoc, Nat.mul_div_cancel_left _ (Nat.two_pow_pos k)]
      exact Nat.mul_mod_right 2 c
    change ((⟨m, false, false⟩ : ExtendedMantissa) >>> k).shiftRightOne = _
    rw [ih hk, ExtendedMantissa.shiftRightOne, heven, Nat.div_div_eq_div_mul, ← Nat.pow_succ]
    rfl

theorem log2_mul_two_pow (hm : 0 < m) (k : ℕ) : (m * 2 ^ k).log2 = m.log2 + k := by
  have hpos : m * 2 ^ k ≠ 0 := (Nat.mul_pos hm (Nat.two_pow_pos k)).ne'
  rw [Nat.log2_eq_iff hpos, Nat.pow_add, Nat.add_right_comm, Nat.pow_add]
  refine ⟨Nat.mul_le_mul_right _ (Nat.log2_self_le hm.ne'), ?_⟩
  exact Nat.mul_lt_mul_of_pos_right Nat.lt_log2_self (Nat.two_pow_pos k)

theorem totalExponent_mul (hm : 0 < m) (k : ℕ) (e : ℤ) :
    totalExponent (m * 2 ^ k) e = totalExponent m (e + k) := by
  rw [totalExponent, totalExponent, log2_mul_two_pow hm]
  omega

theorem shiftToTargetExponent_exact (hm : 0 < m) {k : ℕ} (hc : Canonical spec m (e + k)) :
    shiftToTargetExponent spec (m * 2 ^ k) e .exact = (⟨m, false, false⟩, e + k) := by
  rw [Canonical, ← totalExponent_mul hm] at hc
  have hshift : ((e + k) - e).toNat = k := by omega
  simp only [shiftToTargetExponent, shiftToExponent, ← hc, hshift,
    ExtendedMantissa.ofMantissaAndAccuracy]
  rw [shiftRight_of_dvd (Nat.dvd_mul_left _ m), Nat.mul_div_cancel _ (Nat.two_pow_pos k)]

theorem roundWithAccuracy_exact (hm : 0 < m) {k : ℕ} (hc : Canonical spec m (e + k)) :
    roundWithAccuracy spec s (m * 2 ^ k) e .exact = .finite s m (e + k) hm := by
  have hagain : shiftToTargetExponent spec m (e + k) .exact = (⟨m, false, false⟩, e + k) := by
    have hzero : Canonical spec m (e + k + (0 : ℕ)) := by
      rw [Int.natCast_zero, Int.add_zero]
      exact hc
    have hshift := shiftToTargetExponent_exact hm hzero
    rwa [Nat.pow_zero, Nat.mul_one, Int.natCast_zero, Int.add_zero] at hshift
  simp only [roundWithAccuracy, shiftToTargetExponent_exact hm hc, ExtendedMantissa.roundedMantissa,
    ExtendedMantissa.accuracy, Accuracy.roundToNearestEven, hagain, dif_neg hm.ne']

theorem ofNat_zero : ofNat spec 0 = .zero .positive := rfl

theorem ofNat_of_eq (hn : 0 < n) (hm : 0 < m) (hc : Canonical spec m e)
    (h : n * 2 ^ (-e).toNat = m * 2 ^ e.toNat) : ofNat spec n = .finite .positive m e hm := by
  have htarget : spec.targetExponent (totalExponent n 0) = e := by
    have hlog := congrArg Nat.log2 h
    rw [log2_mul_two_pow hn, log2_mul_two_pow hm] at hlog
    have htotal : totalExponent n 0 = totalExponent m e := by
      rw [totalExponent, totalExponent]
      omega
    rw [htotal]
    exact hc.symm
  have hgt : compare (n : ℤ) 0 = .gt := by
    rw [Int.compare_eq_gt]
    omega
  have hsum : 0 - ((0 - e).toNat : ℤ) + (e.toNat : ℤ) = e := by omega
  have hround := roundWithAccuracy_exact (s := .positive) hm (e := 0 - ((0 - e).toNat : ℤ))
    (k := e.toNat) (by rwa [hsum])
  simp only [hsum] at hround
  simp only [ofNat, ofInt, UnpackedFloat.normalize, hgt, UnpackedFloat.round, Int.toNat_natCast,
    htarget, decreaseExponent, Nat.shiftLeft_eq]
  rw [← hround, ← h, Int.zero_sub]

/-! ### There and back -/

/-- The number that a value stands for. -/
def value : UnpackedFloat → Option ℚ
  | .zero _ => some 0
  | .finite s m e _ => some (s.apply m * 2 ^ e)
  | .infinity _ | .notANumber => none

/-- Conversion to an unsigned integer of `w` bits: what is left without the fraction, undefined
where it is not such an integer. -/
def toUnsigned (w : ℕ) (f : UnpackedFloat) : Option ℕ :=
  match f with
  | .zero _ => some 0
  | .finite s m e _ =>
    let n := roundToInt s m e
    if 0 ≤ n ∧ n < 2 ^ w then some n.toNat else none
  | .infinity _ | .notANumber => none

/-- The same to a signed integer. -/
def toSigned (w : ℕ) (f : UnpackedFloat) : Option ℤ :=
  match f with
  | .zero _ => some 0
  | .finite s m e _ =>
    let n := roundToInt s m e
    if -2 ^ (w - 1) ≤ n ∧ n < 2 ^ (w - 1) then some n else none
  | .infinity _ | .notANumber => none

theorem roundToInt_eq : roundToInt s m e = s.apply (m * 2 ^ e.toNat / 2 ^ (-e).toNat : ℕ) := by
  simp only [roundToInt, decreaseExponent, shiftToExponent, Nat.shiftLeft_eq,
    ExtendedMantissa.ofMantissaAndAccuracy, shiftRight_mantissa]
  have hl : (e - 0).toNat = e.toNat := by omega
  have hr : (0 - (e - ((e - 0).toNat : ℤ))).toNat = (-e).toNat := by omega
  rw [hr, hl]

theorem two_zpow_mul (e : ℤ) : (2 : ℚ) ^ e * 2 ^ (-e).toNat = 2 ^ e.toNat := by
  have hsum : e + ((-e).toNat : ℤ) = (e.toNat : ℤ) := by omega
  rw [← zpow_natCast, ← zpow_add₀ two_ne_zero, hsum, zpow_natCast]

theorem value_finite (hm : 0 < m) : value (.finite s m e hm) =
    some ((s.apply (m * 2 ^ e.toNat : ℕ) : ℤ) / (2 ^ (-e).toNat : ℚ)) := by
  have hpos : (0 : ℚ) < 2 ^ (-e).toNat := pow_pos two_pos _
  have hmag : (m : ℚ) * 2 ^ e = (m * 2 ^ e.toNat : ℕ) / 2 ^ (-e).toNat := by
    rw [eq_div_iff hpos.ne', mul_assoc, two_zpow_mul]
    push_cast
    rfl
  cases s with
  | positive => exact congrArg some hmag
  | negative =>
    have hval : value (.finite .negative m e hm) = some (((-(m : ℤ) : ℤ) : ℚ) * 2 ^ e) := rfl
    rw [hval, Int.cast_neg, Int.cast_natCast, neg_mul, hmag, ← neg_div]
    congr 2

/-- What is left without the fraction is between the bounds exactly if the number is less than one
below the lower bound, and below the upper one. -/
theorem roundToInt_mem_iff (hm : 0 < m) (lo : ℕ) {hi : ℕ} (hhi : 0 < hi) :
    -(lo : ℤ) ≤ roundToInt s m e ∧ roundToInt s m e < hi ↔
      ∃ q, value (.finite s m e hm) = some q ∧ -(lo : ℚ) - 1 < q ∧ q < hi := by
  have hpos : (0 : ℚ) < 2 ^ (-e).toNat := pow_pos two_pos _
  rw [roundToInt_eq, value_finite]
  generalize m * 2 ^ e.toNat = k
  have hlt : ∀ b : ℕ, k / 2 ^ (-e).toNat < b ↔ (k : ℚ) / 2 ^ (-e).toNat < b := by
    intro b
    rw [Nat.div_lt_iff_lt_mul (Nat.two_pow_pos _), div_lt_iff₀ hpos]
    norm_cast
  have hnn : (0 : ℚ) ≤ (k : ℚ) / 2 ^ (-e).toNat := div_nonneg (Nat.cast_nonneg k) hpos.le
  have hlo : (0 : ℚ) ≤ lo := Nat.cast_nonneg lo
  have hhi' : (0 : ℚ) < hi := Nat.cast_pos.mpr hhi
  simp only [Option.some.injEq, exists_eq_left']
  generalize k / 2 ^ (-e).toNat = n at hlt
  cases s with
  | positive =>
    have hup := hlt hi
    simp only [Sign.apply, Int.cast_natCast]
    constructor
    · intro h
      exact ⟨by linarith, hup.mp (by omega)⟩
    · intro h
      have hn := hup.mpr h.2
      omega
  | negative =>
    have hup := hlt (lo + 1)
    simp only [Sign.apply, Int.cast_neg, Int.cast_natCast, neg_div]
    push_cast at hup
    constructor
    · intro h
      have hn := hup.mp (by omega)
      exact ⟨by linarith, by linarith⟩
    · intro h
      have hn := hup.mpr (by linarith [h.1])
      omega

/-! ### Where the conversions are defined -/

theorem toUnsigned_isSome_iff {w : ℕ} {f : UnpackedFloat} : (toUnsigned w f).isSome ↔
    ∃ q, value f = some q ∧ -1 < q ∧ q < 2 ^ w := by
  cases f with
  | zero s => exact iff_of_true rfl ⟨0, rfl, by norm_num, by positivity⟩
  | infinity s => exact iff_of_false nofun fun ⟨_, h, _⟩ => nomatch h
  | notANumber => exact iff_of_false nofun fun ⟨_, h, _⟩ => nomatch h
  | finite s m e hm =>
    have hmem := roundToInt_mem_iff (s := s) (e := e) hm 0 (Nat.two_pow_pos w)
    push_cast at hmem
    rw [neg_zero, neg_zero, zero_sub] at hmem
    rw [← hmem]
    simp only [toUnsigned, Option.isSome_ite]

theorem toSigned_isSome_iff {w : ℕ} {f : UnpackedFloat} : (toSigned w f).isSome ↔
    ∃ q, value f = some q ∧ -2 ^ (w - 1) - 1 < q ∧ q < 2 ^ (w - 1) := by
  have hpos : (0 : ℚ) < 2 ^ (w - 1) := pow_pos two_pos _
  cases f with
  | zero s => exact iff_of_true rfl ⟨0, rfl, by linarith, hpos⟩
  | infinity s => exact iff_of_false nofun fun ⟨_, h, _⟩ => nomatch h
  | notANumber => exact iff_of_false nofun fun ⟨_, h, _⟩ => nomatch h
  | finite s m e hm =>
    have hmem := roundToInt_mem_iff (s := s) (e := e) hm (2 ^ (w - 1))
      (Nat.two_pow_pos (w - 1))
    push_cast at hmem
    rw [← hmem]
    simp only [toSigned, Option.isSome_ite]

/-! ### Whole numbers -/

theorem value_finite_iff (hm : 0 < m) :
    value (.finite s m e hm) = some (n : ℚ) ↔
      s = .positive ∧ n * 2 ^ (-e).toNat = m * 2 ^ e.toNat := by
  have hpos : (0 : ℚ) < 2 ^ (-e).toNat := pow_pos two_pos _
  have hcast : (m : ℚ) * 2 ^ e = n ↔ n * 2 ^ (-e).toNat = m * 2 ^ e.toNat := by
    rw [← mul_left_inj' hpos.ne', mul_assoc, two_zpow_mul, eq_comm]
    norm_cast
  cases s with
  | positive =>
    have hval : value (.finite .positive m e hm) = some ((m : ℚ) * 2 ^ e) := rfl
    rw [hval, Option.some_inj, hcast]
    exact (and_iff_right rfl).symm
  | negative =>
    have hval : value (.finite .negative m e hm) = some (((-(m : ℤ) : ℤ) : ℚ) * 2 ^ e) := rfl
    have hneg : ((-(m : ℤ) : ℤ) : ℚ) * 2 ^ e < 0 := by
      refine mul_neg_of_neg_of_pos ?_ (zpow_pos two_pos e)
      exact_mod_cast Int.neg_neg_of_pos (Int.natCast_pos.mpr hm)
    rw [hval, Option.some_inj]
    refine iff_of_false (fun heq => ?_) fun h => nomatch h.1
    exact absurd (heq ▸ hneg) (not_lt.mpr (Nat.cast_nonneg n))

theorem beq_finite {m' : ℕ} {e' : ℤ} (hm : 0 < m) (hm' : 0 < m') :
    (UnpackedFloat.finite .positive m' e' hm').beq (.finite s m e hm) = true ↔
      s = .positive ∧ e' = e ∧ m' = m := by
  cases s with
  | negative => exact iff_of_false nofun fun h => nomatch h.1
  | positive =>
    simp [UnpackedFloat.beq, UnpackedFloat.compare]

theorem beq_zero {s' : Sign} : (UnpackedFloat.zero s').beq (.zero s) = true := rfl

theorem not_beq_zero_finite {s' : Sign} (hm : 0 < m) :
    (UnpackedFloat.zero s').beq (.finite s m e hm) = false := by
  cases s <;> rfl

theorem ofNat_of_log2_le (hw : Wide spec) (hn : 0 < n)
    (hlog : n.log2 ≤ spec.mantissaBitsWithoutImplicit) :
    ∃ (m : ℕ) (e : ℤ) (hm : 0 < m), ofNat spec n = .finite .positive m e hm ∧
      unpack spec (pack spec (ofNat spec n)) = .finite .positive m e hm ∧
      n * 2 ^ (-e).toNat = m * 2 ^ e.toNat := by
  have hlow := hw.low
  have hhigh := hw.high
  have hmin : spec.minExponent = _ := minExponent_eq
  have hle : spec.targetExponent (totalExponent n 0) ≤ 0 := by
    simp only [Format.targetExponent, totalExponent, Format.mantissaBits]
    omega
  generalize he : spec.targetExponent (totalExponent n 0) = e at hle
  have hnat : e.toNat = 0 := by omega
  have hneg : e + ((-e).toNat : ℤ) = 0 := by omega
  have hm : 0 < n * 2 ^ (-e).toNat := Nat.mul_pos hn (Nat.two_pow_pos _)
  have hc : Canonical spec (n * 2 ^ (-e).toNat) e := by
    rw [Canonical, totalExponent_mul hn, hneg]
    exact he.symm
  have hf : Fits spec e := by
    rw [Fits]
    omega
  have hsame : n * 2 ^ (-e).toNat = n * 2 ^ (-e).toNat * 2 ^ e.toNat := by
    rw [hnat, Nat.pow_zero, Nat.mul_one]
  have hof := ofNat_of_eq hn hm hc hsame
  refine ⟨n * 2 ^ (-e).toNat, e, hm, hof, ?_, hsame⟩
  rw [hof]
  exact unpack_pack_finite hc hf hm

theorem toUnsigned_finite_iff {w : ℕ} (hm : 0 < m) :
    toUnsigned w (.finite s m e hm) = some n ↔ roundToInt s m e = n ∧ n < 2 ^ w := by
  have hcast : ((2 ^ w : ℕ) : ℤ) = 2 ^ w := Int.natCast_pow 2 w
  simp only [toUnsigned]
  by_cases hr : 0 ≤ roundToInt s m e ∧ roundToInt s m e < 2 ^ w
  · rw [if_pos hr, Option.some_inj]
    omega
  · rw [if_neg hr]
    refine iff_of_false nofun fun h => hr ?_
    omega

theorem value_of_back (hw : Wide spec) {w : ℕ} (hm : 0 < m) (hc : Canonical spec m e)
    (htrunc : toUnsigned w (.finite s m e hm) = some n)
    (hbeq : (unpack spec (pack spec (ofNat spec n))).beq (.finite s m e hm) = true) :
    value (.finite s m e hm) = some (n : ℚ) := by
  obtain ⟨hint, -⟩ := (toUnsigned_finite_iff hm).mp htrunc
  rw [roundToInt_eq] at hint
  rw [value_finite_iff]
  have hn : n ≠ 0 := by
    intro h0
    rw [h0, ofNat_zero, unpack_pack_zero hw, not_beq_zero_finite] at hbeq
    cases hbeq
  have hpos : s = .positive ∧ n = m * 2 ^ e.toNat / 2 ^ (-e).toNat := by
    cases s with
    | positive => exact ⟨rfl, (Int.ofNat.inj hint).symm⟩
    | negative =>
      have hint' : -((m * 2 ^ e.toNat / 2 ^ (-e).toNat : ℕ) : ℤ) = n := hint
      generalize m * 2 ^ e.toNat / 2 ^ (-e).toNat = q at hint'
      omega
  by_cases he : 0 ≤ e
  · have hzero : (-e).toNat = 0 := by omega
    rw [hzero, Nat.pow_zero, Nat.div_one] at hpos
    rw [hzero, Nat.pow_zero, Nat.mul_one]
    exact hpos
  · have hzero : e.toNat = 0 := by omega
    have hle : n ≤ m := by
      rw [hpos.2, hzero, Nat.pow_zero, Nat.mul_one]
      exact Nat.div_le_self _ _
    have hlog : n.log2 < spec.mantissaBitsWithoutImplicit + 1 := by
      refine (Nat.log2_lt hn).mpr (Nat.lt_of_le_of_lt hle (Nat.lt_of_lt_of_le Nat.lt_log2_self ?_))
      exact Nat.pow_le_pow_right Nat.two_pos (Nat.succ_le_succ (canonical_iff.mp hc).2.1)
    obtain ⟨m', e', hm', -, hback, hsame⟩ :=
      ofNat_of_log2_le hw (Nat.pos_of_ne_zero hn) (Nat.le_of_lt_succ hlog)
    rw [hback] at hbeq
    obtain ⟨hs, rfl, rfl⟩ := (beq_finite hm hm').mp hbeq
    exact ⟨hs, hsame⟩

/-- What comes back when the whole number of a value is converted to the format again. -/
theorem back_iff (hw : Wide spec) (w : ℕ) (b : BitVec spec.numBits) :
    (∃ n, toUnsigned w (unpack spec b) = some n ∧
      (unpack spec (pack spec (ofNat spec n))).beq (unpack spec b) = true) ↔
        ∃ n : ℕ, n < 2 ^ w ∧ value (unpack spec b) = some (n : ℚ) := by
  cases hb : unpack spec b with
  | infinity s => exact iff_of_false (fun ⟨_, h, _⟩ => nomatch h) fun ⟨_, _, h⟩ => nomatch h
  | notANumber => exact iff_of_false (fun ⟨_, h, _⟩ => nomatch h) fun ⟨_, _, h⟩ => nomatch h
  | zero s =>
    refine iff_of_true ⟨0, rfl, ?_⟩ ⟨0, Nat.two_pow_pos w, rfl⟩
    rw [ofNat_zero, unpack_pack_zero hw]
    exact beq_zero
  | finite s m e hm =>
    obtain ⟨hc, hf⟩ := unpack_finite hw hb
    constructor
    · rintro ⟨n, htrunc, hbeq⟩
      exact ⟨n, ((toUnsigned_finite_iff hm).mp htrunc).2, value_of_back hw hm hc htrunc hbeq⟩
    · rintro ⟨n, hlt, hval⟩
      obtain ⟨hs, heq⟩ := (value_finite_iff hm).mp hval
      have hn : 0 < n := by
        have hprod : 0 < n * 2 ^ (-e).toNat := heq ▸ Nat.mul_pos hm (Nat.two_pow_pos _)
        exact Nat.pos_of_mul_pos_right hprod
      refine ⟨n, (toUnsigned_finite_iff hm).mpr ⟨?_, hlt⟩, ?_⟩
      · rw [roundToInt_eq, hs, ← heq, Nat.mul_div_cancel _ (Nat.two_pow_pos _)]
        rfl
      · rw [ofNat_of_eq hn hm hc heq, unpack_pack_finite hc hf]
        exact (beq_finite hm hm).mpr ⟨hs, rfl, rfl⟩

end Omulator.Lib.Floating
