import Omulator.Props.Tags
import Mathlib.Data.List.TakeWhile

/-!
# From a string to a number and back

`extract_variant_` reads a text with `operator>>` and takes what is left in the variable, whether
the extraction has succeeded or not. What the extraction is by the rules of `num_get`, and when
what is left is what the map is documented to hold.
-/

namespace Omulator.Props
open Lib

/-- The types whose text is that of an integer. -/
inductive Scalar where
  | S64 | U64 | bool
  deriving DecidableEq

def Scalar.type : Scalar → PropType
  | S64 => .S64
  | U64 => .U64
  | bool => .bool

/-- The number a text begins with, after blanks, if it begins with one. -/
def number (s : String) : Option ℤ :=
  let (neg, ds) := scanInt s
  if ds = [] then none else some (if neg then -(magnitude ds : ℤ) else magnitude ds)

namespace Scalar

/-- The numbers that are read into the type: `strtoull` negates in the type, `bool` is 0 or 1. -/
def InRange (z : ℤ) : Scalar → Prop
  | S64 => -2 ^ 63 ≤ z ∧ z < 2 ^ 63
  | U64 => -2 ^ 64 < z ∧ z < 2 ^ 64
  | bool => z = 0 ∨ z = 1

instance (z : ℤ) : (T : Scalar) → Decidable (T.InRange z)
  | S64 => inferInstanceAs (Decidable (-2 ^ 63 ≤ z ∧ z < 2 ^ 63))
  | U64 => inferInstanceAs (Decidable (-2 ^ 64 < z ∧ z < 2 ^ 64))
  | bool => inferInstanceAs (Decidable (z = 0 ∨ z = 1))

def ofInt (z : ℤ) : (T : Scalar) → T.type.Val
  | S64 => (Int64.ofInt z : Int64)
  | U64 => (UInt64.ofInt z : UInt64)
  | bool => (decide (z ≠ 0) : Bool)

end Scalar

/-- The value that is extracted; `none` where `failbit` is set. -/
def num_get (T : Scalar) (s : String) : Option T.type.Val :=
  match number s with
  | some z => if T.InRange z then some (T.ofInt z) else none
  | none => none

/-- What `extract_variant_` makes of a text. -/
def stored : (T : Scalar) → String → T.type.Val
  | .S64, s => scanS64 s
  | .U64, s => scanU64 s
  | .bool, s => scanBool s

section
variable {s : String} {z : ℤ} {n : ℕ} {T : Scalar} {C : Compiler}

theorem extract_text : C.extract_variant_ T.type ⟨.string, s⟩ = some (stored T s) := by
  cases T with
  | S64 | U64 | bool => rfl

theorem extract_string {v : T.type.Val} : C.extract_variant_ .string ⟨T.type, v⟩ =
    some (C.extract_variant_string_ ⟨T.type, v⟩) := by
  cases T with
  | S64 | U64 | bool => rfl

/-! ### What is left in the variable -/

theorem number_none : number s = none ↔ (scanInt s).2 = [] := by
  unfold number
  split
  rename_i neg ds h
  rw [h]
  by_cases hd : ds = []
  · simp [hd]
  · simp [hd]

theorem number_some (h : number s = some z) :
    z = if (scanInt s).1 then -(magnitude (scanInt s).2 : ℤ) else magnitude (scanInt s).2 := by
  unfold number at h
  split at h
  rename_i neg ds heq
  rw [heq]
  split at h
  · cases h
  · exact (Option.some.inj h).symm

theorem scanS64_number (h : number s = some z) :
    scanS64 s = Int64.ofInt (max (-2 ^ 63) (min z (2 ^ 63 - 1))) := by
  rw [number_some h]
  rfl

theorem scanS64_none (h : number s = none) : scanS64 s = 0 := by
  have hd := number_none.mp h
  unfold scanS64
  simp only [hd, magnitude, List.foldl_nil, Nat.cast_zero, neg_zero, ite_self]
  rfl

theorem scanU64_none (h : number s = none) : scanU64 s = 0 := by
  have hd := number_none.mp h
  unfold scanU64
  simp only [hd, magnitude, List.foldl_nil]
  cases (scanInt s).1 with
  | true => rfl
  | false => rfl

theorem ofNat_neg (h : n < 2 ^ 64) : UInt64.ofNat (2 ^ 64 - n) = UInt64.ofInt (-(n : ℤ)) := by
  apply UInt64.toNat_inj.mp
  unfold UInt64.ofInt
  rw [UInt64.toNat_ofNat', UInt64.toNat_ofNat']
  omega

theorem ofNat_cast (n : ℕ) : UInt64.ofNat n = UInt64.ofInt (n : ℤ) := by
  apply UInt64.toNat_inj.mp
  unfold UInt64.ofInt
  rw [UInt64.toNat_ofNat', UInt64.toNat_ofNat']
  omega

theorem scanU64_in (h : number s = some z) (hz : Scalar.U64.InRange z) :
    scanU64 s = UInt64.ofInt z := by
  have hnum := number_some h
  obtain ⟨hlo, hhi⟩ := hz
  unfold scanU64
  dsimp only
  cases hneg : (scanInt s).1 with
  | true =>
    rw [hneg] at hnum
    simp only [if_true] at hnum
    have hlt : magnitude (scanInt s).2 < 2 ^ 64 := by omega
    rw [if_neg hlt.not_ge, if_pos rfl, hnum, ofNat_neg hlt]
  | false =>
    rw [hneg] at hnum
    simp only [Bool.false_eq_true, if_false] at hnum
    have hlt : magnitude (scanInt s).2 < 2 ^ 64 := by omega
    rw [if_neg hlt.not_ge, if_neg (by simp), hnum, ofNat_cast]

theorem scanU64_out (h : number s = some z) (hz : ¬ Scalar.U64.InRange z) :
    scanU64 s = UInt64.ofNat (2 ^ 64 - 1) := by
  have hnum := number_some h
  have hle : 2 ^ 64 ≤ magnitude (scanInt s).2 := by
    by_contra hlt
    refine hz ⟨?_, ?_⟩
    · split at hnum
      · omega
      · omega
    · split at hnum
      · omega
      · omega
  unfold scanU64
  dsimp only
  rw [if_pos hle]

theorem stored_in (h : number s = some z) (hz : T.InRange z) : stored T s = T.ofInt z := by
  cases T with
  | S64 =>
    obtain ⟨hlo, hhi⟩ := hz
    have hclamp : max (-2 ^ 63) (min z (2 ^ 63 - 1)) = z := by omega
    have hscan := scanS64_number h
    rw [hclamp] at hscan
    exact hscan
  | U64 => exact scanU64_in h hz
  | bool =>
    have hscan := scanS64_number h
    rcases hz with rfl | rfl
    · exact congrArg (fun x : Int64 => decide (x ≠ 0)) hscan
    · exact congrArg (fun x : Int64 => decide (x ≠ 0)) hscan

theorem stored_none (h : number s = none) : stored T s = T.type.zero := by
  cases T with
  | S64 => exact scanS64_none h
  | U64 => exact scanU64_none h
  | bool => exact congrArg (fun x : Int64 => decide (x ≠ 0)) (scanS64_none h)

/-- The bound nearest to a number out of range is not the default. -/
theorem stored_out (h : number s = some z) (hz : ¬ T.InRange z) :
    stored T s ≠ T.type.zero := by
  have hclamp : z ≠ 0 → Int64.ofInt (max (-2 ^ 63) (min z (2 ^ 63 - 1))) ≠ 0 := by
    intro hne heq
    have hint := congrArg Int64.toInt heq
    rw [Int64.toInt_ofInt_of_le (by omega) (by omega)] at hint
    have hzero : (0 : Int64).toInt = 0 := rfl
    omega
  cases T with
  | S64 =>
    have hne : z ≠ 0 := by
      rintro rfl
      exact hz ⟨by omega, by omega⟩
    have hscan := scanS64_number h
    change scanS64 s ≠ 0
    rw [hscan]
    exact hclamp hne
  | U64 =>
    change scanU64 s ≠ 0
    rw [scanU64_out h hz]
    decide
  | bool =>
    have hne : z ≠ 0 := fun hz0 => hz (Or.inl hz0)
    have hscan := scanS64_number h
    change decide (scanS64 s ≠ 0) ≠ false
    rw [hscan]
    simpa using hclamp hne

theorem stored_eq_iff : stored T s = (num_get T s).getD T.type.zero ↔
    ∀ z, number s = some z → T.InRange z := by
  unfold num_get
  cases h : number s with
  | none => simp [stored_none h]
  | some z =>
    dsimp only
    by_cases hz : T.InRange z
    · rw [if_pos hz]
      simp [stored_in h hz, hz]
    · rw [if_neg hz]
      simp [stored_out h hz, hz]

/-! ### The text of a number -/

theorem digits_toDigits (n : ℕ) : digits (Nat.toDigits 10 n) = Nat.toDigits 10 n := by
  refine List.takeWhile_eq_self_iff.mpr fun c hc => ?_
  exact Nat.isDigit_of_mem_toDigits (by decide) (by decide) hc

theorem magnitude_toDigits (n : ℕ) : magnitude (Nat.toDigits 10 n) = n := by
  have h : Nat.ofDigitChars 10 (Nat.toDigits 10 n) 0 = n := Nat.ofDigitChars_ten_toDigits
  rwa [Nat.ofDigitChars_eq_foldl] at h

theorem digit_ne {c : Char} (h : c.isDigit = true) : isspace c = false ∧ c ≠ '-' ∧ c ≠ '+' := by
  have hlo : 48 ≤ c.toNat := (Char.isDigit_iff_toNat.mp h).1
  have hne : ∀ d : Char, d.toNat < 48 → c ≠ d := by
    rintro d hd rfl
    omega
  have hval : ∀ n : UInt32, n.toNat < 48 → c.val ≠ n := by
    intro n hn hc
    have hnat : c.toNat = n.toNat := congrArg UInt32.toNat hc
    omega
  refine ⟨?_, hne '-' (by decide), hne '+' (by decide)⟩
  simp [isspace, hne ' ' (by decide), hne '\t' (by decide), hne '\n' (by decide),
    hne '\r' (by decide), hval 11 (by decide), hval 12 (by decide)]

theorem scanInt_repr (n : ℕ) : scanInt n.repr = (false, Nat.toDigits 10 n) := by
  have hdigits := digits_toDigits n
  unfold scanInt
  rw [Nat.toList_repr]
  cases hd : Nat.toDigits 10 n with
  | nil => exact absurd hd Nat.toDigits_ne_nil
  | cons c cs =>
    have hmem : c ∈ Nat.toDigits 10 n := hd ▸ List.mem_cons_self
    obtain ⟨hspace, hminus, hplus⟩ :=
      digit_ne (Nat.isDigit_of_mem_toDigits (by decide) (by decide) hmem)
    rw [List.dropWhile_cons_of_neg (by simp [hspace])]
    rw [hd] at hdigits
    split
    · rename_i heq
      exact absurd (List.cons.inj heq).1 hminus
    · rename_i heq
      exact absurd (List.cons.inj heq).1 hplus
    · rw [hdigits]

theorem scanInt_neg (n : ℕ) : scanInt ("-" ++ n.repr) = (true, Nat.toDigits 10 n) := by
  have hlist : ("-" ++ n.repr).toList = '-' :: Nat.toDigits 10 n := by
    rw [String.toList_append, Nat.toList_repr]
    rfl
  unfold scanInt
  rw [hlist, List.dropWhile_cons_of_neg (by decide)]
  exact congrArg (Prod.mk true) (digits_toDigits n)

theorem number_repr (n : ℕ) : number n.repr = some (n : ℤ) := by
  simp [number, scanInt_repr, magnitude_toDigits, Nat.toDigits_ne_nil]

theorem number_int (z : ℤ) : number (toString z) = some z := by
  rw [Int.toString_eq_repr, Int.repr_eq_if]
  split
  · rename_i hz
    rw [number_repr, Int.toNat_of_nonneg hz]
  · rename_i hz
    have hneg : -((-z).toNat : ℤ) = z := by omega
    unfold number
    rw [scanInt_neg]
    dsimp only
    rw [if_neg Nat.toDigits_ne_nil, if_pos rfl, magnitude_toDigits, hneg]

end

/-! ### Through the map -/

section
variable (C : Compiler) (memory : String → UInt64)

/-- What a key holds when `val` has been written to it. -/
def assign (key : String) (val : PropVariant_t) : M PropVariant_t := do
  let _ ← PropertyMap.set_prop_variant C memory key val
  PropertyMap.get_prop_variant C memory key

/-- `val` is written to one key, and what is read there to another. -/
def assignThrough (via key : String) (val : PropVariant_t) : M PropVariant_t := do
  let text ← assign C memory via val
  assign C memory key text

end

section
variable {C : Compiler} {memory : String → UInt64} {m : PropertyMap} {s : Session} {key : String}
  {e : MapEntry} {T : PropType} {v : T.Val}

theorem assign_of_reads (he : m.map_.lookup key = some e) (hr : e.Reads C T v)
    {val : PropVariant_t} {w : T.Val} (hw : C.extract_variant_ T val = some w) :
    ∃ e', (assign C memory key val).exec m = (.ok ⟨T, w⟩, m.put key e') := by
  obtain ⟨e', he', hset⟩ := set_prop_variant_present memory he hr hw
  refine ⟨e', ?_⟩
  rw [assign, exec_bind_ok hset]
  exact get_prop_variant_present memory (m.lookup_put key e') he'

/-- In a session the tag of a key says which member it has. -/
theorem reads_of_tag (h : Run (Session.Performs C memory) {} s)
    (he : s.map.map_.lookup key = some e) (ht : e.tag = C.TypeHash T) : ∃ v, e.Reads C T v := by
  obtain ⟨U, v, hr⟩ := (Sound.of_run h Sound.start).reads key e he
  have hU : U = T := hr.unique ht
  subst hU
  exact ⟨v, hr⟩

theorem assign_of_tag (h : Run (Session.Performs C memory) {} s)
    (he : s.map.map_.lookup key = some e) (ht : e.tag = C.TypeHash T) {val : PropVariant_t}
    {w : T.Val} (hw : C.extract_variant_ T val = some w) :
    ((assign C memory key val).exec s.map).1 = .ok ⟨T, w⟩ := by
  obtain ⟨v, hr⟩ := reads_of_tag h he ht
  obtain ⟨e', hx⟩ := assign_of_reads he hr hw
  rw [hx]

theorem assignThrough_of_tag {via : String} {e' : MapEntry}
    (h : Run (Session.Performs C memory) {} s) (hv : s.map.map_.lookup via = some e')
    (ht' : e'.tag = C.TypeHash .string) (he : s.map.map_.lookup key = some e)
    (ht : e.tag = C.TypeHash T) (hT : T ≠ .string) {val : PropVariant_t} {text : String}
    {w : T.Val} (htext : C.extract_variant_ .string val = some text)
    (hw : C.extract_variant_ T ⟨.string, text⟩ = some w) :
    ((assignThrough C memory via key val).exec s.map).1 = .ok ⟨T, w⟩ := by
  have hne : key ≠ via := by
    rintro rfl
    rw [hv] at he
    cases he
    exact hT (C.distinct (ht.symm.trans ht'))
  obtain ⟨v, hr⟩ := reads_of_tag h he ht
  obtain ⟨w, hr'⟩ := reads_of_tag h hv ht'
  obtain ⟨e₁, hx⟩ := assign_of_reads hv hr' htext
  have hkept : (s.map.put via e₁).map_.lookup key = some e := by
    rw [s.map.lookup_put_ne e₁ hne]
    exact he
  obtain ⟨e₂, hx'⟩ := assign_of_reads hkept hr hw
  rw [assignThrough, exec_bind_ok hx, hx']

end

def twoKeys (T : Scalar) : Session where
  map := (({} : PropertyMap).put "text" (.new .sample (Compiler.sample.TypeHash .string) 0)).put
    "key" (.new .sample (Compiler.sample.TypeHash T.type) 0)
  refs := [(T.type, "key"), (.string, "text")]

theorem twoKeys_run (T : Scalar) : Run (Session.Performs .sample fun _ => 0) {} (twoKeys T) := by
  have hfirst : Session.Performs .sample (fun _ => 0) {} (.get_prop .string "text", .reference)
      ⟨({} : PropertyMap).put "text" (.new .sample (Compiler.sample.TypeHash .string) 0),
        [(.string, "text")]⟩ := rfl
  cases T with
  | S64 => exact (Run.next' .start hfirst).next' (a := (.get_prop .S64 "key", .reference)) rfl
  | U64 => exact (Run.next' .start hfirst).next' (a := (.get_prop .U64 "key", .reference)) rfl
  | bool => exact (Run.next' .start hfirst).next' (a := (.get_prop .bool "key", .reference)) rfl

theorem twoKeys_text (T : Scalar) : ∃ e, (twoKeys T).map.map_.lookup "text" = some e ∧
    e.tag = Compiler.sample.TypeHash .string := by
  cases T with
  | S64 | U64 | bool => exact ⟨_, rfl, rfl⟩

theorem twoKeys_key (T : Scalar) : ∃ e, (twoKeys T).map.map_.lookup "key" = some e ∧
    e.tag = Compiler.sample.TypeHash T.type := by
  cases T with
  | S64 | U64 | bool => exact ⟨_, rfl, rfl⟩

/-! ### A text that is no number -/

/-- A string leaves the value that is extracted from it, and the default where none is, exactly
if it does not begin with a number that is out of range. -/
theorem string_coercion_iff {C : Compiler} {memory : String → UInt64} {s : Session}
    (h : Run (Session.Performs C memory) {} s) {key : String} {e : MapEntry} {T : Scalar}
    (he : s.map.map_.lookup key = some e) (ht : e.tag = C.TypeHash T.type) (text : String) :
    ((assign C memory key ⟨.string, text⟩).exec s.map).1 =
      .ok ⟨T.type, (num_get T text).getD T.type.zero⟩ ↔
    ∀ z, number text = some z → T.InRange z := by
  rw [assign_of_tag h he ht extract_text]
  simp only [Except.ok.injEq, PropVariant_t.mk.injEq, heq_eq_eq, true_and]
  exact stored_eq_iff

theorem prefix_stored : num_get .S64 " -12ab" = some (-12 : Int64) ∧
    ((assign .sample (fun _ => 0) "key" ⟨.string, " -12ab"⟩).exec (twoKeys .S64).map).1 =
      .ok ⟨.S64, (num_get .S64 " -12ab").getD (0 : Int64)⟩ := by
  obtain ⟨e, he, ht⟩ := twoKeys_key .S64
  have hnum : number " -12ab" = some (-12) := by decide
  refine ⟨rfl, (string_coercion_iff (twoKeys_run .S64) he ht " -12ab").mpr ?_⟩
  intro z hz
  rw [hnum] at hz
  cases hz
  decide

/-- A number out of range leaves the bound, and a number other than 0 and 1 leaves `true`. -/
theorem overflow_stored :
    num_get .S64 "9223372036854775808" = none ∧ num_get .bool "2" = none ∧
    ((assign .sample (fun _ => 0) "key" ⟨.string, "9223372036854775808"⟩).exec
      (twoKeys .S64).map).1 = .ok ⟨.S64, (9223372036854775807 : Int64)⟩ ∧
    ((assign .sample (fun _ => 0) "key" ⟨.string, "2"⟩).exec (twoKeys .bool).map).1 =
      .ok ⟨.bool, (true : Bool)⟩ ∧
    ¬ ∀ (C : Compiler) (memory : String → UInt64) (s : Session),
      Run (Session.Performs C memory) {} s → ∀ (key : String) (e : MapEntry) (T : Scalar),
      s.map.map_.lookup key = some e → e.tag = C.TypeHash T.type → ∀ text : String,
      ((assign C memory key ⟨.string, text⟩).exec s.map).1 =
        .ok ⟨T.type, (num_get T text).getD T.type.zero⟩ := by
  have hnone : num_get .S64 "9223372036854775808" = none := by decide
  have hmax : ((assign .sample (fun _ => 0) "key" ⟨.string, "9223372036854775808"⟩).exec
      (twoKeys .S64).map).1 = .ok ⟨.S64, (9223372036854775807 : Int64)⟩ := rfl
  refine ⟨hnone, by decide, hmax, rfl, fun hall => ?_⟩
  obtain ⟨e, he, ht⟩ := twoKeys_key .S64
  have hzero := hall .sample (fun _ => 0) (twoKeys .S64) (twoKeys_run .S64) "key" e .S64 he ht
    "9223372036854775808"
  rw [hmax, hnone] at hzero
  cases hzero

/-! ### A value written as text -/

/-- `boolalpha` writes the words, and no word is read as a number. -/
theorem stored_text {C : Compiler} {T : Scalar} (v : T.type.Val) :
    stored T (C.extract_variant_string_ ⟨T.type, v⟩) = v ↔
      (⟨T.type, v⟩ : PropVariant_t) ≠ ⟨.bool, (true : Bool)⟩ := by
  cases T with
  | S64 =>
    have hnum : number (C.extract_variant_string_ ⟨.S64, v⟩) = some (Int64.toInt v) :=
      number_int (Int64.toInt v)
    have hin : Scalar.S64.InRange (Int64.toInt v) := ⟨Int64.le_toInt v, Int64.toInt_lt v⟩
    refine iff_of_true ((stored_in hnum hin).trans (Int64.ofInt_toInt v)) fun h => ?_
    cases congrArg PropVariant_t.index h
  | U64 =>
    have hnum : number (C.extract_variant_string_ ⟨.U64, v⟩) = some (UInt64.toNat v : ℤ) :=
      number_repr (UInt64.toNat v)
    have hin : Scalar.U64.InRange (UInt64.toNat v) := by
      have hlt := UInt64.toNat_lt v
      exact ⟨by omega, by omega⟩
    have hback : UInt64.ofInt (UInt64.toNat v) = v := by
      rw [← ofNat_cast]
      exact UInt64.ofNat_toNat
    refine iff_of_true ((stored_in hnum hin).trans hback) fun h => ?_
    cases congrArg PropVariant_t.index h
  | bool =>
    cases v with
    | false =>
      have hnum : number "false" = none := by decide
      have hback : stored .bool "false" = false := stored_none hnum
      exact iff_of_true hback nofun
    | true =>
      have hnum : number "true" = none := by decide
      have hback : stored .bool "true" = false := stored_none hnum
      refine iff_of_false (fun h => ?_) fun h => h rfl
      have htrue : stored .bool "true" = true := h
      rw [hback] at htrue
      cases htrue

/-- A value comes back through a string exactly if it is not the boolean `true`. -/
theorem through_string_iff {C : Compiler} {memory : String → UInt64} {s : Session}
    (h : Run (Session.Performs C memory) {} s) {via key : String} {e e' : MapEntry} {T : Scalar}
    (hv : s.map.map_.lookup via = some e') (ht' : e'.tag = C.TypeHash .string)
    (he : s.map.map_.lookup key = some e) (ht : e.tag = C.TypeHash T.type) (v : T.type.Val) :
    ((assignThrough C memory via key ⟨T.type, v⟩).exec s.map).1 = .ok ⟨T.type, v⟩ ↔
      (⟨T.type, v⟩ : PropVariant_t) ≠ ⟨.bool, (true : Bool)⟩ := by
  have hT : T.type ≠ .string := by
    cases T with
    | S64 | U64 | bool => nofun
  rw [assignThrough_of_tag h hv ht' he ht hT extract_string extract_text]
  simp only [Except.ok.injEq, PropVariant_t.mk.injEq, heq_eq_eq, true_and]
  exact stored_text v

theorem number_through_string :
    ((assignThrough .sample (fun _ => 0) "text" "key" ⟨.S64, (-12 : Int64)⟩).exec
      (twoKeys .S64).map).1 = .ok ⟨.S64, (-12 : Int64)⟩ := by
  obtain ⟨e', hv, ht'⟩ := twoKeys_text .S64
  obtain ⟨e, he, ht⟩ := twoKeys_key .S64
  refine (through_string_iff (T := .S64) (twoKeys_run .S64) hv ht' he ht (-12 : Int64)).mpr ?_
  intro h
  cases congrArg PropVariant_t.index h

/-- `true` is written as a word, and the word is read as 0. -/
theorem true_through_string :
    ((assign .sample (fun _ => 0) "text" ⟨.bool, (true : Bool)⟩).exec (twoKeys .bool).map).1 =
      .ok ⟨.string, "true"⟩ ∧
    ((assignThrough .sample (fun _ => 0) "text" "key" ⟨.bool, (true : Bool)⟩).exec
      (twoKeys .bool).map).1 = .ok ⟨.bool, (false : Bool)⟩ ∧
    ¬ ∀ (C : Compiler) (memory : String → UInt64) (s : Session),
      Run (Session.Performs C memory) {} s →
      ∀ (via key : String) (e e' : MapEntry) (T : Scalar), s.map.map_.lookup via = some e' →
      e'.tag = C.TypeHash .string → s.map.map_.lookup key = some e →
      e.tag = C.TypeHash T.type → ∀ v : T.type.Val,
      ((assignThrough C memory via key ⟨T.type, v⟩).exec s.map).1 = .ok ⟨T.type, v⟩ := by
  have hfalse : ((assignThrough .sample (fun _ => 0) "text" "key" ⟨.bool, (true : Bool)⟩).exec
      (twoKeys .bool).map).1 = .ok ⟨.bool, (false : Bool)⟩ := rfl
  refine ⟨rfl, hfalse, fun hall => ?_⟩
  obtain ⟨e', hv, ht'⟩ := twoKeys_text .bool
  obtain ⟨e, he, ht⟩ := twoKeys_key .bool
  have htrue := hall .sample (fun _ => 0) (twoKeys .bool) (twoKeys_run .bool) "text" "key" e e'
    .bool hv ht' he ht (true : Bool)
  cases hfalse.symm.trans htrue

end Omulator.Props
