import Mathlib.Tactic

/-!
# Double precision numbers

A number is its bit pattern. Comparisons read the sign and the 63 bits of the magnitude, which are
ordered as the numbers are; integers are read off the significand and the exponent.
-/

namespace Zua

structure F64 where
  bits : UInt64
  deriving DecidableEq, Repr, Inhabited

namespace F64

def sign (x : F64) : Bool := 2 ^ 63 ≤ x.bits.toNat
def exponent (x : F64) : Nat := x.bits.toNat / 2 ^ 52 % 2 ^ 11
def mantissa (x : F64) : Nat := x.bits.toNat % 2 ^ 52
def magnitude (x : F64) : Nat := x.bits.toNat % 2 ^ 63

def isNan (x : F64) : Bool := x.exponent == 2047 && x.mantissa != 0

def rank (x : F64) : Int := if x.sign then -x.magnitude else x.magnitude

def eq (x y : F64) : Bool := !x.isNan && !y.isNan && x.rank == y.rank
def lt (x y : F64) : Bool := !x.isNan && !y.isNan && x.rank < y.rank
def le (x y : F64) : Bool := !x.isNan && !y.isNan && x.rank ≤ y.rank

def one : F64 := ⟨0x3ff0000000000000⟩

-- the bits below the point are cleared; a number with none of them is kept, one below 1 becomes 0
def trunc (x : F64) : F64 :=
  if x.exponent < 1023 then ⟨if x.sign then 0x8000000000000000 else 0⟩
  else if x.exponent < 1075 then
    ⟨UInt64.ofNat (x.bits.toNat - x.bits.toNat % 2 ^ (1075 - x.exponent))⟩
  else x

-- `2 ^ 1074` times the absolute value of a finite number
def scaled (x : F64) : Nat :=
  if x.exponent = 0 then x.mantissa else (2 ^ 52 + x.mantissa) * 2 ^ (x.exponent - 1)

-- the conversion of a positive number to an unsigned 64-bit integer, where it is defined
def toUsize (x : F64) : Option Nat :=
  if x.exponent = 2047 then none
  else if x.scaled / 2 ^ 1074 < 2 ^ 64 then some (x.scaled / 2 ^ 1074)
  else none

-- the conversion of any number; what is between -1 and 1 becomes 0
def intFromFloat (x : F64) : Option Nat :=
  if x.sign then if x.toUsize = some 0 then some 0 else none
  else x.toUsize

def inf : F64 := ⟨0x7ff0000000000000⟩
def nan : F64 := ⟨0x7ff8000000000000⟩

-- the 53 leading bits of a positive integer, the others rounded to the nearest and ties to even
def significand (n : Nat) : Nat :=
  if n.log2 ≤ 52 then n * 2 ^ (52 - n.log2)
  else
    let unit := 2 ^ (n.log2 - 52)
    let q := n / unit
    if unit < 2 * (n % unit) ∨ 2 * (n % unit) = unit ∧ q % 2 = 1 then q + 1 else q

-- `@floatFromInt` of an unsigned 64-bit integer; a significand rounded up to `2 ^ 53` carries over
def floatFromInt (n : Nat) : F64 :=
  if n = 0 then ⟨0⟩ else ⟨UInt64.ofNat ((1022 + n.log2) * 2 ^ 52 + significand n)⟩

-- the operations of the language, which are left open
structure Arithmetic where
  add : F64 → F64 → F64
  sub : F64 → F64 → F64
  mul : F64 → F64 → F64
  div : F64 → F64 → F64
  mod : F64 → F64 → F64
  pow : F64 → F64 → F64
  neg : F64 → F64

variable {x y : F64}

theorem significand_le (n : Nat) : significand n ≤ 2 ^ 53 := by
  have upper : n < 2 ^ (n.log2 + 1) := Nat.lt_log2_self
  unfold significand
  split
  · rename_i low
    have bound : n * 2 ^ (52 - n.log2) ≤ 2 ^ (n.log2 + 1) * 2 ^ (52 - n.log2) :=
      Nat.mul_le_mul_right _ upper.le
    rwa [← Nat.pow_add, show n.log2 + 1 + (52 - n.log2) = 53 by omega] at bound
  · rename_i high
    have quotient : n / 2 ^ (n.log2 - 52) < 2 ^ 53 := by
      rw [Nat.div_lt_iff_lt_mul (by positivity), ← Nat.pow_add,
        show 53 + (n.log2 - 52) = n.log2 + 1 by omega]
      exact upper
    simp only
    split <;> omega

theorem floatFromInt_finite {n : Nat} (small : n < 2 ^ 64) : (floatFromInt n).isNan = false := by
  unfold floatFromInt
  split
  · rfl
  · rename_i positive
    have log : n.log2 < 64 := (Nat.log2_lt positive).mpr small
    have le := significand_le n
    have value : (UInt64.ofNat ((1022 + n.log2) * 2 ^ 52 + significand n)).toNat =
        (1022 + n.log2) * 2 ^ 52 + significand n := by
      rw [UInt64.toNat_ofNat']
      exact Nat.mod_eq_of_lt (by omega)
    have exponent : (⟨UInt64.ofNat ((1022 + n.log2) * 2 ^ 52 + significand n)⟩ : F64).exponent ≠ 2047 := by
      rw [F64.exponent, value]
      omega
    rw [isNan, beq_eq_false_iff_ne.mpr exponent, Bool.false_and]

theorem eq_iff : x.eq y = true ↔ x.isNan = false ∧ y.isNan = false ∧ x.rank = y.rank := by
  simp [eq, and_assoc]

theorem eq_symm (h : x.eq y = true) : y.eq x = true := by
  rw [eq_iff] at h ⊢
  exact ⟨h.2.1, h.1, h.2.2.symm⟩

theorem eq_trans {z : F64} (h : x.eq y = true) (h' : y.eq z = true) : x.eq z = true := by
  rw [eq_iff] at h h' ⊢
  exact ⟨h.1, h'.2.1, h.2.2.trans h'.2.2⟩

theorem eq_refl (number : x.isNan = false) : x.eq x = true := by
  rw [eq_iff]
  exact ⟨number, number, rfl⟩

theorem bits_eq_of_rank (h : x.rank = y.rank) : x = y ∨ x.magnitude = 0 ∧ y.magnitude = 0 := by
  have hx := x.bits.toNat_lt
  have hy := y.bits.toNat_lt
  unfold rank sign magnitude at h
  by_cases zero : x.magnitude = 0 ∧ y.magnitude = 0
  · exact .inr zero
  · left
    unfold magnitude at zero
    cases x with | mk a =>
    cases y with | mk b =>
    simp only at *
    congr 1
    apply UInt64.toNat_inj.mp
    split_ifs at h <;> simp at * <;> omega

-- equal numbers agree in the low half of their bits
theorem low_eq_of_eq (h : x.eq y = true) : x.bits.toNat % 2 ^ 32 = y.bits.toNat % 2 ^ 32 := by
  rw [eq_iff] at h
  rcases bits_eq_of_rank h.2.2 with rfl | ⟨hx, hy⟩
  · rfl
  · unfold magnitude at hx hy
    omega

-- the exponent and the mantissa are the digits of the magnitude
theorem magnitude_eq (x : F64) : x.magnitude = x.exponent * 2 ^ 52 + x.mantissa := by
  unfold magnitude exponent mantissa
  omega

theorem ext_magnitude (hx : x.sign = false) (hy : y.sign = false)
    (h : x.magnitude = y.magnitude) : x = y := by
  have := x.bits.toNat_lt
  have := y.bits.toNat_lt
  cases x with | mk a =>
  cases y with | mk b =>
  simp only [sign, magnitude, decide_eq_false_iff_not] at *
  congr 1
  apply UInt64.toNat_inj.mp
  omega

theorem le_one (h : one.le x = true) :
    x.isNan = false ∧ x.sign = false ∧ 1023 ≤ x.exponent := by
  have rankOne : one.rank = 1023 * 2 ^ 52 := by decide
  simp only [le, Bool.and_eq_true, Bool.not_eq_true', decide_eq_true_eq, rankOne] at h
  obtain ⟨⟨-, number⟩, above⟩ := h
  have digits := x.magnitude_eq
  have small : x.mantissa < 2 ^ 52 := Nat.mod_lt _ (by decide)
  unfold rank at above
  split at above
  · omega
  · refine ⟨number, by simpa using ‹¬x.sign = true›, ?_⟩
    omega

theorem eq_of_le_one (h : one.le x = true) (same : x.eq y = true) : x = y := by
  rcases bits_eq_of_rank (eq_iff.mp same).2.2 with rfl | ⟨zero, -⟩
  · rfl
  · have := (le_one h).2.2
    have := x.magnitude_eq
    omega

def twoPow64 : F64 := ⟨0x43f0000000000000⟩

theorem exponent_of_lt (h : one.le x = true) (below : x.lt twoPow64 = true) : x.exponent ≤ 1086 := by
  have rankTop : twoPow64.rank = 1087 * 2 ^ 52 := by decide
  simp only [lt, Bool.and_eq_true, decide_eq_true_eq, rankTop] at below
  have digits := x.magnitude_eq
  have positive := (le_one h).2.1
  have bound := below.2
  unfold rank at bound
  rw [positive] at bound
  simp only [Bool.false_eq_true, if_false] at bound
  omega

theorem scaled_eq (h : 1023 ≤ x.exponent) :
    x.scaled = (2 ^ 52 + x.mantissa) * 2 ^ (x.exponent - 1) :=
  if_neg (by omega)

-- a number from 1 up with no bits below the point is an integer
theorem dvd_scaled (h : one.le x = true) (integral : x.eq x.trunc = true) : 2 ^ 1074 ∣ x.scaled := by
  obtain ⟨-, positive, large⟩ := le_one h
  rw [scaled_eq large]
  by_cases high : x.exponent < 1075
  · have same := eq_of_le_one h integral
    rw [trunc, if_neg (by omega), if_pos high] at same
    have cleared : x.bits.toNat % 2 ^ (1075 - x.exponent) = 0 := by
      have bound := x.bits.toNat_lt
      have bits := congrArg (fun y => y.bits.toNat) same
      simp only [UInt64.toNat_ofNat'] at bits
      rw [Nat.mod_eq_of_lt (by omega)] at bits
      have := Nat.mod_le x.bits.toNat (2 ^ (1075 - x.exponent))
      omega
    have small : 2 ^ (1075 - x.exponent) ∣ 2 ^ 52 := Nat.pow_dvd_pow 2 (by omega)
    have low : 2 ^ (1075 - x.exponent) ∣ x.mantissa := by
      rw [mantissa, ← Nat.dvd_iff_mod_eq_zero] at *
      exact (Nat.dvd_mod_iff small).mpr cleared
    have split : 1074 = (1075 - x.exponent) + (x.exponent - 1) := by omega
    rw [split, pow_add]
    exact Nat.mul_dvd_mul ((Nat.dvd_add small low)) dvd_rfl
  · exact Dvd.dvd.mul_left (Nat.pow_dvd_pow 2 (by omega)) _

theorem toUsize_of_lt (h : one.le x = true) (below : x.lt twoPow64 = true) :
    x.toUsize = some (x.scaled / 2 ^ 1074) := by
  obtain ⟨-, -, large⟩ := le_one h
  have bound := exponent_of_lt h below
  have small : x.mantissa < 2 ^ 52 := Nat.mod_lt _ (by decide)
  have fits : x.scaled / 2 ^ 1074 < 2 ^ 64 := by
    rw [Nat.div_lt_iff_lt_mul (by positivity), scaled_eq large]
    calc (2 ^ 52 + x.mantissa) * 2 ^ (x.exponent - 1)
        < 2 ^ 53 * 2 ^ 1085 := by
          apply Nat.mul_lt_mul_of_lt_of_le (by omega) (Nat.pow_le_pow_right (by decide) (by omega))
          positivity
      _ = 2 ^ 64 * 2 ^ 1074 := by rw [← pow_add, ← pow_add]
  rw [toUsize, if_neg (by omega), if_pos fits]

-- from `2 ^ 64` on every number is an integer, and none of them fits
theorem toUsize_of_not_lt (number : x.isNan = false) (large : x.lt twoPow64 = false) :
    one.le x = true ∧ x.eq x.trunc = true ∧ x.toUsize = none := by
  have rankTop : twoPow64.rank = 1087 * 2 ^ 52 := by decide
  have rankOne : one.rank = 1023 * 2 ^ 52 := by decide
  have above : (1087 * 2 ^ 52 : Int) ≤ x.rank := by
    rw [← rankTop]
    by_contra below
    have less : x.lt twoPow64 = true := by
      simp only [lt, number, Bool.not_false, Bool.true_and, Bool.and_eq_true, decide_eq_true_eq]
      exact ⟨by decide, not_le.mp below⟩
    rw [large] at less
    cases less
  have digits := x.magnitude_eq
  have small : x.mantissa < 2 ^ 52 := Nat.mod_lt _ (by decide)
  have exponent : 1087 ≤ x.exponent := by
    unfold rank at above
    split at above <;> omega
  refine ⟨?_, ?_, ?_⟩
  · simp only [le, number, rankOne, Bool.not_false, Bool.and_true, Bool.and_eq_true, decide_eq_true_eq]
    exact ⟨by decide, by omega⟩
  · rw [trunc, if_neg (by omega), if_neg (by omega)]
    exact eq_refl number
  · unfold toUsize
    split
    · rfl
    · rw [if_neg]
      rw [Nat.div_lt_iff_lt_mul (by positivity), scaled_eq (by omega), not_lt]
      calc 2 ^ 64 * 2 ^ 1074 = 2 ^ 52 * 2 ^ 1086 := by rw [← pow_add, ← pow_add]
        _ ≤ (2 ^ 52 + x.mantissa) * 2 ^ (x.exponent - 1) :=
            Nat.mul_le_mul (Nat.le_add_right _ _) (Nat.pow_le_pow_right (by decide) (by omega))

theorem not_nan_of_lt (h : x.lt y = true) : x.isNan = false := by
  simp only [lt, Bool.and_eq_true, Bool.not_eq_true'] at h
  exact h.1.1

-- the leading bit of the significand fixes the exponent
theorem scaled_lt (hx : 1023 ≤ x.exponent) (h : x.exponent < y.exponent) : x.scaled < y.scaled := by
  have small : x.mantissa < 2 ^ 52 := Nat.mod_lt _ (by decide)
  rw [scaled_eq hx, scaled_eq (by omega)]
  calc (2 ^ 52 + x.mantissa) * 2 ^ (x.exponent - 1)
      < 2 ^ 53 * 2 ^ (x.exponent - 1) := Nat.mul_lt_mul_of_pos_right (by omega) (by positivity)
    _ = 2 ^ 52 * 2 ^ (x.exponent - 1 + 1) := by rw [← pow_add, ← pow_add]; congr 1; omega
    _ ≤ 2 ^ 52 * 2 ^ (y.exponent - 1) :=
        Nat.mul_le_mul_left _ (Nat.pow_le_pow_right (by decide) (by omega))
    _ ≤ (2 ^ 52 + y.mantissa) * 2 ^ (y.exponent - 1) := Nat.mul_le_mul_right _ (by omega)

theorem eq_of_scaled (hx : one.le x = true) (hy : one.le y = true) (h : x.scaled = y.scaled) :
    x = y := by
  obtain ⟨-, positive, large⟩ := le_one hx
  obtain ⟨-, positive', large'⟩ := le_one hy
  have exponents : x.exponent = y.exponent := by
    rcases lt_trichotomy x.exponent y.exponent with less | same | more
    · exact absurd h (scaled_lt large less).ne
    · exact same
    · exact absurd h (scaled_lt large' more).ne'
  rw [scaled_eq large, scaled_eq large', exponents, Nat.mul_left_inj (by positivity)] at h
  apply ext_magnitude positive positive'
  rw [x.magnitude_eq, y.magnitude_eq, exponents]
  omega

theorem eq_of_toUsize {i : Nat} (hx : one.le x = true) (hy : one.le y = true)
    (integral : x.eq x.trunc = true) (integral' : y.eq y.trunc = true)
    (h : x.toUsize = some i) (h' : y.toUsize = some i) : x = y := by
  apply eq_of_scaled hx hy
  have value {z : F64} (h : z.toUsize = some i) : z.scaled / 2 ^ 1074 = i := by
    unfold toUsize at h
    split_ifs at h
    exact Option.some.inj h
  rw [← Nat.div_mul_cancel (dvd_scaled hx integral), ← Nat.div_mul_cancel (dvd_scaled hy integral'),
    value h, value h']

/-! ## Numbers that can be converted -/

def minusOne : F64 := ⟨0xbff0000000000000⟩

-- powers of two bound the numbers of an exponent
theorem scaled_lt_iff {b : Nat} (positive : 0 < b) : x.scaled < 2 ^ (51 + b) ↔ x.exponent < b := by
  have small : x.mantissa < 2 ^ 52 := Nat.mod_lt _ (by decide)
  constructor
  · intro below
    by_contra large
    have lower : 2 ^ (51 + b) ≤ x.scaled := by
      calc 2 ^ (51 + b) = 2 ^ 52 * 2 ^ (b - 1) := by rw [← pow_add]; congr 1; omega
        _ ≤ (2 ^ 52 + x.mantissa) * 2 ^ (x.exponent - 1) :=
            Nat.mul_le_mul (Nat.le_add_right _ _) (Nat.pow_le_pow_right (by decide) (by omega))
        _ = x.scaled := by rw [scaled, if_neg (by omega)]
    omega
  · intro less
    unfold scaled
    split
    · calc x.mantissa < 2 ^ 52 := small
        _ ≤ 2 ^ (51 + b) := Nat.pow_le_pow_right (by decide) (by omega)
    · calc (2 ^ 52 + x.mantissa) * 2 ^ (x.exponent - 1)
          < 2 ^ 53 * 2 ^ (x.exponent - 1) := Nat.mul_lt_mul_of_pos_right (by omega) (by positivity)
        _ = 2 ^ (52 + x.exponent) := by rw [← pow_add]; congr 1; omega
        _ ≤ 2 ^ (51 + b) := Nat.pow_le_pow_right (by decide) (by omega)

theorem toUsize_isSome : x.toUsize.isSome = true ↔ x.exponent < 1087 := by
  have fits : x.scaled / 2 ^ 1074 < 2 ^ 64 ↔ x.exponent < 1087 := by
    have bound := scaled_lt_iff (x := x) (b := 1087) (by decide)
    rwa [show 51 + 1087 = 64 + 1074 from rfl, pow_add, ← Nat.div_lt_iff_lt_mul (by positivity)] at bound
  unfold toUsize
  split
  · rename_i special
    exact iff_of_false Bool.false_ne_true (by omega)
  · split
    · rename_i inside
      exact iff_of_true rfl (fits.mp inside)
    · rename_i outside
      exact iff_of_false Bool.false_ne_true fun less => outside (fits.mpr less)

theorem toUsize_zero : x.toUsize = some 0 ↔ x.exponent < 1023 := by
  have zero : x.scaled / 2 ^ 1074 = 0 ↔ x.exponent < 1023 := by
    have bound := scaled_lt_iff (x := x) (b := 1023) (by decide)
    rwa [show 51 + 1023 = 1074 from rfl, ← Nat.div_eq_zero_iff_lt (by positivity)] at bound
  unfold toUsize
  split
  · rename_i special
    exact iff_of_false (by simp) (by omega)
  · rw [← zero]
    split
    · exact Option.some_inj
    · rename_i outside
      exact iff_of_false (by simp) (by omega)

theorem intFromFloat_isSome : x.intFromFloat.isSome = true ↔ minusOne.lt x = true ∧ x.lt twoPow64 = true := by
  have digits := x.magnitude_eq
  have small : x.mantissa < 2 ^ 52 := Nat.mod_lt _ (by decide)
  have rankLow : minusOne.rank = -(1023 * 2 ^ 52) := by decide
  have rankTop : twoPow64.rank = 1087 * 2 ^ 52 := by decide
  have lowNumber : minusOne.isNan = false := by decide
  have topNumber : twoPow64.isNan = false := by decide
  have number : x.exponent < 2047 → x.isNan = false := by
    intro less
    rw [isNan, beq_eq_false_iff_ne.mpr (by omega), Bool.false_and]
  have between : minusOne.lt x = true ∧ x.lt twoPow64 = true ↔
      x.isNan = false ∧ -(1023 * 2 ^ 52) < x.rank ∧ x.rank < 1087 * 2 ^ 52 := by
    simp only [lt, rankLow, rankTop, lowNumber, topNumber, Bool.not_false, Bool.true_and, Bool.and_true,
      Bool.and_eq_true, Bool.not_eq_true', decide_eq_true_eq]
    tauto
  rw [between]
  unfold intFromFloat rank
  cases negative : x.sign with
  | true =>
      have converted : (if x.toUsize = some 0 then some 0 else none).isSome = true ↔ x.exponent < 1023 := by
        rw [← toUsize_zero]
        split <;> simp_all
      simp only [if_true, converted]
      constructor
      · intro less
        exact ⟨number (by omega), by omega, by omega⟩
      · rintro ⟨-, above, -⟩
        omega
  | false =>
      simp only [Bool.false_eq_true, if_false, toUsize_isSome]
      constructor
      · intro less
        exact ⟨number (by omega), by omega, by omega⟩
      · rintro ⟨-, -, below⟩
        omega

/-! ## Integers as numbers -/

section Integers

variable {n : Nat} (positive : 0 < n) (small : n < 2 ^ 53)

include positive small in
theorem significand_eq : significand n = n * 2 ^ (52 - n.log2) ∧ n.log2 ≤ 52 ∧
    2 ^ 52 ≤ n * 2 ^ (52 - n.log2) ∧ n * 2 ^ (52 - n.log2) < 2 ^ 53 := by
  have log : n.log2 < 53 := (Nat.log2_lt positive.ne').mpr small
  have upper : n < 2 ^ (n.log2 + 1) := Nat.lt_log2_self
  have lower : 2 ^ n.log2 ≤ n := Nat.log2_self_le positive.ne'
  have power : 2 ^ n.log2 * 2 ^ (52 - n.log2) = 2 ^ 52 := by
    rw [← pow_add]
    congr 1
    omega
  have power' : 2 ^ (n.log2 + 1) * 2 ^ (52 - n.log2) = 2 ^ 53 := by
    rw [← pow_add]
    congr 1
    omega
  refine ⟨if_pos (by omega), by omega, ?_, ?_⟩
  · rw [← power]
    exact Nat.mul_le_mul_right _ lower
  · rw [← power']
    exact Nat.mul_lt_mul_of_pos_right upper (by positivity)

include positive small in
theorem floatFromInt_fields : (floatFromInt n).sign = false ∧ (floatFromInt n).exponent = 1023 + n.log2 ∧
    2 ^ 52 + (floatFromInt n).mantissa = n * 2 ^ (52 - n.log2) ∧
    (floatFromInt n).bits.toNat = (1022 + n.log2) * 2 ^ 52 + n * 2 ^ (52 - n.log2) := by
  obtain ⟨value, log, lower, upper⟩ := significand_eq positive small
  have bits : (floatFromInt n).bits.toNat = (1022 + n.log2) * 2 ^ 52 + n * 2 ^ (52 - n.log2) := by
    rw [floatFromInt, if_neg positive.ne', value, UInt64.toNat_ofNat']
    exact Nat.mod_eq_of_lt (by omega)
  unfold sign exponent mantissa
  rw [bits]
  generalize n * 2 ^ (52 - n.log2) = m at lower upper
  generalize n.log2 = log at *
  refine ⟨?_, ?_, ?_, rfl⟩
  · simp only [decide_eq_false_iff_not]
    omega
  · omega
  · omega

include positive small in
theorem rank_floatFromInt : (floatFromInt n).isNan = false ∧
    (floatFromInt n).rank = (1023 + n.log2 : Nat) * 2 ^ 52 + (floatFromInt n).mantissa := by
  obtain ⟨sign, exponent, -, -⟩ := floatFromInt_fields positive small
  refine ⟨floatFromInt_finite (by omega), ?_⟩
  have digits := (floatFromInt n).magnitude_eq
  rw [exponent] at digits
  rw [rank, sign, if_neg Bool.false_ne_true]
  exact_mod_cast digits

include positive small in
theorem one_le_floatFromInt : one.le (floatFromInt n) = true := by
  obtain ⟨finite, rank⟩ := rank_floatFromInt positive small
  have rankOne : one.rank = 1023 * 2 ^ 52 := by decide
  simp only [le, finite, rank, rankOne, Bool.and_eq_true, Bool.not_eq_true', decide_eq_true_eq, and_true]
  refine ⟨by decide, ?_⟩
  push_cast
  omega

include positive small in
theorem trunc_floatFromInt : (floatFromInt n).trunc = floatFromInt n := by
  obtain ⟨-, log, -, -⟩ := significand_eq positive small
  obtain ⟨-, exponent, -, bits⟩ := floatFromInt_fields positive small
  have large : ¬ 1023 + n.log2 < 1023 := by omega
  rw [trunc, exponent, if_neg large]
  split
  · have shift : 1075 - (1023 + n.log2) = 52 - n.log2 := by omega
    have high : 2 ^ (52 - n.log2) ∣ (1022 + n.log2) * 2 ^ 52 :=
      Dvd.dvd.mul_left (Nat.pow_dvd_pow 2 (by omega)) _
    have cleared : (floatFromInt n).bits.toNat % 2 ^ (52 - n.log2) = 0 := by
      rw [bits]
      exact Nat.mod_eq_zero_of_dvd (Nat.dvd_add high (dvd_mul_left _ _))
    rw [shift, cleared, Nat.sub_zero]
    cases floatFromInt n with
    | mk bits => simp
  · rfl

include positive small in
theorem toUsize_floatFromInt : (floatFromInt n).toUsize = some n := by
  obtain ⟨-, log, -, -⟩ := significand_eq positive small
  obtain ⟨-, exponent, mantissa, -⟩ := floatFromInt_fields positive small
  have value : (floatFromInt n).scaled = n * 2 ^ 1074 := by
    rw [scaled_eq (by omega), mantissa, exponent, mul_assoc, ← pow_add]
    congr 2
    omega
  have quotient : n * 2 ^ 1074 / 2 ^ 1074 = n := Nat.mul_div_cancel _ (by positivity)
  rw [toUsize, if_neg (by omega), value, quotient, if_pos (by omega)]

include positive small in
theorem intFromFloat_floatFromInt : (floatFromInt n).intFromFloat = some n := by
  have sign := (floatFromInt_fields positive small).1
  rw [intFromFloat, sign, toUsize_floatFromInt positive small]
  rfl

include positive small in
theorem floatFromInt_lt : (floatFromInt n).lt twoPow64 = true := by
  obtain ⟨-, log, -, -⟩ := significand_eq positive small
  obtain ⟨finite, rank⟩ := rank_floatFromInt positive small
  have rankTop : twoPow64.rank = 1087 * 2 ^ 52 := by decide
  have bound : (floatFromInt n).mantissa < 2 ^ 52 := Nat.mod_lt _ (by decide)
  simp only [lt, finite, rank, rankTop, Bool.and_eq_true, Bool.not_eq_true', decide_eq_true_eq, true_and]
  refine ⟨by decide, ?_⟩
  push_cast
  omega

end Integers

end F64

end Zua
