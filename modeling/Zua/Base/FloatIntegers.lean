import Zua.Base.Float64

/-!
# Numbers that are integers

The order of the numbers is the order of their scaled values, so that integers are compared as integers.
-/

namespace Zua

namespace F64

variable {x y : F64}

def zero : F64 := ⟨0⟩

-- the sign bit is flipped
def negate (x : F64) : F64 :=
  ⟨if x.sign then x.bits - 0x8000000000000000 else x.bits + 0x8000000000000000⟩

-- a finite number without its fraction
def toInt (x : F64) : Int :=
  if x.sign then -((x.scaled / 2 ^ 1074 : Nat) : Int) else ((x.scaled / 2 ^ 1074 : Nat) : Int)

structure IsInteger (x : F64) : Prop where
  finite : x.exponent ≠ 2047
  whole : 2 ^ 1074 ∣ x.scaled

theorem IsInteger.number (integer : x.IsInteger) : x.isNan = false := by
  rw [isNan, beq_eq_false_iff_ne.mpr integer.finite, Bool.false_and]

theorem scaled_zero : zero.scaled = 0 := by decide

theorem zero_isInteger : zero.IsInteger where
  finite := by decide
  whole := by
    rw [scaled_zero]
    exact dvd_zero _

theorem toInt_zero : zero.toInt = 0 := by
  rw [toInt, scaled_zero, Nat.zero_div]
  rfl

/-! ## The order -/

-- `scaled` as a function of the magnitude
def scaledOf (m : Nat) : Nat := if m / 2 ^ 52 = 0 then m % 2 ^ 52 else (2 ^ 52 + m % 2 ^ 52) * 2 ^ (m / 2 ^ 52 - 1)

theorem scaledOf_strictMono : StrictMono scaledOf := by
  apply strictMono_nat_of_lt_succ
  intro m
  unfold scaledOf
  by_cases carry : m % 2 ^ 52 + 1 = 2 ^ 52
  · have quotient : (m + 1) / 2 ^ 52 = m / 2 ^ 52 + 1 := by omega
    have rest : (m + 1) % 2 ^ 52 = 0 := by omega
    rw [quotient, rest, if_neg (Nat.succ_ne_zero _), Nat.add_sub_cancel, Nat.add_zero]
    split
    · rename_i zero
      rw [zero]
      omega
    · rename_i positive
      calc (2 ^ 52 + m % 2 ^ 52) * 2 ^ (m / 2 ^ 52 - 1)
          < 2 ^ 53 * 2 ^ (m / 2 ^ 52 - 1) := Nat.mul_lt_mul_of_pos_right (by omega) (by positivity)
        _ = 2 ^ 52 * 2 ^ (m / 2 ^ 52 - 1 + 1) := by ring
        _ = 2 ^ 52 * 2 ^ (m / 2 ^ 52) := by rw [Nat.sub_add_cancel (by omega)]
  · have quotient : (m + 1) / 2 ^ 52 = m / 2 ^ 52 := by omega
    have rest : (m + 1) % 2 ^ 52 = m % 2 ^ 52 + 1 := by omega
    rw [quotient, rest]
    split
    · exact Nat.lt_succ_self _
    · exact Nat.mul_lt_mul_of_pos_right (by omega) (by positivity)

theorem scaled_eq_scaledOf (x : F64) : x.scaled = scaledOf x.magnitude := by
  have digits := x.magnitude_eq
  have small : x.mantissa < 2 ^ 52 := Nat.mod_lt _ (by decide)
  have quotient : x.magnitude / 2 ^ 52 = x.exponent := by omega
  have rest : x.magnitude % 2 ^ 52 = x.mantissa := by omega
  rw [scaled, scaledOf, quotient, rest]

theorem magnitude_lt_iff : x.magnitude < y.magnitude ↔ x.scaled < y.scaled := by
  rw [scaled_eq_scaledOf, scaled_eq_scaledOf, scaledOf_strictMono.lt_iff_lt]

theorem IsInteger.quotient_lt (hx : x.IsInteger) (hy : y.IsInteger) :
    x.magnitude < y.magnitude ↔ x.scaled / 2 ^ 1074 < y.scaled / 2 ^ 1074 := by
  obtain ⟨a, ha⟩ := hx.whole
  obtain ⟨b, hb⟩ := hy.whole
  have positive : 0 < 2 ^ 1074 := by positivity
  rw [magnitude_lt_iff, ha, hb, Nat.mul_div_cancel_left _ positive, Nat.mul_div_cancel_left _ positive]
  exact Nat.mul_lt_mul_left positive

theorem IsInteger.quotient_zero (hx : x.IsInteger) : x.magnitude = 0 ↔ x.scaled / 2 ^ 1074 = 0 := by
  have above := zero_isInteger.quotient_lt hx
  have magnitude : zero.magnitude = 0 := by decide
  rw [scaled_zero, Nat.zero_div, magnitude] at above
  omega

theorem lt_iff_toInt (hx : x.IsInteger) (hy : y.IsInteger) : x.lt y = true ↔ x.toInt < y.toInt := by
  have less := hx.quotient_lt hy
  have more := hy.quotient_lt hx
  have zero := hx.quotient_zero
  have zero' := hy.quotient_zero
  simp only [lt, hx.number, hy.number, Bool.not_false, Bool.true_and, decide_eq_true_eq]
  unfold rank toInt
  generalize x.scaled / 2 ^ 1074 = a at *
  generalize y.scaled / 2 ^ 1074 = b at *
  split <;> split <;> omega

/-! ## Some integers -/

theorem floatFromInt_scaled {n : Nat} (positive : 0 < n) (small : n < 2 ^ 53) :
    (floatFromInt n).scaled = n * 2 ^ 1074 := by
  obtain ⟨-, log, -, -⟩ := significand_eq positive small
  obtain ⟨-, exponent, mantissa, -⟩ := floatFromInt_fields positive small
  rw [scaled_eq (by omega), mantissa, exponent, mul_assoc, ← pow_add]
  congr 2
  omega

theorem floatFromInt_isInteger {n : Nat} (positive : 0 < n) (small : n < 2 ^ 53) : (floatFromInt n).IsInteger where
  finite := by
    obtain ⟨-, log, -, -⟩ := significand_eq positive small
    obtain ⟨-, exponent, -, -⟩ := floatFromInt_fields positive small
    omega
  whole := by
    rw [floatFromInt_scaled positive small]
    exact dvd_mul_left _ _

theorem toInt_floatFromInt {n : Nat} (positive : 0 < n) (small : n < 2 ^ 53) : (floatFromInt n).toInt = n := by
  have sign := (floatFromInt_fields positive small).1
  rw [toInt, sign, if_neg Bool.false_ne_true, floatFromInt_scaled positive small, Nat.mul_div_cancel _ (by positivity)]

theorem negate_fields (x : F64) : (negate x).sign = !x.sign ∧ (negate x).exponent = x.exponent ∧
    (negate x).mantissa = x.mantissa := by
  have bound := x.bits.toNat_lt
  unfold negate sign exponent mantissa
  by_cases negative : 2 ^ 63 ≤ x.bits.toNat
  · have bits : (x.bits - 0x8000000000000000).toNat = x.bits.toNat - 2 ^ 63 := by
      rw [UInt64.toNat_sub]
      simp
      omega
    simp only [negative, decide_true, if_true, bits]
    refine ⟨by simp; omega, by omega, by omega⟩
  · have bits : (x.bits + 0x8000000000000000).toNat = x.bits.toNat + 2 ^ 63 := by
      rw [UInt64.toNat_add]
      simp
      omega
    simp only [negative, decide_false, Bool.false_eq_true, if_false, bits]
    refine ⟨by simp, by omega, by omega⟩

theorem scaled_negate (x : F64) : (negate x).scaled = x.scaled := by
  obtain ⟨-, exponent, mantissa⟩ := negate_fields x
  rw [scaled, scaled, exponent, mantissa]

theorem negate_isInteger (integer : x.IsInteger) : (negate x).IsInteger where
  finite := by
    rw [(negate_fields x).2.1]
    exact integer.finite
  whole := by
    rw [scaled_negate]
    exact integer.whole

theorem toInt_negate (x : F64) : (negate x).toInt = -x.toInt := by
  unfold toInt
  rw [(negate_fields x).1, scaled_negate]
  generalize x.scaled / 2 ^ 1074 = quotient
  cases x.sign <;> simp

end F64

end Zua
