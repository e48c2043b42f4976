import Zua.Compile.Gen
import Mathlib.Algebra.Order.Floor.Div

/-!
# Floating point bytes

The sizes in a NEWTABLE instruction, from `object.zig`: a byte holds five bits of exponent and three bits
of mantissa under a leading one. A size between two such numbers is rounded up.
-/

namespace Zua.Object

def maxFloatingPointByte : Nat := 0b1111 <<< (0b11111 - 1)

-- the loop of `intToFloatingPointByte`: `x` is a `u34`, the type that just fits the maximum, and `e` a `u8`
def halve (e x : Nat) : Option (Nat × Nat) :=
  if x < 16 then some (e, x)
  else if x + 1 < 2 ^ 34 ∧ e + 1 < 2 ^ 8 then halve (e + 1) ((x + 1) / 2)
  else none
termination_by x

-- `none` is an assertion that fails or an overflow
def intToFloatingPointByte (x : Nat) : Option UInt8 :=
  if x ≤ maxFloatingPointByte then do
    let (e, x) ← halve 0 x
    if x < 8 then some (UInt8.ofNat x)
    else if e + 1 < 2 ^ 8 then some (UInt8.ofNat ((e + 1) <<< 3) ||| UInt8.ofNat (x - 8))
    else none
  else none

def floatingPointByteToInt (b : UInt8) : Nat :=
  let x := b.toNat
  let e := x >>> 3
  if e = 0 then x else (((x &&& 7) + 8) <<< (e - 1)) % 2 ^ 34

/-! ## Dividing upwards -/

theorem lt_ceilDiv_iff {x a n : Nat} (pos : 0 < a) : n < x ⌈/⌉ a ↔ a * n < x := by
  rw [← not_le, ← not_le, ceilDiv_le_iff_le_mul pos]

-- halving upwards what was divided upwards
theorem ceilDiv_halve (x : Nat) {a : Nat} (pos : 0 < a) : (x ⌈/⌉ a + 1) / 2 = x ⌈/⌉ (a * 2) := by
  apply eq_of_forall_ge_iff
  intro n
  have step : (x ⌈/⌉ a + 1) / 2 ≤ n ↔ x ⌈/⌉ a ≤ 2 * n := by omega
  rw [step, ceilDiv_le_iff_le_mul pos, ceilDiv_le_iff_le_mul (Nat.mul_pos pos Nat.two_pos), Nat.mul_assoc]

/-! ## The loop -/

-- the exponent at which the loop stops
structure Fits (x k : Nat) : Prop where
  small : x ⌈/⌉ 2 ^ k < 16
  large : ∀ j < k, 16 ≤ x ⌈/⌉ 2 ^ j

theorem halve_fits {x i : Nat} (le : x ≤ maxFloatingPointByte) (before : ∀ j < i, 16 ≤ x ⌈/⌉ 2 ^ j) :
    ∃ k, halve i (x ⌈/⌉ 2 ^ i) = some (k, x ⌈/⌉ 2 ^ k) ∧ Fits x k := by
  generalize current : x ⌈/⌉ 2 ^ i = y
  induction y using Nat.strong_induction_on generalizing i with
  | _ y ih =>
      rw [halve]
      by_cases small : y < 16
      · refine ⟨i, ?_, ?_, before⟩
        · rw [if_pos small, current]
        · rw [current]
          exact small
      · have wide : 2 ^ i * 15 < x := (lt_ceilDiv_iff (Nat.two_pow_pos i)).mp (by omega)
        have few : i < 30 := by
          by_contra many
          have := Nat.pow_le_pow_right Nat.two_pos (Nat.not_lt.mp many)
          simp only [maxFloatingPointByte, Nat.shiftLeft_eq] at le
          omega
        have fits : y ≤ maxFloatingPointByte := by
          rw [← current, ceilDiv_le_iff_le_mul (Nat.two_pow_pos i)]
          exact le.trans (Nat.le_mul_of_pos_left _ (Nat.two_pow_pos i))
        have word : y + 1 < 2 ^ 34 ∧ i + 1 < 2 ^ 8 := by
          simp only [maxFloatingPointByte, Nat.shiftLeft_eq] at fits
          omega
        rw [if_neg small, if_pos word]
        refine ih ((y + 1) / 2) (by omega) (fun j late => ?_) ?_
        · rcases Nat.lt_succ_iff_lt_or_eq.mp late with early | rfl
          · exact before j early
          · rw [current]
            exact Nat.not_lt.mp small
        · rw [Nat.pow_succ, ← ceilDiv_halve x (Nat.two_pow_pos i), current]

theorem Fits.exponent {x k : Nat} (fits : Fits x k) (le : x ≤ maxFloatingPointByte) : k ≤ 30 := by
  by_contra many
  have large := fits.large 30 (Nat.not_le.mp many)
  have wide : 2 ^ 30 * 15 < x := (lt_ceilDiv_iff (Nat.two_pow_pos 30)).mp (by omega)
  simp only [maxFloatingPointByte, Nat.shiftLeft_eq] at le
  omega

-- one halving short of the end there were still 16 or more, so that 8 are left
theorem Fits.normal {x k : Nat} (fits : Fits x k) (some : k ≠ 0) : 8 ≤ x ⌈/⌉ 2 ^ k := by
  obtain ⟨j, rfl⟩ := Nat.exists_eq_succ_of_ne_zero some
  have large := fits.large j (Nat.lt_succ_self j)
  rw [Nat.succ_eq_add_one, Nat.pow_succ, ← ceilDiv_halve x (Nat.two_pow_pos j)]
  omega

/-! ## The values of bytes -/

theorem floatingPointByteToInt_eq (b : UInt8) : floatingPointByteToInt b =
    if b.toNat / 8 = 0 then b.toNat % 8 else (b.toNat % 8 + 8) * 2 ^ (b.toNat / 8 - 1) := by
  have byte : b.toNat < 256 := b.toNat_lt
  unfold floatingPointByteToInt
  simp only [Nat.shiftRight_eq_div_pow, Nat.shiftLeft_eq, Nat.reducePow]
  have low : b.toNat &&& 7 = b.toNat % 8 := Nat.and_two_pow_sub_one_eq_mod b.toNat 3
  rw [low]
  split
  · omega
  · have exponent : 2 ^ (b.toNat / 8 - 1) ≤ 2 ^ 30 := Nat.pow_le_pow_right Nat.two_pos (by omega)
    have mantissa : b.toNat % 8 + 8 ≤ 15 := by omega
    apply Nat.mod_eq_of_lt
    calc (b.toNat % 8 + 8) * 2 ^ (b.toNat / 8 - 1) ≤ 15 * 2 ^ 30 := Nat.mul_le_mul mantissa exponent
      _ < 17179869184 := by norm_num

-- the value of a byte is a short number times a power of two
theorem floatingPointByteToInt_grid (b : UInt8) :
    ∃ n j, n ≤ 15 ∧ j ≤ 30 ∧ floatingPointByteToInt b = n * 2 ^ j := by
  have byte : b.toNat < 256 := b.toNat_lt
  rw [floatingPointByteToInt_eq]
  split
  · exact ⟨b.toNat % 8, 0, by omega, Nat.zero_le _, (Nat.mul_one _).symm⟩
  · exact ⟨b.toNat % 8 + 8, b.toNat / 8 - 1, by omega, by omega, rfl⟩

theorem floatingPointByteToInt_le (b : UInt8) : floatingPointByteToInt b ≤ maxFloatingPointByte := by
  obtain ⟨n, j, short, few, value⟩ := floatingPointByteToInt_grid b
  rw [value, maxFloatingPointByte, Nat.shiftLeft_eq]
  exact Nat.mul_le_mul short (Nat.pow_le_pow_right Nat.two_pos few)

-- a byte is worth more than all bytes below it
theorem floatingPointByteToInt_lt {b c : UInt8} (less : b < c) :
    floatingPointByteToInt b < floatingPointByteToInt c := by
  have less : b.toNat < c.toNat := less
  have below : floatingPointByteToInt b < 2 ^ (b.toNat / 8 + 3) := by
    rw [floatingPointByteToInt_eq]
    split
    · have := Nat.pow_le_pow_right Nat.two_pos (Nat.le_add_left 3 (b.toNat / 8))
      omega
    · have : 2 ^ (b.toNat / 8 + 3) = 16 * 2 ^ (b.toNat / 8 - 1) := by
        rw [show (16 : Nat) = 2 ^ 4 from rfl, ← Nat.pow_add]
        congr 1
        omega
      rw [this]
      exact Nat.mul_lt_mul_of_pos_right (by omega) (Nat.two_pow_pos _)
  rcases Nat.lt_or_ge (b.toNat / 8) (c.toNat / 8) with apart | together
  · apply below.trans_le
    have above : 8 * 2 ^ (c.toNat / 8 - 1) ≤ floatingPointByteToInt c := by
      rw [floatingPointByteToInt_eq, if_neg (by omega)]
      exact Nat.mul_le_mul_right _ (by omega)
    refine le_trans ?_ above
    rw [show (8 : Nat) = 2 ^ 3 from rfl, ← Nat.pow_add]
    exact Nat.pow_le_pow_right Nat.two_pos (by omega)
  · have same : c.toNat / 8 = b.toNat / 8 := by omega
    rw [floatingPointByteToInt_eq, floatingPointByteToInt_eq, same]
    split
    · omega
    · exact Nat.mul_lt_mul_of_pos_right (by omega) (Nat.two_pow_pos _)

theorem floatingPointByteToInt_le_iff {b c : UInt8} :
    floatingPointByteToInt b ≤ floatingPointByteToInt c ↔ b ≤ c := by
  rcases lt_trichotomy b.toNat c.toNat with less | same | more
  · exact iff_of_true (floatingPointByteToInt_lt less).le less.le
  · rw [UInt8.toNat_inj.mp same]
    exact iff_of_true le_rfl (UInt8.le_refl c)
  · exact iff_of_false (floatingPointByteToInt_lt more).not_ge more.not_ge

/-! ## Rounding up -/

theorem intToFloatingPointByte_run {x : Nat} (le : x ≤ maxFloatingPointByte) :
    ∃ b k, intToFloatingPointByte x = some b ∧ halve 0 x = some (k, x ⌈/⌉ 2 ^ k) ∧ Fits x k ∧
      b.toNat = if x ⌈/⌉ 2 ^ k < 8 then x ⌈/⌉ 2 ^ k else (k + 1) * 8 + (x ⌈/⌉ 2 ^ k - 8) := by
  obtain ⟨k, run, fits⟩ := halve_fits (i := 0) le (fun j early => absurd early (Nat.not_lt_zero j))
  rw [Nat.pow_zero, ceilDiv_one] at run
  have small := fits.small
  have few := fits.exponent le
  unfold intToFloatingPointByte
  rw [if_pos le, run]
  by_cases denormal : x ⌈/⌉ 2 ^ k < 8
  · refine ⟨_, k, if_pos denormal, rfl, fits, ?_⟩
    rw [if_pos denormal]
    exact UInt8.toNat_ofNat_of_lt' (by change _ < 256; omega)
  · have byte : k + 1 < 2 ^ 8 := by omega
    refine ⟨_, k, (if_neg denormal).trans (if_pos byte), rfl, fits, ?_⟩
    have high : (UInt8.ofNat ((k + 1) <<< 3)).toNat = (k + 1) <<< 3 := by
      apply UInt8.toNat_ofNat_of_lt'
      change (k + 1) <<< 3 < 256
      rw [Nat.shiftLeft_eq]
      omega
    have low : (UInt8.ofNat (x ⌈/⌉ 2 ^ k - 8)).toNat = x ⌈/⌉ 2 ^ k - 8 :=
      UInt8.toNat_ofNat_of_lt' (by change _ < 256; omega)
    rw [if_neg denormal, UInt8.toNat_or, high, low,
      ← Nat.shiftLeft_add_eq_or_of_lt (show _ < 2 ^ 3 by omega), Nat.shiftLeft_eq]

theorem intToFloatingPointByte_value {x : Nat} (le : x ≤ maxFloatingPointByte) :
    ∃ b k, intToFloatingPointByte x = some b ∧ Fits x k ∧ floatingPointByteToInt b = x ⌈/⌉ 2 ^ k * 2 ^ k := by
  obtain ⟨b, k, run, -, fits, byte⟩ := intToFloatingPointByte_run le
  have small := fits.small
  refine ⟨b, k, run, fits, ?_⟩
  rw [floatingPointByteToInt_eq, byte]
  by_cases denormal : x ⌈/⌉ 2 ^ k < 8
  · obtain rfl : k = 0 := by
      by_contra some
      exact absurd (fits.normal some) (Nat.not_le.mpr denormal)
    rw [if_pos denormal, if_pos (by omega)]
    omega
  · have exponent : ((k + 1) * 8 + (x ⌈/⌉ 2 ^ k - 8)) / 8 = k + 1 := by omega
    have mantissa : ((k + 1) * 8 + (x ⌈/⌉ 2 ^ k - 8)) % 8 + 8 = x ⌈/⌉ 2 ^ k := by omega
    rw [if_neg denormal, exponent, mantissa, if_neg (Nat.succ_ne_zero k), Nat.add_sub_cancel]

-- numbers above `15 * 2 ^ (k - 1)` that a byte can hold are multiples of `2 ^ k`
theorem Fits.least {x k : Nat} (fits : Fits x k) (b : UInt8) (above : x ≤ floatingPointByteToInt b) :
    x ⌈/⌉ 2 ^ k * 2 ^ k ≤ floatingPointByteToInt b := by
  obtain ⟨n, j, short, -, value⟩ := floatingPointByteToInt_grid b
  have far : k ≤ j := by
    by_contra early
    have many := fits.large j (Nat.not_le.mp early)
    have wide : 2 ^ j * 15 < x := (lt_ceilDiv_iff (Nat.two_pow_pos j)).mp (by omega)
    have := Nat.mul_le_mul_right (2 ^ j) short
    rw [Nat.mul_comm] at wide
    omega
  have multiple : n * 2 ^ j = 2 ^ k * (n * 2 ^ (j - k)) := by
    rw [Nat.mul_left_comm, ← Nat.pow_add, Nat.add_sub_cancel' far]
  rw [value, multiple, Nat.mul_comm]
  apply Nat.mul_le_mul_left
  rw [ceilDiv_le_iff_le_mul (Nat.two_pow_pos k), ← multiple, ← value]
  exact above

def Representable (v : Nat) : Prop := ∃ b, floatingPointByteToInt b = v

theorem intToFloatingPointByte_least {x : Nat} (le : x ≤ maxFloatingPointByte) :
    ∃ b, intToFloatingPointByte x = some b ∧
      IsLeast {v | Representable v ∧ x ≤ v} (floatingPointByteToInt b) := by
  obtain ⟨b, k, run, fits, value⟩ := intToFloatingPointByte_value le
  refine ⟨b, run, ⟨⟨b, rfl⟩, ?_⟩, ?_⟩
  · rw [value, Nat.mul_comm, ← ceilDiv_le_iff_le_mul (Nat.two_pow_pos k)]
  · rintro v ⟨⟨c, rfl⟩, above⟩
    rw [value]
    exact fits.least c above

theorem intToFloatingPointByte_mono {x y : Nat} {b c : UInt8} (le : x ≤ y)
    (first : intToFloatingPointByte x = some b) (second : intToFloatingPointByte y = some c) : b ≤ c := by
  have inside : y ≤ maxFloatingPointByte := by
    by_contra outside
    rw [intToFloatingPointByte, if_neg outside] at second
    cases second
  obtain ⟨b', run, -, least⟩ := intToFloatingPointByte_least (le.trans inside)
  obtain ⟨c', run', ⟨-, above⟩, -⟩ := intToFloatingPointByte_least inside
  cases first.symm.trans run
  cases second.symm.trans run'
  apply floatingPointByteToInt_le_iff.mp
  exact least ⟨⟨c, rfl⟩, le.trans above⟩

-- a number that a byte holds is its own least upper bound
theorem intToFloatingPointByte_exact {v : Nat} (held : Representable v) :
    ∃ b, intToFloatingPointByte v = some b ∧ floatingPointByteToInt b = v := by
  have inside : v ≤ maxFloatingPointByte := by
    obtain ⟨b, rfl⟩ := held
    exact floatingPointByteToInt_le b
  obtain ⟨b, run, ⟨-, above⟩, least⟩ := intToFloatingPointByte_least inside
  exact ⟨b, run, le_antisymm (least ⟨held, le_rfl⟩) above⟩

theorem floatingPointByte_rounds_up :
    (∀ x ≤ maxFloatingPointByte, ∃ b, intToFloatingPointByte x = some b ∧
      IsLeast {v | Representable v ∧ x ≤ v} (floatingPointByteToInt b)) ∧
    (∀ x y b c, x ≤ y → intToFloatingPointByte x = some b → intToFloatingPointByte y = some c →
      b ≤ c ∧ floatingPointByteToInt b ≤ floatingPointByteToInt c) ∧
    (∀ v, Representable v → ∃ b, intToFloatingPointByte v = some b ∧ floatingPointByteToInt b = v) ∧
    ∀ b, ∃ c, intToFloatingPointByte (floatingPointByteToInt b) = some c ∧
      floatingPointByteToInt c = floatingPointByteToInt b := by
  refine ⟨fun x => intToFloatingPointByte_least, ?_, fun v => intToFloatingPointByte_exact, ?_⟩
  · intro x y b c le first second
    have order := intToFloatingPointByte_mono le first second
    exact ⟨order, floatingPointByteToInt_le_iff.mpr order⟩
  · intro b
    exact intToFloatingPointByte_exact ⟨b, rfl⟩

theorem floatingPointByte_rounds_up_fifty : ∃ b, intToFloatingPointByte 50 = some b ∧
    IsLeast {v | Representable v ∧ 50 ≤ v} (floatingPointByteToInt b) :=
  floatingPointByte_rounds_up.1 50 (by decide)

example : intToFloatingPointByte 50 = some 29 := by
  simp [intToFloatingPointByte, halve, maxFloatingPointByte]
  rfl

example : floatingPointByteToInt 29 = 52 := rfl

end Zua.Object

/-! ## The sizes that the compiler writes -/

namespace Zua.Compile
open Object (halve maxFloatingPointByte Representable floatingPointByteToInt)

theorem intToFloatingPointByteFrom_halve {fuel e x k m : Nat} (enough : x ≤ 7 * 2 ^ fuel)
    (run : halve e x = some (k, m)) :
    intToFloatingPointByteFrom fuel e x = if m < 8 then m else (k + 1) * 8 + (m - 8) := by
  induction fuel generalizing e x with
  | zero =>
      rw [halve, if_pos (by omega)] at run
      cases run
      rw [intToFloatingPointByteFrom, if_pos (by omega)]
  | succ fuel ih =>
      rw [halve] at run
      rw [intToFloatingPointByteFrom]
      by_cases small : x < 16
      · rw [if_pos small] at run
        cases run
        rw [if_neg (Nat.not_le.mpr small)]
      · rw [if_neg small] at run
        rw [if_pos (Nat.not_lt.mp small)]
        split at run
        · exact ih (by omega) run
        · cases run

theorem intToFloatingPointByte_eq {x : Nat} (le : x ≤ maxFloatingPointByte) :
    ∃ b, Object.intToFloatingPointByte x = some b ∧ intToFloatingPointByte x = b.toNat := by
  obtain ⟨b, k, run, loop, -, byte⟩ := Object.intToFloatingPointByte_run le
  have enough : x ≤ 7 * 2 ^ 40 := by
    simp only [maxFloatingPointByte, Nat.shiftLeft_eq] at le
    omega
  refine ⟨b, run, ?_⟩
  rw [intToFloatingPointByte, intToFloatingPointByteFrom_halve enough loop, ← byte]
  exact Nat.mod_eq_of_lt b.toNat_lt

-- the bytes of `setArraySize` and `setTableSize`
theorem sizes_least {x : Nat} (le : x ≤ maxFloatingPointByte) :
    ∃ b : UInt8, intToFloatingPointByte x = b.toNat ∧
      IsLeast {v | Representable v ∧ x ≤ v} (floatingPointByteToInt b) := by
  obtain ⟨b, run, least⟩ := Object.intToFloatingPointByte_least le
  obtain ⟨c, run', byte⟩ := intToFloatingPointByte_eq le
  cases run.symm.trans run'
  exact ⟨b, byte, least⟩

end Zua.Compile
