import Mathlib.Algebra.Order.Floor.Ring
import Mathlib.Data.Int.Log
import Mathlib.Data.Rat.Floor
import Mathlib.Tactic.Linarith
import Mathlib.Tactic.NormNum
import Mathlib.Tactic.Positivity
import Mathlib.Tactic.Ring

/-!
Rounding of rational numbers to binary64: to nearest, ties to even, with the value missing
on overflow. Natural numbers below `2^53` are represented; from `2^54` on the number just
below a power of two rounds to it.
-/

set_option autoImplicit false
set_option relaxedAutoImplicit false

namespace Mp4.Lib.Binary64

/-- The nearest integer, and of two the even one. -/
def roundEven (q : ℚ) : ℤ :=
  if 2 * (q - ⌊q⌋) < 1 then ⌊q⌋
  else if 1 < 2 * (q - ⌊q⌋) then ⌊q⌋ + 1
  else if ⌊q⌋ % 2 = 0 then ⌊q⌋ else ⌊q⌋ + 1

/-- The exponent of the last of the 53 digits of `q`. -/
def exponent (q : ℚ) : ℤ := max (Int.log 2 |q| - 52) (-1074)

/-- The binary64 value nearest to `q`. -/
def toBinary64 (q : ℚ) : Option ℚ :=
  let r : ℚ := roundEven (q / 2 ^ exponent q) * 2 ^ exponent q
  if |r| < 2 ^ 1024 then some r else none

theorem roundEven_intCast (z : ℤ) : roundEven z = z := by
  simp [roundEven]

theorem roundEven_below {z : ℤ} (even : z % 2 = 0) {δ : ℚ} (positive : 0 < δ)
    (half : 2 * δ ≤ 1) : roundEven (z - δ) = z := by
  have floor : ⌊(z : ℚ) - δ⌋ = z - 1 := by
    rw [Int.floor_eq_iff]
    push_cast
    constructor <;> linarith
  have frac : (z : ℚ) - δ - ((z - 1 : ℤ) : ℚ) = 1 - δ := by
    push_cast
    ring
  rw [roundEven, floor, frac, if_neg (by linarith)]
  split_ifs with near odd
  · omega
  · omega
  · omega

theorem exponent_natCast (n : ℕ) : exponent n = max ((Nat.log 2 n : ℤ) - 52) (-1074) := by
  rw [exponent, Nat.abs_cast, Int.log_natCast]

theorem toBinary64_natCast {n : ℕ} (small : n < 2 ^ 53) :
    toBinary64 n = some (n : ℚ) := by
  have digits : Nat.log 2 n < 53 := Nat.log_lt_of_lt_pow' (by norm_num) small
  obtain ⟨m, exp⟩ : ∃ m : ℕ, exponent n = -m := by
    refine ⟨(-exponent n).toNat, ?_⟩
    rw [exponent_natCast]
    omega
  have scaled : (n : ℚ) / 2 ^ exponent (n : ℚ) = ((n * 2 ^ m : ℕ) : ℤ) := by
    rw [exp, zpow_neg, div_inv_eq_mul, zpow_natCast]
    push_cast
    ring
  have back : ((((n * 2 ^ m : ℕ) : ℤ) : ℚ)) * 2 ^ exponent (n : ℚ) = n := by
    rw [exp, zpow_neg, zpow_natCast]
    push_cast
    rw [mul_assoc, mul_inv_cancel₀ (by positivity), mul_one]
  have bounded : (n : ℚ) < 2 ^ 1024 := by
    calc (n : ℚ) < ((2 ^ 53 : ℕ) : ℚ) := by exact_mod_cast small
      _ = (2 : ℚ) ^ 53 := by norm_num
      _ ≤ 2 ^ 1024 := pow_le_pow_right₀ (by norm_num) (by norm_num)
  simp only [toBinary64, scaled, roundEven_intCast, back, Nat.abs_cast]
  rw [if_pos bounded]

theorem toBinary64_allOnes (j : ℕ) (positive : 0 < j) :
    toBinary64 ((2 : ℚ) ^ (53 + j) - 1) =
      if (2 : ℚ) ^ (53 + j) < 2 ^ 1024 then some (2 ^ (53 + j)) else none := by
  have cast : (2 : ℚ) ^ (53 + j) - 1 = ((2 ^ (53 + j) - 1 : ℕ) : ℚ) := by
    rw [Nat.cast_sub Nat.one_le_two_pow]
    push_cast
    ring
  have digits : Nat.log 2 (2 ^ (53 + j) - 1) = 52 + j := by
    refine Nat.log_eq_of_pow_le_of_lt_pow ?_ ?_
    · have double : 2 ^ (53 + j) = 2 * 2 ^ (52 + j) := by ring
      have one : 1 ≤ 2 ^ (52 + j) := Nat.one_le_two_pow
      omega
    · have one : 1 ≤ 2 ^ (53 + j) := Nat.one_le_two_pow
      have next : 52 + j + 1 = 53 + j := by omega
      rw [next]
      omega
  have exp : exponent ((2 : ℚ) ^ (53 + j) - 1) = j := by
    rw [cast, exponent_natCast, digits]
    push_cast
    omega
  have scaled : ((2 : ℚ) ^ (53 + j) - 1) / 2 ^ (j : ℤ) = ((2 ^ 53 : ℤ) : ℚ) - 1 / 2 ^ j := by
    rw [zpow_natCast, pow_add, sub_div, mul_div_assoc, div_self (by positivity)]
    push_cast
    ring
  have half : 2 * (1 / (2 : ℚ) ^ j) ≤ 1 := by
    obtain ⟨i, rfl⟩ : ∃ i, j = i + 1 := ⟨j - 1, by omega⟩
    have one : (1 : ℚ) ≤ 2 ^ i := one_le_pow₀ (by norm_num)
    rw [pow_succ, mul_one_div, div_le_one (by positivity)]
    linarith
  have rounded := roundEven_below (z := 2 ^ 53) (by norm_num) (by positivity) half
  have value : (((2 ^ 53 : ℤ)) : ℚ) * 2 ^ (j : ℤ) = 2 ^ (53 + j) := by
    rw [zpow_natCast, pow_add]
    push_cast
    ring
  simp only [toBinary64, exp, scaled, rounded, value]
  rw [abs_of_pos (by positivity)]

end Mp4.Lib.Binary64
