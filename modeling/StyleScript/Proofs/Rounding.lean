import StyleScript.Binary64.Arithmetic
import Mathlib.Algebra.Order.Field.Power
import Mathlib.Algebra.Order.Field.Rat
import Mathlib.Tactic.FieldSimp
import Mathlib.Tactic.Linarith
import Mathlib.Tactic.Positivity
import Mathlib.Tactic.Ring

/-! Rounding to binary64. The exponent of a ratio is the one that leaves 53 binary digits before the point, and the
significand is the whole number that is nearest then. -/

namespace StyleScript.Binary64

section
variable {num den : Nat}

theorem nearestEven_mul_right {scale : Nat} (positive : 0 < scale) :
    nearestEven (num * scale) (den * scale) = nearestEven num den := by
  have twice : 2 * (num % den * scale) = 2 * (num % den) * scale := (Nat.mul_assoc ..).symm
  rw [nearestEven, nearestEven, Nat.mul_div_mul_right _ _ positive, Nat.mul_mod_mul_right]
  simp only [twice, Nat.mul_lt_mul_right positive]

/-- By what is left beyond a multiple, a number is rounded down or up. -/
theorem nearestEven_add {left : Nat} (small : left < den) (floor : Nat) :
    nearestEven (floor * den + left) den =
      if 2 * left < den then floor else if den < 2 * left then floor + 1 else floor + floor % 2 := by
  have quotient : (floor * den + left) / den = floor := by
    rw [Nat.mul_comm, Nat.mul_add_div (Nat.zero_lt_of_lt small), Nat.div_eq_of_lt small, Nat.add_zero]
  have remainder : (floor * den + left) % den = left := by
    rw [Nat.mul_comm, Nat.mul_add_mod, Nat.mod_eq_of_lt small]
  rw [nearestEven, quotient, remainder]

theorem exists_floor (positive : 0 < den) (num : Nat) : ∃ floor left, num = floor * den + left ∧ left < den :=
  ⟨num / den, num % den, by rw [Nat.mul_comm, Nat.div_add_mod], Nat.mod_lt num positive⟩

theorem le_nearestEven {bound : Nat} (positive : 0 < den) (below : bound * den ≤ num) : bound ≤ nearestEven num den := by
  obtain ⟨floor, left, rfl, small⟩ := exists_floor positive num
  have least : bound ≤ floor := by
    have less : bound * den < (floor + 1) * den := by rw [Nat.succ_mul]; omega
    exact Nat.le_of_lt_succ (Nat.lt_of_mul_lt_mul_right less)
  rw [nearestEven_add small]
  split
  · exact least
  · split <;> omega

theorem nearestEven_le {bound : Nat} (positive : 0 < den) (above : num ≤ bound * den) : nearestEven num den ≤ bound := by
  obtain ⟨floor, left, rfl, small⟩ := exists_floor positive num
  have most : floor ≤ bound := Nat.le_of_mul_le_mul_right (Nat.le_of_add_right_le above) positive
  rw [nearestEven_add small]
  rcases Nat.eq_or_lt_of_le most with rfl | room
  · rw [if_pos (by omega)]
  · split
    · omega
    · split <;> omega

theorem nearestEven_mul (positive : 0 < den) (whole : Nat) : nearestEven (whole * den) den = whole :=
  Nat.le_antisymm (nearestEven_le positive (Nat.le_refl _)) (le_nearestEven positive (Nat.le_refl _))

/-- It is off by no more than a half. -/
theorem nearestEven_error (positive : 0 < den) (num : Nat) :
    2 * (num - (nearestEven num den * den : Nat) : Int).natAbs ≤ den := by
  obtain ⟨floor, left, rfl, small⟩ := exists_floor positive num
  have next : (floor + 1) * den = floor * den + den := Nat.succ_mul floor den
  rw [nearestEven_add small]
  split
  · omega
  · split
    · rw [next]
      omega
    · rcases Nat.mod_two_eq_zero_or_one floor with even | odd
      · rw [even, Nat.add_zero]
        omega
      · rw [odd, next]
        omega

/-- An even number is the nearest one as soon as it is off by no more than a half. -/
theorem nearestEven_eq_iff {whole : Nat} (positive : 0 < den) (even : whole % 2 = 0) :
    nearestEven num den = whole ↔ 2 * (num - (whole * den : Nat) : Int).natAbs ≤ den := by
  constructor
  · rintro rfl
    exact nearestEven_error positive num
  · intro near
    rcases Nat.lt_or_ge num (whole * den) with below | above
    · obtain ⟨floor, rfl⟩ : ∃ floor, whole = floor + 1 :=
        ⟨whole - 1, by rcases whole with _ | _ <;> omega⟩
      have next : (floor + 1) * den = floor * den + den := Nat.succ_mul floor den
      rw [next] at below near
      obtain ⟨left, rfl⟩ : ∃ left, num = floor * den + left := ⟨num - floor * den, by omega⟩
      rw [nearestEven_add (by omega)]
      split
      · omega
      · split <;> omega
    · obtain ⟨left, rfl⟩ : ∃ left, num = whole * den + left := ⟨num - whole * den, by omega⟩
      rw [nearestEven_add (by omega)]
      split
      · rfl
      · split <;> omega

end

theorem scaled_ratio (num : Nat) {den : Nat} (positive : 0 < den) (exponent : Int) :
    0 < (scaled num den exponent).2 ∧
      ((scaled num den exponent).1 / (scaled num den exponent).2 : ℚ) = num / den / 2 ^ exponent := by
  have den_ne : (den : ℚ) ≠ 0 := by exact_mod_cast positive.ne'
  obtain ⟨size, rfl | rfl⟩ := exponent.eq_nat_or_neg
  · have down : (-(size : Int)).toNat = 0 := by omega
    have up : ((size : Int)).toNat = size := by omega
    rw [scaled, down, up]
    refine ⟨Nat.mul_pos positive (Nat.two_pow_pos size), ?_⟩
    simp only [Nat.pow_eq, Nat.pow_zero, Nat.mul_one, Nat.cast_mul, Nat.cast_pow, Nat.cast_ofNat, zpow_natCast]
    rw [div_div]
  · have down : (-(-(size : Int))).toNat = size := by omega
    have up : (-(size : Int)).toNat = 0 := by omega
    rw [scaled, down, up]
    refine ⟨Nat.mul_pos positive Nat.one_pos, ?_⟩
    simp only [Nat.pow_eq, Nat.pow_zero, Nat.mul_one, Nat.cast_mul, Nat.cast_pow, Nat.cast_ofNat, zpow_neg, zpow_natCast]
    field_simp

theorem le_scaled_iff {num den bound : Nat} (positive : 0 < den) (exponent : Int) :
    bound ≤ (scaled num den exponent).1 / (scaled num den exponent).2 ↔ (bound * 2 ^ exponent : ℚ) ≤ num / den := by
  obtain ⟨scaledPos, ratio⟩ := scaled_ratio num positive exponent
  have power : (0 : ℚ) < 2 ^ exponent := by positivity
  have cast : (0 : ℚ) < (scaled num den exponent).2 := by exact_mod_cast scaledPos
  rw [Nat.le_div_iff_mul_le scaledPos, ← le_div_iff₀ power, ← ratio, le_div_iff₀ cast]
  exact_mod_cast Iff.rfl

theorem log2_bounds {n : Nat} (positive : 0 < n) : (2 ^ (n.log2 : Int) : ℚ) ≤ n ∧ (n : ℚ) < 2 ^ (n.log2 + 1 : Int) := by
  have below := Nat.log2_self_le positive.ne'
  have above := Nat.lt_log2_self (n := n)
  constructor
  · exact_mod_cast below
  · exact_mod_cast above

/-- The exponent that brings a ratio between the powers 52 and 53 of two. -/
theorem exponentOf_eq {num den : Nat} {exponent : Int} (numPos : 0 < num) (denPos : 0 < den) (least : -1074 ≤ exponent)
    (lower : (2 ^ (52 + exponent) : ℚ) ≤ num / den) (upper : (num / den : ℚ) < 2 ^ (53 + exponent)) :
    exponentOf num den = exponent := by
  obtain ⟨numLower, numUpper⟩ := log2_bounds numPos
  obtain ⟨denLower, denUpper⟩ := log2_bounds denPos
  have denCast : (0 : ℚ) < den := by exact_mod_cast denPos
  have two : (1 : ℚ) < 2 := by norm_num
  have split (left right : Int) : (2 ^ (left + right) : ℚ) = 2 ^ left * 2 ^ right := zpow_add₀ (by norm_num) left right
  -- The logarithms leave the exponent two choices.
  have most : 52 + exponent < num.log2 + 1 - den.log2 := by
    rw [← zpow_lt_zpow_iff_right₀ two, zpow_sub₀ (by norm_num)]
    refine lower.trans_lt ((div_lt_div_of_pos_right numUpper denCast).trans_le ?_)
    exact div_le_div_of_nonneg_left (by positivity) (by positivity) denLower
  have fewest : num.log2 - (den.log2 + 1) < 53 + exponent := by
    rw [← zpow_lt_zpow_iff_right₀ two, zpow_sub₀ (by norm_num)]
    refine lt_of_le_of_lt ?_ upper
    exact (div_le_div_of_nonneg_left (by positivity) denCast denUpper.le).trans
      (div_le_div_of_nonneg_right numLower denCast.le)
  have full (guess : Int) : Nat.pow 2 53 ≤ (scaled num den guess).1 / (scaled num den guess).2 ↔
      (2 ^ (53 + guess) : ℚ) ≤ num / den := by
    rw [le_scaled_iff denPos, split]
    norm_num
  rw [exponentOf]
  simp only [full]
  obtain same | next : exponent = num.log2 - den.log2 - 53 ∨ exponent = num.log2 - den.log2 - 53 + 1 := by omega
  · rw [← same, if_neg upper.not_ge]
    exact max_eq_left least
  · have guess : (num.log2 - den.log2 - 53 : Int) = exponent - 1 := by omega
    have room : (53 + (exponent - 1) : Int) = 52 + exponent := by omega
    rw [guess, room, if_pos lower, sub_add_cancel]
    exact max_eq_left least

/-- A finite number of a sign and a size in quanta. -/
def Holds (x : Binary64) (negative : Bool) (size : Nat) : Prop :=
  ∃ significand exponent canonical, x = .finite negative significand exponent canonical ∧
    size = significand * 2 ^ (exponent + 1074).toNat

theorem holds_zero (negative : Bool) : (zero negative).Holds negative 0 :=
  ⟨0, -1074, by decide, rfl, (Nat.zero_mul _).symm⟩

theorem two_pow_mul_two_pow {first second : Nat} (sum : 1074 = first + second) :
    2 ^ first * 2 ^ second = quantaPerOne := by
  rw [← pow_add]
  delta quantaPerOne
  rw [sum]
  rfl

theorem quantaPerOne_pos : 0 < quantaPerOne := by
  rw [← two_pow_mul_two_pow (Nat.zero_add 1074).symm]
  positivity

theorem two_pow_add_1074 (size : Nat) : 2 ^ (size + 1074) = 2 ^ size * quantaPerOne := by
  rw [← two_pow_mul_two_pow (Nat.zero_add 1074).symm, pow_add, pow_zero, Nat.one_mul]

/-- In quanta the denominator of a scaled ratio is the unit of the exponent. -/
theorem nearestEven_scaled {num den : Nat} {exponent : Int} (least : -1074 ≤ exponent) :
    nearestEven (scaled num den exponent).1 (scaled num den exponent).2 =
      nearestEven (num * quantaPerOne) (den * 2 ^ (exponent + 1074).toNat) := by
  obtain ⟨size, rfl | rfl⟩ := exponent.eq_nat_or_neg
  · have down : (-(size : Int)).toNat = 0 := by omega
    have up : ((size : Int)).toNat = size := by omega
    have unit : ((size : Int) + 1074).toNat = size + 1074 := by omega
    have power : den * 2 ^ (size + 1074) = den * 2 ^ size * quantaPerOne := by
      rw [two_pow_add_1074, Nat.mul_assoc]
    rw [scaled, down, up, unit, power, nearestEven_mul_right quantaPerOne_pos]
    simp only [Nat.pow_eq, Nat.pow_zero, Nat.mul_one]
  · have down : (-(-(size : Int))).toNat = size := by omega
    have up : (-(size : Int)).toNat = 0 := by omega
    have unit : (-(size : Int) + 1074).toNat = 1074 - size := by omega
    have power : num * quantaPerOne = num * 2 ^ size * 2 ^ (1074 - size) := by
      rw [Nat.mul_assoc, two_pow_mul_two_pow (by omega)]
    rw [scaled, down, up, unit, power, nearestEven_mul_right (Nat.two_pow_pos (1074 - size))]
    simp only [Nat.pow_eq, Nat.pow_zero, Nat.mul_one]

theorem holds_ofRatio {num den : Nat} {exponent : Int} (negative : Bool) (numPos : 0 < num) (denPos : 0 < den)
    (least : -1074 ≤ exponent) (most : exponent ≤ 970) (lower : (2 ^ (52 + exponent) : ℚ) ≤ num / den)
    (upper : (num / den : ℚ) < 2 ^ (53 + exponent)) :
    (ofRatio negative num den).Holds negative
      (nearestEven (num * quantaPerOne) (den * 2 ^ (exponent + 1074).toNat) * 2 ^ (exponent + 1074).toNat) := by
  obtain ⟨scaledPos, ratio⟩ := scaled_ratio num denPos exponent
  have power : (0 : ℚ) < 2 ^ exponent := by positivity
  have cast : (0 : ℚ) < (scaled num den exponent).2 := by exact_mod_cast scaledPos
  have split (size : Int) : (2 ^ (size + exponent) : ℚ) = 2 ^ size * 2 ^ exponent := zpow_add₀ (by norm_num) size exponent
  have full : 2 ^ 52 ≤ nearestEven (scaled num den exponent).1 (scaled num den exponent).2 := by
    apply le_nearestEven scaledPos
    rw [split, ← le_div_iff₀ power, ← ratio, le_div_iff₀ cast] at lower
    exact_mod_cast lower
  have short : nearestEven (scaled num den exponent).1 (scaled num den exponent).2 ≤ 2 ^ 53 := by
    apply nearestEven_le scaledPos
    rw [split, ← div_lt_iff₀ power, ← ratio, div_lt_iff₀ cast] at upper
    exact_mod_cast upper.le
  rw [ofRatio, if_neg numPos.ne', exponentOf_eq numPos denPos least lower upper]
  rw [← nearestEven_scaled least]
  have carry : (exponent + 1 + 1074).toNat = (exponent + 1074).toNat + 1 := by omega
  dsimp only
  generalize nearestEven (scaled num den exponent).1 (scaled num den exponent).2 = significand at full short
  split
  next carried =>
    have canonical : Canonical (Nat.pow 2 52) (exponent + 1) :=
      ⟨by decide, by omega, by omega, .inl (Nat.le_refl _)⟩
    refine ⟨_, _, canonical, by rw [ofParts, dif_pos canonical], ?_⟩
    have double : Nat.pow 2 53 = Nat.pow 2 52 * 2 := rfl
    rw [carried, carry, pow_succ, double]
    ring
  next fits =>
    have below : significand < Nat.pow 2 53 := Nat.lt_of_le_of_ne short fits
    have canonical : Canonical significand exponent := ⟨below, least, by omega, .inl full⟩
    exact ⟨_, _, canonical, by rw [ofParts, dif_pos canonical], rfl⟩

end StyleScript.Binary64
