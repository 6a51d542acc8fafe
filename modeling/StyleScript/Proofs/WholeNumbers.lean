import StyleScript.Proofs.Rounding
import StyleScript.Binary64.Display

/-! Whole numbers as they display. Only the scaling can miss: what it is off by is brought down by the scaling back, and
is gone when that leaves less than half of a binary digit. -/

namespace StyleScript.Binary64

/-- How far apart the whole numbers of a size are that have 53 binary digits. -/
def spacing (n : Nat) : Nat := 2 ^ (n.log2 - 52)

/-- The whole number of the format that a whole number is rounded to. -/
def nearest (n : Nat) : Nat := nearestEven n (spacing n) * spacing n

/-- By how much that rounding is off. -/
def miss (n : Nat) : Nat := (n - nearest n : Int).natAbs

section
variable {n : Nat}

theorem spacing_pos (n : Nat) : 0 < spacing n := Nat.two_pow_pos _

theorem two_mul_miss_le (n : Nat) : 2 * miss n ≤ spacing n := nearestEven_error (spacing_pos n) n

theorem le_nearest {bound : Nat} (grid : spacing n ∣ bound) (below : bound ≤ n) : bound ≤ nearest n := by
  obtain ⟨count, rfl⟩ := grid
  rw [Nat.mul_comm] at below ⊢
  exact Nat.mul_le_mul_right _ (le_nearestEven (spacing_pos n) below)

theorem nearest_le {bound : Nat} (grid : spacing n ∣ bound) (above : n ≤ bound) : nearest n ≤ bound := by
  obtain ⟨count, rfl⟩ := grid
  rw [Nat.mul_comm] at above ⊢
  exact Nat.mul_le_mul_right _ (nearestEven_le (spacing_pos n) above)

theorem nearest_of_dvd (grid : spacing n ∣ n) : nearest n = n :=
  Nat.le_antisymm (nearest_le grid (Nat.le_refl n)) (le_nearest grid (Nat.le_refl n))

theorem miss_of_dvd (grid : spacing n ∣ n) : miss n = 0 := by
  rw [miss, nearest_of_dvd grid]
  omega

theorem spacing_dvd_two_pow {size : Nat} (large : n.log2 - 52 ≤ size) : spacing n ∣ 2 ^ size := Nat.pow_dvd_pow 2 large

theorem two_pow_le_nearest (positive : 0 < n) : 2 ^ n.log2 ≤ nearest n :=
  le_nearest (spacing_dvd_two_pow (Nat.sub_le ..)) (Nat.log2_self_le positive.ne')

theorem nearest_le_two_pow (n : Nat) : nearest n ≤ 2 ^ (n.log2 + 1) :=
  nearest_le (spacing_dvd_two_pow (by omega)) Nat.lt_log2_self.le

theorem nearest_pos (positive : 0 < n) : 0 < nearest n :=
  Nat.lt_of_lt_of_le (Nat.two_pow_pos _) (two_pow_le_nearest positive)

theorem log2_nearest_lt (positive : 0 < n) : (nearest n).log2 < n.log2 + 2 := by
  rw [Nat.log2_lt (nearest_pos positive).ne']
  exact Nat.lt_of_le_of_lt (nearest_le_two_pow n) (Nat.pow_lt_pow_right (by decide) (Nat.lt_succ_self _))

/-- Rounding keeps the size, or reaches the next power of two. -/
theorem nearest_nearest (positive : 0 < n) : nearest (nearest n) = nearest n := by
  apply nearest_of_dvd
  rcases Nat.eq_or_lt_of_le (nearest_le_two_pow n) with carried | within
  · rw [carried]
    exact spacing_dvd_two_pow (by rw [Nat.log2_two_pow]; omega)
  · have same : (nearest n).log2 = n.log2 :=
      (Nat.log2_eq_iff (nearest_pos positive).ne').mpr ⟨two_pow_le_nearest positive, within⟩
    rw [spacing, same]
    exact Nat.dvd_mul_left ..

end

/-- A ratio between two powers of two is left with 53 binary digits. -/
theorem holds_ofRatio_between {num den size : Nat} (negative : Bool) (denPos : 0 < den) (small : size ≤ 1022)
    (lower : den * 2 ^ size ≤ num) (upper : num < den * 2 ^ (size + 1)) :
    (ofRatio negative num den).Holds negative
      (nearestEven (num * quantaPerOne) (den * 2 ^ (size + 1022)) * 2 ^ (size + 1022)) := by
  have unit : (size - 52 + 1074 : Int).toNat = size + 1022 := by omega
  have cast : (0 : ℚ) < den := by exact_mod_cast denPos
  have numPos : 0 < num := Nat.lt_of_lt_of_le (Nat.mul_pos denPos (Nat.two_pow_pos size)) lower
  rw [← unit]
  apply holds_ofRatio negative numPos denPos (by omega) (by omega)
  · rw [add_sub_cancel, le_div_iff₀ cast, mul_comm]
    exact_mod_cast lower
  · have next : (53 + (size - 52) : Int) = (size + 1 : Nat) := by omega
    rw [next, div_lt_iff₀ cast, mul_comm]
    exact_mod_cast upper

/-- A whole number is rounded to the nearest one of the format. -/
theorem holds_ofRatio_whole {n den : Nat} (negative : Bool) (positive : 0 < n) (denPos : 0 < den)
    (small : n.log2 ≤ 1022) : (ofRatio negative (n * den) den).Holds negative (nearest n * quantaPerOne) := by
  have lower : den * 2 ^ n.log2 ≤ n * den := by
    rw [Nat.mul_comm]
    exact Nat.mul_le_mul_right den (Nat.log2_self_le positive.ne')
  have upper : n * den < den * 2 ^ (n.log2 + 1) := by
    rw [Nat.mul_comm]
    exact Nat.mul_lt_mul_of_pos_left Nat.lt_log2_self denPos
  have held := holds_ofRatio_between negative denPos small lower upper
  have common : n * den * quantaPerOne = n * quantaPerOne * den := Nat.mul_right_comm ..
  rw [common, Nat.mul_comm den, nearestEven_mul_right denPos] at held
  rcases Nat.lt_or_ge n.log2 52 with short | long
  · have exact : nearest n = n := nearest_of_dvd (by rw [spacing, Nat.sub_eq_zero_of_le short.le]; exact Nat.one_dvd n)
    have finer : n * quantaPerOne = n * 2 ^ (52 - n.log2) * 2 ^ (n.log2 + 1022) := by
      rw [Nat.mul_assoc, two_pow_mul_two_pow (by omega)]
    rw [finer, nearestEven_mul (Nat.two_pow_pos _), ← finer] at held
    rwa [exact]
  · have coarser : 2 ^ (n.log2 + 1022) = spacing n * quantaPerOne := by
      have same : n.log2 + 1022 = n.log2 - 52 + 1074 := by omega
      rw [same, two_pow_add_1074, spacing]
    rwa [coarser, nearestEven_mul_right quantaPerOne_pos, ← Nat.mul_assoc] at held

section
variable {x y : Binary64} {negative negative' : Bool} {size size' : Nat}

theorem Holds.mul_eq (left : x.Holds negative size) (right : y.Holds negative' size') :
    x.mul y = ofRatio (negative != negative') (size * size') (quantaPerOne * quantaPerOne) := by
  obtain ⟨_, _, _, rfl, rfl⟩ := left
  obtain ⟨_, _, _, rfl, rfl⟩ := right
  rfl

theorem Holds.div_eq (left : x.Holds negative size) (right : y.Holds negative' size') (nonzero : 0 < size') :
    x.div y = ofRatio (negative != negative') size size' := by
  obtain ⟨_, _, _, rfl, rfl⟩ := left
  obtain ⟨_, _, _, rfl, rfl⟩ := right
  exact if_neg nonzero.ne'

theorem Holds.round_eq (held : x.Holds negative size) :
    x.round = ofRatio negative ((2 * size + quantaPerOne) / (2 * quantaPerOne)) 1 := by
  obtain ⟨_, _, _, rfl, rfl⟩ := held
  rfl

end

theorem half_up (n : Nat) : (2 * (n * quantaPerOne) + quantaPerOne) / (2 * quantaPerOne) = n := by
  have positive := quantaPerOne_pos
  generalize quantaPerOne = unit at positive
  have aside : 2 * (n * unit) + unit = unit + 2 * unit * n := by ring
  rw [aside, Nat.add_mul_div_left _ _ (by omega), Nat.div_eq_of_lt (by omega), Nat.zero_add]

theorem holds_scale : (ofRatio false (Nat.pow 10 10) 1).Holds false (10 ^ 10 * quantaPerOne) := by
  have exact : nearest (10 ^ 10) = 10 ^ 10 := nearest_of_dvd (by decide +kernel)
  have held := holds_ofRatio_whole false (show 0 < 10 ^ 10 by decide) Nat.one_pos (by decide +kernel)
  rwa [exact, Nat.mul_one] at held

section
variable {n : Nat}

theorem log2_scaled_le (n : Nat) : (10 ^ 10 * n).log2 ≤ n.log2 + 34 := by
  rcases Nat.eq_zero_or_pos n with rfl | positive
  · exact Nat.zero_le _
  · have below := Nat.lt_log2_self (n := n)
    apply Nat.le_of_lt_succ
    rw [Nat.log2_lt (by omega), Nat.pow_add _ (n.log2 + 1) 34]
    omega

theorem log2_le_of_short (small : n < 10 ^ 15) : n.log2 ≤ 49 := by
  rcases Nat.eq_zero_or_pos n with rfl | positive
  · exact Nat.zero_le _
  · exact Nat.le_of_lt_succ ((Nat.log2_lt positive.ne').mpr (by omega))

/-- The scaling misses by far less than the scale. -/
theorem miss_scaled_le (small : n < 10 ^ 15) : 2 * miss (10 ^ 10 * n) ≤ 2 ^ 31 := by
  have size := log2_le_of_short small
  have grown := log2_scaled_le n
  exact (two_mul_miss_le _).trans (Nat.pow_le_pow_right (by decide) (by omega))

theorem nearest_scaled_between (positive : 0 < n) (small : n < 10 ^ 15) :
    10 ^ 10 * 2 ^ n.log2 ≤ nearest (10 ^ 10 * n) ∧ nearest (10 ^ 10 * n) < 10 ^ 10 * 2 ^ (n.log2 + 1) := by
  have size := log2_le_of_short small
  have grown := log2_scaled_le n
  constructor
  · exact le_nearest ((spacing_dvd_two_pow (by omega)).mul_left _)
      (Nat.mul_le_mul_left _ (Nat.log2_self_le positive.ne'))
  · have close := miss_scaled_le small
    have below := Nat.lt_log2_self (n := n)
    rw [miss] at close
    omega

/-- The scaled number is whole already, so that the rounding leaves it. -/
theorem Holds.round_scaled {x : Binary64} {negative : Bool} (held : x.Holds negative (n * quantaPerOne))
    (positive : 0 < n) (small : n < 10 ^ 15) :
    (x.mul (ofRatio false (Nat.pow 10 10) 1)).round.Holds negative (nearest (10 ^ 10 * n) * quantaPerOne) := by
  have size := log2_le_of_short small
  have grown := log2_scaled_le n
  have scaledPos : 0 < 10 ^ 10 * n := by omega
  have product : (x.mul (ofRatio false (Nat.pow 10 10) 1)).Holds negative (nearest (10 ^ 10 * n) * quantaPerOne) := by
    have common : n * quantaPerOne * (10 ^ 10 * quantaPerOne) = 10 ^ 10 * n * (quantaPerOne * quantaPerOne) := by ring
    rw [held.mul_eq holds_scale, common, Bool.bne_false]
    exact holds_ofRatio_whole negative scaledPos (Nat.mul_pos quantaPerOne_pos quantaPerOne_pos) (by omega)
  have carried := log2_nearest_lt scaledPos
  have again := holds_ofRatio_whole negative (nearest_pos scaledPos) Nat.one_pos (by omega)
  rw [nearest_nearest scaledPos, Nat.mul_one] at again
  rwa [product.round_eq, half_up]

/-- The quotient of the scaling back, counted in the last of its 53 binary digits. -/
def broughtBack (n : Nat) : Nat := nearestEven (nearest (10 ^ 10 * n) * 2 ^ (52 - n.log2)) (10 ^ 10)

theorem Holds.rounded {x : Binary64} {negative : Bool} (held : x.Holds negative (n * quantaPerOne)) (positive : 0 < n)
    (small : n < 10 ^ 15) : (x.rounded 10).Holds negative (broughtBack n * 2 ^ (n.log2 + 1022)) := by
  have size := log2_le_of_short small
  obtain ⟨lower, upper⟩ := nearest_scaled_between positive small
  have quotient : (x.rounded 10).Holds negative (nearestEven (nearest (10 ^ 10 * n) * quantaPerOne * quantaPerOne)
      (10 ^ 10 * quantaPerOne * 2 ^ (n.log2 + 1022)) * 2 ^ (n.log2 + 1022)) := by
    rw [Binary64.rounded, (held.round_scaled positive small).div_eq holds_scale
      (Nat.mul_pos (by decide) quantaPerOne_pos), Bool.bne_false]
    apply holds_ofRatio_between negative (Nat.mul_pos (by decide) quantaPerOne_pos) (by omega)
    · rw [Nat.mul_right_comm]
      exact Nat.mul_le_mul_right _ lower
    · rw [Nat.mul_right_comm]
      exact Nat.mul_lt_mul_of_pos_right upper quantaPerOne_pos
  have digits : nearest (10 ^ 10 * n) * quantaPerOne * quantaPerOne =
      nearest (10 ^ 10 * n) * 2 ^ (52 - n.log2) * (quantaPerOne * 2 ^ (n.log2 + 1022)) := by
    have parts := two_pow_mul_two_pow (show 1074 = 52 - n.log2 + (n.log2 + 1022) by omega)
    rw [Nat.mul_comm quantaPerOne, ← Nat.mul_assoc, Nat.mul_assoc _ (2 ^ _) (2 ^ _), parts]
  rwa [digits, Nat.mul_assoc (10 ^ 10), nearestEven_mul_right (Nat.mul_pos quantaPerOne_pos (Nat.two_pow_pos _))]
    at quotient

theorem natAbs_mul_sub (first second den c : Nat) :
    ((first * c : Nat) - (second * c * den : Nat) : Int).natAbs = c * (den * second - first : Int).natAbs := by
  have factor : ((first * c : Nat) - (second * c * den : Nat) : Int) = -(c * (den * second - first : Int)) := by
    push_cast
    ring
  rw [factor, Int.natAbs_neg, Int.natAbs_mul, Int.natAbs_natCast]

/-- The miss of the scaling is gone if it comes to no more than half of the last digit. -/
theorem broughtBack_eq_iff (small : n < 10 ^ 15) :
    broughtBack n = n * 2 ^ (52 - n.log2) ↔ 2 ^ 53 * miss (10 ^ 10 * n) ≤ 10 ^ 10 * 2 ^ n.log2 := by
  have size := log2_le_of_short small
  have even : n * 2 ^ (52 - n.log2) % 2 = 0 := by
    obtain ⟨more, sum⟩ : ∃ more, 52 - n.log2 = more + 1 := ⟨51 - n.log2, by omega⟩
    rw [sum, Nat.pow_succ, ← Nat.mul_assoc]
    exact Nat.mul_mod_left ..
  have whole : 2 ^ n.log2 * (2 * 2 ^ (52 - n.log2)) = 2 ^ 53 := by
    rw [Nat.mul_left_comm, ← Nat.pow_add, ← Nat.pow_add_one']
    congr 1
    omega
  have scaled : 2 ^ n.log2 * (2 * (2 ^ (52 - n.log2) * miss (10 ^ 10 * n))) = 2 ^ 53 * miss (10 ^ 10 * n) := by
    rw [← whole]
    ring
  rw [broughtBack, nearestEven_eq_iff (by decide) even, natAbs_mul_sub, ← scaled, Nat.mul_comm (10 ^ 10) (2 ^ n.log2)]
  exact (Nat.mul_le_mul_left_iff (Nat.two_pow_pos _)).symm

/-- No other whole number is near enough to be brought back. -/
theorem broughtBack_of_dvd (small : n < 10 ^ 15) (whole : 2 ^ (52 - n.log2) ∣ broughtBack n) :
    broughtBack n = n * 2 ^ (52 - n.log2) := by
  obtain ⟨other, same⟩ := whole
  have near := nearestEven_error (show 0 < 10 ^ 10 by decide) (nearest (10 ^ 10 * n) * 2 ^ (52 - n.log2))
  have close := miss_scaled_le small
  rw [miss] at close
  rw [same]
  rw [← broughtBack, same, Nat.mul_comm _ other, natAbs_mul_sub, Nat.cast_pow, Nat.cast_ofNat] at near
  have apart : (10 ^ 10 * other - nearest (10 ^ 10 * n) : Int).natAbs ≤
      2 ^ (52 - n.log2) * (10 ^ 10 * other - nearest (10 ^ 10 * n) : Int).natAbs :=
    Nat.le_mul_of_pos_left _ (Nat.two_pow_pos _)
  obtain rfl : other = n := by omega
  exact Nat.mul_comm ..

theorem Holds.rounded_zero {x : Binary64} {negative : Bool} (held : x.Holds negative 0) :
    (x.rounded 10).Holds negative 0 := by
  have product : x.mul (ofRatio false (Nat.pow 10 10) 1) = zero negative := by
    rw [held.mul_eq holds_scale, Bool.bne_false, Nat.zero_mul, ofRatio, if_pos rfl]
  have whole : (zero negative).round = zero negative := by
    rw [(holds_zero negative).round_eq, ← Nat.zero_mul quantaPerOne, half_up, ofRatio, if_pos rfl]
  rw [Binary64.rounded, product, whole, (holds_zero negative).div_eq holds_scale (by have := quantaPerOne_pos; omega),
    Bool.bne_false, ofRatio, if_pos rfl]
  exact holds_zero negative

/-- What a whole number is after rounding to ten places: itself, or not whole. -/
theorem Holds.exists_rounded {x : Binary64} {negative : Bool} (held : x.Holds negative (n * quantaPerOne))
    (small : n < 10 ^ 15) : ∃ size, (x.rounded 10).Holds negative size ∧
      (size = n * quantaPerOne ↔ 2 ^ 53 * miss (10 ^ 10 * n) ≤ 10 ^ 10 * 2 ^ n.log2) ∧
      (quantaPerOne ∣ size → size = n * quantaPerOne) := by
  rcases Nat.eq_zero_or_pos n with rfl | positive
  · rw [Nat.zero_mul] at held ⊢
    exact ⟨0, held.rounded_zero, ⟨fun _ => by decide +kernel, fun _ => rfl⟩, fun _ => rfl⟩
  have size := log2_le_of_short small
  have unit := Nat.two_pow_pos (n.log2 + 1022)
  have parts := two_pow_mul_two_pow (show 1074 = 52 - n.log2 + (n.log2 + 1022) by omega)
  refine ⟨_, held.rounded positive small, ?_, ?_⟩
  · rw [← broughtBack_eq_iff small, ← parts, ← Nat.mul_assoc]
    exact Nat.mul_left_inj unit.ne'
  · intro whole
    rw [← parts] at whole ⊢
    rw [broughtBack_of_dvd small (Nat.dvd_of_mul_dvd_mul_right unit whole), Nat.mul_assoc]

end

end StyleScript.Binary64
