import StyleScript.Proofs.WholeNumbers
import StyleScript.Value.Display

/-! Integers as they display. A number has a point in its text unless it is whole, and what is left of an integer after
rounding to ten places is whole only if it is that integer again. -/

namespace StyleScript

theorem Text.point_not_mem_ofNat (n : Nat) : '.' ∉ Text.ofNat n := by
  intro found
  exact absurd (Nat.isDigit_of_mem_toDigits (by decide) (by decide) found) (by decide)

theorem Decimal.point_mem_text {decimal : Decimal} (fraction : decimal.exponent < 0) : '.' ∈ decimal.text := by
  obtain ⟨coefficient, _ | more⟩ := decimal
  · exact absurd fraction (Int.not_lt.mpr (Int.natCast_nonneg _))
  · exact List.mem_append_right _ List.mem_cons_self

namespace Binary64

theorem quantaPerOne_dvd_ofParts {negative : Bool} {significand : Nat} {exponent : Int} (whole : 0 ≤ exponent) :
    quantaPerOne ∣ (ofParts negative significand exponent).magnitude := by
  rw [ofParts]
  split
  · obtain ⟨size, rfl⟩ := Int.eq_ofNat_of_zero_le whole
    have unit : ((size : Int) + 1074).toNat = size + 1074 := by omega
    show quantaPerOne ∣ significand * 2 ^ ((size : Int) + 1074).toNat
    rw [unit, two_pow_add_1074]
    exact (Nat.dvd_mul_left ..).mul_left _
  · exact Nat.dvd_zero _

theorem le_exponentOf_one (n : Nat) : (n.log2 : Int) - 53 ≤ exponentOf n 1 := by
  have one : Nat.log2 1 = 0 := by decide +kernel
  rw [exponentOf, one]
  dsimp only
  split <;> omega

/-- Rounding leaves whole numbers whole. -/
theorem quantaPerOne_dvd_ofRatio (negative : Bool) (n : Nat) : quantaPerOne ∣ (ofRatio negative n 1).magnitude := by
  rcases Nat.eq_zero_or_pos n with rfl | positive
  · exact Nat.dvd_zero _
  rcases Nat.lt_or_ge 1022 n.log2 with large | small
  · have whole := le_exponentOf_one n
    rw [ofRatio, if_neg positive.ne']
    dsimp only
    split
    · exact quantaPerOne_dvd_ofParts (by omega)
    · exact quantaPerOne_dvd_ofParts (by omega)
  · have held := holds_ofRatio_whole negative positive Nat.one_pos small
    obtain ⟨_, _, _, same, size⟩ := held
    rw [Nat.mul_one] at same
    rw [same]
    exact ⟨nearest n, by rw [Nat.mul_comm]; exact size.symm⟩

theorem neighbours_exponent (size : Nat) (exponent : Int) : (neighbours size exponent).1.exponent = exponent := by
  rw [neighbours]
  split <;> rfl

/-- The search ends where a decimal reads back, or at the finest grid. -/
theorem readsBack_shortestFrom (size finer : Nat) (exponent : Int) :
    readsBack size (shortestFrom size finer exponent) = true ∨
      (shortestFrom size finer exponent).exponent = exponent - finer := by
  fun_induction shortestFrom size finer exponent with
  | case1 exponent =>
    right
    rw [neighbours_exponent, Int.natCast_zero, Int.sub_zero]
  | case2 finer exponent near far pair reads => exact .inl reads
  | case3 finer exponent near far pair missed reads => exact .inl reads
  | case4 finer exponent near far pair missed missed' ih =>
    have next : exponent - 1 - finer = exponent - (finer + 1 : Nat) := by omega
    rwa [next] at ih

theorem shortest_exponent_neg {x : Binary64} (broken : ¬ quantaPerOne ∣ x.magnitude) : x.shortest.exponent < 0 := by
  rw [shortest]
  rcases readsBack_shortestFrom x.magnitude ((Text.ofNat x.wholePart).length + 324) (Text.ofNat x.wholePart).length with
    read | finest
  · generalize shortestFrom _ _ _ = decimal at read ⊢
    by_contra whole
    have down : (-decimal.exponent).toNat = 0 := by omega
    have back : (ofDecimal decimal).magnitude = x.magnitude := eq_of_beq read
    rw [ofDecimal, down] at back
    exact broken (back ▸ quantaPerOne_dvd_ofRatio ..)
  · rw [finest]
    omega

theorem point_mem_signed {negative : Bool} {digits : Text} : '.' ∈ signed negative digits ↔ '.' ∈ digits := by
  cases negative with
  | false => exact Iff.rfl
  | true => exact List.mem_cons.trans (or_iff_right (by decide))

section
variable {x : Binary64} {negative : Bool} {size limit : Nat}

theorem Holds.point_mem_text (held : x.Holds negative size) (broken : ¬ quantaPerOne ∣ size) : '.' ∈ x.text limit := by
  obtain ⟨significand, exponent, canonical, rfl, rfl⟩ := held
  have part : isWhole (.finite negative significand exponent canonical) = false :=
    beq_false_of_ne fun none => broken (Nat.dvd_of_mod_eq_zero none)
  rw [text]
  rw [part, Bool.false_and, if_neg Bool.false_ne_true, point_mem_signed]
  exact Decimal.point_mem_text (shortest_exponent_neg broken)

theorem Holds.text_of_whole {n : Nat} (held : x.Holds negative (n * quantaPerOne)) (below : n < limit) :
    x.text limit = signed (negative && n != 0) (Text.ofNat n) := by
  obtain ⟨significand, exponent, canonical, rfl, size⟩ := held
  have whole : isWhole (.finite negative significand exponent canonical) = true :=
    beq_of_eq (Nat.mod_eq_zero_of_dvd ⟨n, size.symm.trans (Nat.mul_comm ..)⟩)
  have part : wholePart (.finite negative significand exponent canonical) = n :=
    Nat.div_eq_of_eq_mul_left quantaPerOne_pos size.symm
  rw [text]
  rw [whole, part, if_pos (by simpa using below)]

end

/-- The binary64 number is that integer. -/
def IsInteger (x : Binary64) (n : Int) : Prop := x.isWhole = true ∧ x.quanta = n * quantaPerOne

/-- The digits of an integer, after a minus if it is negative. -/
def integerText (n : Int) : Text := signed (n < 0) (Text.ofNat n.natAbs)

section
variable {x : Binary64} {n : Int}

theorem IsInteger.magnitude_eq (integer : x.IsInteger n) : x.magnitude = n.natAbs * quantaPerOne := by
  rw [← Int.natAbs_natCast quantaPerOne, ← Int.natAbs_mul, ← integer.2, quanta]
  split
  · rw [Int.natAbs_neg, Int.natAbs_natCast]
  · rw [Int.natAbs_natCast]

/-- Zero has either sign, and shows none. -/
theorem IsInteger.sign_eq (integer : x.IsInteger n) : (x.isNegative && n.natAbs != 0) = decide (n < 0) := by
  have value := integer.2
  have positive : (0 : Int) < quantaPerOne := Int.natCast_pos.mpr quantaPerOne_pos
  rw [quanta, integer.magnitude_eq, Nat.cast_mul] at value
  cases negative : x.isNegative with
  | false =>
    rw [negative, if_neg Bool.false_ne_true] at value
    have nonneg : n = n.natAbs := (mul_right_cancel₀ positive.ne' value).symm
    rw [Bool.false_and]
    exact (decide_eq_false (by omega)).symm
  | true =>
    rw [negative, if_pos rfl] at value
    have nonpos : -(n.natAbs : Int) = n := mul_right_cancel₀ positive.ne' ((Int.neg_mul ..).trans value)
    rw [Bool.true_and, Bool.eq_iff_iff, bne_iff_ne, decide_eq_true_iff]
    omega

theorem IsInteger.holds (integer : x.IsInteger n) : x.Holds x.isNegative (n.natAbs * quantaPerOne) := by
  have size := integer.magnitude_eq
  obtain ⟨whole, -⟩ := integer
  obtain _ | infinite | ⟨negative, significand, exponent, canonical⟩ := x
  · cases whole
  · cases whole
  · exact ⟨significand, exponent, canonical, rfl, size.symm⟩

end

theorem point_not_mem_integerText (n : Int) : '.' ∉ integerText n :=
  mt point_mem_signed.mp (Text.point_not_mem_ofNat _)

theorem miss_scaled_of_small {n : Nat} (small : n ≤ 922337204) : miss (10 ^ 10 * n) = 0 := by
  rcases Nat.eq_or_lt_of_le small with rfl | less
  · decide +kernel
  rcases Nat.eq_zero_or_pos n with rfl | positive
  · rfl
  · have size : (10 ^ 10 * n).log2 < 63 := (Nat.log2_lt (by omega)).mpr (by omega)
    have grid : spacing (10 ^ 10 * n) ∣ 2 ^ 10 := spacing_dvd_two_pow (by omega)
    exact miss_of_dvd (grid.trans (Dvd.dvd.mul_right (by decide) n))

end Binary64

namespace Value
open Binary64

/-- An integer below the limit displays as itself exactly if the miss of the scaling comes down to less than half of a
binary digit; up to 922337204 there is none. -/
theorem display_integer_iff {x : Binary64} {n : Int} (integer : x.IsInteger n) (short : n.natAbs < 10 ^ 15)
    (unit : Text) :
    ((number x unit).display = integerText n ++ unit ↔
      2 ^ 53 * miss (10 ^ 10 * n.natAbs) ≤ 10 ^ 10 * 2 ^ n.natAbs.log2) ∧
    (n.natAbs ≤ 922337204 → (number x unit).display = integerText n ++ unit) := by
  obtain ⟨size, after, itself, back⟩ := integer.holds.exists_rounded short
  have display_iff : (number x unit).display = integerText n ++ unit ↔
      2 ^ 53 * miss (10 ^ 10 * n.natAbs) ≤ 10 ^ 10 * 2 ^ n.natAbs.log2 := by
    have written : x.display numberFormat = (x.rounded 10).text (10 ^ 15) := rfl
    rw [display, List.append_left_inj, written]
    constructor
    · intro same
      by_contra missed
      have broken : ¬ quantaPerOne ∣ size := fun whole => missed (itself.mp (back whole))
      have point : '.' ∈ (x.rounded 10).text (10 ^ 15) := after.point_mem_text broken
      exact point_not_mem_integerText n (same ▸ point)
    · intro near
      rw [itself.mpr near] at after
      rw [after.text_of_whole short, integer.sign_eq, integerText]
  refine ⟨display_iff, fun small => display_iff.mpr ?_⟩
  rw [miss_scaled_of_small small]
  exact Nat.zero_le _

/-- The scaling is not exact here, and the scaling back makes up for it. -/
theorem display_integer_iff_inexact :
    miss (10 ^ 10 * 1500000001) = 1024 ∧ (ofRatio true 1500000001 1).IsInteger (-1500000001) ∧
      (number (ofRatio true 1500000001 1) "px".toList).display = "-1500000001px".toList := by
  have integer : (ofRatio true 1500000001 1).IsInteger (-1500000001) := ⟨by decide +kernel, by decide +kernel⟩
  have itself := (display_integer_iff integer (by decide) "px".toList).1.mpr (by decide +kernel)
  exact ⟨by decide +kernel, integer, itself.trans (by decide +kernel)⟩

/-- Not every integer displays as itself: the word is that of 1000000001. -/
theorem not_display_integer :
    ¬ ∀ (x : Binary64) (n : Int) (unit : Text), x.IsInteger n → n.natAbs < 10 ^ 15 →
      (number x unit).display = integerText n ++ unit := by
  intro itself
  have integer : (ofBits 0x41cdcd6500800000).IsInteger 1000000001 := ⟨by decide +kernel, by decide +kernel⟩
  have shown : (number (ofBits 0x41cdcd6500800000) []).display = "1000000000.9999999".toList := by decide +kernel
  have digits := shown.symm.trans (itself _ _ [] integer (by decide))
  exact absurd digits (by decide +kernel)

end Value
end StyleScript
