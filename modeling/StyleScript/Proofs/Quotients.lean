import StyleScript.Proofs.Units

/-! The units of quotients and remainders. A unit that both sides carry cancels in either of them. A product with the
divisor brings it back to a quotient; a remainder has lost it. -/

namespace StyleScript

namespace UnitRule

/-- What is divided keeps its unit under a plain number, and loses it under a number of its own unit. -/
theorem combine_divisive {left right unit : Text} :
    divisive.combine left right = .ok unit ↔ (left = right ∨ right = []) ∧ unit = if right = [] then left else [] := by
  rw [combine]
  split
  next same =>
    subst same
    by_cases plain : left = [] <;> simp [plain, eq_comm]
  next different =>
    split
    next plain => simp [plain, eq_comm]
    next united => simp [different, united]

variable {left right unit : Text} (divides : divisive.combine left right = .ok unit)
include divides

/-- The unit of the divisor brings back what it took away. -/
theorem combine_multiplicative_of_divisive : multiplicative.combine unit right = .ok left := by
  obtain ⟨same | plain, rfl⟩ := combine_divisive.1 divides
  · by_cases plain : right = [] <;> simp [combine, plain, same]
  · by_cases empty : left = [] <;> simp [combine, plain, empty]

theorem combine_additive_of_divisive : additive.combine unit left = .ok left := by
  obtain ⟨-, rfl⟩ := combine_divisive.1 divides
  by_cases plain : right = []
  · by_cases empty : left = [] <;> simp [combine, plain, empty]
  · simp [combine, plain]

/-- The unit stays exactly under a plain number. -/
theorem divisive_keeps_iff : unit = left ↔ right = [] := by
  obtain ⟨same | plain, rfl⟩ := combine_divisive.1 divides
  · by_cases plain : right = [] <;> simp [plain, same, eq_comm]
  · simp [plain]

end UnitRule

namespace Value

theorem division_eq_ok {operator : Operator} {combine : Binary64 → Binary64 → Binary64} {left right : Binary64}
    {unitLeft unitRight : Text} {result : Value} :
    division operator combine (.number left unitLeft) (.number right unitRight) = .ok result ↔
      right.isZero = false ∧ ∃ unit, UnitRule.divisive.combine unitLeft unitRight = .ok unit ∧
        result = .number (combine left right) unit := by
  rw [division, onNumbers]
  cases right.isZero with
  | true => simp
  | false =>
    rw [arithmetic, onNumbers]
    cases UnitRule.divisive.combine unitLeft unitRight <;> simp [Except.map, eq_comm]

theorem arithmetic_of_units {rule : UnitRule} {unitLeft unitRight unit : Text}
    (units : rule.combine unitLeft unitRight = .ok unit) (operator : Operator)
    (combine : Binary64 → Binary64 → Binary64) (left right : Binary64) :
    arithmetic operator rule combine (.number left unitLeft) (.number right unitRight) =
      .ok (.number (combine left right) unit) := by
  rw [arithmetic, onNumbers, units]
  rfl

/-- Where two numbers have a quotient, they have a remainder as well. The quotient times the divisor has the unit of
the dividend again: it adds to what has that unit, and equals it by value. The remainder has the unit of the quotient:
it adds to the same, but it carries the unit of the dividend only if the divisor is a plain number, and is otherwise a
plain number that equals nothing of that unit. -/
theorem units_of_quotient {left right : Binary64} {unitLeft unitRight : Text} {quotient : Value}
    (divides : apply .over (.number left unitLeft) (.number right unitRight) = .ok quotient) :
    ∃ unit product remainder,
      quotient = .number (left.div right) unit ∧
      apply .times quotient (.number right unitRight) = .ok (.number product unitLeft) ∧
      apply .modulo (.number left unitLeft) (.number right unitRight) = .ok (.number remainder unit) ∧
      (unit = unitLeft ↔ unitRight = []) ∧ (unitRight ≠ [] → unit = []) ∧
      ∀ other,
        apply .plus (.number product unitLeft) (.number other unitLeft) = .ok (.number (product.add other) unitLeft) ∧
        apply .equal (.number product unitLeft) (.number other unitLeft) = .ok (.boolean (product.same other)) ∧
        apply .plus (.number remainder unit) (.number other unitLeft) = .ok (.number (remainder.add other) unitLeft) ∧
        apply .equal (.number remainder unit) (.number other unitLeft) =
          .ok (.boolean (remainder.same other && unitRight.isEmpty)) := by
  obtain ⟨nonzero, unit, units, rfl⟩ := division_eq_ok.1 divides
  have keeps := UnitRule.divisive_keeps_iff units
  have lost (united : unitRight ≠ []) : unit = [] := by
    rw [(UnitRule.combine_divisive.1 units).2, if_neg united]
  have product := arithmetic_of_units (UnitRule.combine_multiplicative_of_divisive units) .times Binary64.mul
    (left.div right) right
  have remainder : apply .modulo (.number left unitLeft) (.number right unitRight) =
      .ok (.number (left.rem right) unit) := division_eq_ok.2 ⟨nonzero, unit, units, rfl⟩
  have whole : UnitRule.additive.combine unitLeft unitLeft = .ok unitLeft := by simp [UnitRule.combine]
  have plain : (unit == unitLeft) = unitRight.isEmpty := by
    rw [Bool.eq_iff_iff, beq_iff_eq, List.isEmpty_iff, keeps]
  refine ⟨unit, _, _, rfl, product, remainder, keeps, lost, fun other => ⟨?_, ?_, ?_, ?_⟩⟩
  · exact arithmetic_of_units whole .plus Binary64.add _ other
  · rw [apply, Value.same, beq_self_eq_true, Bool.and_true]
  · exact arithmetic_of_units (UnitRule.combine_additive_of_divisive units) .plus Binary64.add _ other
  · rw [apply, Value.same, plain]

/-- A whole number of pixels. -/
def pixels (size : Nat) : Value := .number (.ofRatio false size 1) "px".toList

/-- `10px / 4px` is `2.5`, and times `4px` it is in pixels again; `10px % 4px` equals no number of pixels. -/
theorem units_of_quotient_pixels :
    apply .over (pixels 10) (pixels 4) = .ok (.number (.ofRatio false 5 2) []) ∧
      ∃ product remainder,
        apply .times (.number (.ofRatio false 5 2) []) (pixels 4) = .ok (.number product "px".toList) ∧
        apply .modulo (pixels 10) (pixels 4) = .ok (.number remainder []) ∧
        ∀ other, apply .equal (.number remainder []) (.number other "px".toList) = .ok (.boolean false) := by
  have divides : apply .over (pixels 10) (pixels 4) = .ok (.number (.ofRatio false 5 2) []) := by decide +kernel
  obtain ⟨unit, product, remainder, -, times, modulo, -, lost, same⟩ := units_of_quotient divides
  obtain rfl := lost (by decide)
  refine ⟨divides, product, remainder, times, modulo, fun other => ?_⟩
  rw [(same other).2.2.2, show "px".toList.isEmpty = false from rfl, Bool.and_false]

/-- A remainder does not always carry the unit of what was divided: `10px % 4px` is a plain number. -/
theorem not_remainder_keeps_unit :
    ¬ ∀ {left right : Binary64} {unitLeft unitRight : Text} {quotient : Value},
      apply .over (.number left unitLeft) (.number right unitRight) = .ok quotient →
        ∃ remainder, apply .modulo (.number left unitLeft) (.number right unitRight) =
          .ok (.number remainder unitLeft) := by
  intro keeps
  have divides : apply .over (pixels 10) (pixels 4) = .ok (.number (.ofRatio false 5 2) []) := by decide +kernel
  have modulo : apply .modulo (pixels 10) (pixels 4) = .ok (.number (.ofRatio false 2 1) []) := by decide +kernel
  obtain ⟨remainder, kept⟩ := keeps divides
  have units := Except.ok.inj (modulo.symm.trans kept)
  cases units

end Value
end StyleScript
