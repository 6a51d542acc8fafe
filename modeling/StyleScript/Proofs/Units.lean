import StyleScript.Proofs.SelfCorrespondence

/-! Units go their own way through an arithmetic expression. What the units of its leaves come to can be told
without the numbers, and evaluation keeps to that unless it divides by zero. -/

namespace StyleScript

open Run

/-- The operators between numbers that give a number, each with the rule for the unit of its result. -/
def Operator.unitRule? : Operator → Option UnitRule
  | .plus | .minus => some .additive
  | .times => some .multiplicative
  | .over | .modulo => some .divisive
  | _ => none

/-- The unit of the number that a variable is bound to. -/
def Context.unitOf (context : Context) (name : Text) : Text :=
  match context.findVariable name with
  | some (.number _ unit) => unit
  | _ => []

/-- The variable is bound to a number. -/
def Context.Counts (context : Context) (name : Text) : Prop :=
  ∃ value, context.findVariable name = some (.number value (context.unitOf name))

namespace Expr

/-- Two versions of an arithmetic expression, which differ in nothing but the values of its numbers. -/
inductive Revalued : Expr → Expr → Prop where
  | number (value value' : Binary64) (unit : Text) :
      Revalued (.literal (.number value unit)) (.literal (.number value' unit))
  | reference (name : Text) : Revalued (.reference name) (.reference name)
  | negate {operand operand' : Expr} (operands : Revalued operand operand') :
      Revalued (.negate operand) (.negate operand')
  | binary {operator : Operator} {rule : UnitRule} {left left' right right' : Expr}
      (ruled : operator.unitRule? = some rule) (lefts : Revalued left left') (rights : Revalued right right') :
      Revalued (.binary operator left right) (.binary operator left' right')

/-- An arithmetic expression without products, quotients and remainders. -/
inductive Additive : Expr → Prop where
  | number (value : Binary64) (unit : Text) : Additive (.literal (.number value unit))
  | reference (name : Text) : Additive (.reference name)
  | negate {operand : Expr} (operands : Additive operand) : Additive (.negate operand)
  | binary {operator : Operator} {left right : Expr} (ruled : operator.unitRule? = some .additive)
      (lefts : Additive left) (rights : Additive right) : Additive (.binary operator left right)

section
variable (context : Context)

/-- The units of the numbers at the leaves. -/
def leafUnits : Expr → List Text
  | .literal (.number _ unit) => [unit]
  | .reference name => [context.unitOf name]
  | .negate operand => operand.leafUnits
  | .binary _ left right => left.leafUnits ++ right.leafUnits
  | _ => []

/-- What the units at the leaves come to. No number is looked at. -/
def unit : Expr → Except OperationFault Text
  | .literal (.number _ unit) => .ok unit
  | .reference name => .ok (context.unitOf name)
  | .negate operand => operand.unit
  | .binary operator left right => do
    let unit ← left.unit
    let unit' ← right.unit
    match operator.unitRule? with
    | some rule => rule.combine unit unit'
    | none => .ok []
  | _ => .ok []

end

theorem Revalued.symm {expr expr' : Expr} (revalued : expr.Revalued expr') : expr'.Revalued expr := by
  induction revalued with
  | number value value' unit => exact .number value' value unit
  | reference name => exact .reference name
  | negate _ ih => exact .negate ih
  | binary ruled _ _ ihLeft ihRight => exact .binary ruled ihLeft ihRight

theorem Revalued.references_eq {expr expr' : Expr} (revalued : expr.Revalued expr') :
    expr.references = expr'.references := by
  induction revalued with
  | number | reference => rfl
  | negate _ ih => exact ih
  | binary _ _ _ ihLeft ihRight => rw [references, references, ihLeft, ihRight]

theorem Additive.revalued {expr : Expr} (additive : expr.Additive) : expr.Revalued expr := by
  induction additive with
  | number value unit => exact .number value value unit
  | reference name => exact .reference name
  | negate _ ih => exact .negate ih
  | binary ruled _ _ ihLeft ihRight => exact .binary ruled ihLeft ihRight

theorem Revalued.unit_eq {expr expr' : Expr} (revalued : expr.Revalued expr') {context context' : Context}
    (same : ∀ name ∈ expr.references, context.unitOf name = context'.unitOf name) :
    expr.unit context = expr'.unit context' := by
  induction revalued with
  | number => rfl
  | reference name => exact congrArg _ (same name List.mem_cons_self)
  | negate _ ih => exact ih same
  | binary _ _ _ ihLeft ihRight =>
    obtain ⟨lefts, rights⟩ := List.forall_mem_append.1 same
    rw [unit, unit, ihLeft lefts, ihRight rights]

end Expr

/-- Units agree if at most one of them is not empty. -/
def UnitsAgree (units : List Text) : Prop :=
  ∀ first ∈ units, ∀ second ∈ units, first ≠ [] → second ≠ [] → first = second

instance (units : List Text) : Decidable (UnitsAgree units) :=
  inferInstanceAs (Decidable (∀ first ∈ units, ∀ second ∈ units, first ≠ [] → second ≠ [] → first = second))

/-- The one unit among some that is not empty, or the empty one if there is none. -/
structure IsCommonUnit (units : List Text) (unit : Text) : Prop where
  only : ∀ other ∈ units, other = [] ∨ other = unit
  present : unit = [] ∨ unit ∈ units

theorem IsCommonUnit.agree {units : List Text} {unit : Text} (common : IsCommonUnit units unit) : UnitsAgree units := by
  intro first member second member' nonempty nonempty'
  have same : first = unit := (common.only first member).resolve_left nonempty
  exact same.trans ((common.only second member').resolve_left nonempty').symm

theorem exists_isCommonUnit {units : List Text} (agree : UnitsAgree units) : ∃ unit, IsCommonUnit units unit := by
  by_cases found : ∃ unit ∈ units, unit ≠ []
  · obtain ⟨unit, member, nonempty⟩ := found
    refine ⟨unit, fun other inside => ?_, .inr member⟩
    exact or_iff_not_imp_left.2 fun filled => agree other inside unit member filled nonempty
  · exact ⟨[], fun other inside => .inl (by_contra fun filled => found ⟨other, inside, filled⟩), .inl rfl⟩

theorem isCommonUnit_singleton {only unit : Text} : IsCommonUnit [only] unit ↔ only = unit := by
  constructor
  · rintro ⟨same, present⟩
    obtain rfl | member := present
    · exact or_self_iff.1 (same only List.mem_cons_self)
    · exact (List.mem_singleton.1 member).symm
  · rintro rfl
    exact ⟨fun other member => .inr (List.mem_singleton.1 member), .inr List.mem_cons_self⟩

theorem UnitsAgree.subset {units units' : List Text} (agree : UnitsAgree units') (inside : units ⊆ units') :
    UnitsAgree units :=
  fun first member second member' => agree first (inside member) second (inside member')

namespace UnitRule

theorem combine_eq_error {rule : UnitRule} {left right : Text} {cause : OperationFault}
    (fails : rule.combine left right = .error cause) : cause = .incompatibleUnits left right := by
  cases rule <;> simp only [combine] at fails <;> grind

/-- The additive rule finds what is common to the units on both sides. -/
theorem combine_additive {lefts rights : List Text} {left right unit : Text} (first : IsCommonUnit lefts left)
    (second : IsCommonUnit rights right) :
    additive.combine left right = .ok unit ↔ IsCommonUnit (lefts ++ rights) unit := by
  obtain ⟨onlyLeft, presentLeft⟩ := first
  obtain ⟨onlyRight, presentRight⟩ := second
  rw [combine]
  constructor
  · intro combines
    constructor <;> grind
  · rintro ⟨only, present⟩
    obtain ⟨amongLefts, amongRights⟩ := List.forall_mem_append.1 only
    have ofLeft : left = [] ∨ left = unit := presentLeft.elim .inl (amongLefts left)
    have ofRight : right = [] ∨ right = unit := presentRight.elim .inl (amongRights right)
    have ofUnit : unit = [] ∨ unit = left ∨ unit = right := by
      obtain empty | member := present
      · exact .inl empty
      · obtain member | member := List.mem_append.1 member
        · exact (onlyLeft unit member).imp_right .inl
        · exact (onlyRight unit member).imp_right .inr
    grind

end UnitRule

namespace Expr

theorem Revalued.unit_eq_error {expr expr' : Expr} (revalued : expr.Revalued expr') {context : Context}
    {cause : OperationFault} (fails : expr.unit context = .error cause) :
    ∃ left right, cause = .incompatibleUnits left right := by
  induction revalued with
  | number | reference => cases fails
  | negate _ ih => exact ih fails
  | @binary _ rule left _ right _ ruled _ _ ihLeft ihRight =>
    rw [unit] at fails
    rcases lefts : left.unit context with early | unitLeft
    · rw [lefts] at fails
      cases fails
      exact ihLeft lefts
    · rcases rights : right.unit context with late | unitRight
      · rw [lefts, rights] at fails
        cases fails
        exact ihRight rights
      · rw [lefts, rights, ruled] at fails
        exact ⟨unitLeft, unitRight, UnitRule.combine_eq_error fails⟩

/-- However it is bracketed and ordered, a sum has the unit that is common to its leaves. -/
theorem Additive.unit_eq_ok {expr : Expr} (additive : expr.Additive) {context : Context} {unit : Text} :
    expr.unit context = .ok unit ↔ IsCommonUnit (expr.leafUnits context) unit := by
  induction additive generalizing unit with
  | number | reference => exact (Except.ok.injEq ..).to_iff.trans isCommonUnit_singleton.symm
  | negate _ ih => exact ih
  | @binary operator left right ruled _ _ ihLeft ihRight =>
    rw [Expr.unit, leafUnits]
    rcases lefts : left.unit context with cause | unitLeft
    · refine iff_of_false nofun fun common => ?_
      obtain ⟨common, member⟩ := exists_isCommonUnit (common.agree.subset (List.subset_append_left _ _))
      rw [ihLeft.2 member] at lefts
      cases lefts
    · rcases rights : right.unit context with cause | unitRight
      · refine iff_of_false nofun fun common => ?_
        obtain ⟨common, member⟩ := exists_isCommonUnit (common.agree.subset (List.subset_append_right _ _))
        rw [ihRight.2 member] at rights
        cases rights
      · rw [ruled]
        exact UnitRule.combine_additive (ihLeft.1 lefts) (ihRight.1 rights)

end Expr

theorem Context.counts_of_alike {context context' : Context} {name : Text}
    (alike : ∃ value value' unit, context.findVariable name = some (.number value unit) ∧
      context'.findVariable name = some (.number value' unit)) :
    context.Counts name ∧ context'.Counts name ∧ context.unitOf name = context'.unitOf name := by
  obtain ⟨value, value', unit, found, found'⟩ := alike
  simp only [Counts, unitOf, found, found']
  exact ⟨⟨value, rfl⟩, ⟨value', rfl⟩, trivial⟩

namespace Value

/-- An operation between numbers has the unit of its rule, unless it divides by zero. -/
theorem apply_number {operator : Operator} {rule : UnitRule} (ruled : operator.unitRule? = some rule)
    (left right : Binary64) (unitLeft unitRight : Text) :
    rule = .divisive ∧ apply operator (.number left unitLeft) (.number right unitRight) = .error .divisionByZero ∨
      ∃ value, apply operator (.number left unitLeft) (.number right unitRight) =
        (rule.combine unitLeft unitRight).map (.number value ·) := by
  match operator, ruled with
  | .over, rfl | .modulo, rfl =>
    by_cases zero : right.isZero
    · exact .inl ⟨rfl, by simp only [apply, division, onNumbers, if_pos zero]⟩
    · refine .inr ⟨_, by simp only [apply, division, onNumbers, if_neg zero, arithmetic]; rfl⟩
  | .plus, rfl | .minus, rfl | .times, rfl => exact .inr ⟨_, rfl⟩

end Value

namespace Expr

/-- How an evaluation ends that keeps to the units of the leaves. Only quotients and remainders divide by zero. -/
inductive Ends (expr : Expr) (site : Site) (context : Context) : Outcome Value × Context → Prop where
  | counts {value : Binary64} {unit : Text} (units : expr.unit context = .ok unit) :
      Ends expr site context (.done (.number value unit), context)
  | mismatches {cause : OperationFault} (units : expr.unit context = .error cause) :
      Ends expr site context (.failed (.operation site cause), context)
  | divides (other : ¬ expr.Additive) : Ends expr site context (.failed (.operation site .divisionByZero), context)

variable {call call' : Caller} {site site' : Site} {context context' : Context}

theorem Ends.negate {operand : Expr} (ends : operand.Ends site context (operand.evaluate call site context)) :
    (Expr.negate operand).Ends site context ((Expr.negate operand).evaluate call site context) := by
  rw [evaluate]
  generalize ended : operand.evaluate call site context = outcome at ends
  cases ends with
  | counts units =>
    rw [bind_of_done ended]
    exact .counts units
  | mismatches units =>
    rw [bind_of_failed ended]
    exact .mismatches units
  | divides other =>
    rw [bind_of_failed ended]
    exact .divides fun | .negate operands => other operands

/-- Once both operands have ended with numbers, the rule of the operator decides. -/
theorem ends_of_operands {operator : Operator} {rule : UnitRule} {left right : Expr} {unitLeft unitRight : Text}
    (ruled : operator.unitRule? = some rule) (unitsLeft : left.unit context = .ok unitLeft)
    (unitsRight : right.unit context = .ok unitRight) {valueLeft valueRight : Binary64}
    (evaluatesLeft : left.evaluate call site context = (.done (.number valueLeft unitLeft), context))
    (evaluatesRight : right.evaluate call site context = (.done (.number valueRight unitRight), context)) :
    (Expr.binary operator left right).Ends site context
      ((Expr.binary operator left right).evaluate call site context) := by
  have combined : (Expr.binary operator left right).unit context = rule.combine unitLeft unitRight := by
    rw [unit, unitsLeft, unitsRight, ruled]
    rfl
  rw [evaluate, bind_of_done evaluatesLeft, bind_of_done evaluatesRight]
  obtain ⟨rfl, zero⟩ | ⟨value, result⟩ := Value.apply_number ruled valueLeft valueRight unitLeft unitRight
  · rw [zero]
    exact .divides fun | .binary additive _ _ => nomatch additive.symm.trans ruled
  · rw [result]
    rcases units : rule.combine unitLeft unitRight with cause | unit
    · exact .mismatches (combined.trans units)
    · exact .counts (combined.trans units)

theorem Ends.binary {operator : Operator} {rule : UnitRule} {left right : Expr} (ruled : operator.unitRule? = some rule)
    (endsLeft : left.Ends site context (left.evaluate call site context))
    (endsRight : right.Ends site context (right.evaluate call site context)) :
    (Expr.binary operator left right).Ends site context
      ((Expr.binary operator left right).evaluate call site context) := by
  generalize endedLeft : left.evaluate call site context = outcome at endsLeft
  cases endsLeft with
  | mismatches units =>
    rw [evaluate, bind_of_failed endedLeft]
    exact .mismatches (by rw [unit, units]; rfl)
  | divides other =>
    rw [evaluate, bind_of_failed endedLeft]
    exact .divides fun | .binary _ lefts _ => other lefts
  | counts unitsLeft =>
    generalize endedRight : right.evaluate call site context = outcome at endsRight
    cases endsRight with
    | mismatches units =>
      rw [evaluate, bind_of_done endedLeft, bind_of_failed endedRight]
      exact .mismatches (by rw [unit, unitsLeft, units]; rfl)
    | divides other =>
      rw [evaluate, bind_of_done endedLeft, bind_of_failed endedRight]
      exact .divides fun | .binary _ _ rights => other rights
    | counts unitsRight => exact ends_of_operands ruled unitsLeft unitsRight endedLeft endedRight

theorem Revalued.evaluate_ends {expr expr' : Expr} (revalued : expr.Revalued expr')
    (bound : ∀ name ∈ expr.references, context.Counts name) :
    expr.Ends site context (expr.evaluate call site context) := by
  induction revalued with
  | number value _ unit => exact .counts rfl
  | reference name =>
    obtain ⟨value, found⟩ := bound name List.mem_cons_self
    have finds : Run.read (·.findVariable name) context =
        (.done (some (.number value (context.unitOf name))), context) :=
      congrArg (fun answer => (Outcome.done answer, context)) found
    rw [evaluate, bind_of_done finds]
    exact .counts rfl
  | negate _ ih => exact (ih bound).negate
  | binary ruled _ _ ihLeft ihRight =>
    obtain ⟨boundLeft, boundRight⟩ := List.forall_mem_append.1 bound
    exact .binary ruled (ihLeft boundLeft) (ihRight boundRight)

/-- Evaluations that keep to the same units end with the same unit or with the same two. -/
theorem Revalued.ends_alike {expr expr' : Expr} (revalued : expr.Revalued expr')
    (same : expr.unit context = expr'.unit context') {ended ended' : Outcome Value × Context}
    (ends : expr.Ends site context ended) (ends' : expr'.Ends site' context' ended')
    (nonzero : ended.1 ≠ .failed (.operation site .divisionByZero))
    (nonzero' : ended'.1 ≠ .failed (.operation site' .divisionByZero)) :
    (∃ value value' unit, ended = (.done (.number value unit), context) ∧
      ended' = (.done (.number value' unit), context')) ∨
    ∃ left right, ended = (.failed (.operation site (.incompatibleUnits left right)), context) ∧
      ended' = (.failed (.operation site' (.incompatibleUnits left right)), context') := by
  cases ends with
  | divides => exact absurd rfl nonzero
  | @counts value unit units =>
    cases ends' with
    | divides => exact absurd rfl nonzero'
    | @counts value' _ units' =>
      obtain rfl := Except.ok.inj (units.symm.trans (same.trans units'))
      exact .inl ⟨value, value', unit, rfl, rfl⟩
    | mismatches units' => exact nomatch units.symm.trans (same.trans units')
  | mismatches units =>
    cases ends' with
    | divides => exact absurd rfl nonzero'
    | counts units' => exact nomatch units.symm.trans (same.trans units')
    | mismatches units' =>
      obtain rfl := Except.error.inj (units.symm.trans (same.trans units'))
      obtain ⟨left, right, rfl⟩ := revalued.unit_eq_error units
      exact .inr ⟨left, right, rfl, rfl⟩

/-- The result of a sum has the unit that the leaves have in common. -/
theorem Additive.of_done {expr : Expr} (additive : expr.Additive) {ended : Outcome Value × Context}
    (ends : expr.Ends site context ended) {value : Value} (done : ended.1 = .done value) :
    ∃ number unit, value = .number number unit ∧ IsCommonUnit (expr.leafUnits context) unit := by
  cases ends with
  | @counts number unit units => exact ⟨number, unit, (Outcome.done.inj done).symm, additive.unit_eq_ok.1 units⟩
  | mismatches | divides => cases done

theorem Additive.exists_done {expr : Expr} (additive : expr.Additive) {ended : Outcome Value × Context}
    (ends : expr.Ends site context ended) (agree : UnitsAgree (expr.leafUnits context)) :
    ∃ value, ended.1 = .done value := by
  obtain ⟨unit, common⟩ := exists_isCommonUnit agree
  cases ends with
  | counts => exact ⟨_, rfl⟩
  | mismatches units => exact nomatch units.symm.trans (additive.unit_eq_ok.2 common)
  | divides other => exact absurd additive other

end Expr

/-- Two arithmetic expressions that differ only in the values of their numbers, evaluated where their variables are
bound to numbers of the same units, have results of one unit or fail with the same two units, unless one of them
divides by zero. A sum or difference has a result if and only if the units at its leaves agree, and the result has
the unit that is common to them. -/
theorem units_decide (call call' : Caller) (site site' : Site) :
    (∀ {expr expr' : Expr} {context context' : Context}, expr.Revalued expr' →
      (∀ name ∈ expr.references, ∃ value value' unit, context.findVariable name = some (.number value unit) ∧
        context'.findVariable name = some (.number value' unit)) →
      (expr.evaluate call site context).1 ≠ .failed (.operation site .divisionByZero) →
      (expr'.evaluate call' site' context').1 ≠ .failed (.operation site' .divisionByZero) →
      (∃ value value' unit, expr.evaluate call site context = (.done (.number value unit), context) ∧
        expr'.evaluate call' site' context' = (.done (.number value' unit), context')) ∨
      ∃ left right,
        expr.evaluate call site context = (.failed (.operation site (.incompatibleUnits left right)), context) ∧
        expr'.evaluate call' site' context' =
          (.failed (.operation site' (.incompatibleUnits left right)), context')) ∧
    ∀ {expr : Expr} {context : Context}, expr.Additive → (∀ name ∈ expr.references, context.Counts name) →
      ((∃ value, (expr.evaluate call site context).1 = .done value) ↔ UnitsAgree (expr.leafUnits context)) ∧
      ∀ value, (expr.evaluate call site context).1 = .done value →
        ∃ number unit, value = .number number unit ∧ IsCommonUnit (expr.leafUnits context) unit := by
  constructor
  · intro expr expr' context context' revalued alike nonzero nonzero'
    have units := fun name member => Context.counts_of_alike (alike name member)
    have same : expr.unit context = expr'.unit context' := revalued.unit_eq fun name member => (units name member).2.2
    refine revalued.ends_alike same ?_ ?_ nonzero nonzero'
    · exact revalued.evaluate_ends fun name member => (units name member).1
    · exact revalued.symm.evaluate_ends fun name member => (units name (revalued.references_eq ▸ member)).2.1
  · intro expr context additive bound
    have ends : expr.Ends site context (expr.evaluate call site context) := additive.revalued.evaluate_ends bound
    refine ⟨⟨fun ⟨value, done⟩ => ?_, additive.exists_done ends⟩, fun value => additive.of_done ends⟩
    obtain ⟨_, _, -, common⟩ := additive.of_done ends done
    exact common.agree

/-- `-$w / 2 + 3px` where `$w` is `10px`, and `-$w / 5 + 7px` where it is `4px`; then `1px + (2 - $w)`, and the same
with an `em` in it. -/
theorem units_decide_mixed :
    let site : Site := ⟨['m'], 1⟩
    let call := Definition.callWithin 0
    let number (size : Nat) (unit : Text) : Value := .number (.ofRatio false size 1) unit
    let mixed (divisor length : Nat) : Expr := .binary .plus
      (.binary .over (.negate (.reference ['w'])) (.literal (number divisor []))) (.literal (number length ['p', 'x']))
    let sum (unit : Text) : Expr := .binary .plus (.literal (number 1 unit))
      (.binary .minus (.literal (number 2 [])) (.reference ['w']))
    let context (width : Nat) : Context := Context.empty.assign ['w'] (number width ['p', 'x'])
    (∃ value value' unit, (mixed 2 3).evaluate call site (context 10) = (.done (.number value unit), context 10) ∧
      (mixed 5 7).evaluate call site (context 4) = (.done (.number value' unit), context 4)) ∧
    (∃ value, ((sum ['p', 'x']).evaluate call site (context 10)).1 = .done value) ∧
    ¬ ∃ value, ((sum ['e', 'm']).evaluate call site (context 10)).1 = .done value := by
  intro site call number mixed sum context
  have ends (divisor length width : Nat)
      (done : (match ((mixed divisor length).evaluate call site (context width)).1 with
        | .done _ => true
        | _ => false) = true) (fault : Fault) :
      ((mixed divisor length).evaluate call site (context width)).1 ≠ .failed fault := by
    intro failed
    rw [failed] at done
    cases done
  have first := ends 2 3 10 (by decide +kernel)
  have second := ends 5 7 4 (by decide +kernel)
  have revalued : (mixed 2 3).Revalued (mixed 5 7) :=
    .binary rfl (.binary rfl (.negate (.reference _)) (.number _ _ _)) (.number _ _ _)
  have additive (unit : Text) : (sum unit).Additive :=
    .binary rfl (.number _ _) (.binary rfl (.number _ _) (.reference _))
  have bound : ∀ name ∈ [['w']], (context 10).Counts name := List.forall_mem_singleton.2 ⟨_, rfl⟩
  have agree (unit : Text) := ((units_decide call call site site).2 (additive unit) bound).1
  refine ⟨?_, (agree ['p', 'x']).2 ?_, fun found => ?_⟩
  · refine ((units_decide call call site site).1 revalued ?_ (first _) (second _)).resolve_right ?_
    · exact List.forall_mem_singleton.2 ⟨_, _, _, rfl, rfl⟩
    · rintro ⟨left, right, failed, -⟩
      exact first _ (congrArg Prod.fst failed)
  · exact (by decide : UnitsAgree [['p', 'x'], [], ['p', 'x']])
  · exact absurd ((agree ['e', 'm']).1 found) (by decide : ¬ UnitsAgree [['e', 'm'], [], ['p', 'x']])

end StyleScript
