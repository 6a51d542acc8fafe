import StyleScript.Value.Display

/-! Operations on values. Plus and minus want equal units or an empty one, a product wants at
most one unit, and a quotient or a remainder cancels equal units. A string on either side of a
plus makes it a concatenation. Comparisons look at the numbers alone. -/

namespace StyleScript

inductive Operator where
  | equal | unequal | less | lessOrEqual | greater | greaterOrEqual
  | plus | minus | times | over | modulo
deriving DecidableEq

namespace Operator

def symbol : Operator → Text
  | .equal => "==".toList
  | .unequal => "!=".toList
  | .less => "<".toList
  | .lessOrEqual => "<=".toList
  | .greater => ">".toList
  | .greaterOrEqual => ">=".toList
  | .plus => "+".toList
  | .minus => "-".toList
  | .times => "*".toList
  | .over => "/".toList
  | .modulo => "%".toList

end Operator

/-- Why an operation has no result; operands are kept as they display. -/
inductive OperationFault where
  | undefined (left : Text) (operator : Operator) (right : Text)
  | incompatibleUnits (left right : Text)
  | divisionByZero
deriving DecidableEq

namespace OperationFault

def message : OperationFault → Text
  | .undefined left operator right =>
    "undefined operation \"".toList ++ left ++ ' ' :: operator.symbol ++ ' ' :: right ++ ['"']
  | .incompatibleUnits left right =>
    "incompatible units ".toList ++ left ++ " and ".toList ++ right
  | .divisionByZero => "division by zero".toList

end OperationFault

/-- The rules by which two units make the unit of a result. -/
inductive UnitRule where
  | additive | multiplicative | divisive
deriving DecidableEq

namespace UnitRule

def combine : UnitRule → Text → Text → Except OperationFault Text
  | .additive, left, right =>
    if left = [] then .ok right
    else if right = [] ∨ left = right then .ok left
    else .error (.incompatibleUnits left right)
  | .multiplicative, left, right =>
    if left = [] then .ok right
    else if right = [] then .ok left
    else .error (.incompatibleUnits left right)
  | .divisive, left, right =>
    if left = right then .ok []
    else if right = [] then .ok left
    else .error (.incompatibleUnits left right)

end UnitRule

namespace Value

/-- Two numbers and their units, or the fault of applying the operator to anything else. -/
def onNumbers (operator : Operator) (left right : Value)
    (result : Binary64 → Text → Binary64 → Text → Except OperationFault Value) :
    Except OperationFault Value :=
  match left, right with
  | .number value unit, .number value' unit' => result value unit value' unit'
  | _, _ => .error (.undefined left.display operator right.display)

def arithmetic (operator : Operator) (rule : UnitRule) (combine : Binary64 → Binary64 → Binary64)
    (left right : Value) : Except OperationFault Value :=
  onNumbers operator left right fun value unit value' unit' =>
    (rule.combine unit unit').map fun unit => .number (combine value value') unit

/-- A zero on the right is reported before units are looked at. -/
def division (operator : Operator) (combine : Binary64 → Binary64 → Binary64) (left right : Value) :
    Except OperationFault Value :=
  onNumbers operator left right fun _ _ value' _ =>
    if value'.isZero then .error .divisionByZero else arithmetic operator .divisive combine left right

def comparison (operator : Operator) (holds : Binary64 → Binary64 → Bool) (left right : Value) :
    Except OperationFault Value :=
  onNumbers operator left right fun value _ value' _ => .ok (.boolean (holds value value'))

/-- The left operand decides whether a concatenation is quoted. -/
def add (left right : Value) : Except OperationFault Value :=
  match left, right with
  | .string text quoted, _ => .ok (.string (text ++ right.content) quoted)
  | _, .string text _ => .ok (.string (left.content ++ text) false)
  | _, _ => arithmetic .plus .additive Binary64.add left right

/-- A minus before anything but a number is written out. -/
def negate : Value → Value
  | .number value unit => .number value.neg unit
  | value => .string ('-' :: value.content) false

def apply (operator : Operator) (left right : Value) : Except OperationFault Value :=
  match operator with
  | .equal => .ok (.boolean (left.same right))
  | .unequal => .ok (.boolean (!left.same right))
  | .less => comparison .less Binary64.less left right
  | .lessOrEqual => comparison .lessOrEqual Binary64.lessOrSame left right
  | .greater => comparison .greater (fun value value' => value'.less value) left right
  | .greaterOrEqual => comparison .greaterOrEqual (fun value value' => value'.lessOrSame value) left right
  | .plus => add left right
  | .minus => arithmetic .minus .additive Binary64.sub left right
  | .times => arithmetic .times .multiplicative Binary64.mul left right
  | .over => division .over Binary64.div left right
  | .modulo => division .modulo Binary64.rem left right

end Value
end StyleScript
