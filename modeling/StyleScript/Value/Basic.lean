import StyleScript.Text
import StyleScript.Binary64.Arithmetic

/-! Values: numbers with a unit, strings that remember whether they were quoted, booleans and
null. The unit of a plain number is empty. -/

namespace StyleScript

inductive Value where
  | number (value : Binary64) (unit : Text)
  | string (text : Text) (quoted : Bool)
  | boolean (value : Bool)
  | null
deriving DecidableEq

namespace Value

/-- Everything is true except `false` and `null`. -/
def isTruthy : Value → Bool
  | .boolean false | .null => false
  | _ => true

def isNull : Value → Bool
  | .null => true
  | _ => false

/-- Equality as the language sees it: units and quotes count, and numbers compare by value. -/
def same : Value → Value → Bool
  | .number left leftUnit, .number right rightUnit => left.same right && leftUnit == rightUnit
  | .string left leftQuoted, .string right rightQuoted => left == right && leftQuoted == rightQuoted
  | .boolean left, .boolean right => left == right
  | .null, .null => true
  | _, _ => false

end Value
end StyleScript
