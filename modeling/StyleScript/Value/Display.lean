import StyleScript.Binary64.Display
import StyleScript.Value.Basic

/-! How values are written. Nothing inside a quoted string is escaped. -/

namespace StyleScript.Value

/-- Numbers have ten decimal places, and integers fifteen digits. -/
def numberFormat : NumberFormat := ⟨10, Nat.pow 10 15⟩

def display : Value → Text
  | .number value unit => value.display numberFormat ++ unit
  | .string text true => '"' :: text ++ ['"']
  | .string text false => text
  | .boolean true => "true".toList
  | .boolean false => "false".toList
  | .null => "null".toList

/-- The text that a value adds to a string or a message: a string without its quotes. -/
def content : Value → Text
  | .string text _ => text
  | value => value.display

end StyleScript.Value
