import StyleScript.Value.Arithmetic

/-! Expressions as they are read. A literal is a value written down, a bare word being an
unquoted string. The arguments of a call stay text: whoever is called reads them in its own
scope. -/

namespace StyleScript

inductive Expr where
  | literal (value : Value)
  | reference (name : Text)
  | call (name : Text) (arguments : List Text)
  | negate (operand : Expr)
  | not (operand : Expr)
  | both (left right : Expr)
  | either (left right : Expr)
  | binary (operator : Operator) (left right : Expr)
deriving DecidableEq

end StyleScript
