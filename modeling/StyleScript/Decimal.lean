import StyleScript.Text

/-! Decimal notation: a whole coefficient times a power of ten, read from digits and written
without an exponent. -/

namespace StyleScript

structure Decimal where
  coefficient : Nat
  exponent : Int
deriving DecidableEq

namespace Decimal

/-- The value of a run of digits. -/
def digitsValue (digits : Text) : Nat := digits.foldl (fun value c => 10 * value + (c.toNat - '0'.toNat)) 0

def ofDigits (whole fraction : Text) : Decimal where
  coefficient := digitsValue (whole ++ fraction)
  exponent := -fraction.length

/-- All digits written out, with at least one before the point. -/
def text (decimal : Decimal) : Text :=
  let digits := Text.ofNat decimal.coefficient
  match decimal.exponent with
  | .ofNat zeros => digits ++ List.replicate zeros '0'
  | .negSucc more =>
    let places := more + 1
    let padded := List.replicate (places + 1 - digits.length) '0' ++ digits
    padded.take (padded.length - places) ++ '.' :: padded.drop (padded.length - places)

theorem digitsValue_append_digit (digits : Text) (c : Char) :
    digitsValue (digits ++ [c]) = 10 * digitsValue digits + (c.toNat - '0'.toNat) := by
  simp [digitsValue]

end Decimal
end StyleScript
