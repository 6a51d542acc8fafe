import StyleScript.Binary64.Arithmetic
import StyleScript.Binary64.Shortest

/-! How numbers are written: rounded to a number of decimal places, then as an integer if that
leaves a whole number below a limit, and otherwise with the fewest digits that read back. No
exponent is ever written. -/

namespace StyleScript

structure NumberFormat where
  /-- The decimal places that rounding keeps. -/
  places : Nat
  /-- Whole numbers below this are written as integers, where zero has no sign. -/
  integerLimit : Nat

namespace Binary64

/-- The scaling, the rounding and the scaling back are each done in binary64, so that for large
numbers the result may differ from the number. -/
def rounded (places : Nat) (x : Binary64) : Binary64 :=
  let scale := ofRatio false (Nat.pow 10 places) 1
  (x.mul scale).round.div scale

def signed (negative : Bool) (digits : Text) : Text := if negative then '-' :: digits else digits

def text (integerLimit : Nat) (x : Binary64) : Text :=
  match x with
  | .nan => "NaN".toList
  | .infinite negative => signed negative "inf".toList
  | .finite negative .. =>
    if x.isWhole && x.wholePart < integerLimit then
      signed (negative && x.wholePart != 0) (Text.ofNat x.wholePart)
    else signed negative x.shortest.text

def display (format : NumberFormat) (x : Binary64) : Text :=
  (x.rounded format.places).text format.integerLimit

end Binary64
end StyleScript
