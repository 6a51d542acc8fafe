import StyleScript.Binary64.Basic
import StyleScript.Decimal

/-! Between binary64 and decimal notation. Reading a decimal rounds it to the nearest number.
Writing a number finds the coarsest decimal grid on which one of its two neighbours reads back as
that number: the fewest digits that do. -/

namespace StyleScript.Binary64

def ofDecimal (decimal : Decimal) : Binary64 :=
  ofRatio false (decimal.coefficient * Nat.pow 10 decimal.exponent.toNat)
    (Nat.pow 10 (-decimal.exponent).toNat)

/-- Whether a decimal reads as the positive number of a size in quanta. -/
def readsBack (size : Nat) (decimal : Decimal) : Bool := (ofDecimal decimal).magnitude == size

/-- The two decimals of a grid next to a size in quanta, the nearer one first; where both are
equally near the upper one comes first. -/
def neighbours (size : Nat) (exponent : Int) : Decimal × Decimal :=
  let num := size * Nat.pow 10 (-exponent).toNat
  let den := quantaPerOne * Nat.pow 10 exponent.toNat
  let lower := Decimal.mk (num / den) exponent
  let upper := Decimal.mk (num / den + 1) exponent
  if 2 * (num % den) < den then (lower, upper) else (upper, lower)

/-- Tries the grid of an exponent, and then finer ones. -/
def shortestFrom (size : Nat) : Nat → Int → Decimal
  | 0, exponent => (neighbours size exponent).1
  | finer + 1, exponent =>
    let (near, far) := neighbours size exponent
    if readsBack size near then near
    else if readsBack size far then far
    else shortestFrom size finer (exponent - 1)

/-- Begins with a power of ten above the number. The grid of the exponent -324 is finer than the
quantum, so that none beyond it is needed. -/
def shortest (x : Binary64) : Decimal :=
  let coarsest := (Text.ofNat x.wholePart).length
  shortestFrom x.magnitude (coarsest + 324) coarsest

end StyleScript.Binary64
