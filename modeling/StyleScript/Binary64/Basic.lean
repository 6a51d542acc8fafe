/-! Numbers in the binary64 format, as exact values: a finite number is a significand of at most
53 binary digits times a power of two, written in one way only. Every finite number is a whole
count of quanta, the quantum being the least positive number, so that sums, products, remainders
and comparisons are those of integers, followed by one rounding. -/

namespace StyleScript

/-- The significand is full, or else the exponent is the least one. -/
def Binary64.Canonical (significand : Nat) (exponent : Int) : Prop :=
  significand < Nat.pow 2 53 ∧ -1074 ≤ exponent ∧ exponent ≤ 971 ∧
    (Nat.pow 2 52 ≤ significand ∨ exponent = -1074)

instance (significand : Nat) (exponent : Int) : Decidable (Binary64.Canonical significand exponent) :=
  inferInstanceAs (Decidable (_ ∧ _ ∧ _ ∧ _))

inductive Binary64 where
  | nan
  | infinite (negative : Bool)
  | finite (negative : Bool) (significand : Nat) (exponent : Int)
      (canonical : Binary64.Canonical significand exponent)
deriving DecidableEq

namespace Binary64

def zero (negative : Bool) : Binary64 := .finite negative 0 (-1074) (by decide)

/-- A full significand whose exponent is too large stands for an infinity. -/
def ofParts (negative : Bool) (significand : Nat) (exponent : Int) : Binary64 :=
  if canonical : Canonical significand exponent then .finite negative significand exponent canonical
  else .infinite negative

def isNegative : Binary64 → Bool
  | .nan => false
  | .infinite negative | .finite negative .. => negative

/-- How many quanta make one. -/
def quantaPerOne : Nat := Nat.pow 2 1074

/-- The size of a finite number in quanta. -/
def magnitude : Binary64 → Nat
  | .finite _ significand exponent _ => significand * Nat.pow 2 (exponent + 1074).toNat
  | _ => 0

/-- A finite number in quanta, with its sign. -/
def quanta (x : Binary64) : Int := if x.isNegative then -x.magnitude else x.magnitude

/-- The digits before the point, as a number. -/
def wholePart (x : Binary64) : Nat := x.magnitude / quantaPerOne

/-- The whole number nearest to a ratio; a half goes to the even neighbour. -/
def nearestEven (num den : Nat) : Nat :=
  let floor := num / den
  let twice := 2 * (num % den)
  if twice < den then floor else if den < twice then floor + 1 else floor + floor % 2

/-- A ratio divided by a power of two, as a ratio. -/
def scaled (num den : Nat) (exponent : Int) : Nat × Nat :=
  (num * Nat.pow 2 (-exponent).toNat, den * Nat.pow 2 exponent.toNat)

/-- The exponent that leaves a positive ratio 53 binary digits before the point, or the least
exponent if that is greater. -/
def exponentOf (num den : Nat) : Int :=
  let guess : Int := num.log2 - den.log2 - 53
  let (scaledNum, scaledDen) := scaled num den guess
  max (if Nat.pow 2 53 ≤ scaledNum / scaledDen then guess + 1 else guess) (-1074)

/-- The number nearest to a ratio; a half goes to the even significand. -/
def ofRatio (negative : Bool) (num den : Nat) : Binary64 :=
  if num = 0 then zero negative
  else
    let exponent := exponentOf num den
    let (scaledNum, scaledDen) := scaled num den exponent
    let significand := nearestEven scaledNum scaledDen
    if significand = Nat.pow 2 53 then ofParts negative (Nat.pow 2 52) (exponent + 1)
    else ofParts negative significand exponent

/-- The number that a word of 64 bits stands for. -/
def ofBits (word : Nat) : Binary64 :=
  let negative := word / Nat.pow 2 63 % 2 == 1
  let biased : Nat := word / Nat.pow 2 52 % Nat.pow 2 11
  let fraction : Nat := word % Nat.pow 2 52
  if biased = 2047 then if fraction = 0 then .infinite negative else .nan
  else if biased = 0 then ofParts negative fraction (-1074)
  else ofParts negative (Nat.pow 2 52 + fraction) (biased - 1075)

/-- The word of a number; of the many words that are no number it is the quiet one. -/
def toBits : Binary64 → Nat
  | .nan => 2047 * Nat.pow 2 52 + Nat.pow 2 51
  | .infinite negative => negative.toNat * Nat.pow 2 63 + 2047 * Nat.pow 2 52
  | .finite negative significand exponent _ =>
    negative.toNat * Nat.pow 2 63 + (exponent + 1074).toNat * Nat.pow 2 52 + significand

end Binary64
end StyleScript
