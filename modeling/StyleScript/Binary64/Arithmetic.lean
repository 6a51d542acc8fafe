import StyleScript.Binary64.Basic

/-! Arithmetic on binary64 numbers: the exact result, rounded once. The remainder is exact and has
the sign of the dividend. A number that is not a number compares with nothing. -/

namespace StyleScript.Binary64

def neg : Binary64 → Binary64
  | .nan => .nan
  | .infinite negative => .infinite (!negative)
  | .finite negative significand exponent canonical => .finite (!negative) significand exponent canonical

/-- A sum of zero is negative only if both parts are. -/
def add : Binary64 → Binary64 → Binary64
  | .nan, _ | _, .nan => .nan
  | .infinite left, .infinite right => if left = right then .infinite left else .nan
  | .infinite negative, .finite .. | .finite .., .infinite negative => .infinite negative
  | left@(.finite ..), right@(.finite ..) =>
    let sum := left.quanta + right.quanta
    if sum = 0 then zero (left.isNegative && right.isNegative)
    else ofRatio (sum < 0) sum.natAbs quantaPerOne

def sub (left right : Binary64) : Binary64 := add left right.neg

def mul (left right : Binary64) : Binary64 :=
  let negative := left.isNegative != right.isNegative
  match left, right with
  | .nan, _ | _, .nan => .nan
  | .infinite _, .infinite _ => .infinite negative
  | .infinite _, .finite _ significand .. | .finite _ significand .., .infinite _ =>
    if significand = 0 then .nan else .infinite negative
  | .finite .., .finite .. =>
    ofRatio negative (left.magnitude * right.magnitude) (quantaPerOne * quantaPerOne)

def div (left right : Binary64) : Binary64 :=
  let negative := left.isNegative != right.isNegative
  match left, right with
  | .nan, _ | _, .nan | .infinite _, .infinite _ => .nan
  | .infinite _, .finite .. => .infinite negative
  | .finite .., .infinite _ => zero negative
  | .finite .., .finite .. =>
    if right.magnitude = 0 then if left.magnitude = 0 then .nan else .infinite negative
    else ofRatio negative left.magnitude right.magnitude

def rem (left right : Binary64) : Binary64 :=
  match left, right with
  | .nan, _ | _, .nan | .infinite _, _ => .nan
  | .finite .., .infinite _ => left
  | .finite .., .finite .. =>
    if right.magnitude = 0 then .nan
    else ofRatio left.isNegative (left.magnitude % right.magnitude) quantaPerOne

def compare? : Binary64 → Binary64 → Option Ordering
  | .nan, _ | _, .nan => none
  | .infinite left, .infinite right => some (compare right left)
  | .infinite negative, .finite .. => some (if negative then .lt else .gt)
  | .finite .., .infinite negative => some (if negative then .gt else .lt)
  | left@(.finite ..), right@(.finite ..) => some (compare left.quanta right.quanta)

/-- Equality of values: both zeros are equal, and what is not a number differs from itself. -/
def same (left right : Binary64) : Bool := left.compare? right == some .eq

def less (left right : Binary64) : Bool := left.compare? right == some .lt

def lessOrSame (left right : Binary64) : Bool := left.less right || left.same right

def isZero (x : Binary64) : Bool := x.same (zero false)

/-- The nearest whole number; a half goes away from zero. -/
def round : Binary64 → Binary64
  | x@(.finite negative ..) => ofRatio negative ((2 * x.magnitude + quantaPerOne) / (2 * quantaPerOne)) 1
  | x => x

def isWhole : Binary64 → Bool
  | x@(.finite ..) => x.magnitude % quantaPerOne == 0
  | _ => false

end StyleScript.Binary64
