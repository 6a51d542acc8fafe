/-! The two ways of writing names and values: `$name: value`, and the older `!name = value`. -/

namespace StyleScript

inductive Dialect where
  | standard | legacy
deriving DecidableEq

namespace Dialect

def sigil : Dialect → Char
  | .standard => '$'
  | .legacy => '!'

def separator : Dialect → Char
  | .standard => ':'
  | .legacy => '='

end Dialect
end StyleScript
