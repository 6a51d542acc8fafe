import StyleScript.Site

/-! The head of a function declaration: its name and its parameters in order, each with the text
of its default or without one. -/

namespace StyleScript

structure Parameter where
  name : Text
  /-- Read and evaluated at every call that does not give the argument. -/
  default : Option Text
deriving DecidableEq

structure Header where
  name : Text
  parameters : List Parameter
  excerpt : Excerpt
deriving DecidableEq

end StyleScript
