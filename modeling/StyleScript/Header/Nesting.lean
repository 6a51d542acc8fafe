import StyleScript.Text

/-! Scans from left to right that know whether they are inside a quoted string, and how many
parentheses are open outside of one. A closing parenthesis that nothing opened is passed over. -/

namespace StyleScript

/-- The quote that is open after one more character. -/
def quoteAfter (quote : Option Char) (c : Char) : Option Char :=
  match quote with
  | some opening => if c = opening then none else some opening
  | none => if c = '"' ∨ c = '\'' then some c else none

/-- What is left of a text from the first brace or semicolon outside quotes. -/
def fromHeaderEnd (quote : Option Char) : Text → Text
  | [] => []
  | c :: rest =>
    if quote = none ∧ (c = '{' ∨ c = ';' ∨ c = '}') then c :: rest
    else fromHeaderEnd (quoteAfter quote c) rest

structure Nesting where
  quote : Option Char
  depth : Nat
deriving DecidableEq

namespace Nesting

def outside : Nesting := ⟨none, 0⟩

def after (nesting : Nesting) (c : Char) : Nesting where
  quote := quoteAfter nesting.quote c
  depth :=
    if nesting.quote ≠ none then nesting.depth
    else if c = '(' then nesting.depth + 1
    else if c = ')' then nesting.depth - 1
    else nesting.depth

/-- The first part and the others, cut at every comma met outside quotes and parentheses. -/
def splitFrom (nesting : Nesting) : Text → Text × List Text
  | [] => ([], [])
  | c :: rest =>
    let (first, others) := splitFrom (nesting.after c) rest
    if nesting = outside ∧ c = ',' then ([], first :: others) else (c :: first, others)

end Nesting

/-- The parts of a text between its commas, those inside quotes and parentheses not counted. -/
def commaParts (text : Text) : List Text :=
  let (first, others) := Nesting.outside.splitFrom text
  first :: others

end StyleScript
