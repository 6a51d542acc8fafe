import StyleScript.Header.Basic
import StyleScript.Output

/-! Statements as they are read. Expressions stay text; every statement keeps the excerpt that it
was read from, and an `else if` keeps the site of its condition. -/

namespace StyleScript

mutual
inductive Statement where
  | function (header : Header) (body : List Statement)
  | returns (excerpt : Excerpt) (expression : Text)
  | assign (excerpt : Excerpt) (name expression : Text) (isDefault : Bool)
  | conditional (excerpt : Excerpt) (condition : Text) (body : List Statement) (otherwise : Otherwise)
  | print (excerpt : Excerpt) (severity : Severity) (expression : Text)

/-- What follows the body of a condition. -/
inductive Otherwise where
  | nothing
  | block (body : List Statement)
  | condition (site : Site) (condition : Text) (body : List Statement) (otherwise : Otherwise)
end

namespace Statement

def excerpt : Statement → Excerpt
  | .function header _ => header.excerpt
  | .returns excerpt _ | .assign excerpt .. | .conditional excerpt .. | .print excerpt .. => excerpt

end Statement

/-- A declared function: what is left of its declaration when it is called. -/
structure Definition where
  header : Header
  body : List Statement

namespace Definition

def site (definition : Definition) : Site := definition.header.excerpt.site

end Definition
end StyleScript
