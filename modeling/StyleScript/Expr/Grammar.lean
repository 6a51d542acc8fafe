import StyleScript.Expr.Basic
import StyleScript.Expr.Numeral

/-! The grammar of expressions, by levels: `or` binds loosest, then `and`, one comparison, sums,
products, the unary operators, and atoms. Blanks may stand before every part. Each level is given
a parser for the expressions inside parentheses and calls. Tying that knot takes no more rounds
than the text has characters, since every parenthesis takes one.

An expression ends where no level can go on. A level that fails hands the failure of an atom up,
so the place of a failure is the first character that is not blank. -/

namespace StyleScript.Expr.Grammar
open StyleScript.Parser

def quotedBy (quote : Char) : Parser Expr := do
  char quote
  let text ← takeWhile (· != quote)
  char quote
  return .literal (.string text true)

def quoted : Parser Expr := quotedBy '"' <|> quotedBy '\''

def number : Parser Expr := do
  let (value, unit) ← Numeral.numeral
  return .literal (.number value unit)

/-- Either sigil is read, whichever of the dialects the text is written in. -/
def reference : Parser Expr := do
  char '$' <|> char '!'
  return .reference (← identifier)

def constant : Parser Expr :=
  (do keyword "true"; return .literal (.boolean true)) <|>
  (do keyword "false"; return .literal (.boolean false)) <|>
  (do keyword "null"; return .literal .null)

def bareWord : Parser Expr := do
  return .literal (.string (← identifier) false)

def operator (symbol : String) (operator : Operator) : Parser Operator := do
  exactly symbol.toList
  return operator

def productOperator : Parser Operator :=
  operator "*" .times <|> operator "/" .over <|> operator "%" .modulo

def sumOperator : Parser Operator := operator "+" .plus <|> operator "-" .minus

def comparisonOperator : Parser Operator :=
  operator "==" .equal <|> operator "!=" .unequal <|> operator "<=" .lessOrEqual <|>
    operator ">=" .greaterOrEqual <|> operator "<" .less <|> operator ">" .greater

section
variable (inner : Parser Expr)

def group : Parser Expr := do
  char '('
  let expr ← inner
  blanks
  char ')'
  return expr

/-- The text of an argument, without the blanks before it. -/
def argument : Parser Text := do
  blanks
  span inner

def arguments : Parser (List Text) := do
  match ← optional (argument inner) with
  | none => return []
  | some first =>
    let others ← many (do blanks; char ','; argument inner)
    return first :: others

def call : Parser Expr := do
  let name ← identifier
  char '('
  let arguments ← arguments inner
  blanks
  char ')'
  return .call name arguments

def atom : Parser Expr := do
  blanks
  number <|> quoted <|> reference <|> group inner <|> constant <|> call inner <|> bareWord

/-- An atom after at most as many unary operators as `bound` has characters. -/
def unaryWithin : Text → Parser Expr
  | [] => atom inner
  | _ :: bound =>
    (do blanks; char '-'; return .negate (← unaryWithin bound)) <|>
    (do blanks; keyword "not"; return .not (← unaryWithin bound)) <|>
    atom inner

def unary : Parser Expr := fun text => unaryWithin inner text text

/-- Operands joined by operators of one level, grouped from the left. -/
def chain {σ : Type} (join : σ → Expr → Expr → Expr) (operator : Parser σ) (operand : Parser Expr) :
    Parser Expr := do
  let first ← operand
  let others ← many (do blanks; let joined ← operator; return (joined, ← operand))
  return others.foldl (fun left (joined, right) => join joined left right) first

def product : Parser Expr := chain .binary productOperator (unary inner)

def sum : Parser Expr := chain .binary sumOperator (product inner)

/-- Comparisons do not chain. -/
def comparison : Parser Expr := do
  let left ← sum inner
  match ← optional (do blanks; let operator ← comparisonOperator; return (operator, ← sum inner)) with
  | none => return left
  | some (operator, right) => return .binary operator left right

def conjunction : Parser Expr :=
  chain (fun _ => .both) (keyword "and") (comparison inner)

def disjunction : Parser Expr :=
  chain (fun _ => .either) (keyword "or") (conjunction inner)

end

/-- Expressions whose parentheses are nested no deeper than `bound` has characters. -/
def within : Text → Parser Expr
  | [] => disjunction fail
  | _ :: bound => fun text => disjunction (within bound) text

end Grammar

/-- Reads an expression at the beginning of a text, blanks before it included. -/
def parser : Parser Expr := fun text => Grammar.within text text

/-- Reads a text that is one expression with blanks around it; otherwise tells where it is not. -/
def ofText (source : Text) : Except Text Expr :=
  match parser source with
  | .error place => .error place
  | .ok (expr, rest) =>
    if Text.dropBlanks rest = [] then .ok expr else .error (Text.dropBlanks rest)

end StyleScript.Expr
