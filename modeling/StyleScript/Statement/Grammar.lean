import StyleScript.Expr.Grammar
import StyleScript.Header.Grammar
import StyleScript.Statement.Basic
import StyleScript.Trivia

/-! The grammar of statements. A statement ends with a semicolon, which may be missing before a
closing brace and at the end of the source; blocks stand in braces. What is read here fails with
a fault and the site where it belongs: an expression that cannot be read belongs to the place
right after the word or separator before it.

The text of an expression, the excerpt of a head and the line of a site are cut out of the source.
The grammar leaves it to a slicer what becomes of a cut, and a slicer belongs to the causes for
which a reading stops: where these are the faults, a slice is just taken.

Blocks inside blocks are read by a given reading. Tying that knot takes no more rounds than the
source has characters, since every block takes a brace; the same bounds the loops. -/

namespace StyleScript

class Slicer (ε : Type) where
  /-- What a fault is among the causes. -/
  fault : Fault → ε
  /-- The part of `whole` that stands before its end `rest`. -/
  before (whole rest : Text) : Except ε Text

@[default_instance]
instance : Slicer Fault where
  fault := id
  before whole rest := .ok (Text.before whole rest)

/-- The source that is being read, whose ends are what is left at each step. -/
structure Sheet where
  filename : Text
  dialect : Dialect
  source : Text

namespace Sheet
variable {ε : Type} [Slicer ε] (sheet : Sheet)

/-- The site of what is left of the source. -/
def cutSite (rest : Text) : Except ε Site := do
  return .after sheet.filename (← Slicer.before sheet.source rest)

/-- The excerpt from `start` up to `finish`, both ends of the source. -/
def cutExcerpt (start finish : Text) : Except ε Excerpt := do
  let text ← Slicer.before start finish
  return ⟨Text.trim text, ← sheet.cutSite start⟩

end Sheet

namespace Statement.Grammar
open Reading (remaining ofExcept)
open Trivia (skip)

inductive Directive where
  | function | returns | conditional | print (severity : Severity)

def directive : Parser Directive :=
  (do Parser.keyword "@function"; return .function) <|>
  (do Parser.keyword "@return"; return .returns) <|>
  (do Parser.keyword "@if"; return .conditional) <|>
  (do Parser.keyword "@debug"; return .print .debug) <|>
  (do Parser.keyword "@warn"; return .print .warn)

def skipTrivia {ε : Type} : Reading ε Unit := fun text => .ok ((), skip text)

def skipHeader {ε : Type} : Reading ε Unit := fun text => .ok ((), fromHeaderEnd none text)

def isDefault : Parser Bool := do
  let word ← Parser.optional (do Parser.blanks; Parser.keyword "!default")
  return word.isSome

/-- Takes an expression, for the text that it begins. -/
def expressionStart : Parser Text := do
  Parser.blanks
  let start ← remaining
  let _ ← Expr.parser
  return start

section
variable {ε : Type} [Slicer ε] (sheet : Sheet)

def fault {α : Type} (cause : SyntaxFault) : Reading ε α := fun rest => do
  let site ← sheet.cutSite rest
  throw (Slicer.fault (.badSyntax site cause))

/-- A failure is reported at the site where the parser started, and quotes the place where it
gave up. -/
def located {α : Type} (parser : Parser α) : Reading ε α := fun text =>
  match parser text with
  | .ok result => .ok result
  | .error place => fault sheet (.ofPlace place) text

/-- The text of an expression, without the blanks before it. -/
def expression : Reading ε Text := do
  let start ← located sheet expressionStart
  ofExcept (Slicer.before start (← remaining))

def mark (expected : Char) : Reading ε Unit := fun text =>
  match Parser.char expected text with
  | .ok result => .ok result
  | .error _ => fault sheet (.expected expected) text

/-- A closing brace or the end of the source ends a statement as well, but stays. -/
def terminator : Reading ε Unit := do
  skipTrivia
  let rest ← remaining
  if rest = [] ∨ rest.head? = some '}' then return () else mark sheet ';'

/-- The head of an assignment, up to its separator. -/
def target : Parser Text := do
  Parser.char sheet.dialect.sigil
  let name ← Parser.identifier
  Parser.blanks
  Parser.char sheet.dialect.separator
  return name

def assignment : Reading ε Statement := do
  let start ← remaining
  let name ← located sheet (target sheet)
  let text ← expression sheet
  let isDefault ← located sheet isDefault
  let excerpt ← ofExcept (sheet.cutExcerpt start (← remaining))
  terminator sheet
  return .assign excerpt name text isDefault

/-- A statement that is one expression after its directive. -/
def single (build : Excerpt → Text → Statement) (start : Text) : Reading ε Statement := do
  let text ← expression sheet
  let excerpt ← ofExcept (sheet.cutExcerpt start (← remaining))
  terminator sheet
  return build excerpt text

variable (items : Reading ε (List Statement))

def block : Reading ε (List Statement) := do
  skipTrivia
  mark sheet '{'
  let body ← items
  mark sheet '}'
  return body

/-- A head without a block after it is a function with an empty body. -/
def function (start : Text) : Reading ε Statement := do
  skipHeader
  let finish ← remaining
  let excerpt ← ofExcept (sheet.cutExcerpt start finish)
  let header ← ofExcept ((Header.ofExcerpt sheet.dialect excerpt).mapError Slicer.fault)
  if finish.head? = some '{' then
    let body ← block sheet items
    return .function header body
  else
    terminator sheet
    return .function header []

/-- A condition after an `@else`, its block, and whatever comes next. -/
def elseIf (next : Reading ε Otherwise) (start : Text) : Reading ε Otherwise := do
  let condition ← expression sheet
  let body ← block sheet items
  let site ← ofExcept (sheet.cutSite start)
  return .condition site condition body (← next)

def lastBlock : Reading ε Otherwise := do
  return .block (← block sheet items)

/-- Where no `@else` follows, the trivia that was looked through is given back. -/
def otherwise : Text → Reading ε Otherwise
  | [] => return .nothing
  | _ :: bound => fun rest =>
    match Parser.keyword "@else" (skip rest) with
    | .error _ => .ok (.nothing, rest)
    | .ok (_, afterElse) =>
      let start := skip afterElse
      match Parser.keyword "if" start with
      | .ok (_, afterIf) => elseIf sheet items (otherwise bound) start afterIf
      | .error _ => lastBlock sheet items start

def conditional (start : Text) : Reading ε Statement := do
  let condition ← expression sheet
  let excerpt ← ofExcept (sheet.cutExcerpt start (← remaining))
  let body ← block sheet items
  let next ← otherwise sheet items (← remaining)
  return .conditional excerpt condition body next

def statement : Reading ε Statement := fun start =>
  match directive start with
  | .ok (.function, rest) => function sheet items start rest
  | .ok (.returns, rest) => single sheet .returns start rest
  | .ok (.conditional, rest) => conditional sheet items start rest
  | .ok (.print severity, rest) => single sheet (.print · severity ·) start rest
  | .error _ =>
    if start.head? = some sheet.dialect.sigil then assignment sheet start
    else fault sheet .expectedStatement start

/-- Statements up to a closing brace or the end; semicolons between them are passed over. -/
def itemsWithin : Text → Reading ε (List Statement)
  | [] => do
    skipTrivia
    return []
  | _ :: bound => fun text =>
    match skip text with
    | [] => .ok ([], [])
    | '}' :: rest => .ok ([], '}' :: rest)
    | ';' :: rest => itemsWithin bound rest
    | start => (do return (← statement sheet items) :: (← itemsWithin bound)) start

end

/-- The items of a block, with blocks nested no deeper than `bound` has characters. -/
def within {ε : Type} [Slicer ε] (sheet : Sheet) : Text → Reading ε (List Statement)
  | [] => fun text => itemsWithin sheet (fault sheet (.expected '}')) text text
  | _ :: bound => fun text => itemsWithin sheet (within sheet bound) text text

/-- A whole source, after whose statements nothing may be left. -/
def document {ε : Type} [Slicer ε] (sheet : Sheet) : Reading ε (List Statement) := do
  let statements ← within sheet sheet.source
  if (← remaining) = [] then return statements else fault sheet .strayBrace

end Statement.Grammar

namespace Sheet

def statementsBy (ε : Type) [Slicer ε] (sheet : Sheet) : Except ε (List Statement) :=
  (Statement.Grammar.document sheet sheet.source).map Prod.fst

def statements (sheet : Sheet) : Except Fault (List Statement) := sheet.statementsBy Fault

end Sheet

end StyleScript
