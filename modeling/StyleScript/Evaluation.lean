import StyleScript.Expr.Grammar
import StyleScript.Run

/-! Evaluation of expressions and running of statements. What a call does is given as a
parameter, so that everything here follows the structure of what is evaluated; the knot is tied
by the depth to which calls may be nested. Scopes are dynamic: a called function sees the frames
of its caller, and its arguments are evaluated in its own new frame. -/

namespace StyleScript

/-- What to do with a definition, the texts of the arguments and the site of a call. -/
abbrev Caller := Definition → List Text → Site → Run Value

namespace Expr

/-- Reads the expression that a text is, on behalf of a site. -/
def read (site : Site) (source : Text) : Except Fault Expr :=
  match ofText source with
  | .ok expr => .ok expr
  | .error place => .error (.badSyntax site (.ofPlace place))

def evaluate (call : Caller) (site : Site) : Expr → Run Value
  | .literal value => pure value
  | .reference name => do
    match ← Run.read (·.findVariable name) with
    | some value => return value
    | none => Run.fail (.undefinedVariable site name)
  | .call name arguments => do
    match ← Run.read (·.findFunction (Name.functionKey name)) with
    | some definition => call definition arguments site
    | none => Run.fail (.undefinedFunction site name)
  | .negate operand => do
    let value ← operand.evaluate call site
    return value.negate
  | .not operand => do
    let value ← operand.evaluate call site
    return .boolean !value.isTruthy
  | .both left right => do
    let value ← left.evaluate call site
    if value.isTruthy then right.evaluate call site else return value
  | .either left right => do
    let value ← left.evaluate call site
    if value.isTruthy then return value else right.evaluate call site
  | .binary operator left right => do
    let leftValue ← left.evaluate call site
    let rightValue ← right.evaluate call site
    match Value.apply operator leftValue rightValue with
    | .ok value => return value
    | .error cause => Run.fail (.operation site cause)

end Expr

/-- The value of a text, which is read anew every time. -/
def evaluate (call : Caller) (site : Site) (source : Text) : Run Value :=
  match Expr.read site source with
  | .ok expr => expr.evaluate call site
  | .error fault => Run.fail fault

/-- How a statement leaves the statements after it. -/
inductive Completion where
  | normal
  | returned (value : Value)
deriving DecidableEq

mutual
def Statement.run (call : Caller) : Statement → Run Completion
  | .function header body => do
    Run.change (·.declare header.name ⟨header, body⟩)
    return .normal
  | .returns excerpt expression => do
    let value ← evaluate call excerpt.site expression
    return .returned value
  | .assign excerpt name expression isDefault => do
    let bound ← Run.read (·.findVariable name)
    if isDefault && bound.any (!·.isNull) then return .normal
    else
      let value ← evaluate call excerpt.site expression
      Run.change (·.assign name value)
      return .normal
  | .conditional excerpt condition body next => do
    let value ← evaluate call excerpt.site condition
    if value.isTruthy then runAll call body else next.run call
  | .print excerpt severity expression => do
    let value ← evaluate call excerpt.site expression
    Run.change (·.record ⟨severity, excerpt.site, value.content⟩)
    return .normal

/-- Runs statements in order up to the first that returns. -/
def runAll (call : Caller) : List Statement → Run Completion
  | [] => return .normal
  | statement :: statements => do
    match ← statement.run call with
    | .returned value => return .returned value
    | .normal => runAll call statements

def Otherwise.run (call : Caller) : Otherwise → Run Completion
  | .nothing => return .normal
  | .block body => runAll call body
  | .condition site condition body next => do
    let value ← evaluate call site condition
    if value.isTruthy then runAll call body else next.run call
end

namespace Definition

/-- The value of one parameter: its argument, evaluated for the call, or else its default,
evaluated for the declaration. -/
def parameterValue (call : Caller) (definition : Definition) (called : Site) (parameter : Parameter) :
    Option Text → Run Value
  | some argument => evaluate call called argument
  | none =>
    match parameter.default with
    | some default => evaluate call definition.site default
    | none =>
      Run.fail (.missingArgument definition.header.name parameter.name definition.site called)

/-- Binds parameters in order, so that a default may use those before it. Arguments that are left
over are not evaluated. -/
def bindParameters (call : Caller) (definition : Definition) (called : Site) :
    List Parameter → List Text → Run Unit
  | [], _ => return
  | parameter :: parameters, arguments => do
    let value ← definition.parameterValue call called parameter arguments.head?
    Run.change (·.assign parameter.name value)
    bindParameters call definition called parameters arguments.tail

/-- Without a `@return` a call gives `false`. -/
def result (call : Caller) (definition : Definition) : Run Value := do
  match ← runAll call definition.body with
  | .returned value => return value
  | .normal => return .boolean false

/-- One call, where the calls within it are given. -/
def callWith (call : Caller) : Caller := fun definition arguments called =>
  Run.inNewFrame do
    definition.bindParameters call called definition.header.parameters arguments
    definition.result call

/-- A call in which calls may be nested to a given depth. -/
def callWithin : Nat → Caller
  | 0, _, _, _ => Run.exhausted
  | depth + 1, definition, arguments, called => callWith (callWithin depth) definition arguments called

end Definition
end StyleScript
