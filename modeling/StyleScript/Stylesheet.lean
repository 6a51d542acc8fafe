import StyleScript.Evaluation
import StyleScript.Statement.Grammar

/-! A whole stylesheet: its statements are executed in a new root context, and what they printed
is the result. A `@return` that reaches the top is a fault of the top-level statement that it
came out of. -/

namespace StyleScript

def runTopLevel (call : Caller) : List Statement → Run Unit
  | [] => return
  | statement :: statements => do
    match ← statement.run call with
    | .normal => runTopLevel call statements
    | .returned _ => Run.fail (.returnOutsideFunction statement.excerpt.site)

/-- Runs statements with calls nested to at most the given depth. -/
def outputsOf (depth : Nat) (statements : List Statement) : Outcome (List Output) :=
  match runTopLevel (Definition.callWithin depth) statements Context.empty with
  | (.done _, context) => .done context.outputs
  | (.failed fault, _) => .failed fault
  | (.exhausted, _) => .exhausted

namespace Sheet

def compile (depth : Nat) (sheet : Sheet) : Outcome (List Output) :=
  match sheet.statements with
  | .ok statements => outputsOf depth statements
  | .error fault => .failed fault

end Sheet
end StyleScript
