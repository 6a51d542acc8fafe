import StyleScript.Bindings
import StyleScript.Name
import StyleScript.Output
import StyleScript.Statement.Basic
import StyleScript.Value.Basic

/-! A context is a chain of frames, innermost first. A lookup goes through the chain and takes the
first answer; a binding goes to the innermost frame only. Every frame has a list for outputs, but
an output goes up the chain, and the root keeps it. -/

namespace StyleScript

/-- What a frame binds. -/
structure Scope where
  values : Bindings Value := []
  functions : Bindings Definition := []

structure Frame extends Scope where
  outputs : List Output := []

structure Context where
  frame : Frame := {}
  outer : List Frame := []

namespace Context

def empty : Context := {}

/-- The frames from the innermost to the root. -/
def frames (context : Context) : List Frame := context.frame :: context.outer

def scopes (context : Context) : List Scope := context.frames.map (·.toScope)

/-- The root has depth zero. -/
def depth (context : Context) : Nat := context.outer.length

def push (context : Context) : Context := { outer := context.frames }

/-- Leaves the innermost frame. Leaving the root drops everything and begins anew. -/
def pop (context : Context) : Context :=
  match context.outer with
  | [] => empty
  | frame :: outer => { frame, outer }

def find? {α : Type} (bindings : Scope → Bindings α) (key : Text) (context : Context) : Option α :=
  context.scopes.findSome? fun scope => (bindings scope).find? key

def findVariable (context : Context) (name : Text) : Option Value :=
  context.find? Scope.values (Name.variableKey name)

/-- Functions are looked up by the key as it is given. -/
def findFunction (context : Context) (key : Text) : Option Definition :=
  context.find? Scope.functions key

def assign (context : Context) (name : Text) (value : Value) : Context :=
  { context with
    frame := { context.frame with values := context.frame.values.insert (Name.variableKey name) value } }

def declare (context : Context) (key : Text) (definition : Definition) : Context :=
  { context with
    frame := { context.frame with functions := context.frame.functions.insert key definition } }

/-- Goes up the chain to the frame that has no parent, and changes that. -/
def changeRoot (change : Frame → Frame) : Frame → List Frame → Context
  | root, [] => { frame := change root }
  | frame, parent :: outer => { frame, outer := (changeRoot change parent outer).frames }

def record (context : Context) (output : Output) : Context :=
  changeRoot (fun root => { root with outputs := root.outputs ++ [output] }) context.frame context.outer

/-- What the root holds. -/
def outputs (context : Context) : List Output := (context.outer.getLastD context.frame).outputs

/-- The innermost frame hands out the outputs of its own list. -/
def drain (context : Context) : List Output × Context :=
  (context.frame.outputs, { context with frame := { context.frame with outputs := [] } })

theorem pop_push (context : Context) : context.push.pop = context := rfl

theorem depth_push (context : Context) : context.push.depth = context.depth + 1 := rfl

theorem findVariable_push (context : Context) (name : Text) :
    context.push.findVariable name = context.findVariable name := rfl

theorem findFunction_push (context : Context) (key : Text) :
    context.push.findFunction key = context.findFunction key := rfl

theorem findVariable_assign (context : Context) (name other : Text) (value : Value) :
    (context.assign name value).findVariable other =
      if Name.variableKey other = Name.variableKey name then some value else context.findVariable other := by
  simp only [findVariable, find?, scopes, frames, assign, List.map_cons, List.findSome?_cons, Bindings.find?_insert]
  by_cases same : Name.variableKey other = Name.variableKey name <;> simp [same]

theorem findFunction_declare (context : Context) (key other : Text) (definition : Definition) :
    (context.declare key definition).findFunction other =
      if other = key then some definition else context.findFunction other := by
  simp only [findFunction, find?, scopes, frames, declare, List.map_cons, List.findSome?_cons, Bindings.find?_insert]
  by_cases same : other = key <;> simp [same]

theorem findFunction_assign (context : Context) (name key : Text) (value : Value) :
    (context.assign name value).findFunction key = context.findFunction key := rfl

theorem findVariable_declare (context : Context) (key name : Text) (definition : Definition) :
    (context.declare key definition).findVariable name = context.findVariable name := rfl

end Context
end StyleScript
