import StyleScript.Proofs.Rules
import Mathlib.Logic.Function.Iterate

/-! What a run can change. Expressions and calls leave every frame as it was and only add outputs;
a block changes the innermost frame besides, never one outside of it. What is added does not depend
on the outputs that are already there. -/

namespace StyleScript

namespace Context

/-- The same frames, but for the outputs that the root holds. -/
def holding (context : Context) (outputs : List Output) : Context :=
  changeRoot (fun root => { root with outputs }) context.frame context.outer

/-- The same frames, but for what the innermost one binds. -/
def binding (context : Context) (scope : Scope) : Context :=
  { context with frame := { context.frame with toScope := scope } }

/-- A chain is a root, or a frame with a chain around it. -/
@[elab_as_elim]
theorem chain_induction {motive : Context → Prop} (root : ∀ frame, motive ⟨frame, []⟩)
    (child : ∀ frame parent, motive parent → motive ⟨frame, parent.frames⟩) (context : Context) : motive context := by
  obtain ⟨frame, outer⟩ := context
  induction outer generalizing frame with
  | nil => exact root frame
  | cons parent outer ih => exact child frame ⟨parent, outer⟩ (ih parent)

theorem outputs_child (frame : Frame) (parent : Context) : (Context.mk frame parent.frames).outputs = parent.outputs := by
  rw [outputs, frames, List.getLastD_cons, outputs]

theorem outputs_push (context : Context) : context.push.outputs = context.outputs := outputs_child {} context

theorem outputs_holding (context : Context) (held : List Output) : (context.holding held).outputs = held := by
  induction context using chain_induction with
  | root frame => rfl
  | child frame parent ih => exact (outputs_child frame (parent.holding held)).trans ih

theorem holding_outputs (context : Context) : context.holding context.outputs = context := by
  induction context using chain_induction with
  | root frame => rfl
  | child frame parent ih =>
    rw [outputs_child]
    exact congrArg (fun parent => Context.mk frame parent.frames) ih

theorem holding_holding (context : Context) (held later : List Output) :
    (context.holding held).holding later = context.holding later := by
  induction context using chain_induction with
  | root frame => rfl
  | child frame parent ih => exact congrArg (fun parent => Context.mk frame parent.frames) ih

/-- Wherever an output comes from, it is the root that holds it, after those that came before. -/
theorem record_eq_holding (context : Context) (output : Output) :
    context.record output = context.holding (context.outputs ++ [output]) := by
  induction context using chain_induction with
  | root frame => rfl
  | child frame parent ih =>
    rw [outputs_child]
    exact congrArg (fun parent => Context.mk frame parent.frames) ih

theorem outputs_record (context : Context) (output : Output) :
    (context.record output).outputs = context.outputs ++ [output] := by
  rw [record_eq_holding, outputs_holding]

theorem outputs_assign (context : Context) (name : Text) (value : Value) :
    (context.assign name value).outputs = context.outputs := by
  obtain ⟨frame, _ | ⟨parent, outer⟩⟩ := context <;> rfl

theorem outputs_declare (context : Context) (key : Text) (definition : Definition) :
    (context.declare key definition).outputs = context.outputs := by
  obtain ⟨frame, _ | ⟨parent, outer⟩⟩ := context <;> rfl

theorem scopes_holding (context : Context) (held : List Output) : (context.holding held).scopes = context.scopes := by
  induction context using chain_induction with
  | root frame => rfl
  | child frame parent ih => exact congrArg (frame.toScope :: ·) ih

theorem toScope_holding (context : Context) (held : List Output) :
    (context.holding held).frame.toScope = context.frame.toScope :=
  List.head_eq_of_cons_eq (context.scopes_holding held)

/-- Lookups do not see outputs. -/
theorem find?_holding {α : Type} (bindings : Scope → Bindings α) (key : Text) (context : Context) (held : List Output) :
    (context.holding held).find? bindings key = context.find? bindings key := by
  rw [find?, scopes_holding, find?]

theorem findVariable_holding (context : Context) (held : List Output) (name : Text) :
    (context.holding held).findVariable name = context.findVariable name := find?_holding _ _ context held

theorem findFunction_holding (context : Context) (held : List Output) (key : Text) :
    (context.holding held).findFunction key = context.findFunction key := find?_holding _ _ context held

theorem holding_assign (context : Context) (name : Text) (value : Value) (held : List Output) :
    (context.holding held).assign name value = (context.assign name value).holding held := by
  obtain ⟨frame, _ | ⟨parent, outer⟩⟩ := context <;> rfl

theorem holding_declare (context : Context) (key : Text) (definition : Definition) (held : List Output) :
    (context.holding held).declare key definition = (context.declare key definition).holding held := by
  obtain ⟨frame, _ | ⟨parent, outer⟩⟩ := context <;> rfl

end Context

/-- What a run may change besides adding outputs. -/
inductive Reach where
  | nothing | innermost

namespace Run
variable {α β : Type} {reach : Reach}

/-- A run within a reach ends the same way whatever outputs it finds, adds the same outputs to
them, and keeps everything else but the scopes within its reach. -/
def Within (reach : Reach) (run : Run α) : Prop :=
  ∀ context : Context, ∃ outcome scope emitted, (reach = .nothing → scope = context.frame.toScope) ∧
    ∀ held, run (context.holding held) = (outcome, (context.binding scope).holding (held ++ emitted))

theorem within_pure (value : α) : (pure value : Run α).Within reach := by
  intro context
  refine ⟨.done value, context.frame.toScope, [], fun _ => rfl, fun held => ?_⟩
  rw [List.append_nil]
  rfl

theorem within_fail (fault : Fault) : (fail fault : Run α).Within reach := by
  intro context
  refine ⟨.failed fault, context.frame.toScope, [], fun _ => rfl, fun held => ?_⟩
  rw [List.append_nil]
  rfl

theorem within_exhausted : (exhausted : Run α).Within reach := by
  intro context
  refine ⟨.exhausted, context.frame.toScope, [], fun _ => rfl, fun held => ?_⟩
  rw [List.append_nil]
  rfl

/-- A lookup sees the scopes alone. -/
theorem within_read {view : Context → α}
    (blind : ∀ context held, view (Context.holding context held) = view context) :
    (read view).Within reach := by
  intro context
  refine ⟨.done (view context), context.frame.toScope, [], fun _ => rfl, fun held => ?_⟩
  rw [List.append_nil, read, blind]
  rfl

theorem Within.bind {run : Run α} {next : α → Run β} (first : run.Within reach)
    (second : ∀ value, (next value).Within reach) : (run >>= next).Within reach := by
  intro context
  obtain ⟨outcome, scope, emitted, keeps, ends⟩ := first context
  cases outcome with
  | done value =>
    obtain ⟨outcome, last, added, keepsLast, endsLast⟩ := second value (context.binding scope)
    refine ⟨outcome, last, emitted ++ added, ?_, fun held => ?_⟩
    · intro within
      exact (keepsLast within).trans (keeps within)
    · rw [bind_of_done (ends held), ← List.append_assoc]
      exact endsLast (held ++ emitted)
  | failed fault => exact ⟨.failed fault, scope, emitted, keeps, fun held => bind_of_failed (ends held) next⟩
  | exhausted => exact ⟨.exhausted, scope, emitted, keeps, fun held => bind_of_exhausted (ends held) next⟩

theorem within_assign (name : Text) (value : Value) : (change (·.assign name value)).Within .innermost := by
  intro context
  refine ⟨.done (), (context.assign name value).frame.toScope, [], nofun, fun held => ?_⟩
  rw [List.append_nil, change, Context.holding_assign]
  rfl

theorem within_declare (key : Text) (definition : Definition) :
    (change (·.declare key definition)).Within .innermost := by
  intro context
  refine ⟨.done (), (context.declare key definition).frame.toScope, [], nofun, fun held => ?_⟩
  rw [List.append_nil, change, Context.holding_declare]
  rfl

theorem within_record (output : Output) : (change (·.record output)).Within .innermost := by
  intro context
  refine ⟨.done (), context.frame.toScope, [output], fun _ => rfl, fun held => ?_⟩
  rw [change, Context.record_eq_holding, Context.outputs_holding, Context.holding_holding]
  rfl

/-- The frame that was changed is the one that is left again. -/
theorem Within.inNewFrame {run : Run α} (inside : run.Within .innermost) :
    (inNewFrame run).Within .nothing := by
  intro context
  obtain ⟨outcome, scope, emitted, -, ends⟩ := inside context.push
  refine ⟨outcome, context.frame.toScope, emitted, fun _ => rfl, fun held => ?_⟩
  have entered : run (context.holding held).push = (outcome, (context.push.binding scope).holding (held ++ emitted)) :=
    ends held
  rw [Run.inNewFrame, entered]
  rfl

/-- How a run ends does not depend on the outputs it begins with, and it adds to them. -/
theorem Within.leaves {run : Run α} (within : run.Within reach) {context after : Context} {outcome : Outcome α}
    (ends : run context = (outcome, after)) :
    ∃ scope emitted, (reach = .nothing → scope = context.frame.toScope) ∧
      after = (context.binding scope).holding (context.outputs ++ emitted) ∧
      ∀ held, run (context.holding held) = (outcome, after.holding (held ++ emitted)) := by
  obtain ⟨outcome', scope, emitted, keeps, general⟩ := within context
  have same := general context.outputs
  rw [Context.holding_outputs, ends] at same
  cases same
  refine ⟨scope, emitted, keeps, rfl, fun held => ?_⟩
  rw [general, Context.holding_holding]

theorem Within.outputs_eq {run : Run α} (within : run.Within reach) {context after : Context} {outcome : Outcome α}
    (ends : run context = (outcome, after)) : ∃ emitted, after.outputs = context.outputs ++ emitted := by
  obtain ⟨scope, emitted, -, rfl, -⟩ := within.leaves ends
  exact ⟨emitted, Context.outputs_holding _ _⟩

/-- All that a run in a frame of its own leaves behind are its outputs. -/
theorem Within.inNewFrame_eq {run : Run α} (inside : run.Within .innermost) (context : Context) :
    Run.inNewFrame run context = ((run context.push).1, context.holding (run context.push).2.outputs) := by
  obtain ⟨scope, emitted, -, after, -⟩ := inside.leaves (rfl : run context.push = (_, _))
  change (_, (run context.push).2.pop) = _
  rw [after, Context.outputs_holding]
  rfl

theorem Within.widen {run : Run α} (narrow : run.Within .nothing) : run.Within reach := by
  intro context
  obtain ⟨outcome, scope, emitted, keeps, ends⟩ := narrow context
  exact ⟨outcome, scope, emitted, fun _ => keeps rfl, ends⟩

theorem Within.of_nothing {run : Run α} (within : run.Within .nothing) (context : Context) :
    ∃ outcome emitted, ∀ held, run (context.holding held) = (outcome, context.holding (held ++ emitted)) := by
  obtain ⟨outcome, scope, emitted, keeps, ends⟩ := within context
  obtain rfl := keeps rfl
  exact ⟨outcome, emitted, ends⟩

/-- Nothing changes but the outputs at the root. -/
theorem Within.eq_holding {run : Run α} (within : run.Within .nothing) (context : Context) :
    ∃ outcome emitted, run context = (outcome, context.holding (context.outputs ++ emitted)) := by
  obtain ⟨outcome, emitted, ends⟩ := within.of_nothing context
  refine ⟨outcome, emitted, ?_⟩
  rw [← ends, Context.holding_outputs]

end Run

open Run

/-- What calls within a run have to keep. -/
def Caller.Isolated (call : Caller) : Prop :=
  ∀ definition arguments called, (call definition arguments called).Within .nothing

theorem rule_within (reach : Reach) : Rule (fun _ => True) fun {_} run _ => run.Within reach where
  pure := within_pure
  fail _ := within_fail _
  bind := Within.bind
  lookup name := within_read fun context held => context.findVariable_holding held name

theorem blockRule_within : BlockRule (fun _ => True) fun {_} run _ => run.Within .innermost where
  toRule := rule_within .innermost
  assign := within_assign
  record := within_record

section
variable {call : Caller} (calls : call.Isolated)
include calls

theorem Expr.evaluate_within (site : Site) (expr : Expr) : (expr.evaluate call site).Within .nothing := by
  apply Expr.evaluate_related call (rule_within .nothing) fun _ _ => trivial
  intro name arguments _
  apply (within_read fun context held => context.findFunction_holding held _).bind
  rintro (_ | definition)
  · apply within_fail
  · exact calls definition arguments site

theorem evaluate_within (site : Site) (source : Text) : (evaluate call site source).Within .nothing := by
  unfold evaluate
  cases Expr.read site source with
  | ok expr => exact expr.evaluate_within calls site
  | error fault => exact within_fail fault

theorem Node.within (node : Node) : node.Related (fun {_} run _ => run.Within .innermost) call call := by
  match node with
  | .statement (.function header body) => exact within_declare header.name ⟨header, body⟩
  | .statement (.returns ..) | .statement (.assign ..) | .statement (.print ..) | .statement (.conditional ..)
  | .branch .. => exact (evaluate_within calls _ _).widen

theorem Statement.run_within (statement : Statement) : (statement.run call).Within .innermost :=
  Statement.run_related blockRule_within fun node _ => node.within calls

theorem runAll_within (statements : List Statement) : (runAll call statements).Within .innermost :=
  runAll_related blockRule_within fun node _ => node.within calls

namespace Definition

theorem bindParameters_within (definition : Definition) (called : Site) (parameters : List Parameter)
    (arguments : List Text) : (definition.bindParameters call called parameters arguments).Within .innermost := by
  apply bindParameters_related call blockRule_within
  · exact fun argument _ => (evaluate_within calls called argument).widen
  · exact fun _ _ default _ => (evaluate_within calls definition.site default).widen
  · exact fun _ => trivial

theorem result_within (definition : Definition) : (definition.result call).Within .innermost :=
  result_related blockRule_within fun node _ => node.within calls

theorem isolated_callWith : (callWith call).Isolated := by
  intro definition arguments called
  apply Within.inNewFrame
  exact (definition.bindParameters_within calls called _ arguments).bind fun _ => definition.result_within calls

end Definition
end

namespace Definition

theorem isolated_callWithin (depth : Nat) : (callWithin depth).Isolated := by
  induction depth with
  | zero => exact fun _ _ _ => within_exhausted
  | succ depth ih => exact isolated_callWith ih

end Definition

end StyleScript
