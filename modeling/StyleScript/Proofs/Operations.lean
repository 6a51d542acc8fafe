import StyleScript.Proofs.Histories

/-! What a run does to a context, one operation after another. The history of a run follows the structure of what
is run: a print that is carried out emits its output, and a call enters a frame and leaves it again. A run leaves the
context that its history leads to. So what it adds to the outputs is what its prints emit, in their order, and all
else that it changes is in the innermost scope. Lookups, which change nothing, are left out. -/

namespace StyleScript
open Context

/-- The operations that are performed where a context is given. -/
abbrev History := Context → List Operation

namespace Run
variable {α β : Type}

/-- What a run performs and then, if it has a value, what follows performs. -/
def historyThen (run : Run α) (first : History) (next : α → History) : History := fun context =>
  first context ++
    match run context with
    | (.done value, after) => next value after
    | (.failed _, _) | (.exhausted, _) => []

end Run

section
variable (call : Caller) (calls : Definition → List Text → Site → History)

def Expr.history (site : Site) : Expr → History
  | .literal _ | .reference _ => fun _ => []
  | .call name arguments => fun context =>
    match context.findFunction (Name.functionKey name) with
    | some definition => calls definition arguments site context
    | none => []
  | .negate operand | .not operand => operand.history site
  | .both left right => (left.evaluate call site).historyThen (left.history site) fun value =>
    if value.isTruthy then right.history site else fun _ => []
  | .either left right => (left.evaluate call site).historyThen (left.history site) fun value =>
    if value.isTruthy then fun _ => [] else right.history site
  | .binary _ left right => (left.evaluate call site).historyThen (left.history site) fun _ => right.history site

def evaluationHistory (site : Site) (source : Text) : History :=
  match Expr.read site source with
  | .ok expr => expr.history call calls site
  | .error _ => fun _ => []

/-- What the evaluation of a text performs and then, if it has a value, what follows performs. -/
def historyFrom (site : Site) (source : Text) (next : Value → History) : History :=
  (evaluate call site source).historyThen (evaluationHistory call calls site source) next

mutual
def Statement.history : Statement → History
  | .function header body => fun _ => [.declare header.name ⟨header, body⟩]
  | .returns excerpt expression => evaluationHistory call calls excerpt.site expression
  | .assign excerpt name expression isDefault => fun context =>
    if isDefault && (context.findVariable name).any (!·.isNull) then []
    else historyFrom call calls excerpt.site expression (fun value _ => [.assign name value]) context
  | .conditional excerpt condition body next => historyFrom call calls excerpt.site condition fun value =>
    if value.isTruthy then historyOf body else next.history
  | .print excerpt severity expression => historyFrom call calls excerpt.site expression fun value _ =>
    [.emit 0 ⟨severity, excerpt.site, value.content⟩]

def historyOf : List Statement → History
  | [] => fun _ => []
  | statement :: statements => (statement.run call).historyThen statement.history fun
    | .returned _ => fun _ => []
    | .normal => historyOf statements

def Otherwise.history : Otherwise → History
  | .nothing => fun _ => []
  | .block body => historyOf body
  | .condition site condition body next => historyFrom call calls site condition fun value =>
    if value.isTruthy then historyOf body else next.history
end

namespace Definition
variable (definition : Definition) (called : Site)

def parameterHistory (parameter : Parameter) : Option Text → History
  | some argument => evaluationHistory call calls called argument
  | none =>
    match parameter.default with
    | some default => evaluationHistory call calls definition.site default
    | none => fun _ => []

def bindingHistory : List Parameter → List Text → History
  | [], _ => fun _ => []
  | parameter :: parameters, arguments =>
    (definition.parameterValue call called parameter arguments.head?).historyThen
      (definition.parameterHistory call calls called parameter arguments.head?) fun value context =>
        .assign parameter.name value :: bindingHistory parameters arguments.tail (context.assign parameter.name value)

def historyWith (arguments : List Text) : History := fun context =>
  let bound := definition.bindParameters call called definition.header.parameters arguments
  let inside := bound.historyThen (definition.bindingHistory call calls called definition.header.parameters arguments)
    fun _ => historyOf call calls definition.body
  .enter :: (inside context.push ++ [.leave])

end Definition
end

namespace Definition

/-- The history of a call in which calls may be nested to a given depth. -/
def historyWithin : Nat → Definition → List Text → Site → History
  | 0, _, _, _ => fun _ => []
  | depth + 1, definition, arguments, called =>
    definition.historyWith (callWithin depth) (historyWithin depth) called arguments

end Definition

/-- Every frame that is entered is left again, and nothing is handed out. -/
inductive WellNested : List Operation → Prop where
  | nil : WellNested []
  | assign (name : Text) (value : Value) : WellNested [.assign name value]
  | declare (key : Text) (definition : Definition) : WellNested [.declare key definition]
  | emit (output : Output) : WellNested [.emit 0 output]
  | append {first second : List Operation} (nested : WellNested first) (later : WellNested second) :
      WellNested (first ++ second)
  | frame {inside : List Operation} (nested : WellNested inside) : WellNested (.enter :: (inside ++ [.leave]))

theorem emitted_append (first second : List Operation) : emitted (first ++ second) = emitted first ++ emitted second :=
  List.filterMap_append

/-- The root gets all that is emitted, in that order, and no frame is lost. -/
theorem WellNested.outputs_after {history : List Operation} (nested : WellNested history) (context : Context) :
    (context.after history).outputs = context.outputs ++ emitted history ∧
      (context.after history).depth = context.depth := by
  induction nested generalizing context with
  | nil => exact ⟨(List.append_nil _).symm, rfl⟩
  | assign name value => exact ⟨(context.outputs_assign name value).trans (List.append_nil _).symm, rfl⟩
  | declare key definition => exact ⟨(context.outputs_declare key definition).trans (List.append_nil _).symm, rfl⟩
  | emit output => exact ⟨context.outputs_record output, context.depth_record output⟩
  | append _ _ ih ihLater =>
    obtain ⟨outputs, depth⟩ := ih context
    rw [after_append, (ihLater _).1, (ihLater _).2, outputs, depth, emitted_append, List.append_assoc]
    exact ⟨rfl, rfl⟩
  | @frame inside _ ih =>
    obtain ⟨outputs, depth⟩ := ih context.push
    rw [outputs_push] at outputs
    rw [← List.cons_append, after_append, emitted_append]
    change (context.push.after inside).pop.outputs = context.outputs ++ (emitted inside ++ []) ∧
      (context.push.after inside).pop.depth = context.depth
    rw [List.append_nil, ← outputs]
    generalize context.push.after inside = inner at depth
    obtain ⟨frame, _ | ⟨parent, outer⟩⟩ := inner
    · cases depth
    · exact ⟨(outputs_child frame ⟨parent, outer⟩).symm, Nat.succ.inj depth⟩

namespace Run
variable {α β : Type}

/-- Begun in the context, the run leaves the context that the history leads to. -/
structure PerformsIn (context : Context) (run : Run α) (history : List Operation) : Prop where
  nested : WellNested history
  leaves : (run context).2 = context.after history

def Performs (run : Run α) (history : History) : Prop := ∀ context, run.PerformsIn context (history context)

theorem performs_pure (value : α) : (pure value : Run α).Performs fun _ => [] := fun _ => ⟨.nil, rfl⟩

theorem performs_fail (fault : Fault) : (fail fault : Run α).Performs fun _ => [] := fun _ => ⟨.nil, rfl⟩

theorem performs_exhausted : (exhausted : Run α).Performs fun _ => [] := fun _ => ⟨.nil, rfl⟩

theorem performs_assign (name : Text) (value : Value) :
    (change (·.assign name value)).Performs fun _ => [.assign name value] := fun _ => ⟨.assign name value, rfl⟩

theorem performs_declare (key : Text) (definition : Definition) :
    (change (·.declare key definition)).Performs fun _ => [.declare key definition] :=
  fun _ => ⟨.declare key definition, rfl⟩

theorem performs_record (output : Output) : (change (·.record output)).Performs fun _ => [.emit 0 output] :=
  fun _ => ⟨.emit output, rfl⟩

theorem Performs.bind {run : Run α} {history : History} {next : α → Run β} {nexts : α → History}
    (performs : run.Performs history) (later : ∀ value, (next value).Performs (nexts value)) :
    (run >>= next).Performs (run.historyThen history nexts) := by
  intro context
  obtain ⟨nested, leaves⟩ := performs context
  rw [historyThen]
  rcases ends : run context with ⟨value | fault | _, after⟩ <;> rw [ends] at leaves
  · obtain ⟨last, left⟩ := later value after
    refine ⟨nested.append last, ?_⟩
    have middle : after = context.after (history context) := leaves
    rw [bind_of_done ends, left, after_append, ← middle]
  · rw [List.append_nil]
    exact ⟨nested, (congrArg Prod.snd (bind_of_failed ends next)).trans leaves⟩
  · rw [List.append_nil]
    exact ⟨nested, (congrArg Prod.snd (bind_of_exhausted ends next)).trans leaves⟩

/-- Where nothing is performed afterwards, the history is that of the run. -/
theorem Performs.followed {run : Run α} {history : History} {next : α → Run β} (performs : run.Performs history)
    (later : ∀ value, (next value).Performs fun _ => []) : (run >>= next).Performs history := by
  have whole := performs.bind later
  intro context
  have same : run.historyThen history (fun _ _ => []) context = history context := by
    rw [historyThen]
    rcases run context with ⟨_ | _ | _, _⟩ <;> exact List.append_nil _
  exact same ▸ whole context

theorem Performs.inNewFrame {run : Run α} {history : History} (performs : run.Performs history) :
    (inNewFrame run).Performs fun context => .enter :: (history context.push ++ [.leave]) := by
  intro context
  obtain ⟨nested, leaves⟩ := performs context.push
  have around : context.after (.enter :: (history context.push ++ [.leave])) =
      (context.push.after (history context.push)).pop := after_append context.push _ [.leave]
  exact ⟨.frame nested, (congrArg pop leaves).trans around.symm⟩

/-- A lookup changes nothing. -/
theorem PerformsIn.read {view : Context → α} {next : α → Run β} {context : Context} {history : List Operation}
    (performs : (next (view context)).PerformsIn context history) : (Run.read view >>= next).PerformsIn context history :=
  ⟨performs.nested, performs.leaves⟩

end Run

open Run

/-- What calls perform. -/
def Caller.Performs (call : Caller) (calls : Definition → List Text → Site → History) : Prop :=
  ∀ definition arguments called, (call definition arguments called).Performs (calls definition arguments called)

section
variable {call : Caller} {calls : Definition → List Text → Site → History} (performs : call.Performs calls)
include performs

theorem Expr.evaluate_performs (site : Site) (expr : Expr) :
    (expr.evaluate call site).Performs (expr.history call calls site) := by
  induction expr with
  | literal value => exact performs_pure value
  | reference name =>
    intro context
    apply PerformsIn.read
    cases context.findVariable name with
    | some value => exact performs_pure value context
    | none => exact performs_fail _ context
  | call name arguments =>
    intro context
    apply PerformsIn.read
    simp only [history]
    cases context.findFunction (Name.functionKey name) with
    | some definition => exact performs definition arguments site context
    | none => exact performs_fail _ context
  | negate operand ih | not operand ih => exact ih.followed fun _ => performs_pure _
  | both left right ihLeft ihRight =>
    apply ihLeft.bind
    intro value
    split
    · exact ihRight
    · exact performs_pure value
  | either left right ihLeft ihRight =>
    apply ihLeft.bind
    intro value
    split
    · exact performs_pure value
    · exact ihRight
  | binary operator left right ihLeft ihRight =>
    apply ihLeft.bind
    intro leftValue
    apply ihRight.followed
    intro rightValue
    cases Value.apply operator leftValue rightValue with
    | ok value => exact performs_pure value
    | error cause => exact performs_fail _

theorem evaluate_performs (site : Site) (source : Text) :
    (evaluate call site source).Performs (evaluationHistory call calls site source) := by
  unfold evaluate evaluationHistory
  cases Expr.read site source with
  | ok expr => exact expr.evaluate_performs performs site
  | error fault => exact performs_fail fault

theorem evaluate_performs_bind {α : Type} (site : Site) (source : Text) {next : Value → Run α} {nexts : Value → History}
    (later : ∀ value, (next value).Performs (nexts value)) :
    (evaluate call site source >>= next).Performs (historyFrom call calls site source nexts) :=
  (evaluate_performs performs site source).bind later

omit performs in
mutual
theorem Statement.run_performs (performs : call.Performs calls) :
    ∀ statement : Statement, (statement.run call).Performs (statement.history call calls)
  | .function header body => (performs_declare header.name ⟨header, body⟩).followed fun _ => performs_pure _
  | .returns excerpt expression =>
    (evaluate_performs performs excerpt.site expression).followed fun _ => performs_pure _
  | .assign excerpt name expression isDefault => by
    intro context
    apply PerformsIn.read
    simp only [Statement.history]
    split
    · exact performs_pure _ context
    · apply evaluate_performs_bind performs
      exact fun value => (performs_assign name value).followed fun _ => performs_pure _
  | .conditional excerpt condition body next => by
    apply evaluate_performs_bind performs
    intro value
    split
    · exact runAll_performs performs body
    · exact Otherwise.run_performs performs next
  | .print excerpt severity expression =>
    evaluate_performs_bind performs excerpt.site expression fun _ =>
      (performs_record _).followed fun _ => performs_pure _

theorem runAll_performs (performs : call.Performs calls) :
    ∀ statements : List Statement, (runAll call statements).Performs (historyOf call calls statements)
  | [] => performs_pure _
  | statement :: statements => by
    apply (Statement.run_performs performs statement).bind
    rintro (_ | value)
    · exact runAll_performs performs statements
    · exact performs_pure _

theorem Otherwise.run_performs (performs : call.Performs calls) :
    ∀ next : Otherwise, (next.run call).Performs (next.history call calls)
  | .nothing => performs_pure _
  | .block body => runAll_performs performs body
  | .condition site condition body next => by
    apply evaluate_performs_bind performs
    intro value
    split
    · exact runAll_performs performs body
    · exact Otherwise.run_performs performs next
end

namespace Definition

theorem parameterValue_performs (definition : Definition) (called : Site) (parameter : Parameter)
    (argument : Option Text) :
    (definition.parameterValue call called parameter argument).Performs
      (definition.parameterHistory call calls called parameter argument) := by
  unfold parameterValue parameterHistory
  cases argument with
  | some argument => exact evaluate_performs performs called argument
  | none =>
    cases parameter.default with
    | some default => exact evaluate_performs performs definition.site default
    | none => exact performs_fail _

theorem bindParameters_performs (definition : Definition) (called : Site) (parameters : List Parameter)
    (arguments : List Text) :
    (definition.bindParameters call called parameters arguments).Performs
      (definition.bindingHistory call calls called parameters arguments) := by
  induction parameters generalizing arguments with
  | nil => exact performs_pure ()
  | cons parameter parameters ih =>
    apply (parameterValue_performs performs definition called parameter arguments.head?).bind
    exact fun value => (performs_assign parameter.name value).bind fun _ => ih arguments.tail

theorem result_performs (definition : Definition) :
    (definition.result call).Performs (historyOf call calls definition.body) := by
  apply (runAll_performs performs definition.body).followed
  rintro (_ | value) <;> exact performs_pure _

theorem callWith_performs : (callWith call).Performs fun definition arguments called =>
    definition.historyWith call calls called arguments := by
  intro definition arguments called
  have binds := bindParameters_performs performs definition called definition.header.parameters arguments
  exact (binds.bind fun _ => result_performs performs definition).inNewFrame

end Definition
end

namespace Definition

theorem callWithin_performs (depth : Nat) : (callWithin depth).Performs (historyWithin depth) := by
  induction depth with
  | zero => exact fun _ _ _ => performs_exhausted
  | succ depth ih => exact callWith_performs ih

end Definition

/-- What a run comes to that performs a history in a context. However it ends, and whatever outputs the root holds, it
adds to these what is emitted in the history, in that order, and changes nothing else but the innermost scope, if that
is within its reach. At no time does a frame hold outputs that is not the root. -/
structure Run.Isolated {α : Type} (reach : Reach) (context : Context) (run : Run α) (history : List Operation) : Prop where
  performs : run.PerformsIn context history
  outputs : (run context).2.outputs = context.outputs ++ emitted history
  ends : ∃ outcome scope, (reach = .nothing → scope = context.frame.toScope) ∧ ∀ held,
    run (context.holding held) = (outcome, (context.binding scope).holding (held ++ emitted history))
  atRoot : context.OutputsAtRoot → ∀ earlier, earlier <+: history → (context.after earlier).OutputsAtRoot

theorem Run.PerformsIn.isolated {α : Type} {reach : Reach} {context : Context} {run : Run α} {history : List Operation}
    (performs : run.PerformsIn context history) (within : run.Within reach) : run.Isolated reach context history := by
  have outputs : (run context).2.outputs = context.outputs ++ emitted history := by
    rw [performs.leaves, (performs.nested.outputs_after context).1]
  obtain ⟨outcome, scope, added, keeps, ends⟩ := within context
  have whole := ends context.outputs
  rw [holding_outputs] at whole
  have same : emitted history = added := by
    rw [whole, outputs_holding] at outputs
    exact (List.append_cancel_left outputs).symm
  refine ⟨performs, outputs, ⟨outcome, scope, keeps, fun held => ?_⟩, fun atRoot earlier _ => atRoot.after earlier⟩
  rw [ends, same]

open Definition (callWithin historyWithin)

/-- However a run ends, evaluating an expression and calling a function keep every scope, and running a block keeps
every scope but the innermost. The root holds the outputs from before and then those of the prints that are carried
out, in their order, and no other frame ever holds any. -/
theorem scopes_isolated (depth : Nat) (context : Context) :
    let call := callWithin depth
    let calls := historyWithin depth
    (∀ site source,
      (evaluate call site source).Isolated .nothing context (evaluationHistory call calls site source context)) ∧
    (∀ definition arguments called,
      (call definition arguments called).Isolated .nothing context (calls definition arguments called context)) ∧
    (∀ statements, (runAll call statements).Isolated .innermost context (historyOf call calls statements context)) ∧
    ∀ history, (empty.after history).OutputsAtRoot := by
  intro call calls
  have isolated : call.Isolated := Definition.isolated_callWithin depth
  have performs : call.Performs calls := Definition.callWithin_performs depth
  refine ⟨fun site source => ?_, fun definition arguments called => ?_, fun statements => ?_, outputsAtRoot_empty.after⟩
  · exact (evaluate_performs performs site source context).isolated (evaluate_within isolated site source)
  · exact (performs definition arguments called context).isolated (isolated definition arguments called)
  · exact (runAll_performs performs statements context).isolated (runAll_within isolated statements)

/-- A print of what a function returns that binds the variable of its caller anew and prints it, in a frame inside of
the root, which holds an output already. -/
theorem scopes_isolated_printing :
    let excerpt (line : Nat) : Excerpt := ⟨[], ⟨['m'], line⟩⟩
    let definition : Definition := ⟨⟨['f'], [], excerpt 1⟩, [.assign (excerpt 2) ['a'] ['y'] false,
      .print (excerpt 3) .debug "$a".toList, .returns (excerpt 4) "$a + $a".toList]⟩
    let old : Output := ⟨.debug, ⟨['m'], 1⟩, ['o']⟩
    let context := ((empty.declare ['f'] definition).record old).push
    let statements : List Statement := [.assign (excerpt 5) ['a'] ['x'] false, .print (excerpt 6) .warn "f()".toList]
    ∃ outcome scope, runAll (callWithin 1) statements context = (outcome, (context.binding scope).holding
        [old, ⟨.debug, ⟨['m'], 3⟩, ['y']⟩, ⟨.warn, ⟨['m'], 6⟩, "yy".toList⟩]) ∧
      (runAll (callWithin 1) statements context).2.OutputsAtRoot := by
  intro excerpt definition old context statements
  obtain ⟨performs, -, ⟨outcome, scope, -, ends⟩, atRoot⟩ := (scopes_isolated 1 context).2.2.1 statements
  have prints : emitted (historyOf (callWithin 1) (historyWithin 1) statements context) =
      [⟨.debug, ⟨['m'], 3⟩, ['y']⟩, ⟨.warn, ⟨['m'], 6⟩, "yy".toList⟩] := by decide +kernel
  refine ⟨outcome, scope, ?_, ?_⟩
  · have whole := ends context.outputs
    rw [holding_outputs, prints] at whole
    exact whole
  · rw [performs.leaves]
    have began : context.OutputsAtRoot := (scopes_isolated 1 context).2.2.2 [.declare ['f'] definition, .emit 0 old, .enter]
    exact atRoot began _ (List.prefix_refl _)

end StyleScript
