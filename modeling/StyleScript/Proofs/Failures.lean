import StyleScript.Proofs.Isolation

/-! What a block leaves when it fails. Its run is cut into steps: a statement is completed, or a condition is
decided and the statements that it selects come next. The steps lead to one evaluation that fails, and what is
left behind is what they did. -/

namespace StyleScript

open Run

/-- What there is to run where a condition does not hold. An `else if` is a condition of its own. -/
def Otherwise.statements : Otherwise → List Statement
  | .nothing => []
  | .block body => body
  | .condition site text body next => [.conditional ⟨[], site⟩ text body next]

/-- A statement that neither selects others nor returns. -/
inductive Statement.IsSimple : Statement → Prop where
  | function (header : Header) (body : List Statement) : IsSimple (.function header body)
  | assign (excerpt : Excerpt) (name expression : Text) (isDefault : Bool) :
      IsSimple (.assign excerpt name expression isDefault)
  | print (excerpt : Excerpt) (severity : Severity) (expression : Text) : IsSimple (.print excerpt severity expression)

/-- What was done in one step, and the outputs that were added meanwhile. -/
inductive Event where
  | completed (statement : Statement) (emitted : List Output)
  | decided (site : Site) (condition : Text) (holds : Bool) (emitted : List Output)

namespace Event

def emitted : Event → List Output
  | .completed _ emitted | .decided _ _ _ emitted => emitted

end Event

section
variable (call : Caller)

/-- One step takes the statements that are still to be run, and a context, to what is to be run then. -/
inductive Advances : List Statement → Context → Event → List Statement → Context → Prop where
  | completes {statement : Statement} {rest : List Statement} {context after : Context} {emitted : List Output}
      (simple : statement.IsSimple) (runs : statement.run call context = (.done .normal, after))
      (adds : after.outputs = context.outputs ++ emitted) :
      Advances (statement :: rest) context (.completed statement emitted) rest after
  | decides {excerpt : Excerpt} {condition : Text} {body : List Statement} {next : Otherwise} {rest : List Statement}
      {context after : Context} {value : Value} {emitted : List Output}
      (evaluates : evaluate call excerpt.site condition context = (.done value, after))
      (adds : after.outputs = context.outputs ++ emitted) :
      Advances (.conditional excerpt condition body next :: rest) context
        (.decided excerpt.site condition value.isTruthy emitted)
        ((if value.isTruthy then body else next.statements) ++ rest) after

/-- Steps one after another, with what was done in them. -/
inductive Leads : List Statement → Context → List Event → List Statement → Context → Prop where
  | here {work : List Statement} {context : Context} : Leads work context [] work context
  | step {work work' work'' : List Statement} {context context' context'' : Context} {event : Event} {trace : List Event}
      (advances : Advances call work context event work' context') (leads : Leads work' context' trace work'' context'') :
      Leads work context (event :: trace) work'' context''

end

/-- The evaluation that a statement begins with. An assignment that is a default does not begin one where the
variable has a value. -/
inductive Statement.Attempts (context : Context) : Statement → Site → Text → Prop where
  | returns (excerpt : Excerpt) (expression : Text) :
      Attempts context (.returns excerpt expression) excerpt.site expression
  | assign (excerpt : Excerpt) {name : Text} (expression : Text) {isDefault : Bool}
      (needed : ¬ (isDefault && (context.findVariable name).any (!·.isNull)) = true) :
      Attempts context (.assign excerpt name expression isDefault) excerpt.site expression
  | conditional (excerpt : Excerpt) (condition : Text) (body : List Statement) (next : Otherwise) :
      Attempts context (.conditional excerpt condition body next) excerpt.site condition
  | print (excerpt : Excerpt) (severity : Severity) (expression : Text) :
      Attempts context (.print excerpt severity expression) excerpt.site expression

/-- How far a block comes: the steps to a statement that it cannot complete, and the evaluation which that one
begins with. -/
structure FailurePoint where
  trace : List Event
  statement : Statement
  rest : List Statement
  reached : Context
  site : Site
  text : Text

/-- A block comes to a point, and the evaluation there fails. -/
structure FailsAt (call : Caller) (statements : List Statement) (context : Context) (fault : Fault) (after : Context)
    (point : FailurePoint) : Prop where
  leads : Leads call statements context point.trace (point.statement :: point.rest) point.reached
  attempts : point.statement.Attempts point.reached point.site point.text
  fails : evaluate call point.site point.text point.reached = (.failed fault, after)

variable {call : Caller}

theorem runAll_singleton (statement : Statement) : runAll call [statement] = statement.run call := by
  rw [runAll]
  refine Eq.trans (bind_congr fun completion => ?_) (bind_pure (statement.run call))
  cases completion <;> rfl

theorem Otherwise.runAll_statements (next : Otherwise) : runAll call next.statements = next.run call := by
  cases next with
  | nothing | block body => rfl
  | condition site text body next => exact runAll_singleton (.conditional ⟨[], site⟩ text body next)

/-- The second statements run if the first do not return. -/
theorem runAll_append (first second : List Statement) :
    runAll call (first ++ second) = runAll call first >>= fun
      | .returned value => pure (.returned value)
      | .normal => runAll call second := by
  induction first with
  | nil => rfl
  | cons statement first ih =>
    rw [List.cons_append, runAll, runAll, bind_assoc]
    refine bind_congr fun completion => ?_
    cases completion with
    | normal => exact ih
    | returned value => rfl

theorem Otherwise.length_nodes_statements (next : Otherwise) : (nodesOf next.statements).length = next.nodes.length := by
  cases next with
  | nothing | block body => rfl
  | condition site text body next => rw [statements, nodesOf, nodesOf, List.append_nil]; rfl

theorem Advances.shortens {work work' : List Statement} {context after : Context} {event : Event}
    (advances : Advances call work context event work' after) : (nodesOf work').length < (nodesOf work).length := by
  cases advances with
  | completes simple =>
    rw [nodesOf, List.length_append]
    cases simple <;> simp [Statement.nodes] 
  | @decides _ _ body next rest _ _ value =>
    have selected : (nodesOf (if value.isTruthy then body else next.statements)).length ≤
        (nodesOf body).length + next.nodes.length := by
      split
      · exact Nat.le_add_right _ _
      · exact Nat.le_trans (Nat.le_of_eq next.length_nodes_statements) (Nat.le_add_left _ _)
    rw [nodesOf_append, nodesOf, Statement.nodes, List.length_append, List.length_append, List.length_cons,
      List.length_append]
    omega

/-- What a statement does with the value that it began with. -/
def Statement.resume (call : Caller) : Statement → Value → Run Completion
  | .function .., _ => return .normal
  | .returns .., value => return .returned value
  | .assign _ name _ _, value => do
    Run.change (·.assign name value)
    return .normal
  | .conditional _ _ body next, value => if value.isTruthy then runAll call body else next.run call
  | .print excerpt severity _, value => do
    Run.change (·.record ⟨severity, excerpt.site, value.content⟩)
    return .normal

section
variable {statement : Statement} {context : Context} {site : Site} {text : Text}

theorem Statement.Attempts.run_eq (attempts : statement.Attempts context site text) :
    statement.run call context = (evaluate call site text >>= statement.resume call) context := by
  cases attempts with
  | assign excerpt expression needed =>
    change (if _ then _ else _ : Run Completion) context = _
    rw [if_neg needed]
    rfl
  | returns | conditional | print => rfl

theorem Statement.Attempts.unique (attempts : statement.Attempts context site text) {site' : Site} {text' : Text}
    (again : statement.Attempts context site' text') : site = site' ∧ text = text' := by
  cases attempts <;> cases again <;> exact ⟨rfl, rfl⟩

variable (call) in
/-- A statement that begins no evaluation is completed. -/
theorem Statement.completes_of_not_attempts (attempts : ∀ site text, ¬ statement.Attempts context site text) :
    statement.IsSimple ∧ ∃ after, statement.run call context = (.done .normal, after) := by
  cases statement with
  | function header body => exact ⟨.function header body, _, rfl⟩
  | returns excerpt expression => exact absurd (.returns excerpt expression) (attempts _ _)
  | assign excerpt name expression isDefault =>
    refine ⟨.assign excerpt name expression isDefault, context, ?_⟩
    have kept : (isDefault && (context.findVariable name).any (!·.isNull)) = true :=
      Classical.not_not.1 fun needed => attempts _ _ (.assign excerpt expression needed)
    change (if _ then _ else _ : Run Completion) context = _
    rw [if_pos kept]
    rfl
  | conditional excerpt condition body next => exact absurd (.conditional excerpt condition body next) (attempts _ _)
  | print excerpt severity expression => exact absurd (.print excerpt severity expression) (attempts _ _)

end

/-- No step can be taken. -/
def IsStuck (call : Caller) (work : List Statement) (context : Context) : Prop :=
  ∀ event next after, ¬ Advances call work context event next after

section
variable (isolated : call.Isolated)
include isolated

/-- A statement is stuck only with the evaluation that it begins with: one that has no value, or the value to
return. -/
theorem IsStuck.attempts {statement : Statement} {rest : List Statement} {context : Context}
    (stuck : IsStuck call (statement :: rest) context) :
    ∃ site text, statement.Attempts context site text ∧
      ∀ value after, evaluate call site text context = (.done value, after) →
        ∃ excerpt, statement = .returns excerpt text := by
  have incomplete (simple : statement.IsSimple) (after : Context) :
      statement.run call context ≠ (.done .normal, after) := by
    intro runs
    obtain ⟨emitted, adds⟩ := (statement.run_within isolated).outputs_eq runs
    exact stuck _ _ _ (.completes simple runs adds)
  by_cases attempting : ∃ site text, statement.Attempts context site text
  · obtain ⟨site, text, attempts⟩ := attempting
    refine ⟨site, text, attempts, fun value after evaluates => ?_⟩
    have resumes : statement.run call context = statement.resume call value after :=
      attempts.run_eq.trans (bind_of_done evaluates _)
    cases attempts with
    | returns excerpt => exact ⟨excerpt, rfl⟩
    | assign excerpt => exact absurd resumes (incomplete (.assign excerpt _ text _) _)
    | conditional excerpt =>
      obtain ⟨emitted, adds⟩ := (evaluate_within isolated excerpt.site text).outputs_eq evaluates
      exact absurd (.decides evaluates adds) (stuck _ _ _)
    | print excerpt severity => exact absurd resumes (incomplete (.print excerpt severity text) _)
  · obtain ⟨simple, after, runs⟩ := Statement.completes_of_not_attempts call
      fun site text attempts => attempting ⟨site, text, attempts⟩
    exact absurd runs (incomplete simple after)

end

/-- A step is the beginning of a run. -/
theorem Advances.runAll_eq {work work' : List Statement} {context after : Context} {event : Event}
    (advances : Advances call work context event work' after) :
    runAll call work context = runAll call work' after := by
  cases advances with
  | completes simple runs =>
    rw [runAll, bind_of_done runs]
  | @decides excerpt condition body next rest _ _ value _ evaluates =>
    have selects : runAll call (if value.isTruthy then body else next.statements) =
        (Statement.conditional excerpt condition body next).resume call value := by
      rw [apply_ite (runAll call), next.runAll_statements, Statement.resume]
    have resumes : (Statement.conditional excerpt condition body next).run call context =
        runAll call (if value.isTruthy then body else next.statements) after := by
      rw [selects]
      exact (Statement.Attempts.conditional excerpt condition body next).run_eq.trans (bind_of_done evaluates _)
    rw [runAll_append]
    exact bind_of_eq resumes _

theorem Leads.runAll_eq {work work' : List Statement} {context reached : Context} {trace : List Event}
    (leads : Leads call work context trace work' reached) : runAll call work context = runAll call work' reached := by
  induction leads with
  | here => rfl
  | step advances _ ih => rw [advances.runAll_eq, ih]

/-- By induction on how much there is left to run. -/
theorem exists_stuck (call : Caller) (work : List Statement) (context : Context) :
    ∃ trace work' reached, Leads call work context trace work' reached ∧ IsStuck call work' reached := by
  induction size : (nodesOf work).length using Nat.strongRecOn generalizing work context with
  | ind size ih =>
    by_cases stuck : IsStuck call work context
    · exact ⟨[], work, context, .here, stuck⟩
    · simp only [IsStuck, not_forall, not_not] at stuck
      obtain ⟨event, next, after, advances⟩ := stuck
      obtain ⟨trace, work', reached, leads, last⟩ := ih _ (size ▸ advances.shortens) next after rfl
      exact ⟨event :: trace, work', reached, .step advances leads, last⟩

section
variable {work work' work'' : List Statement} {context context' context'' : Context}

theorem Advances.unique {event event' : Event} (advances : Advances call work context event work' context')
    (again : Advances call work context event' work'' context'') :
    event = event' ∧ work' = work'' ∧ context' = context'' := by
  cases advances with
  | completes simple runs adds =>
    cases again with
    | completes _ runs' adds' =>
      cases runs.symm.trans runs'
      cases List.append_cancel_left (adds.symm.trans adds')
      exact ⟨rfl, rfl, rfl⟩
    | decides => cases simple
  | decides evaluates adds =>
    cases again with
    | completes simple => cases simple
    | decides evaluates' adds' =>
      cases evaluates.symm.trans evaluates'
      cases List.append_cancel_left (adds.symm.trans adds')
      exact ⟨rfl, rfl, rfl⟩

/-- From where an evaluation fails there is no step. -/
theorem Statement.Attempts.stuck {statement : Statement} {site : Site} {text : Text} {fault : Fault}
    {rest : List Statement} (attempts : statement.Attempts context site text)
    (fails : evaluate call site text context = (.failed fault, context')) : IsStuck call (statement :: rest) context := by
  intro event next after advances
  cases advances with
  | completes simple runs =>
    cases runs.symm.trans (attempts.run_eq.trans (bind_of_failed fails _))
  | decides evaluates =>
    obtain ⟨rfl, rfl⟩ := attempts.unique (.conditional _ _ _ _)
    cases evaluates.symm.trans fails

theorem Leads.unique {trace trace' : List Event} (leads : Leads call work context trace work' context')
    (stuck : IsStuck call work' context') (again : Leads call work context trace' work'' context'')
    (stuck' : IsStuck call work'' context'') :
    trace = trace' ∧ work' = work'' ∧ context' = context'' := by
  induction leads generalizing trace' with
  | here =>
    cases again with
    | here => exact ⟨rfl, rfl, rfl⟩
    | step advances _ => exact absurd advances (stuck _ _ _)
  | step advances _ ih =>
    cases again with
    | here => exact absurd advances (stuck' _ _ _)
    | step advances' again =>
      obtain ⟨rfl, rfl, rfl⟩ := advances.unique advances'
      obtain ⟨rfl, same⟩ := ih stuck again
      exact ⟨rfl, same⟩

end

theorem FailsAt.unique {statements : List Statement} {context after after' : Context} {fault fault' : Fault}
    {point other : FailurePoint} (fails : FailsAt call statements context fault after point)
    (again : FailsAt call statements context fault' after' other) : other = point := by
  obtain ⟨trace, statement, rest, reached, site, text⟩ := point
  obtain ⟨trace', statement', rest', reached', site', text'⟩ := other
  obtain ⟨rfl, same, rfl⟩ :=
    fails.leads.unique (fails.attempts.stuck fails.fails) again.leads (again.attempts.stuck again.fails)
  cases same
  obtain ⟨rfl, rfl⟩ := fails.attempts.unique again.attempts
  rfl

section
variable (isolated : call.Isolated) {work work' : List Statement} {context reached : Context} {trace : List Event}
include isolated

omit isolated in
theorem Leads.outputs_eq (leads : Leads call work context trace work' reached) :
    reached.outputs = context.outputs ++ trace.flatMap Event.emitted := by
  induction leads with
  | here => exact (List.append_nil _).symm
  | step advances _ ih =>
    rw [ih, List.flatMap_cons, ← List.append_assoc]
    cases advances with
    | completes _ _ adds | decides _ adds => rw [adds]; rfl

end

open Definition (callWithin)

end StyleScript
