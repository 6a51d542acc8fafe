import StyleScript.Stylesheet
import StyleScript.Proofs.Isolation
import Mathlib.Data.List.Forall2

/-! Two runs side by side. A correspondence says which names, texts, functions, faults and contexts
of the two belong together. If lookups and bindings respect it, and what is read from texts that
belong together does too, then so do whole runs: they end alike, in contexts that belong together.
Calls are followed to any depth, function by function. -/

namespace StyleScript

structure Correspondence where
  /-- The sites in whose name something may be evaluated. -/
  site : Site → Prop
  /-- Names of variables, and after that the names by which functions are called. -/
  name : Text → Text → Prop
  callee : Text → Text → Prop
  /-- Texts of expressions, evaluated in the name of a site. -/
  source : Site → Text → Text → Prop
  definition : Definition → Definition → Prop
  fault : Fault → Fault → Prop
  context : Context → Context → Prop

inductive Outcome.Alike {α : Type} (fault : Fault → Fault → Prop) : Outcome α → Outcome α → Prop where
  | done (value : α) : Alike fault (.done value) (.done value)
  | failed {first second : Fault} (faults : fault first second) : Alike fault (.failed first) (.failed second)
  | exhausted : Alike fault .exhausted .exhausted

namespace Correspondence
variable (k : Correspondence)

/-- Two expressions of one shape, up to names that belong together. The arguments of a call are texts. -/
inductive Expressions (site : Site) : Expr → Expr → Prop where
  | literal (value : Value) : Expressions site (.literal value) (.literal value)
  | reference {name name' : Text} (names : k.name name name') : Expressions site (.reference name) (.reference name')
  | call {name name' : Text} {arguments arguments' : List Text}
      (callees : k.callee name name') (sources : List.Forall₂ (k.source site) arguments arguments') :
      Expressions site (.call name arguments) (.call name' arguments')
  | negate {operand operand' : Expr} (operands : Expressions site operand operand') :
      Expressions site (.negate operand) (.negate operand')
  | not {operand operand' : Expr} (operands : Expressions site operand operand') :
      Expressions site (.not operand) (.not operand')
  | both {left left' right right' : Expr} (lefts : Expressions site left left')
      (rights : Expressions site right right') : Expressions site (.both left right) (.both left' right')
  | either {left left' right right' : Expr} (lefts : Expressions site left left')
      (rights : Expressions site right right') : Expressions site (.either left right) (.either left' right')
  | binary {left left' right right' : Expr} (operator : Operator) (lefts : Expressions site left left')
      (rights : Expressions site right right') :
      Expressions site (.binary operator left right) (.binary operator left' right')

/-- What is printed on both sides can be recorded on both. -/
def Records (severity : Severity) (site : Site) : Prop :=
  ∀ message context context', k.context context context' →
    k.context (context.record ⟨severity, site, message⟩) (context'.record ⟨severity, site, message⟩)

mutual
inductive Statements : Statement → Statement → Prop where
  | function {header header' : Header} {body body' : List Statement} (names : header.name = header'.name)
      (sites : header.excerpt.site = header'.excerpt.site)
      (definitions : k.definition ⟨header, body⟩ ⟨header', body'⟩) :
      Statements (.function header body) (.function header' body')
  | returns {excerpt excerpt' : Excerpt} {text text' : Text} (sites : excerpt.site = excerpt'.site)
      (sources : k.source excerpt.site text text') :
      Statements (.returns excerpt text) (.returns excerpt' text')
  | assign {excerpt excerpt' : Excerpt} {name name' text text' : Text} {isDefault : Bool}
      (sites : excerpt.site = excerpt'.site) (names : k.name name name')
      (sources : k.source excerpt.site text text') :
      Statements (.assign excerpt name text isDefault) (.assign excerpt' name' text' isDefault)
  | conditional {excerpt excerpt' : Excerpt} {text text' : Text} {body body' : List Statement}
      {next next' : Otherwise} (sites : excerpt.site = excerpt'.site)
      (sources : k.source excerpt.site text text') (bodies : Blocks body body') (nexts : Others next next') :
      Statements (.conditional excerpt text body next) (.conditional excerpt' text' body' next')
  | print {excerpt excerpt' : Excerpt} {severity : Severity} {text text' : Text}
      (sites : excerpt.site = excerpt'.site) (sources : k.source excerpt.site text text')
      (records : k.Records severity excerpt.site) :
      Statements (.print excerpt severity text) (.print excerpt' severity text')

inductive Blocks : List Statement → List Statement → Prop where
  | nil : Blocks [] []
  | cons {statement statement' : Statement} {statements statements' : List Statement}
      (first : Statements statement statement') (rest : Blocks statements statements') :
      Blocks (statement :: statements) (statement' :: statements')

inductive Others : Otherwise → Otherwise → Prop where
  | nothing : Others .nothing .nothing
  | block {body body' : List Statement} (bodies : Blocks body body') : Others (.block body) (.block body')
  | condition {site : Site} {text text' : Text} {body body' : List Statement} {next next' : Otherwise}
      (sources : k.source site text text') (bodies : Blocks body body') (nexts : Others next next') :
      Others (.condition site text body next) (.condition site text' body' next')
end

theorem Statements.site_eq {k : Correspondence} {statement statement' : Statement}
    (statements : k.Statements statement statement') : statement.excerpt.site = statement'.excerpt.site := by
  cases statements <;> assumption

structure Parameters (definition definition' : Definition) (parameter parameter' : Parameter) : Prop where
  names : k.name parameter.name parameter'.name
  defaults : Option.Rel (k.source definition.site) parameter.default parameter'.default
  missing : parameter.default = none → ∀ called, k.site called →
    k.fault (.missingArgument definition.header.name parameter.name definition.site called)
      (.missingArgument definition'.header.name parameter'.name definition'.site called)

structure Definitions (definition definition' : Definition) : Prop where
  sites : definition.site = definition'.site
  parameters : List.Forall₂ (k.Parameters definition definition') definition.header.parameters
    definition'.header.parameters
  bodies : k.Blocks definition.body definition'.body

/-- What reading a text gave, on both sides. -/
inductive Readings (site : Site) : Except Fault Expr → Except Fault Expr → Prop where
  | ok {expr expr' : Expr} (expressions : k.Expressions site expr expr') : Readings site (.ok expr) (.ok expr')
  | error {fault fault' : Fault} (faults : k.fault fault fault') : Readings site (.error fault) (.error fault')

/-- What has to be shown of a correspondence, one step of a run at a time. -/
structure Lawful : Prop where
  source {site : Site} {text text' : Text} (sources : k.source site text text') :
    k.site site ∧ k.Readings site (Expr.read site text) (Expr.read site text')
  definition {definition definition' : Definition} (definitions : k.definition definition definition') :
    k.Definitions definition definition'
  key {name name' : Text} (callees : k.callee name name') : Name.functionKey name = Name.functionKey name'
  value {context context' : Context} {name name' : Text} (contexts : k.context context context')
    (names : k.name name name') : context.findVariable name = context'.findVariable name'
  function {context context' : Context} (key : Text) (contexts : k.context context context') :
    Option.Rel k.definition (context.findFunction key) (context'.findFunction key)
  assign {context context' : Context} {name name' : Text} (value : Value) (contexts : k.context context context')
    (names : k.name name name') : k.context (context.assign name value) (context'.assign name' value)
  declare {context context' : Context} {definition definition' : Definition} (key : Text)
    (contexts : k.context context context') (definitions : k.definition definition definition') :
    k.context (context.declare key definition) (context'.declare key definition')
  enter {context context' : Context} (contexts : k.context context context') :
    k.context context.push context'.push
  leave {context context' after after' : Context} (contexts : k.context context context')
    (inside : k.context after after') : k.context (context.holding after.outputs) (context'.holding after'.outputs)
  operation {site : Site} (cause : OperationFault) (sites : k.site site) :
    k.fault (.operation site cause) (.operation site cause)
  unbound {site : Site} {name name' : Text} (sites : k.site site) (names : k.name name name') :
    k.fault (.undefinedVariable site name) (.undefinedVariable site name')
  unknown {site : Site} {name name' : Text} (sites : k.site site) (callees : k.callee name name') :
    k.fault (.undefinedFunction site name) (.undefinedFunction site name')

end Correspondence

variable {k : Correspondence}

namespace Run
variable {α β γ : Type}

/-- Started in contexts that belong together, two runs end alike in such contexts. -/
def Together (k : Correspondence) (first second : Run α) : Prop :=
  ∀ context context', k.context context context' →
    (first context).1.Alike k.fault (second context').1 ∧ k.context (first context).2 (second context').2

theorem together_pure (value : α) : (pure value : Run α).Together k (pure value) :=
  fun _ _ contexts => ⟨.done value, contexts⟩

theorem together_exhausted : (exhausted : Run α).Together k exhausted :=
  fun _ _ contexts => ⟨.exhausted, contexts⟩

theorem together_fail {fault fault' : Fault} (faults : k.fault fault fault') :
    (fail fault : Run α).Together k (fail fault') :=
  fun _ _ contexts => ⟨.failed faults, contexts⟩

theorem together_change {update update' : Context → Context}
    (updates : ∀ context context', k.context context context' → k.context (update context) (update' context')) :
    (change update).Together k (change update') :=
  fun context context' contexts => ⟨.done (), updates context context' contexts⟩

theorem Together.bind {first second : Run α} {next next' : α → Run β} (runs : first.Together k second)
    (nexts : ∀ value, (next value).Together k (next' value)) : (first >>= next).Together k (second >>= next') := by
  intro context context' contexts
  obtain ⟨outcomes, afters⟩ := runs context context' contexts
  rcases ends : first context with ⟨outcome, after⟩
  rcases ends' : second context' with ⟨outcome', after'⟩
  rw [ends, ends'] at outcomes afters
  cases outcomes with
  | done value =>
    rw [bind_of_done ends, bind_of_done ends']
    exact nexts value after after' afters
  | failed faults =>
    rw [bind_of_failed ends, bind_of_failed ends']
    exact ⟨.failed faults, afters⟩
  | exhausted =>
    rw [bind_of_exhausted ends, bind_of_exhausted ends']
    exact ⟨.exhausted, afters⟩

/-- Lookups on the two sides need not give the same, as long as the runs go on alike. -/
theorem together_read_bind {view view' : Context → γ} {related : γ → γ → Prop} {next next' : γ → Run α}
    (views : ∀ context context', k.context context context' → related (view context) (view' context'))
    (nexts : ∀ value value', related value value' → (next value).Together k (next' value')) :
    (read view >>= next).Together k (read view' >>= next') :=
  fun context context' contexts => nexts _ _ (views context context' contexts) context context' contexts

theorem Together.inNewFrame {first second : Run α} (lawful : k.Lawful) (within : first.Within .innermost)
    (within' : second.Within .innermost) (runs : first.Together k second) :
    (inNewFrame first).Together k (inNewFrame second) := by
  intro context context' contexts
  obtain ⟨outcomes, afters⟩ := runs _ _ (lawful.enter contexts)
  rw [within.inNewFrame_eq, within'.inNewFrame_eq]
  exact ⟨outcomes, lawful.leave contexts afters⟩

/-- Where faults are the same and contexts that belong together hold the same outputs, two runs have the
same outcome and add the same outputs. They are compared where they find none, which they cannot tell
from any others. -/
theorem Together.ends {reach : Reach} {first second : Run α} (runs : first.Together k second)
    (within : first.Within reach) (within' : second.Within reach)
    (faults : ∀ fault fault', k.fault fault fault' → fault = fault')
    (same : ∀ context context', k.context context context' → context.outputs = context'.outputs)
    {context context' : Context} (contexts : k.context (context.holding []) (context'.holding [])) :
    ∃ outcome scope scope' emitted, (reach = .nothing → scope = context.frame.toScope ∧ scope' = context'.frame.toScope) ∧
      first context = (outcome, (context.binding scope).holding (context.outputs ++ emitted)) ∧
      second context' = (outcome, (context'.binding scope').holding (context'.outputs ++ emitted)) ∧
      k.context ((context.binding scope).holding emitted) ((context'.binding scope').holding emitted) := by
  obtain ⟨outcome, scope, emitted, keeps, ends⟩ := within context
  obtain ⟨outcome', scope', emitted', keeps', ends'⟩ := within' context'
  obtain ⟨outcomes, afters⟩ := runs _ _ contexts
  rw [ends, ends'] at outcomes afters
  have added : emitted = emitted' := by
    have held := same _ _ afters
    rwa [Context.outputs_holding, Context.outputs_holding] at held
  have equal : outcome = outcome' := by
    cases outcomes with
    | done value => rfl
    | failed related => exact congrArg Outcome.failed (faults _ _ related)
    | exhausted => rfl
  subst added equal
  refine ⟨outcome, scope, scope', emitted, fun narrow => ⟨keeps narrow, keeps' narrow⟩, ?_, ?_, afters⟩
  · rw [← ends, Context.holding_outputs]
  · rw [← ends', Context.holding_outputs]

end Run

open Run Correspondence

/-- Calls of functions that belong together, with arguments that do. -/
def Caller.Together (k : Correspondence) (call call' : Caller) : Prop :=
  ∀ ⦃definition definition' arguments arguments' called⦄, k.definition definition definition' →
    List.Forall₂ (k.source called) arguments arguments' → k.site called →
      (call definition arguments called).Together k (call' definition' arguments' called)

variable {call call' : Caller}

section
variable (lawful : k.Lawful) (calls : call.Together k call')
include lawful calls

theorem Expr.evaluate_together {site : Site} (sites : k.site site) {expr expr' : Expr}
    (expressions : k.Expressions site expr expr') :
    (expr.evaluate call site).Together k (expr'.evaluate call' site) := by
  induction expressions with
  | literal value => exact together_pure value
  | reference names =>
    apply together_read_bind (fun _ _ contexts => lawful.value contexts names)
    rintro (_ | value) _ rfl
    · exact together_fail (lawful.unbound sites names)
    · exact together_pure value
  | @call name name' _ _ callees sources =>
    have functions : ∀ context context', k.context context context' →
        Option.Rel k.definition (context.findFunction (Name.functionKey name))
          (context'.findFunction (Name.functionKey name')) := by
      intro context context' contexts
      rw [← lawful.key callees]
      exact lawful.function (Name.functionKey name) contexts
    apply together_read_bind functions
    rintro _ _ (definitions | _)
    · exact calls definitions sources sites
    · exact together_fail (lawful.unknown sites callees)
  | negate _ ih => exact ih.bind fun _ => together_pure _
  | not _ ih => exact ih.bind fun _ => together_pure _
  | both _ _ ihLeft ihRight =>
    apply ihLeft.bind
    intro value
    split
    · exact ihRight
    · exact together_pure value
  | either _ _ ihLeft ihRight =>
    apply ihLeft.bind
    intro value
    split
    · exact together_pure value
    · exact ihRight
  | binary operator _ _ ihLeft ihRight =>
    apply ihLeft.bind
    intro leftValue
    apply ihRight.bind
    intro rightValue
    cases Value.apply operator leftValue rightValue with
    | ok value => exact together_pure value
    | error cause => exact together_fail (lawful.operation cause sites)

theorem evaluate_together {site site' : Site} {text text' : Text} (same : site = site')
    (sources : k.source site text text') : (evaluate call site text).Together k (evaluate call' site' text') := by
  obtain ⟨sites, readings⟩ := lawful.source sources
  subst same
  unfold evaluate
  generalize Expr.read site text = reading, Expr.read site text' = reading' at readings
  cases readings with
  | ok expressions => exact Expr.evaluate_together lawful calls sites expressions
  | error faults => exact together_fail faults

end

mutual
theorem Statement.run_together (lawful : k.Lawful) (calls : call.Together k call') :
    ∀ {statement statement' : Statement}, k.Statements statement statement' →
      (statement.run call).Together k (statement'.run call')
  | .function header body, .function header' body', .function names _ definitions => by
    apply (together_change fun _ _ contexts => ?_).bind fun _ => together_pure _
    rw [names]
    exact lawful.declare header'.name contexts definitions
  | .returns excerpt text, .returns excerpt' text', .returns sites sources =>
    (evaluate_together lawful calls sites sources).bind fun _ => together_pure _
  | .assign excerpt name text isDefault, .assign excerpt' name' text' _, .assign sites names sources => by
    apply together_read_bind (fun _ _ contexts => lawful.value contexts names)
    rintro bound _ rfl
    split
    · exact together_pure _
    · apply (evaluate_together lawful calls sites sources).bind
      intro value
      apply (together_change fun _ _ contexts => ?_).bind fun _ => together_pure _
      exact lawful.assign value contexts names
  | .conditional excerpt text body next, .conditional excerpt' text' body' next',
      .conditional sites sources bodies nexts => by
    apply (evaluate_together lawful calls sites sources).bind
    intro value
    split
    · exact runAll_together lawful calls bodies
    · exact Otherwise.run_together lawful calls nexts
  | .print excerpt severity text, .print excerpt' _ text', .print sites sources records => by
    apply (evaluate_together lawful calls sites sources).bind
    intro value
    apply (together_change fun _ _ contexts => ?_).bind fun _ => together_pure _
    have recorded := records value.content _ _ contexts
    rw [sites] at recorded ⊢
    exact recorded

theorem runAll_together (lawful : k.Lawful) (calls : call.Together k call') :
    ∀ {statements statements' : List Statement}, k.Blocks statements statements' →
      (runAll call statements).Together k (runAll call' statements')
  | [], [], .nil => together_pure _
  | statement :: statements, statement' :: statements', .cons first rest => by
    apply (Statement.run_together lawful calls first).bind
    rintro (_ | value)
    · exact runAll_together lawful calls rest
    · exact together_pure _

theorem Otherwise.run_together (lawful : k.Lawful) (calls : call.Together k call') :
    ∀ {next next' : Otherwise}, k.Others next next' → (next.run call).Together k (next'.run call')
  | .nothing, .nothing, .nothing => together_pure _
  | .block body, .block body', .block bodies => runAll_together lawful calls bodies
  | .condition site text body next, .condition _ text' body' next', .condition sources bodies nexts => by
    apply (evaluate_together lawful calls rfl sources).bind
    intro value
    split
    · exact runAll_together lawful calls bodies
    · exact Otherwise.run_together lawful calls nexts
end

namespace Definition

section
variable (lawful : k.Lawful) (calls : call.Together k call') {definition definition' : Definition}
  (definitions : k.Definitions definition definition') {called : Site}
include lawful calls definitions

theorem parameterValue_together (sites : k.site called) {parameter parameter' : Parameter}
    (parameters : k.Parameters definition definition' parameter parameter') {argument argument' : Option Text}
    (arguments : Option.Rel (k.source called) argument argument') :
    (definition.parameterValue call called parameter argument).Together k
      (definition'.parameterValue call' called parameter' argument') := by
  cases arguments with
  | some sources => exact evaluate_together lawful calls rfl sources
  | none =>
    obtain ⟨-, defaults, missing⟩ := parameters
    unfold parameterValue
    generalize parameter.default = default, parameter'.default = default' at defaults missing
    cases defaults with
    | some sources => exact evaluate_together lawful calls definitions.sites sources
    | none => exact together_fail (missing rfl called sites)

theorem bindParameters_together (sites : k.site called) {parameters parameters' : List Parameter}
    (together : List.Forall₂ (k.Parameters definition definition') parameters parameters')
    {arguments arguments' : List Text} (sources : List.Forall₂ (k.source called) arguments arguments') :
    (definition.bindParameters call called parameters arguments).Together k
      (definition'.bindParameters call' called parameters' arguments') := by
  induction together generalizing arguments arguments' with
  | nil => exact together_pure ()
  | cons first _ ih =>
    have heads : Option.Rel (k.source called) arguments.head? arguments'.head? := by
      cases sources with
      | nil => exact .none
      | cons source _ => exact .some source
    have tails : List.Forall₂ (k.source called) arguments.tail arguments'.tail := by
      cases sources with
      | nil => exact .nil
      | cons _ sources => exact sources
    apply (parameterValue_together lawful calls definitions sites first heads).bind
    intro value
    apply (together_change fun _ _ contexts => ?_).bind fun _ => ih tails
    exact lawful.assign value contexts first.names

theorem result_together : (definition.result call).Together k (definition'.result call') := by
  apply (runAll_together lawful calls definitions.bodies).bind
  rintro (_ | value) <;> exact together_pure _

end

theorem callWith_together (lawful : k.Lawful) (isolated : call.Isolated) (isolated' : call'.Isolated)
    (calls : call.Together k call') : (callWith call).Together k (callWith call') := by
  intro definition definition' arguments arguments' called related sources sites
  have definitions := lawful.definition related
  have runs := (bindParameters_together lawful calls definitions sites definitions.parameters sources).bind
    fun _ => result_together lawful calls definitions
  have within := fun {call} (isolated : Caller.Isolated call) (definition : Definition) arguments =>
    (definition.bindParameters_within isolated called definition.header.parameters arguments).bind
      fun _ => definition.result_within isolated
  exact runs.inNewFrame lawful (within isolated definition arguments) (within isolated' definition' arguments')

theorem callWithin_together (lawful : k.Lawful) (depth : Nat) : (callWithin depth).Together k (callWithin depth) := by
  induction depth with
  | zero => exact fun _ _ _ _ _ _ _ _ => together_exhausted
  | succ depth ih => exact callWith_together lawful (isolated_callWithin depth) (isolated_callWithin depth) ih

end Definition

open Definition (callWithin)

/-- A return out of a top-level statement is a fault of that statement. -/
theorem runTopLevel_together (lawful : k.Lawful) (calls : call.Together k call') {statements statements' : List Statement}
    (blocks : k.Blocks statements statements')
    (strays : ∀ statement ∈ statements,
      k.fault (.returnOutsideFunction statement.excerpt.site) (.returnOutsideFunction statement.excerpt.site)) :
    (runTopLevel call statements).Together k (runTopLevel call' statements') := by
  induction statements generalizing statements' with
  | nil =>
    cases blocks
    exact together_pure ()
  | cons statement statements ih =>
    obtain _ | ⟨first, rest⟩ := blocks
    apply (Statement.run_together lawful calls first).bind
    rintro (_ | value)
    · exact ih rest fun statement member => strays statement (List.mem_cons_of_mem _ member)
    · have stray := strays statement List.mem_cons_self
      apply together_fail
      rwa [← first.site_eq]

/-- Whole programs end alike, and print the same, where contexts that belong together hold the same outputs. -/
theorem outputsOf_together (lawful : k.Lawful) (depth : Nat) {statements statements' : List Statement}
    (blocks : k.Blocks statements statements')
    (strays : ∀ statement ∈ statements,
      k.fault (.returnOutsideFunction statement.excerpt.site) (.returnOutsideFunction statement.excerpt.site))
    (start : k.context Context.empty Context.empty)
    (outputs : ∀ context context', k.context context context' → context.outputs = context'.outputs) :
    (outputsOf depth statements).Alike k.fault (outputsOf depth statements') := by
  have runs := runTopLevel_together lawful (Definition.callWithin_together lawful depth) blocks strays
  obtain ⟨outcomes, afters⟩ := runs _ _ start
  unfold outputsOf
  generalize runTopLevel (callWithin depth) statements Context.empty = ended,
    runTopLevel (callWithin depth) statements' Context.empty = ended' at outcomes afters
  obtain ⟨outcome, after⟩ := ended
  obtain ⟨outcome', after'⟩ := ended'
  cases outcomes with
  | done value =>
    have printed : after.outputs = after'.outputs := outputs after after' afters
    simp only [printed]
    exact .done after'.outputs
  | failed faults => exact .failed faults
  | exhausted => exact .exhausted

end StyleScript
