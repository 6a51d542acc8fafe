import StyleScript.Proofs.Nodes
import StyleScript.Stylesheet

/-! What holds of a run because it holds of its parts. A rule relates two runs, and keeps relating them
when they go on alike. Then it relates two runs of one program as soon as it relates the evaluations that
the program makes and the declarations that it reaches; calls may be handled differently on the two sides. -/

namespace StyleScript

namespace Expr

/-- The calls in an expression, each with the texts of its arguments. Those inside of arguments are not
counted. -/
def calls : Expr → List (Text × List Text)
  | .literal _ | .reference _ => []
  | .call name arguments => [(name, arguments)]
  | .negate operand | .not operand => operand.calls
  | .both left right | .either left right | .binary _ left right => left.calls ++ right.calls

end Expr

/-- What evaluating an expression for a site may fail with by itself, the calls in it left out. -/
inductive Fault.IsOwn (site : Site) : Fault → Prop where
  | unreadable (cause : SyntaxFault) : IsOwn site (.badSyntax site cause)
  | unbound (name : Text) : IsOwn site (.undefinedVariable site name)
  | operation (cause : OperationFault) : IsOwn site (.operation site cause)

theorem Fault.IsOwn.site_eq {site : Site} {fault : Fault} (own : fault.IsOwn site) : fault.site = site := by
  cases own <;> rfl

open Run

/-- A relation between runs, kept when runs follow one another. The runs may fail with certain faults. -/
structure Rule (admitted : Fault → Prop) (related : ∀ {α : Type}, Run α → Run α → Prop) : Prop where
  pure {α : Type} (value : α) : related (Pure.pure value) (Pure.pure value)
  fail {α : Type} {fault : Fault} (admits : admitted fault) : related (Run.fail fault : Run α) (Run.fail fault)
  bind {α β : Type} {first second : Run α} {next next' : α → Run β} (runs : related first second)
    (nexts : ∀ value, related (next value) (next' value)) : related (first >>= next) (second >>= next')
  lookup (name : Text) : related (read (·.findVariable name)) (read (·.findVariable name))

/-- The relation also holds of the changes that statements make, but for declarations. -/
structure BlockRule (admitted : Fault → Prop) (related : ∀ {α : Type}, Run α → Run α → Prop) : Prop
    extends Rule admitted related where
  assign (name : Text) (value : Value) : related (change (·.assign name value)) (change (·.assign name value))
  record (output : Output) : related (change (·.record output)) (change (·.record output))

variable {admitted : Fault → Prop} {related : ∀ {α : Type}, Run α → Run α → Prop} {call call' : Caller}

section
variable (rule : Rule admitted related) {site : Site} (call') (admits : ∀ fault : Fault, fault.IsOwn site → admitted fault)
include rule admits

theorem Expr.evaluate_related {expr : Expr}
    (calls : ∀ name arguments, (name, arguments) ∈ expr.calls →
      related ((Expr.call name arguments).evaluate call site) ((Expr.call name arguments).evaluate call' site)) :
    related (expr.evaluate call site) (expr.evaluate call' site) := by
  induction expr with
  | literal value => exact rule.pure value
  | reference name =>
    apply rule.bind (rule.lookup name)
    rintro (_ | value)
    · exact rule.fail (admits _ (.unbound name))
    · exact rule.pure value
  | call name arguments => exact calls name arguments List.mem_cons_self
  | negate operand ih | not operand ih => exact rule.bind (ih calls) fun _ => rule.pure _
  | both left right ihLeft ihRight =>
    apply rule.bind (ihLeft fun name arguments member => calls name arguments (List.mem_append_left _ member))
    intro value
    split
    · exact ihRight fun name arguments member => calls name arguments (List.mem_append_right _ member)
    · exact rule.pure value
  | either left right ihLeft ihRight =>
    apply rule.bind (ihLeft fun name arguments member => calls name arguments (List.mem_append_left _ member))
    intro value
    split
    · exact rule.pure value
    · exact ihRight fun name arguments member => calls name arguments (List.mem_append_right _ member)
  | binary operator left right ihLeft ihRight =>
    apply rule.bind (ihLeft fun name arguments member => calls name arguments (List.mem_append_left _ member))
    intro leftValue
    apply rule.bind (ihRight fun name arguments member => calls name arguments (List.mem_append_right _ member))
    intro rightValue
    cases Value.apply operator leftValue rightValue with
    | ok value => exact rule.pure value
    | error cause => exact rule.fail (admits _ (.operation cause))

theorem evaluate_related {text : Text}
    (calls : ∀ expr, Expr.ofText text = .ok expr → ∀ name arguments, (name, arguments) ∈ expr.calls →
      related ((Expr.call name arguments).evaluate call site) ((Expr.call name arguments).evaluate call' site)) :
    related (evaluate call site text) (evaluate call' site text) := by
  rw [evaluate, evaluate, Expr.read]
  rcases reads : Expr.ofText text with place | expr
  · exact rule.fail (admits _ (.unreadable _))
  · exact Expr.evaluate_related call' rule admits (calls expr reads)

end

/-- The rule relates what running a node does before anything is run inside of it. -/
def Node.Related (related : ∀ {α : Type}, Run α → Run α → Prop) (call call' : Caller) : Node → Prop
  | .statement (.function header body) =>
    related (change (·.declare header.name ⟨header, body⟩)) (change (·.declare header.name ⟨header, body⟩))
  | .statement (.returns excerpt expression) | .statement (.assign excerpt _ expression _)
  | .statement (.print excerpt _ expression) =>
    related (evaluate call excerpt.site expression) (evaluate call' excerpt.site expression)
  | .statement (.conditional excerpt condition _ _) =>
    related (evaluate call excerpt.site condition) (evaluate call' excerpt.site condition)
  | .branch site condition => related (evaluate call site condition) (evaluate call' site condition)

mutual
theorem Statement.run_related (rule : BlockRule admitted related) : ∀ {statement : Statement},
    (∀ node ∈ statement.ownNodes, node.Related related call call') →
      related (statement.run call) (statement.run call')
  | .function header body, nodes => rule.bind (nodes _ List.mem_cons_self) fun _ => rule.pure _
  | .returns excerpt expression, nodes => rule.bind (nodes _ List.mem_cons_self) fun _ => rule.pure _
  | .assign excerpt name expression isDefault, nodes => by
    apply rule.bind (rule.lookup name)
    intro bound
    split
    · exact rule.pure _
    · apply rule.bind (nodes _ List.mem_cons_self)
      intro value
      exact rule.bind (rule.assign name value) fun _ => rule.pure _
  | .conditional excerpt condition body next, nodes => by
    obtain ⟨own, deeper⟩ := List.forall_mem_cons.1 nodes
    obtain ⟨bodies, nexts⟩ := List.forall_mem_append.1 deeper
    apply rule.bind own
    intro value
    split
    · exact runAll_related rule bodies
    · exact Otherwise.run_related rule nexts
  | .print excerpt severity expression, nodes => by
    apply rule.bind (nodes _ List.mem_cons_self)
    intro value
    exact rule.bind (rule.record _) fun _ => rule.pure _

theorem runAll_related (rule : BlockRule admitted related) : ∀ {statements : List Statement},
    (∀ node ∈ ownNodesOf statements, node.Related related call call') →
      related (runAll call statements) (runAll call' statements)
  | [], _ => rule.pure _
  | statement :: statements, nodes => by
    obtain ⟨first, rest⟩ := List.forall_mem_append.1 nodes
    apply rule.bind (Statement.run_related rule first)
    rintro (_ | value)
    · exact runAll_related rule rest
    · exact rule.pure _

theorem Otherwise.run_related (rule : BlockRule admitted related) : ∀ {next : Otherwise},
    (∀ node ∈ next.ownNodes, node.Related related call call') → related (next.run call) (next.run call')
  | .nothing, _ => rule.pure _
  | .block body, nodes => runAll_related rule nodes
  | .condition site condition body next, nodes => by
    obtain ⟨own, deeper⟩ := List.forall_mem_cons.1 nodes
    obtain ⟨bodies, nexts⟩ := List.forall_mem_append.1 deeper
    apply rule.bind own
    intro value
    split
    · exact runAll_related rule bodies
    · exact Otherwise.run_related rule nexts
end

variable (rule : BlockRule admitted related)
include rule

namespace Definition
variable {definition : Definition} {called : Site}

variable (call') in
theorem bindParameters_related {parameters : List Parameter} {arguments : List Text}
    (given : ∀ argument ∈ arguments, related (evaluate call called argument) (evaluate call' called argument))
    (defaults : ∀ parameter ∈ parameters, ∀ default ∈ parameter.default,
      related (evaluate call definition.site default) (evaluate call' definition.site default))
    (missing : ∀ name, admitted (.missingArgument definition.header.name name definition.site called)) :
    related (definition.bindParameters call called parameters arguments)
      (definition.bindParameters call' called parameters arguments) := by
  induction parameters generalizing arguments with
  | nil => exact rule.pure ()
  | cons parameter parameters ih =>
    obtain ⟨own, others⟩ := List.forall_mem_cons.1 defaults
    have value : related (definition.parameterValue call called parameter arguments.head?)
        (definition.parameterValue call' called parameter arguments.head?) := by
      rw [parameterValue.eq_def, parameterValue.eq_def]
      cases arguments with
      | cons argument arguments => exact given argument List.mem_cons_self
      | nil =>
        cases written : parameter.default with
        | some default => exact own default written
        | none => exact rule.fail (missing parameter.name)
    apply rule.bind value
    intro value
    apply rule.bind (rule.assign parameter.name value)
    exact fun _ => ih (fun argument member => given argument (List.mem_of_mem_tail member)) others

theorem result_related (nodes : ∀ node ∈ ownNodesOf definition.body, node.Related related call call') :
    related (definition.result call) (definition.result call') := by
  apply rule.bind (runAll_related rule nodes)
  rintro (_ | value) <;> exact rule.pure _

end Definition

theorem runTopLevel_related (strays : ∀ site, admitted (.returnOutsideFunction site)) {statements : List Statement}
    (nodes : ∀ node ∈ ownNodesOf statements, node.Related related call call') :
    related (runTopLevel call statements) (runTopLevel call' statements) := by
  induction statements with
  | nil => exact rule.pure ()
  | cons statement statements ih =>
    obtain ⟨first, rest⟩ := List.forall_mem_append.1 nodes
    apply rule.bind (Statement.run_related rule first)
    rintro (_ | value)
    · exact ih rest
    · exact rule.fail (strays _)

end StyleScript
