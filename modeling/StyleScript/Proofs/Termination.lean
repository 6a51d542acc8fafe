import StyleScript.Proofs.Depth
import StyleScript.Proofs.Isolation
import StyleScript.Proofs.Rereading
import Mathlib.Algebra.Order.BigOperators.Group.List
import Mathlib.Algebra.Order.Group.Nat

/-! Programs whose functions do not call one another in circles come to an end. The arguments of a call are
evaluated inside of it, before its body, so what has to be done next is either a shorter text that may call
the same functions, or a longer one of a function of a smaller rank. A bound on the lengths of all texts
turns the two into one number, which goes down with every call. -/

namespace StyleScript
open Definition (callWith callWithin)

/-- A text calls a key if a call by a name of that key stands in it or in an argument of one of its calls. -/
inductive Calls (key : Text) : Text → Prop where
  | call {text name : Text} {arguments : List Text} {expr : Expr} (reads : Expr.ofText text = .ok expr)
      (member : (name, arguments) ∈ expr.calls) (same : Name.functionKey name = key) : Calls key text
  | argument {text argument : Text} {expr : Expr} (reads : Expr.ofText text = .ok expr)
      (member : argument ∈ expr.argumentTexts) (inside : Calls key argument) : Calls key text

theorem Expr.mem_argumentTexts {expr : Expr} {name argument : Text} {arguments : List Text}
    (called : (name, arguments) ∈ expr.calls) (member : argument ∈ arguments) : argument ∈ expr.argumentTexts := by
  induction expr with
  | literal value | reference name => cases called
  | call callee given =>
    cases List.mem_singleton.1 called
    exact member
  | negate operand ih | not operand ih => exact ih called
  | both left right ihLeft ihRight | either left right ihLeft ihRight | binary operator left right ihLeft ihRight =>
    obtain here | there := List.mem_append.1 called
    · exact List.mem_append_left _ (ihLeft here)
    · exact List.mem_append_right _ (ihRight there)

theorem calls_iff {key text : Text} {expr : Expr} (reads : Expr.ofText text = .ok expr) :
    Calls key text ↔ (∃ node ∈ expr.calls, Name.functionKey node.1 = key) ∨
      ∃ argument ∈ expr.argumentTexts, Calls key argument := by
  constructor
  · intro calls
    cases calls with
    | call again member same =>
      rw [reads] at again
      cases again
      exact .inl ⟨_, member, same⟩
    | argument again member inside =>
      rw [reads] at again
      cases again
      exact .inr ⟨_, member, inside⟩
  · rintro (⟨node, member, same⟩ | ⟨argument, member, inside⟩)
    · exact .call reads member same
    · exact .argument reads member inside

/-- The keys that a text calls. An argument is shorter than the text it stands in, so the text itself bounds how
deep arguments stand in one another. -/
def calledWithin : Text → Text → List Text
  | [], _ => []
  | _ :: bound, text =>
    match Expr.ofText text with
    | .error _ => []
    | .ok expr => expr.calls.map (Name.functionKey ·.1) ++ expr.argumentTexts.flatMap (calledWithin bound)

theorem mem_calledWithin {key bound text : Text} (short : text.length ≤ bound.length) :
    key ∈ calledWithin bound text ↔ Calls key text := by
  induction bound generalizing text with
  | nil =>
    obtain rfl : text = [] := List.length_eq_zero_iff.1 (Nat.le_zero.1 short)
    have refused : (Expr.ofText []).toOption = none := by decide +kernel
    refine ⟨nofun, fun calls => ?_⟩
    cases calls with
    | call reads _ _ | argument reads _ _ =>
      rw [reads] at refused
      cases refused
  | cons c bound ih =>
    rw [calledWithin]
    cases reads : Expr.ofText text with
    | error place =>
      refine ⟨nofun, fun calls => ?_⟩
      cases calls with
      | call again _ _ | argument again _ _ =>
        rw [reads] at again
        cases again
    | ok expr =>
      have inside : ∀ argument ∈ expr.argumentTexts, (key ∈ calledWithin bound argument ↔ Calls key argument) := by
        intro argument member
        have shorter := Expr.argument_shorter reads argument member
        rw [List.length_cons] at short
        exact ih (by omega)
      rw [calls_iff reads, List.mem_append, List.mem_map, List.mem_flatMap]
      exact or_congr Iff.rfl (exists_congr fun argument => and_congr_right (inside argument))

def calledKeys (text : Text) : List Text := calledWithin text text

theorem mem_calledKeys {key text : Text} : key ∈ calledKeys text ↔ Calls key text := mem_calledWithin (Nat.le_refl _)

/-- The texts that a node evaluates. -/
def Node.texts : Node → List Text
  | .statement (.function ..) => []
  | .statement (.returns _ expression) | .statement (.assign _ _ expression _) | .statement (.print _ _ expression) =>
    [expression]
  | .statement (.conditional _ condition _ _) | .branch _ condition => [condition]

/-- The defaults of a function and the texts of its body. A function declared in the body has its own. -/
def Definition.texts (definition : Definition) : List Text :=
  definition.header.parameters.filterMap (·.default) ++ (ownNodesOf definition.body).flatMap Node.texts

def Definition.Calls (key : Text) (definition : Definition) : Prop := ∃ text ∈ definition.texts, StyleScript.Calls key text

def Node.definition : Node → Option Definition
  | .statement (.function header body) => some ⟨header, body⟩
  | _ => none

/-- All declarations of a tree, at every depth. -/
def definitionsOf (statements : List Statement) : List Definition := (nodesOf statements).filterMap Node.definition

theorem mem_definitionsOf {definition : Definition} {statements : List Statement} :
    definition ∈ definitionsOf statements ↔ IsDeclared definition statements := by
  rw [definitionsOf, List.mem_filterMap]
  constructor
  · rintro ⟨node, member, same⟩
    obtain (⟨header, body⟩ | _) | _ := node <;> cases same
    exact member
  · exact fun declared => ⟨_, declared, rfl⟩

/-- A function of that name is declared somewhere. -/
def IsFunction (key : Text) (statements : List Statement) : Prop :=
  ∃ definition, IsDeclared definition statements ∧ definition.header.name = key

/-- Every function, as often as it is declared, calls none but those of smaller ranks. -/
def Ranked (rank : Text → Nat) (statements : List Statement) : Prop :=
  ∀ definition, IsDeclared definition statements → ∀ key, IsFunction key statements → definition.Calls key →
    rank key < rank definition.header.name

instance (rank : Text → Nat) (statements : List Statement) : Decidable (Ranked rank statements) :=
  decidable_of_iff (∀ definition ∈ definitionsOf statements, ∀ text ∈ definition.texts, ∀ key ∈ calledKeys text,
      (∃ other ∈ definitionsOf statements, other.header.name = key) → rank key < rank definition.header.name) <| by
    simp only [mem_definitionsOf, mem_calledKeys]
    constructor
    · exact fun ranked definition declared key known ⟨text, own, calls⟩ => ranked definition declared text own key calls known
    · exact fun ranked definition declared text own key calls known => ranked definition declared key known ⟨text, own, calls⟩

/-- Functions are found by their own names, and all of them are declared in the tree. -/
def Context.Knows (statements : List Statement) (context : Context) : Prop :=
  ∀ key definition, context.findFunction key = some definition →
    IsDeclared definition statements ∧ definition.header.name = key

theorem Context.Knows.declare {statements : List Statement} {context : Context} (knows : context.Knows statements)
    {definition : Definition} (declared : IsDeclared definition statements) :
    (context.declare definition.header.name definition).Knows statements := by
  intro key found bound
  rw [findFunction_declare] at bound
  split at bound
  next same =>
    cases bound
    exact ⟨declared, same.symm⟩
  next => exact knows key found bound

theorem Context.Knows.holding {statements : List Statement} {context : Context} (knows : context.Knows statements)
    (held : List Output) : (context.holding held).Knows statements := by
  intro key definition found
  rw [findFunction_holding] at found
  exact knows key definition found

theorem Context.Knows.record {statements : List Statement} {context : Context} (knows : context.Knows statements)
    (output : Output) : (context.record output).Knows statements := by
  rw [record_eq_holding]
  exact knows.holding _

namespace Run
variable {α β : Type} {statements : List Statement}

/-- Where only declared functions are found, the run is not cut short, and again only such are found. -/
def Finishes (statements : List Statement) (run : Run α) : Prop :=
  ∀ context, context.Knows statements → (run context).1 ≠ .exhausted ∧ (run context).2.Knows statements

theorem Finishes.bind {run : Run α} {next : α → Run β} (first : run.Finishes statements)
    (second : ∀ value, (next value).Finishes statements) : (run >>= next).Finishes statements := by
  intro context knows
  obtain ⟨ends, after⟩ := first context knows
  rcases began : run context with ⟨value | fault | _, middle⟩ <;> rw [began] at ends after
  · rw [bind_of_done began]
    exact second value middle after
  · rw [bind_of_failed began]
    exact ⟨nofun, after⟩
  · exact absurd rfl ends

theorem finishes_read_bind {key : Text} {next : Option Definition → Run α}
    (nexts : ∀ found, (∀ definition ∈ found, IsDeclared definition statements ∧ definition.header.name = key) →
      (next found).Finishes statements) : (read (·.findFunction key) >>= next).Finishes statements :=
  fun context knows => nexts _ (knows key) context knows

theorem Finishes.inNewFrame {run : Run α} (within : run.Within .innermost) (inside : run.Finishes statements) :
    (inNewFrame run).Finishes statements := by
  intro context knows
  obtain ⟨ends, -⟩ := inside context.push knows
  rw [within.inNewFrame_eq]
  exact ⟨ends, knows.holding _⟩

theorem rule_finishes (statements : List Statement) :
    BlockRule (fun _ => True) fun {_} run _ => run.Finishes statements where
  pure _ _ knows := ⟨nofun, knows⟩
  fail _ _ knows := ⟨nofun, knows⟩
  bind := Finishes.bind
  lookup _ _ knows := ⟨nofun, knows⟩
  assign _ _ _ knows := ⟨nofun, knows⟩
  record output _ knows := ⟨nofun, knows.record output⟩

end Run

open Run

variable {call : Caller} {statements : List Statement}

theorem Node.finishes {node : Node} (member : node ∈ nodesOf statements)
    (texts : ∀ site, ∀ text ∈ node.texts, (evaluate call site text).Finishes statements) :
    node.Related (fun {_} run _ => run.Finishes statements) call call := by
  match node with
  | .statement (.function header body) =>
    have declared : IsDeclared ⟨header, body⟩ statements := member
    exact fun context knows => ⟨nofun, knows.declare declared⟩
  | .statement (.returns ..) | .statement (.assign ..) | .statement (.print ..) | .statement (.conditional ..)
  | .branch .. => exact texts _ _ List.mem_cons_self

theorem Definition.callWith_finishes (isolated : call.Isolated) {definition : Definition}
    (declared : IsDeclared definition statements) {arguments : List Text} {called : Site}
    (given : ∀ argument ∈ arguments, (evaluate call called argument).Finishes statements)
    (texts : ∀ site, ∀ text ∈ definition.texts, (evaluate call site text).Finishes statements) :
    (callWith call definition arguments called).Finishes statements := by
  have rule := rule_finishes statements
  have binds : (definition.bindParameters call called definition.header.parameters arguments).Finishes statements := by
    refine bindParameters_related call rule given (fun parameter member default written => ?_) fun _ => trivial
    exact texts _ _ (List.mem_append_left _ (List.mem_filterMap.2 ⟨parameter, member, written⟩))
  have runs : (definition.result call).Finishes statements := by
    have nodes : ∀ node ∈ ownNodesOf definition.body,
        node.Related (fun {_} run _ => run.Finishes statements) call call := by
      intro node member
      have inside : node ∈ nodesOf statements := nodesOf_of_declared (ownNodesOf_subset _ member) declared
      exact node.finishes inside fun site text own =>
        texts site text (List.mem_append_right _ (List.mem_flatMap.2 ⟨node, member, own⟩))
    exact result_related rule nodes
  apply Finishes.inNewFrame
  · exact (definition.bindParameters_within isolated called _ arguments).bind fun _ => definition.result_within isolated
  · exact binds.bind fun _ => runs

theorem evaluate_finishes_of_calls {site : Site} {text : Text}
    (calls : ∀ definition arguments, IsDeclared definition statements → Calls definition.header.name text →
      (∀ argument ∈ arguments, argument.length < text.length ∧ ∀ key, Calls key argument → Calls key text) →
        (call definition arguments site).Finishes statements) : (evaluate call site text).Finishes statements := by
  refine evaluate_related call (rule_finishes statements).toRule (fun _ _ => trivial) ?_
  intro expr reads name arguments member
  apply finishes_read_bind
  rintro (_ | definition) known
  · exact fun context knows => ⟨nofun, knows⟩
  · obtain ⟨declared, named⟩ := known definition rfl
    refine calls definition arguments declared (.call reads member named.symm) fun argument given => ?_
    have inside := Expr.mem_argumentTexts member given
    exact ⟨Expr.argument_shorter reads argument inside, fun key => .argument reads inside⟩

section
variable {rank : Text → Nat} (ranked : Ranked rank statements) {longest : Nat}
  (short : ∀ definition, IsDeclared definition statements → ∀ text ∈ definition.texts, text.length ≤ longest)
include ranked short

/-- By induction on the depth. A call takes one off it, and so does every argument by being shorter than the
text it stands in; a function's own texts may be longer, but make up for it by the smaller rank. -/
theorem evaluate_finishes (depth : Nat) {site : Site} {text : Text} {limit : Nat}
    (below : ∀ key, IsFunction key statements → Calls key text → rank key < limit)
    (enough : text.length + limit * (longest + 1) ≤ depth) :
    (evaluate (callWithin depth) site text).Finishes statements := by
  induction depth generalizing site text limit with
  | zero =>
    apply evaluate_finishes_of_calls
    intro definition arguments declared calls _
    have positive := Nat.mul_le_mul_right (longest + 1) (below _ ⟨definition, declared, rfl⟩ calls)
    rw [Nat.succ_mul] at positive
    omega
  | succ depth ih =>
    apply evaluate_finishes_of_calls
    intro definition arguments declared calls given
    have smaller := Nat.mul_le_mul_right (longest + 1) (below _ ⟨definition, declared, rfl⟩ calls)
    rw [Nat.succ_mul] at smaller
    apply Definition.callWith_finishes (Definition.isolated_callWithin depth) declared
    · intro argument member
      obtain ⟨shorter, inside⟩ := given argument member
      exact ih (fun key known calls => below key known (inside key calls)) (by omega)
    · intro site text own
      have bounded := short definition declared text own
      exact ih (fun key known calls => ranked definition declared key known ⟨text, own, calls⟩) (by omega)

theorem outputsOf_finishes {limit : Nat} (below : ∀ key, IsFunction key statements → rank key < limit)
    (lengths : ∀ node ∈ ownNodesOf statements, ∀ text ∈ node.texts, text.length ≤ longest) {depth : Nat}
    (enough : longest + limit * (longest + 1) ≤ depth) : outputsOf depth statements ≠ .exhausted := by
  have runs : (runTopLevel (callWithin depth) statements).Finishes statements := by
    have nodes : ∀ node ∈ ownNodesOf statements,
        node.Related (fun {_} run _ => run.Finishes statements) (callWithin depth) (callWithin depth) := by
      intro node member
      refine node.finishes (ownNodesOf_subset _ member) fun site text own => ?_
      have bounded := lengths node member text own
      exact evaluate_finishes ranked short depth (fun key known _ => below key known) (by omega)
    exact runTopLevel_related (rule_finishes statements) (fun _ => trivial) nodes
  obtain ⟨ends, -⟩ := runs Context.empty nofun
  rw [outputsOf]
  generalize runTopLevel (callWithin depth) statements Context.empty = ended at ends
  obtain ⟨_ | _ | _, _⟩ := ended
  · rintro ⟨⟩
  · rintro ⟨⟩
  · exact absurd rfl ends

end

theorem exists_bound {α : Type} (items : List α) (size : α → Nat) : ∃ bound, ∀ item ∈ items, size item ≤ bound :=
  ⟨(items.map size).sum, fun _ member => List.le_sum_of_mem (List.mem_map_of_mem member)⟩

/-- If functions can be ranked so that each calls only functions of smaller ranks, the program comes to an
end, with what it printed or with a fault, and no deeper nesting of calls would change what that is. -/
theorem Sheet.ends_of_ranked {sheet : Sheet} {statements : List Statement} (accepted : sheet.statements = .ok statements)
    {rank : Text → Nat} (ranked : Ranked rank statements) :
    ∃ depth, (∃ outputs, ∀ deeper ≥ depth, sheet.compile deeper = .done outputs) ∨
      ∃ fault, ∀ deeper ≥ depth, sheet.compile deeper = .failed fault := by
  obtain ⟨inner, innerTexts⟩ := exists_bound ((definitionsOf statements).flatMap Definition.texts) List.length
  obtain ⟨outer, outerTexts⟩ := exists_bound ((ownNodesOf statements).flatMap Node.texts) List.length
  obtain ⟨top, ranks⟩ := exists_bound (definitionsOf statements) (rank ·.header.name)
  have short : ∀ definition, IsDeclared definition statements → ∀ text ∈ definition.texts,
      text.length ≤ max inner outer := by
    intro definition declared text own
    have member := List.mem_flatMap.2 ⟨definition, mem_definitionsOf.2 declared, own⟩
    exact (innerTexts text member).trans (Nat.le_max_left _ _)
  have lengths : ∀ node ∈ ownNodesOf statements, ∀ text ∈ node.texts, text.length ≤ max inner outer :=
    fun node member text own => (outerTexts text (List.mem_flatMap.2 ⟨node, member, own⟩)).trans (Nat.le_max_right _ _)
  have below : ∀ key, IsFunction key statements → rank key < top + 1 := by
    rintro _ ⟨definition, declared, rfl⟩
    exact Nat.lt_succ_of_le (ranks definition (mem_definitionsOf.2 declared))
  let depth := max inner outer + (top + 1) * (max inner outer + 1)
  have ends : outputsOf depth statements ≠ .exhausted := outputsOf_finishes ranked short below lengths (Nat.le_refl _)
  have settled : ∀ deeper ≥ depth, sheet.compile deeper = outputsOf depth statements := by
    intro deeper above
    rw [compile, accepted]
    exact outputsOf_deeper above ends
  refine ⟨depth, ?_⟩
  cases result : outputsOf depth statements with
  | done outputs => exact .inl ⟨outputs, fun deeper above => (settled deeper above).trans result⟩
  | failed fault => exact .inr ⟨fault, fun deeper above => (settled deeper above).trans result⟩
  | exhausted => exact absurd result ends

/-- A function declared in another, a default that calls, calls inside of arguments, and a call of what is not
declared. -/
theorem Sheet.ends_of_ranked_nested :
    let rank (key : Text) : Nat := if key = ['g'] then 2 else if key = ['f'] then 1 else 0
    let sheet : Sheet := ⟨['m'], .standard, "@function f($x) { @function h() { @return $x; } @return h(); }
@function g($y: f(1)) { @if $y { @return f(f($y)); } @return missing(f($y)); }
@debug f(g(f(g())));".toList⟩
    ∃ statements, sheet.statements = .ok statements ∧ Ranked rank statements ∧
      ∃ depth, (∃ outputs, ∀ deeper ≥ depth, sheet.compile deeper = .done outputs) ∨
        ∃ fault, ∀ deeper ≥ depth, sheet.compile deeper = .failed fault := by
  intro rank sheet
  have reads : sheet.statements.toOption.map (fun statements => decide (Ranked rank statements)) = some true := by
    decide +kernel
  obtain ⟨statements, accepted, holds⟩ := Reading.ok_of_toOption_map reads
  have ranked : Ranked rank statements := of_decide_eq_true holds
  exact ⟨statements, accepted, ranked, Sheet.ends_of_ranked accepted ranked⟩

end StyleScript
