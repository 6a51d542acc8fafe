import StyleScript.Proofs.Gathering
import StyleScript.Proofs.Heads
import StyleScript.Proofs.Isolation

/-! What a call does, in the order in which it does it. The parameters are bound one after another, each to what
its argument or its default evaluates to in the scope with those before it; the first that has no value ends the
call. When all of them are bound, the scope holds just them, and the body runs in it. -/

namespace StyleScript

namespace Header

theorem nodup_keys {dialect : Dialect} {excerpt : Excerpt} {header : Header}
    (read : ofExcerpt dialect excerpt = .ok header) : (header.parameters.map (Name.variableKey ·.name)).Nodup := by
  obtain ⟨_, _, _, _, -, parameters, rfl⟩ := ofExcerpt_eq_ok.1 read
  exact (readParameters_eq_ok.1 parameters).2.1

/-- The text that gives a parameter its value, and the site that the text is evaluated for: an argument is
evaluated for the call, and a default for the declaration. -/
def origin (header : Header) (called : Site) (parameter : Parameter) : Option Text → Option (Site × Text)
  | some argument => some (called, argument)
  | none => parameter.default.map (header.excerpt.site, ·)

section
variable (header : Header) (call : Caller) (arguments : List Text) (called : Site) (caller : Context)

/-- The first parameters are bound to values, each evaluated in the scope with those before it. -/
inductive Binds : List Value → Context → Prop where
  | start : Binds [] caller.push
  | next {values : List Value} {scope after : Context} {parameter : Parameter} {site : Site} {text : Text} {value : Value}
      (before : Binds values scope) (own : header.parameters[values.length]? = some parameter)
      (given : header.origin called parameter arguments[values.length]? = some (site, text))
      (evaluates : evaluate call site text scope = (.done value, after)) :
      Binds (values ++ [value]) (after.assign parameter.name value)

/-- The parameters up to one are bound, and that one has no value. -/
inductive BindingFails : Fault → Context → Prop where
  | evaluation {values : List Value} {scope after : Context} {parameter : Parameter} {site : Site} {text : Text}
      {fault : Fault} (before : header.Binds call arguments called caller values scope)
      (own : header.parameters[values.length]? = some parameter)
      (given : header.origin called parameter arguments[values.length]? = some (site, text))
      (fails : evaluate call site text scope = (.failed fault, after)) : BindingFails fault after
  | missing {values : List Value} {scope : Context} {parameter : Parameter}
      (before : header.Binds call arguments called caller values scope)
      (own : header.parameters[values.length]? = some parameter)
      (given : header.origin called parameter arguments[values.length]? = none) :
      BindingFails (.missingArgument header.name parameter.name header.excerpt.site called) scope

end
end Header

open Header Run

/-- The scope of a call holds values for the first parameters, under their keys, and nothing else. -/
structure Context.IsScope (caller : Context) (parameters : List Parameter) (values : List Value) (scope : Context) :
    Prop where
  outer : scope.outer = (caller.holding scope.outputs).frames
  functions : scope.frame.functions = []
  values (key : Text) (value : Value) : scope.frame.values.find? key = some value ↔
    ∃ (place : Nat) (parameter : Parameter), parameters[place]? = some parameter ∧ values[place]? = some value ∧
      Name.variableKey parameter.name = key

/-- How a call ends, and the context that it leaves to its caller. -/
inductive Definition.Invokes (definition : Definition) (call : Caller) (arguments : List Text) (called : Site)
    (caller : Context) : Outcome Value → Context → Prop where
  | unbound {fault : Fault} {after : Context}
      (fails : definition.header.BindingFails call arguments called caller fault after) :
      Invokes definition call arguments called caller (.failed fault) (caller.holding after.outputs)
  | returned {values : List Value} {scope after : Context} {value : Value}
      (binds : definition.header.Binds call arguments called caller values scope)
      (all : values.length = definition.header.parameters.length)
      (runs : runAll call definition.body scope = (.done (.returned value), after)) :
      Invokes definition call arguments called caller (.done value) (caller.holding after.outputs)
  | unreturned {values : List Value} {scope after : Context}
      (binds : definition.header.Binds call arguments called caller values scope)
      (all : values.length = definition.header.parameters.length)
      (runs : runAll call definition.body scope = (.done .normal, after)) :
      Invokes definition call arguments called caller (.done (.boolean false)) (caller.holding after.outputs)
  | failed {values : List Value} {scope after : Context} {fault : Fault}
      (binds : definition.header.Binds call arguments called caller values scope)
      (all : values.length = definition.header.parameters.length)
      (runs : runAll call definition.body scope = (.failed fault, after)) :
      Invokes definition call arguments called caller (.failed fault) (caller.holding after.outputs)

/-- A fault that ends the evaluation of a text belongs to the site which that is for, or comes out of a call in
the text, made for that site. -/
inductive Raised (call : Caller) (site : Site) (text : Text) (scope : Context) : Fault → Prop where
  | here {fault : Fault} (own : fault.site = site) : Raised call site text scope fault
  | inside {expr : Expr} {name : Text} {arguments : List Text} {definition : Definition} {fault : Fault}
      {held : List Output} {after : Context} (reads : Expr.ofText text = .ok expr)
      (calls : (name, arguments) ∈ expr.calls) (found : scope.findFunction (Name.functionKey name) = some definition)
      (fails : call definition arguments site (scope.holding held) = (.failed fault, after)) :
      Raised call site text scope fault

variable {definition : Definition} {call : Caller} {arguments : List Text} {called : Site} {caller : Context}

namespace Context.IsScope
variable {parameters : List Parameter} {values : List Value} {scope : Context}

theorem start : caller.IsScope parameters [] caller.push where
  outer := by rw [outputs_push, holding_outputs]; rfl
  functions := rfl
  values key value := by
    constructor
    · nofun
    · rintro ⟨place, parameter, -, unbound, -⟩
      cases unbound

/-- Outputs that are added while parameters are bound go by the scope. -/
theorem holding (holds : caller.IsScope parameters values scope) (held : List Output) :
    caller.IsScope parameters values (scope.holding held) where
  outer := by
    have around := holds.outer
    rw [outputs_holding, ← caller.holding_holding scope.outputs held]
    obtain ⟨frame, outer⟩ := scope
    generalize (Context.mk frame outer).outputs = before at around ⊢
    obtain rfl : outer = (caller.holding before).frames := around
    rfl
  functions := by rw [toScope_holding, holds.functions]
  values := by
    rw [toScope_holding]
    exact holds.values

theorem place_unique (distinct : (parameters.map (Name.variableKey ·.name)).Nodup) {place other : Nat}
    {first second : Parameter} (written : parameters[place]? = some first) (again : parameters[other]? = some second)
    (same : Name.variableKey first.name = Name.variableKey second.name) : place = other := by
  have inside : place < (parameters.map (Name.variableKey ·.name)).length := by
    rw [List.length_map]
    exact (List.getElem?_eq_some_iff.1 written).1
  refine (List.getElem?_inj inside distinct).1 ?_
  rw [List.getElem?_map, List.getElem?_map, written, again]
  exact congrArg some same

theorem concat_getElem?_eq_some {value bound : Value} {place : Nat} :
    (values ++ [value])[place]? = some bound ↔ values[place]? = some bound ∨ place = values.length ∧ value = bound := by
  rw [List.getElem?_append]
  split
  next before => simp [before.ne]
  next past =>
    rw [List.getElem?_eq_none_iff.2 (Nat.le_of_not_lt past), List.getElem?_singleton]
    split <;> simp <;> omega

theorem next (holds : caller.IsScope parameters values scope) {parameter : Parameter}
    (own : parameters[values.length]? = some parameter)
    (distinct : (parameters.map (Name.variableKey ·.name)).Nodup) (value : Value) :
    caller.IsScope parameters (values ++ [value]) (scope.assign parameter.name value) where
  outer := by
    rw [outputs_assign]
    exact holds.outer
  functions := holds.functions
  values key bound := by
    change (scope.frame.values.insert (Name.variableKey parameter.name) value).find? key = some bound ↔ _
    rw [Bindings.find?_insert]
    simp only [concat_getElem?_eq_some]
    constructor
    · intro found
      split at found
      next same =>
        cases found
        exact ⟨values.length, parameter, own, .inr ⟨rfl, rfl⟩, same.symm⟩
      next other =>
        obtain ⟨place, earlier, written, held, same⟩ := (holds.values key bound).1 found
        exact ⟨place, earlier, written, .inl held, same⟩
    · rintro ⟨place, other, written, held | ⟨rfl, rfl⟩, rfl⟩
      -- No two parameters have one key, so this binding does not replace an earlier one.
      · have before : place < values.length := (List.getElem?_eq_some_iff.1 held).1
        have apart : Name.variableKey other.name ≠ Name.variableKey parameter.name :=
          fun same => before.ne (place_unique distinct written own same)
        rw [if_neg apart]
        exact (holds.values _ _).2 ⟨place, other, written, held, rfl⟩
      · obtain rfl := Option.some.inj (own.symm.trans written)
        rw [if_pos rfl]

theorem findVariable (holds : caller.IsScope parameters values scope) {place : Nat} {parameter : Parameter} {value : Value}
    (own : parameters[place]? = some parameter) (bound : values[place]? = some value) :
    scope.findVariable parameter.name = some value := by
  have found : scope.frame.values.find? (Name.variableKey parameter.name) = some value :=
    (holds.values _ _).2 ⟨place, parameter, own, bound, rfl⟩
  rw [Context.findVariable, find?, scopes, frames, List.map_cons, List.findSome?_cons, found]

end Context.IsScope

namespace Definition

section
variable {parameter : Parameter} {place : Nat}

theorem parameterValue_of_given {site : Site} {text : Text}
    (given : definition.header.origin called parameter arguments[place]? = some (site, text)) :
    definition.parameterValue call called parameter (arguments.drop place).head? = evaluate call site text := by
  rw [List.head?_drop]
  obtain ⟨name, default⟩ := parameter
  cases argument : arguments[place]? <;> cases default <;> rw [argument] at given <;> cases given <;> rfl

theorem parameterValue_of_missing (missing : definition.header.origin called parameter arguments[place]? = none) :
    definition.parameterValue call called parameter (arguments.drop place).head? =
      Run.fail (.missingArgument definition.header.name parameter.name definition.site called) := by
  rw [List.head?_drop]
  obtain ⟨name, default⟩ := parameter
  cases argument : arguments[place]? <;> cases default <;> rw [argument] at missing <;> cases missing
  rfl

end

/-- When the first parameters are bound, the others are still to be bound. -/
theorem bindParameters_of_binds {values : List Value} {scope : Context}
    (binds : definition.header.Binds call arguments called caller values scope) :
    definition.bindParameters call called definition.header.parameters arguments caller.push =
      definition.bindParameters call called (definition.header.parameters.drop values.length)
        (arguments.drop values.length) scope := by
  induction binds with
  | start => rfl
  | @next values scope after parameter site text value before own given evaluates ih =>
    obtain ⟨inside, rfl⟩ := List.getElem?_eq_some_iff.1 own
    rw [ih, List.drop_eq_getElem_cons inside, bindParameters, parameterValue_of_given given, bind_of_done evaluates,
      List.tail_drop, List.length_append]
    rfl

/-- If the next parameter has no value, that ends the binding. -/
theorem bindParameters_of_fails {fault : Fault} {after : Context}
    (fails : definition.header.BindingFails call arguments called caller fault after) :
    definition.bindParameters call called definition.header.parameters arguments caller.push = (.failed fault, after) := by
  cases fails with
  | evaluation before own given fails =>
    obtain ⟨inside, rfl⟩ := List.getElem?_eq_some_iff.1 own
    rw [bindParameters_of_binds before, List.drop_eq_getElem_cons inside, bindParameters, parameterValue_of_given given,
      bind_of_failed fails]
  | missing before own missing =>
    obtain ⟨inside, rfl⟩ := List.getElem?_eq_some_iff.1 own
    rw [bindParameters_of_binds before, List.drop_eq_getElem_cons inside, bindParameters,
      parameterValue_of_missing missing]
    exact bind_of_failed rfl _

/-- Binding goes on until a parameter has no value or none is left. -/
theorem fails_or_binds (ends : (definition.bindParameters call called definition.header.parameters arguments
      caller.push).1 ≠ .exhausted) {left : Nat} {values : List Value} {scope : Context}
    (binds : definition.header.Binds call arguments called caller values scope)
    (sum : values.length + left = definition.header.parameters.length) :
    (∃ fault after, definition.header.BindingFails call arguments called caller fault after) ∨
      ∃ values scope, definition.header.Binds call arguments called caller values scope ∧
        values.length = definition.header.parameters.length := by
  induction left generalizing values scope with
  | zero => exact .inr ⟨values, scope, binds, sum⟩
  | succ left ih =>
    have inside : values.length < definition.header.parameters.length := by omega
    have own := List.getElem?_eq_getElem inside
    rcases given : definition.header.origin called definition.header.parameters[values.length]
      arguments[values.length]? with _ | ⟨site, text⟩
    · exact .inl ⟨_, _, .missing binds own given⟩
    rcases evaluates : evaluate call site text scope with ⟨value | fault | _, after⟩
    · exact ih (binds.next own given evaluates) (by rw [List.length_append, List.length_singleton]; omega)
    · exact .inl ⟨_, _, .evaluation binds own given evaluates⟩
    · rw [bindParameters_of_binds binds, List.drop_eq_getElem_cons inside, bindParameters,
        parameterValue_of_given given, bind_of_exhausted evaluates] at ends
      exact absurd rfl ends

/-- Arguments after the last parameter are not looked at. -/
theorem bindParameters_take (parameters : List Parameter) :
    definition.bindParameters call called parameters arguments =
      definition.bindParameters call called parameters (arguments.take parameters.length) := by
  induction parameters generalizing arguments with
  | nil => rfl
  | cons parameter parameters ih =>
    cases arguments with
    | nil => rfl
    | cons argument arguments =>
      rw [bindParameters, bindParameters, List.length_cons, List.take_succ_cons, List.tail_cons, List.tail_cons, ih]
      rfl

theorem callWith_take {others : List Text}
    (same : others.take definition.header.parameters.length = arguments.take definition.header.parameters.length) :
    callWith call definition others called = callWith call definition arguments called := by
  rw [callWith, callWith, bindParameters_take, same, ← bindParameters_take]

section
variable (isolated : call.Isolated)
include isolated

/-- The scopes that parameters are bound in hold those before them, and nothing else. -/
theorem isScope_of_binds (distinct : (definition.header.parameters.map (Name.variableKey ·.name)).Nodup)
    {values : List Value} {scope : Context}
    (binds : definition.header.Binds call arguments called caller values scope) :
    caller.IsScope definition.header.parameters values scope := by
  induction binds with
  | start => exact .start
  | @next values scope after parameter site text value before own given evaluates ih =>
    -- Whatever the evaluation calls, it leaves the scope with more outputs and the same bindings.
    obtain ⟨outcome, emitted, ends⟩ := (evaluate_within isolated site text).eq_holding scope
    cases evaluates.symm.trans ends
    exact (ih.holding _).next own distinct value

theorem callWith_eq : callWith call definition arguments called caller =
    ((definition.bindParameters call called definition.header.parameters arguments >>= fun _ => definition.result call)
        caller.push).map id fun after => caller.holding after.outputs := by
  have within := (definition.bindParameters_within isolated called definition.header.parameters arguments).bind
    fun _ => definition.result_within isolated
  exact within.inNewFrame_eq caller

theorem callWith_of_fails {fault : Fault} {after : Context}
    (fails : definition.header.BindingFails call arguments called caller fault after) :
    callWith call definition arguments called caller = (.failed fault, caller.holding after.outputs) := by
  rw [callWith_eq isolated, bind_of_failed (bindParameters_of_fails fails)]
  rfl

theorem callWith_of_binds {values : List Value} {scope : Context}
    (binds : definition.header.Binds call arguments called caller values scope)
    (all : values.length = definition.header.parameters.length) :
    callWith call definition arguments called caller =
      (definition.result call scope).map id fun after => caller.holding after.outputs := by
  have bound : definition.bindParameters call called definition.header.parameters arguments caller.push =
      (.done (), scope) := by
    rw [bindParameters_of_binds binds, all, List.drop_length]
    rfl
  rw [callWith_eq isolated, bind_of_done bound]

theorem callWith_iff_invokes {outcome : Outcome Value} {left : Context} :
    callWith call definition arguments called caller = (outcome, left) ∧ outcome ≠ .exhausted ↔
      definition.Invokes call arguments called caller outcome left := by
  constructor
  · rintro ⟨calls, ends⟩
    have bound : (definition.bindParameters call called definition.header.parameters arguments caller.push).1 ≠
        .exhausted := by
      intro cut
      rw [callWith_eq isolated, bind_of_exhausted (Prod.ext cut rfl)] at calls
      cases calls
      exact ends rfl
    obtain ⟨fault, after, fails⟩ | ⟨values, scope, binds, all⟩ := fails_or_binds bound .start (Nat.zero_add _)
    · rw [callWith_of_fails isolated fails] at calls
      cases calls
      exact .unbound fails
    · rw [callWith_of_binds isolated binds all, result] at calls
      rcases runs : runAll call definition.body scope with ⟨(_ | value) | fault | _, after⟩
      · rw [bind_of_done runs] at calls
        cases calls
        exact .unreturned binds all runs
      · rw [bind_of_done runs] at calls
        cases calls
        exact .returned binds all runs
      · rw [bind_of_failed runs] at calls
        cases calls
        exact .failed binds all runs
      · rw [bind_of_exhausted runs] at calls
        cases calls
        exact absurd rfl ends
  · intro invokes
    cases invokes with
    | unbound fails => exact ⟨callWith_of_fails isolated fails, nofun⟩
    | returned binds all runs =>
      rw [callWith_of_binds isolated binds all, result, bind_of_done runs]
      exact ⟨rfl, nofun⟩
    | unreturned binds all runs =>
      rw [callWith_of_binds isolated binds all, result, bind_of_done runs]
      exact ⟨rfl, nofun⟩
    | failed binds all runs =>
      rw [callWith_of_binds isolated binds all, result, bind_of_failed runs]
      exact ⟨rfl, nofun⟩

end

end Definition

/-- In a scope, a run keeps the frames and fails with certain faults only. -/
structure Run.FailsWith {α : Type} (scope : Context) (admitted : Fault → Prop) (run : Run α) : Prop where
  within : run.Within .nothing
  fails {held : List Output} {fault : Fault} {after : Context}
    (ends : run (scope.holding held) = (.failed fault, after)) : admitted fault

theorem rule_failsWith (scope : Context) (admitted : Fault → Prop) :
    Rule admitted fun {_} run _ => run.FailsWith scope admitted where
  pure value := ⟨within_pure value, nofun⟩
  fail admits := ⟨within_fail _, fun ends => by cases ends; exact admits⟩
  lookup name := ⟨within_read fun context held => context.findVariable_holding held name, nofun⟩
  bind {_ _ first _ next _} runs nexts := by
    refine ⟨runs.within.bind fun value => (nexts value).within, fun {held fault after} ends => ?_⟩
    obtain ⟨outcome, emitted, began⟩ := runs.within.of_nothing scope
    cases outcome with
    | done value =>
      rw [bind_of_done (began held)] at ends
      exact (nexts value).fails ends
    | failed first =>
      rw [bind_of_failed (began held)] at ends
      cases ends
      exact runs.fails (began held)
    | exhausted =>
      rw [bind_of_exhausted (began held)] at ends
      cases ends

theorem evaluate_raised (isolated : call.Isolated) {site : Site} {text : Text} {scope after : Context} {fault : Fault}
    (fails : evaluate call site text scope = (.failed fault, after)) : Raised call site text scope fault := by
  have evaluation : (evaluate call site text).FailsWith scope (Raised call site text scope) := by
    refine evaluate_related call (rule_failsWith scope _) (fun fault own => .here own.site_eq) ?_
    intro expr reads name arguments member
    refine ⟨Expr.evaluate_within isolated site (.call name arguments), fun {held fault after} ends => ?_⟩
    rw [Expr.evaluate] at ends
    have finds : Run.read (·.findFunction (Name.functionKey name)) (scope.holding held) =
        (.done (scope.findFunction (Name.functionKey name)), scope.holding held) :=
      congrArg (fun answer => (Outcome.done answer, _)) (scope.findFunction_holding held _)
    rw [Run.bind_of_done finds] at ends
    cases found : scope.findFunction (Name.functionKey name) with
    | some definition =>
      rw [found] at ends
      exact .inside reads member found ends
    | none =>
      rw [found] at ends
      cases ends
      exact .here rfl
  rw [← scope.holding_outputs] at fails
  exact evaluation.fails fails

open Definition (callWithin)

/-- A call of a function of an accepted program binds its parameters one after another, each in a scope that
holds those before it, and runs the body in a scope that holds all of them, or ends with the first parameter
that has no value, whatever the body is. Only as many arguments are evaluated as there are parameters. -/
theorem Sheet.invokes_as_declared {sheet : Sheet} {statements : List Statement}
    (accepted : sheet.statements = .ok statements) {definition : Definition} (declared : IsDeclared definition statements)
    (depth : Nat) (arguments : List Text) (called : Site) (caller : Context) :
    let call := callWithin depth
    let parameters := definition.header.parameters
    (∀ outcome left, callWithin (depth + 1) definition arguments called caller = (outcome, left) ∧ outcome ≠ .exhausted ↔
      definition.Invokes call arguments called caller outcome left) ∧
    (∀ others : List Text, others.take parameters.length = arguments.take parameters.length →
      callWithin (depth + 1) definition others called = callWithin (depth + 1) definition arguments called) ∧
    (∀ values scope, definition.header.Binds call arguments called caller values scope →
      caller.IsScope parameters values scope ∧
      ∀ (place : Nat) (parameter : Parameter) (value : Value), parameters[place]? = some parameter →
        values[place]? = some value → scope.findVariable parameter.name = some value) ∧
    (∀ fault after, definition.header.BindingFails call arguments called caller fault after → ∀ body,
      callWithin (depth + 1) ⟨definition.header, body⟩ arguments called caller =
        (.failed fault, caller.holding after.outputs)) ∧
    ∀ site text scope fault after, evaluate call site text scope = (.failed fault, after) →
      Raised call site text scope fault := by
  intro call parameters
  have isolated : call.Isolated := Definition.isolated_callWithin depth
  have distinct : (parameters.map (Name.variableKey ·.name)).Nodup := by
    cases Sheet.read_nodes accepted _ declared with
    | function body reads => exact nodup_keys reads
  refine ⟨fun outcome left => Definition.callWith_iff_invokes isolated, fun others => Definition.callWith_take, ?_, ?_, ?_⟩
  · intro values scope binds
    have holds := Definition.isScope_of_binds isolated distinct binds
    exact ⟨holds, fun place parameter value => holds.findVariable⟩
  · intro fault after fails body
    exact Definition.callWith_of_fails isolated fails
  · intro site text scope fault after
    exact evaluate_raised isolated

theorem reads_requiredAfterDefault :
    (⟨['m'], .standard, "@function f($a: x, $b, $c: $b) { @return $c; }".toList⟩ : Sheet).statements.toOption.map
      (fun statements => match statements with
        | [.function written [.returns place text]] =>
          decide (written = ⟨['f'], [⟨['a'], some ['x']⟩, ⟨['b'], none⟩, ⟨['c'], some "$b".toList⟩],
            ⟨"@function f($a: x, $b, $c: $b)".toList, ⟨['m'], 1⟩⟩⟩ ∧
            place = ⟨"@return $c".toList, ⟨['m'], 1⟩⟩ ∧ text = "$c".toList)
        | _ => false) = some true := by
  decide +kernel

/-- A parameter without a default after one that has one: given, with an argument left over that is no
expression, and not given. -/
theorem Sheet.invokes_as_declared_missing :
    let sheet : Sheet := ⟨['m'], .standard, "@function f($a: x, $b, $c: $b) { @return $c; }".toList⟩
    let called : Site := ⟨['m'], 2⟩
    let value : Value := .string ['y'] false
    let missing : Fault := .missingArgument ['f'] ['b'] ⟨['m'], 1⟩ called
    ∃ statements definition, sheet.statements = .ok statements ∧ IsDeclared definition statements ∧
      (∃ left, definition.Invokes (callWithin 1) [['y'], "$a".toList, "$b".toList, ['(']] called .empty
        (.done value) left) ∧
      ∃ left, definition.Invokes (callWithin 1) [['y']] called .empty (.failed missing) left := by
  intro sheet called value missing
  let header : Header := ⟨['f'], [⟨['a'], some ['x']⟩, ⟨['b'], none⟩, ⟨['c'], some "$b".toList⟩],
    ⟨"@function f($a: x, $b, $c: $b)".toList, ⟨['m'], 1⟩⟩⟩
  let excerpt : Excerpt := ⟨"@return $c".toList, ⟨['m'], 1⟩⟩
  let definition : Definition := ⟨header, [.returns excerpt "$c".toList]⟩
  obtain ⟨statements, accepted, holds⟩ := Reading.ok_of_toOption_map reads_requiredAfterDefault
  split at holds
  next =>
    obtain ⟨rfl, rfl, rfl⟩ := of_decide_eq_true holds
    have declared : IsDeclared definition [.function header definition.body] := List.mem_cons_self
    have given : (callWithin 2 definition [['y'], "$a".toList, "$b".toList, ['(']] called .empty).1 = .done value := by rfl
    have withheld : (callWithin 2 definition [['y']] called .empty).1 = .failed missing := by rfl
    have invokes (arguments : List Text) := (Sheet.invokes_as_declared accepted declared 1 arguments called .empty).1
    exact ⟨_, definition, accepted, declared, ⟨_, (invokes _ _ _).1 ⟨Prod.ext given rfl, by rintro ⟨⟩⟩⟩,
      ⟨_, (invokes _ _ _).1 ⟨Prod.ext withheld rfl, by rintro ⟨⟩⟩⟩⟩
  next => cases holds

end StyleScript
