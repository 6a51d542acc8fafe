import StyleScript.Proofs.SelfCorrespondence

/-! A variable that is mentioned nowhere has no influence. Two chains of frames that differ only in what
one key is bound to cannot be told apart by statements that do not mention it, as long as no function
that they can call does. Texts are read anew in the frames of whoever is called, so what is not mentioned
is asked of the texts of arguments too, at every depth. -/

namespace StyleScript
open Definition (callWithin)

/-- A text mentions a key if a variable of that key stands in it or in an argument of one of its calls. -/
inductive Mentions (key : Text) : Text → Prop where
  | reference {text name : Text} {expr : Expr} (reads : Expr.ofText text = .ok expr)
      (member : name ∈ expr.references) (same : Name.variableKey name = key) : Mentions key text
  | argument {text argument : Text} {expr : Expr} (reads : Expr.ofText text = .ok expr)
      (member : argument ∈ expr.argumentTexts) (inside : Mentions key argument) : Mentions key text

theorem not_mentions_iff {key text : Text} {expr : Expr} (reads : Expr.ofText text = .ok expr) :
    ¬ Mentions key text ↔
      (∀ name ∈ expr.references, Name.variableKey name ≠ key) ∧ ∀ argument ∈ expr.argumentTexts, ¬ Mentions key argument := by
  constructor
  · intro silent
    constructor
    · exact fun name member same => silent (.reference reads member same)
    · exact fun argument member inside => silent (.argument reads member inside)
  · intro silent mentions
    obtain ⟨references, arguments⟩ := silent
    cases mentions with
    | reference again member same =>
      rw [reads] at again
      cases again
      exact references _ member same
    | argument again member inside =>
      rw [reads] at again
      cases again
      exact arguments _ member inside

/-- A parameter mentions its own key. -/
def Parameter.Mentions (key : Text) (parameter : Parameter) : Prop :=
  Name.variableKey parameter.name = key ∨ ∃ default ∈ parameter.default, StyleScript.Mentions key default

/-- What is inside a node is nodes of its own, and not counted. -/
def Node.Mentions (key : Text) : Node → Prop
  | .statement (.function header _) => ∃ parameter ∈ header.parameters, parameter.Mentions key
  | .statement (.assign _ name expression _) => Name.variableKey name = key ∨ StyleScript.Mentions key expression
  | .statement (.returns _ expression) | .statement (.print _ _ expression) => StyleScript.Mentions key expression
  | .statement (.conditional _ condition _ _) | .branch _ condition => StyleScript.Mentions key condition

/-- Something in the statements, or in a function that they declare at any depth, mentions the key. -/
def MentionedIn (key : Text) (statements : List Statement) : Prop := ∃ node ∈ nodesOf statements, node.Mentions key

def Definition.Mentions (key : Text) (definition : Definition) : Prop :=
  (∃ parameter ∈ definition.header.parameters, parameter.Mentions key) ∨ MentionedIn key definition.body

structure Scope.AlikeBut (key : Text) (first second : Scope) : Prop where
  values : ∀ other ≠ key, first.values.find? other = second.values.find? other
  functions : ∀ name, first.functions.find? name = second.functions.find? name

theorem Scope.alikeBut_self (key : Text) (scope : Scope) : scope.AlikeBut key scope := ⟨fun _ _ => rfl, fun _ => rfl⟩

namespace Context
variable {key : Text} {first second : Context}

/-- Frame by frame, the two differ only in whether and to what the key is bound. -/
def AlikeBut (key : Text) (first second : Context) : Prop :=
  List.Forall₂ (Scope.AlikeBut key) first.scopes second.scopes

/-- The definition is registered in a frame, under whatever name. -/
def Registers (context : Context) (definition : Definition) : Prop :=
  ∃ scope ∈ context.scopes, ∃ name, scope.functions.find? name = some definition

theorem registers_of_findFunction {context : Context} {name : Text} {definition : Definition}
    (found : context.findFunction name = some definition) : context.Registers definition := by
  obtain ⟨scope, member, bound⟩ := List.exists_of_findSome?_eq_some found
  exact ⟨scope, member, name, bound⟩

theorem registers_holding {context : Context} {held : List Output} {definition : Definition} :
    (context.holding held).Registers definition ↔ context.Registers definition := by
  rw [Registers, scopes_holding, Registers]

theorem registers_assign {context : Context} {name : Text} {value : Value} {definition : Definition}
    (registers : (context.assign name value).Registers definition) : context.Registers definition := by
  obtain ⟨scope, member, found, bound⟩ := registers
  obtain rfl | outside := List.mem_cons.1 member
  · exact ⟨context.frame.toScope, List.mem_cons_self, found, bound⟩
  · exact ⟨scope, List.mem_cons_of_mem _ outside, found, bound⟩

/-- The only definition that is new is the one that is declared. -/
theorem registers_declare {context : Context} {name : Text} {definition other : Definition}
    (registers : (context.declare name definition).Registers other) : other = definition ∨ context.Registers other := by
  obtain ⟨scope, member, found, bound⟩ := registers
  obtain rfl | outside := List.mem_cons.1 member
  · have bound : (context.frame.functions.insert name definition).find? found = some other := bound
    rw [Bindings.find?_insert] at bound
    split at bound
    · exact .inl (Option.some.inj bound).symm
    · exact .inr ⟨context.frame.toScope, List.mem_cons_self, found, bound⟩
  · exact .inr ⟨scope, List.mem_cons_of_mem _ outside, found, bound⟩

theorem registers_push {context : Context} {definition : Definition} (registers : context.push.Registers definition) :
    context.Registers definition := by
  obtain ⟨scope, member, name, bound⟩ := registers
  obtain rfl | outside := List.mem_cons.1 member
  · cases bound
  · exact ⟨scope, outside, name, bound⟩

/-- A lookup on which the scopes agree one by one gives the same in both chains. -/
theorem find?_congr {α : Type} {bindings : Scope → Bindings α} {name : Text}
    (same : List.Forall₂ (fun scope scope' => (bindings scope).find? name = (bindings scope').find? name)
      first.scopes second.scopes) : first.find? bindings name = second.find? bindings name := by
  rw [find?, find?]
  generalize first.scopes = scopes, second.scopes = scopes' at same
  induction same with
  | nil => rfl
  | cons here _ ih => rw [List.findSome?_cons, List.findSome?_cons, here, ih]

namespace AlikeBut
variable (alike : first.AlikeBut key second)
include alike

theorem findVariable {name : Text} (other : Name.variableKey name ≠ key) :
    first.findVariable name = second.findVariable name :=
  find?_congr (List.Forall₂.imp (fun _ _ scopes => scopes.values _ other) alike)

theorem findFunction (name : Text) : first.findFunction name = second.findFunction name :=
  find?_congr (List.Forall₂.imp (fun _ _ scopes => scopes.functions name) alike)

theorem assign (name : Text) (value : Value) : (first.assign name value).AlikeBut key (second.assign name value) := by
  obtain ⟨inner, outer⟩ := List.forall₂_cons.1 alike
  refine .cons ⟨fun other different => ?_, inner.functions⟩ outer
  change (first.frame.values.insert _ value).find? other = (second.frame.values.insert _ value).find? other
  rw [Bindings.find?_insert, Bindings.find?_insert, inner.values other different]

theorem declare (name : Text) (definition : Definition) :
    (first.declare name definition).AlikeBut key (second.declare name definition) := by
  obtain ⟨inner, outer⟩ := List.forall₂_cons.1 alike
  refine .cons ⟨inner.values, fun found => ?_⟩ outer
  change (first.frame.functions.insert name definition).find? found =
    (second.frame.functions.insert name definition).find? found
  rw [Bindings.find?_insert, Bindings.find?_insert, inner.functions found]

theorem push : first.push.AlikeBut key second.push := .cons (Scope.alikeBut_self key {}) alike

theorem holding (held held' : List Output) : (first.holding held).AlikeBut key (second.holding held') := by
  rw [AlikeBut, scopes_holding, scopes_holding]
  exact alike

end AlikeBut
end Context

/-- Everything is the same on both sides but for what the key is bound to, and nothing mentions it. -/
def sameBut (key : Text) : Correspondence where
  site _ := True
  name first second := first = second ∧ Name.variableKey first ≠ key
  callee := Eq
  source _ first second := first = second ∧ ¬ Mentions key first
  definition first second := first = second ∧ ¬ first.Mentions key
  fault := Eq
  context first second := first.AlikeBut key second ∧
    (∀ definition, first.Registers definition → ¬ definition.Mentions key) ∧ first.outputs = second.outputs

namespace sameBut
variable {key : Text}

/-- Outputs matter only in that they are the same. -/
theorem holding {first second : Context} (alike : first.AlikeBut key second)
    (registered : ∀ definition, first.Registers definition → ¬ definition.Mentions key) (held : List Output) :
    (sameBut key).context (first.holding held) (second.holding held) := by
  refine ⟨alike.holding held held, fun definition registers => ?_, ?_⟩
  · exact registered definition (Context.registers_holding.1 registers)
  · rw [Context.outputs_holding, Context.outputs_holding]

/-- What a block does not mention is not mentioned in the functions that it declares. -/
theorem suits {node : Node} {statements : List Statement} (unmentioned : ¬ MentionedIn key statements)
    (member : node ∈ nodesOf statements) : (sameBut key).Suits node := by
  have silent : ¬ node.Mentions key := fun mentions => unmentioned ⟨node, member, mentions⟩
  have records : ∀ severity site, (sameBut key).Records severity site := by
    intro severity site message first second ⟨alike, registered, outputs⟩
    rw [Context.record_eq_holding, Context.record_eq_holding, outputs]
    exact holding alike registered _
  obtain (⟨header, body⟩ | _ | ⟨excerpt, name, expression, _⟩ | _ | ⟨excerpt, severity, expression⟩) | _ := node
  case statement.function =>
    refine ⟨rfl, fun mentions => ?_⟩
    obtain mentions | ⟨inner, inside, mentions⟩ := mentions
    · exact silent mentions
    · exact unmentioned ⟨inner, nodesOf_of_declared inside member, mentions⟩
  case statement.assign =>
    obtain ⟨target, source⟩ := not_or.1 silent
    exact ⟨⟨rfl, target⟩, rfl, source⟩
  case statement.print => exact ⟨⟨rfl, silent⟩, records severity excerpt.site⟩
  all_goals exact ⟨rfl, silent⟩

theorem blocks {statements : List Statement} (unmentioned : ¬ MentionedIn key statements) :
    (sameBut key).Blocks statements statements :=
  Correspondence.blocks_self fun _ member => suits unmentioned member

theorem readings (site : Site) {text : Text} (unmentioned : ¬ Mentions key text) :
    (sameBut key).Readings site (Expr.read site text) (Expr.read site text) := by
  rw [Expr.read]
  rcases reads : Expr.ofText text with place | expr
  · exact .error rfl
  · obtain ⟨references, arguments⟩ := (not_mentions_iff reads).1 unmentioned
    apply Correspondence.Readings.ok
    apply Correspondence.expressions_self (fun name member => ?_) fun _ => rfl
    · exact fun argument member => ⟨rfl, arguments argument member⟩
    · exact ⟨rfl, references name member⟩

theorem definitions {definition : Definition} (unmentioned : ¬ definition.Mentions key) :
    (sameBut key).Definitions definition definition where
  sites := rfl
  parameters := by
    refine List.forall₂_same.2 fun parameter member => ?_
    have silent : ¬ parameter.Mentions key := fun mentions => unmentioned (.inl ⟨parameter, member, mentions⟩)
    obtain ⟨target, defaults⟩ := not_or.1 silent
    refine ⟨⟨rfl, target⟩, ?_, fun _ _ _ => rfl⟩
    cases given : parameter.default with
    | none => exact .none
    | some default => exact .some ⟨rfl, fun mentions => defaults ⟨default, given, mentions⟩⟩
  bodies := blocks fun mentions => unmentioned (.inr mentions)

theorem lawful : (sameBut key).Lawful where
  source := by
    rintro site text _ ⟨rfl, unmentioned⟩
    exact ⟨trivial, readings site unmentioned⟩
  definition := by
    rintro definition _ ⟨rfl, unmentioned⟩
    exact definitions unmentioned
  key := by
    rintro _ _ rfl
    rfl
  value := by
    rintro first second name _ ⟨alike, -⟩ ⟨rfl, other⟩
    exact alike.findVariable other
  function := by
    rintro first second name ⟨alike, registered, -⟩
    rw [← alike.findFunction name]
    cases found : first.findFunction name with
    | none => exact .none
    | some definition => exact .some ⟨rfl, registered definition (Context.registers_of_findFunction found)⟩
  assign := by
    rintro first second name _ value ⟨alike, registered, outputs⟩ ⟨rfl, -⟩
    refine ⟨alike.assign name value, fun definition registers => ?_, ?_⟩
    · exact registered definition (Context.registers_assign registers)
    · rw [Context.outputs_assign, Context.outputs_assign, outputs]
  declare := by
    rintro first second definition _ name ⟨alike, registered, outputs⟩ ⟨rfl, unmentioned⟩
    refine ⟨alike.declare name definition, fun other registers => ?_, ?_⟩
    · obtain rfl | before := Context.registers_declare registers
      · exact unmentioned
      · exact registered other before
    · rw [Context.outputs_declare, Context.outputs_declare, outputs]
  enter := by
    rintro first second ⟨alike, registered, outputs⟩
    refine ⟨alike.push, fun definition registers => ?_, ?_⟩
    · exact registered definition (Context.registers_push registers)
    · rw [Context.outputs_push, Context.outputs_push, outputs]
  leave := by
    rintro first second after after' ⟨alike, registered, -⟩ ⟨-, -, outputs⟩
    rw [outputs]
    exact holding alike registered _
  operation _ _ := rfl
  unbound := by
    rintro site _ _ _ ⟨rfl, -⟩
    rfl
  unknown := by
    rintro _ _ _ _ rfl
    rfl

end sameBut

/-- Where a key is mentioned neither in a block, nor in the functions that it declares, nor in those that
are registered in a chain, nobody notices whether and to what the key is bound in any frame: a run of the
block ends the same way, adds the same outputs, and leaves chains that again differ in that key at most. -/
theorem runs_of_unmentioned (depth : Nat) {key : Text} {statements : List Statement} {first second : Context}
    (unmentioned : ¬ MentionedIn key statements)
    (registered : ∀ definition, first.Registers definition → ¬ definition.Mentions key)
    (alike : first.AlikeBut key second) :
    ∃ outcome emitted after after',
      runAll (callWithin depth) statements first = (outcome, after) ∧
      runAll (callWithin depth) statements second = (outcome, after') ∧
      after.outputs = first.outputs ++ emitted ∧ after'.outputs = second.outputs ++ emitted ∧
      after.AlikeBut key after' := by
  have lawful : (sameBut key).Lawful := sameBut.lawful
  have calls := Definition.callWithin_together lawful depth
  have together := runAll_together lawful calls (sameBut.blocks unmentioned)
  have within := runAll_within (Definition.isolated_callWithin depth) statements
  obtain ⟨outcome, scope, scope', emitted, -, ends, ends', afters, -⟩ :=
    together.ends within within (fun _ _ same => same) (fun _ _ contexts => contexts.2.2)
      (sameBut.holding alike registered [])
  have again := afters.holding (first.outputs ++ emitted) (second.outputs ++ emitted)
  rw [Context.holding_holding, Context.holding_holding] at again
  exact ⟨outcome, emitted, _, _, ends, ends', Context.outputs_holding _ _, Context.outputs_holding _ _, again⟩

/-- A call inside of a call, where the variable is null in the inner frame on one side and true in the
outer one on the other. -/
theorem runs_of_unmentioned_call :
    let definition : Definition :=
      ⟨⟨"twice".toList, [⟨['x'], none⟩], ⟨[], ⟨[], 1⟩⟩⟩, [.returns ⟨[], ⟨[], 1⟩⟩ "$x + $x".toList]⟩
    let start := (Context.empty.declare "twice".toList definition).assign ['b'] (.string ['s'] false)
    let statements : List Statement := [.print ⟨[], ⟨[], 2⟩⟩ .debug "twice(twice($b))".toList]
    ∃ outcome emitted after after',
      runAll (callWithin 3) statements (start.push.assign ['a'] .null) = (outcome, after) ∧
      runAll (callWithin 3) statements (start.assign ['a'] (.boolean true)).push = (outcome, after') ∧
      after.outputs = [] ++ emitted ∧ after'.outputs = [] ++ emitted ∧ after.AlikeBut ['a'] after' := by
  intro definition start statements
  have sum : Expr.ofText "$x + $x".toList = .ok (.binary .plus (.reference ['x']) (.reference ['x'])) :=
    Reading.eq_ok_of_toOption (by decide +kernel)
  have outer : Expr.ofText "twice(twice($b))".toList = .ok (.call "twice".toList ["twice($b)".toList]) :=
    Reading.eq_ok_of_toOption (by decide +kernel)
  have inner : Expr.ofText "twice($b)".toList = .ok (.call "twice".toList ["$b".toList]) :=
    Reading.eq_ok_of_toOption (by decide +kernel)
  have last : Expr.ofText "$b".toList = .ok (.reference ['b']) := Reading.eq_ok_of_toOption (by decide +kernel)
  have named : ¬ Mentions ['a'] "$b".toList := (not_mentions_iff last).2 ⟨by decide, List.forall_mem_nil _⟩
  have called : ¬ Mentions ['a'] "twice($b)".toList :=
    (not_mentions_iff inner).2 ⟨List.forall_mem_nil _, List.forall_mem_singleton.2 named⟩
  have printed : ¬ Mentions ['a'] "twice(twice($b))".toList :=
    (not_mentions_iff outer).2 ⟨List.forall_mem_nil _, List.forall_mem_singleton.2 called⟩
  have added : ¬ Mentions ['a'] "$x + $x".toList := (not_mentions_iff sum).2 ⟨by decide, List.forall_mem_nil _⟩
  have unmentioned : ¬ MentionedIn ['a'] statements := by
    intro ⟨node, member, mentions⟩
    obtain rfl := List.mem_singleton.1 member
    exact printed mentions
  have silent : ¬ definition.Mentions ['a'] := by
    rintro (⟨parameter, member, mentions⟩ | ⟨node, member, mentions⟩)
    · obtain rfl := List.mem_singleton.1 member
      obtain target | ⟨_, given, -⟩ := mentions
      · exact absurd target (by decide)
      · cases given
    · obtain rfl := List.mem_singleton.1 member
      exact added mentions
  have alike : Context.AlikeBut ['a'] (start.push.assign ['a'] .null) (start.assign ['a'] (.boolean true)).push :=
    .cons ⟨fun _ different => Bindings.find?_insert_of_ne [] _ different, fun _ => rfl⟩
      (.cons ⟨fun _ different => (Bindings.find?_insert_of_ne _ _ different).symm, fun _ => rfl⟩ .nil)
  refine runs_of_unmentioned 3 unmentioned (fun other registers => ?_) alike
  · obtain rfl | before :=
      Context.registers_declare (Context.registers_assign (Context.registers_push (Context.registers_assign registers)))
    · exact silent
    · obtain ⟨frame, member, _, bound⟩ := before
      obtain rfl := List.mem_singleton.1 member
      cases bound

end StyleScript
