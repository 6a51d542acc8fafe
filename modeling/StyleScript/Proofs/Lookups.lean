import StyleScript.Proofs.SelfCorrespondence

/-! How a context is cut into frames does not show. Where two chains of frames answer every lookup
alike, runs end alike, add the same outputs, and leave chains that again answer alike. -/

namespace StyleScript
open Definition (callWithin)

/-- The bindings of an inner frame and, for what it does not bind, those of an outer one. -/
def Bindings.merge {α : Type} (inner outer : Bindings α) : Bindings α :=
  inner.foldr (fun entry bindings => bindings.insert entry.1 entry.2) outer

theorem Bindings.find?_merge {α : Type} (inner outer : Bindings α) (key : Text) :
    (inner.merge outer).find? key = (inner.find? key).or (outer.find? key) := by
  induction inner with
  | nil => rfl
  | cons entry inner ih =>
    obtain ⟨bound, value⟩ := entry
    change ((Bindings.merge inner outer).insert bound value).find? key = _
    rw [Bindings.find?_insert, ih]
    by_cases same : key = bound
    · simp [Bindings.find?, same]
    · simp [Bindings.find?, List.lookup_cons, same, beq_false_of_ne same]

def Scope.merge (inner outer : Scope) : Scope where
  values := inner.values.merge outer.values
  functions := inner.functions.merge outer.functions

namespace Context

structure Alike (first second : Context) : Prop where
  values : ∀ name, first.findVariable name = second.findVariable name
  functions : ∀ key, first.findFunction key = second.findFunction key

/-- All frames as one. -/
def flat (context : Context) : Context :=
  { frame := { toScope := context.scopes.foldr Scope.merge {}, outputs := context.outputs } }

section
variable {α : Type} {bindings : Scope → Bindings α}

theorem find?_flat (blank : bindings {} = []) (merges : ∀ inner outer, bindings (inner.merge outer) =
      (bindings inner).merge (bindings outer)) (context : Context) (key : Text) :
    context.flat.find? bindings key = context.find? bindings key := by
  have merged : ∀ scopes : List Scope, (bindings (scopes.foldr Scope.merge {})).find? key =
      scopes.findSome? fun scope => (bindings scope).find? key := by
    intro scopes
    induction scopes with
    | nil => exact congrArg (Bindings.find? · key) blank
    | cons scope scopes ih =>
      rw [List.foldr_cons, merges, Bindings.find?_merge, ih, List.findSome?_cons]
      cases (bindings scope).find? key <;> rfl
  have single : context.flat.find? bindings key = (bindings (context.scopes.foldr Scope.merge {})).find? key := by
    change List.findSome? _ [context.scopes.foldr Scope.merge {}] = _
    rw [List.findSome?_singleton]
  rw [single, merged, find?]

end

theorem alike_flat (context : Context) : context.Alike context.flat where
  values name := (find?_flat rfl (fun _ _ => rfl) context (Name.variableKey name)).symm
  functions key := (find?_flat rfl (fun _ _ => rfl) context key).symm

theorem push_alike (context : Context) : context.push.Alike context :=
  ⟨findVariable_push context, findFunction_push context⟩

variable {first second : Context}

theorem Alike.push (alike : first.Alike second) : first.push.Alike second.push :=
  ⟨alike.values, alike.functions⟩

theorem Alike.holding (alike : first.Alike second) (outputs outputs' : List Output) :
    (first.holding outputs).Alike (second.holding outputs') where
  values name := by rw [findVariable_holding, findVariable_holding, alike.values]
  functions key := by rw [findFunction_holding, findFunction_holding, alike.functions]

theorem Alike.record (alike : first.Alike second) (output : Output) :
    (first.record output).Alike (second.record output) := by
  rw [record_eq_holding, record_eq_holding]
  exact alike.holding _ _

theorem Alike.assign (alike : first.Alike second) (name : Text) (value : Value) :
    (first.assign name value).Alike (second.assign name value) where
  values other := by rw [findVariable_assign, findVariable_assign, alike.values]
  functions := alike.functions

theorem Alike.declare (alike : first.Alike second) (key : Text) (definition : Definition) :
    (first.declare key definition).Alike (second.declare key definition) where
  values := alike.values
  functions other := by rw [findFunction_declare, findFunction_declare, alike.functions]

end Context

/-- Everything is the same on both sides but for the frames. -/
def sameLookups : Correspondence where
  site _ := True
  name := Eq
  callee := Eq
  source _ := Eq
  definition := Eq
  fault := Eq
  context first second := first.Alike second ∧ first.outputs = second.outputs

namespace sameLookups

theorem suits (node : Node) : sameLookups.Suits node := by
  have records : ∀ severity site, sameLookups.Records severity site := by
    intro severity site message first second ⟨alike, outputs⟩
    exact ⟨alike.record _, by rw [Context.outputs_record, Context.outputs_record, outputs]⟩
  obtain (_ | _ | _ | _ | _) | _ := node
  case statement.assign => exact ⟨rfl, rfl⟩
  case statement.print => exact ⟨rfl, records _ _⟩
  all_goals exact rfl

theorem readings (site : Site) (reading : Except Fault Expr) : sameLookups.Readings site reading reading := by
  cases reading with
  | ok expr => exact .ok (Correspondence.expressions_self (fun _ _ => rfl) (fun _ => rfl) fun _ _ => rfl)
  | error fault => exact .error rfl

theorem blocks (statements : List Statement) : sameLookups.Blocks statements statements :=
  Correspondence.blocks_self fun node _ => suits node

theorem definitions (definition : Definition) : sameLookups.Definitions definition definition where
  sites := rfl
  parameters := by
    refine List.forall₂_same.2 fun parameter _ => ⟨rfl, ?_, fun _ _ _ => rfl⟩
    cases parameter.default with
    | none => exact .none
    | some default => exact .some rfl
  bodies := blocks definition.body

theorem lawful : sameLookups.Lawful where
  source := by
    rintro site text _ rfl
    exact ⟨trivial, readings site _⟩
  definition := by
    rintro definition _ rfl
    exact definitions definition
  key := by
    rintro _ _ rfl
    rfl
  value := by
    rintro _ _ name _ ⟨alike, -⟩ rfl
    exact alike.values name
  function := by
    rintro first second key ⟨alike, -⟩
    rw [alike.functions]
    cases second.findFunction key with
    | none => exact .none
    | some definition => exact .some rfl
  assign := by
    rintro _ _ name _ value ⟨alike, outputs⟩ rfl
    exact ⟨alike.assign name value, by rw [Context.outputs_assign, Context.outputs_assign, outputs]⟩
  declare := by
    rintro _ _ definition _ key ⟨alike, outputs⟩ rfl
    exact ⟨alike.declare key definition, by rw [Context.outputs_declare, Context.outputs_declare, outputs]⟩
  enter := by
    rintro _ _ ⟨alike, outputs⟩
    exact ⟨alike.push, by rw [Context.outputs_push, Context.outputs_push, outputs]⟩
  leave := by
    rintro _ _ _ _ ⟨alike, -⟩ ⟨-, outputs⟩
    exact ⟨alike.holding _ _, by rw [Context.outputs_holding, Context.outputs_holding, outputs]⟩
  operation _ _ := rfl
  unbound := by
    rintro _ _ _ _ rfl
    rfl
  unknown := by
    rintro _ _ _ _ rfl
    rfl

/-- What the two runs leave is alike whatever outputs were there before. -/
theorem ends_of_together {α : Type} {reach : Reach} {run run' : Run α} (together : run.Together sameLookups run')
    (within : run.Within reach) (within' : run'.Within reach) {first second : Context} (alike : first.Alike second) :
    ∃ outcome scope scope' emitted, (reach = .nothing → scope = first.frame.toScope ∧ scope' = second.frame.toScope) ∧
      run first = (outcome, (first.binding scope).holding (first.outputs ++ emitted)) ∧
      run' second = (outcome, (second.binding scope').holding (second.outputs ++ emitted)) ∧
      ∀ outputs outputs', ((first.binding scope).holding outputs).Alike ((second.binding scope').holding outputs') := by
  have same : (first.holding []).outputs = (second.holding []).outputs := by
    rw [Context.outputs_holding, Context.outputs_holding]
  obtain ⟨outcome, scope, scope', emitted, keeps, ends, ends', afters, -⟩ :=
    together.ends within within' (fun _ _ same => same) (fun _ _ contexts => contexts.2) ⟨alike.holding [] [], same⟩
  refine ⟨outcome, scope, scope', emitted, keeps, ends, ends', fun outputs outputs' => ?_⟩
  have again := afters.holding outputs outputs'
  rwa [Context.holding_holding, Context.holding_holding] at again

end sameLookups

open sameLookups in
/-- Only what lookups answer matters to a run, and not how the answers are spread over frames. So all
frames of a context can be put into one, and an empty frame inside of it is not noticed. -/
theorem runs_of_alike (depth : Nat) {first second : Context} (alike : first.Alike second) :
    (∀ site source, ∃ outcome emitted,
      evaluate (callWithin depth) site source first = (outcome, first.holding (first.outputs ++ emitted)) ∧
      evaluate (callWithin depth) site source second = (outcome, second.holding (second.outputs ++ emitted))) ∧
    (∀ statements, ∃ outcome emitted after after',
      runAll (callWithin depth) statements first = (outcome, after) ∧
      runAll (callWithin depth) statements second = (outcome, after') ∧
      after.outputs = first.outputs ++ emitted ∧ after'.outputs = second.outputs ++ emitted ∧ after.Alike after') ∧
    first.Alike first.flat ∧ first.flat.depth = 0 ∧ first.push.Alike first := by
  have calls := Definition.callWithin_together lawful depth
  have isolated := Definition.isolated_callWithin depth
  refine ⟨fun site source => ?_, fun statements => ?_, first.alike_flat, rfl, first.push_alike⟩
  · have together := evaluate_together lawful calls (rfl : site = site) (rfl : source = source)
    have within := evaluate_within isolated site source
    obtain ⟨outcome, scope, scope', emitted, keeps, ends, ends', -⟩ := ends_of_together together within within alike
    obtain ⟨rfl, rfl⟩ := keeps rfl
    exact ⟨outcome, emitted, ends, ends'⟩
  · have together := runAll_together lawful calls (blocks statements)
    have within := runAll_within isolated statements
    obtain ⟨outcome, scope, scope', emitted, -, ends, ends', afters⟩ := ends_of_together together within within alike
    exact ⟨outcome, emitted, _, _, ends, ends', Context.outputs_holding _ _, Context.outputs_holding _ _, afters _ _⟩

/-- One binding in an outer frame and one in an inner frame, or both in one frame in the other order. -/
theorem runs_of_alike_reordered :
    let first := (Context.empty.assign ['a'] .null).push.assign ['b'] (.boolean true)
    let second := (Context.empty.assign ['b'] (.boolean true)).assign ['a'] .null
    ∃ outcome emitted after after',
      runAll (callWithin 1) [.print ⟨[], ⟨[], 1⟩⟩ .debug "not $b".toList] first = (outcome, after) ∧
      runAll (callWithin 1) [.print ⟨[], ⟨[], 1⟩⟩ .debug "not $b".toList] second = (outcome, after') ∧
      after.outputs = first.outputs ++ emitted ∧ after'.outputs = second.outputs ++ emitted ∧
      after.Alike after' := by
  intro first second
  have apart : Name.variableKey ['a'] ≠ Name.variableKey ['b'] := by decide
  have values : ∀ name, first.findVariable name = second.findVariable name := by
    intro name
    simp only [first, second, Context.findVariable_assign, Context.findVariable_push]
    by_cases inner : Name.variableKey name = Name.variableKey ['b']
    · rw [if_pos inner, if_neg (inner ▸ apart.symm), if_pos inner]
    · rw [if_neg inner, if_neg inner]
  exact (runs_of_alike 1 ⟨values, fun _ => rfl⟩).2.1 _

end StyleScript
