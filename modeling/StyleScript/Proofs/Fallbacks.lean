import StyleScript.Proofs.Failures

/-! Blocks of assignments that are defaults. Whether one of them is skipped is seen through the whole chain of frames,
and it is bound in the innermost. A value that is there stays in sight, so a second run has nothing left to do. -/

namespace StyleScript

open Run

/-- An assignment that is a default. -/
structure Fallback where
  excerpt : Excerpt
  name : Text
  expression : Text

def Fallback.statement (fallback : Fallback) : Statement :=
  .assign fallback.excerpt fallback.name fallback.expression true

namespace Context

/-- The name resolves to the value, in whatever frame it is bound, and the value is not null. -/
def Settles (context : Context) (name : Text) (value : Value) : Prop :=
  context.findVariable name = some value ∧ value ≠ .null

/-- What every name resolves to stays the same, unless that is nothing or null. -/
def Keeps (context after : Context) : Prop := ∀ name value, context.Settles name value → after.Settles name value

theorem settles_holding {context : Context} {held : List Output} {name : Text} {value : Value} :
    (context.holding held).Settles name value ↔ context.Settles name value := by
  rw [Settles, findVariable_holding, Settles]

theorem exists_settles_iff {context : Context} {name : Text} :
    (∃ value, context.Settles name value) ↔ (context.findVariable name).any (!·.isNull) = true := by
  have filled (value : Value) : (!value.isNull) = true ↔ value ≠ .null := by cases value <;> simp [Value.isNull]
  simp only [Settles, Option.any_eq_true, filled]

/-- A name that is bound anew has only hidden what was nothing or null, under each of its spellings. -/
theorem keeps_assign {context : Context} {name : Text} (unsettled : ¬ ∃ value, context.Settles name value)
    (value : Value) : context.Keeps (context.assign name value) := by
  intro other kept settles
  have apart : Name.variableKey other ≠ Name.variableKey name := by
    intro same
    have found : context.findVariable name = context.findVariable other := by rw [findVariable, ← same, findVariable]
    exact unsettled ⟨kept, found.trans settles.1, settles.2⟩
  exact ⟨by rw [findVariable_assign, if_neg apart, settles.1], settles.2⟩

theorem Keeps.refl (context : Context) : context.Keeps context := fun _ _ => id

theorem Keeps.trans {context middle after : Context} (first : context.Keeps middle) (later : middle.Keeps after) :
    context.Keeps after :=
  fun name value settles => later name value (first name value settles)

/-- What comes next runs only where the first run is done. -/
theorem keeps_bind {α β : Type} {run : Run α} {next : α → Run β} {context after : Context} {outcome : Outcome β}
    (first : ∀ ending middle, run context = (ending, middle) → context.Keeps middle)
    (later : ∀ value middle, run context = (.done value, middle) → next value middle = (outcome, after) →
      middle.Keeps after)
    (runs : (run >>= next) context = (outcome, after)) : context.Keeps after := by
  rcases ends : run context with ⟨value | fault | _, middle⟩
  · rw [bind_of_done ends] at runs
    exact (first _ middle ends).trans (later value middle ends runs)
  · rw [bind_of_failed ends] at runs
    cases runs
    exact first _ after ends
  · rw [bind_of_exhausted ends] at runs
    cases runs
    exact first _ after ends

end Context

namespace Fallback
variable {fallback : Fallback} {context after : Context} {call : Caller}

/-- It begins an evaluation exactly where its name resolves to nothing or null. -/
theorem attempts_iff {site : Site} {text : Text} :
    fallback.statement.Attempts context site text ↔
      (¬ ∃ value, context.Settles fallback.name value) ∧ site = fallback.excerpt.site ∧ text = fallback.expression := by
  constructor
  · intro attempts
    cases attempts with
    | assign excerpt expression needed => exact ⟨mt Context.exists_settles_iff.1 needed, rfl, rfl⟩
  · rintro ⟨unsettled, rfl, rfl⟩
    exact .assign fallback.excerpt fallback.expression (mt Context.exists_settles_iff.2 unsettled)

theorem run_of_settled (settled : ∃ value, context.Settles fallback.name value) (call : Caller) :
    fallback.statement.run call context = (.done .normal, context) := by
  have kept : (true && (context.findVariable fallback.name).any (!·.isNull)) = true :=
    Context.exists_settles_iff.1 settled
  change (if _ then _ else _ : Run Completion) context = _
  rw [if_pos kept]
  rfl

theorem run_keeps (isolated : call.Isolated) {outcome : Outcome Completion}
    (runs : fallback.statement.run call context = (outcome, after)) : context.Keeps after := by
  by_cases settled : ∃ value, context.Settles fallback.name value
  · rw [run_of_settled settled] at runs
    cases runs
    exact .refl context
  · have attempts := attempts_iff.2 ⟨settled, rfl, rfl⟩
    obtain ⟨ending, emitted, evaluates⟩ :=
      (evaluate_within isolated fallback.excerpt.site fallback.expression).eq_holding context
    rw [attempts.run_eq] at runs
    refine Context.keeps_bind (fun _ middle ends => ?_) (fun value middle ends assigns => ?_) runs
    -- Lookups answer as before the evaluation, whatever it added to the outputs.
    · cases evaluates.symm.trans ends
      exact fun name value => Context.settles_holding.2
    · cases evaluates.symm.trans ends
      cases assigns
      have unsettled : ¬ ∃ value, (context.holding (context.outputs ++ emitted)).Settles fallback.name value := by
        simpa only [Context.settles_holding] using settled
      exact Context.keeps_assign unsettled value

end Fallback

section
variable {block : List Fallback} {context after : Context} {call : Caller}

theorem runAll_keeps (isolated : call.Isolated) {outcome : Outcome Completion}
    (runs : runAll call (block.map (·.statement)) context = (outcome, after)) : context.Keeps after := by
  induction block generalizing context with
  | nil =>
    cases runs
    exact .refl _
  | cons fallback block ih =>
    rw [List.map_cons, runAll] at runs
    refine Context.keeps_bind (fun _ _ => Fallback.run_keeps isolated) (fun completion middle _ continues => ?_) runs
    cases completion with
    | normal => exact ih continues
    | returned value =>
      cases continues
      exact .refl _

theorem runAll_of_settled (settled : ∀ fallback ∈ block, ∃ value, context.Settles fallback.name value) (call : Caller) :
    runAll call (block.map (·.statement)) context = (.done .normal, context) := by
  induction block with
  | nil => rfl
  | cons fallback block ih =>
    obtain ⟨here, later⟩ := List.forall_mem_cons.1 settled
    rw [List.map_cons, runAll, bind_of_done (Fallback.run_of_settled here call)]
    exact ih later

/-- Wherever the steps of a settled block lead, the context is the same, and no statement that is left would begin an
evaluation there. -/
theorem Leads.of_settled (settled : ∀ fallback ∈ block, ∃ value, context.Settles fallback.name value)
    {trace : List Event} {rest : List Statement} {reached : Context}
    (leads : Leads call (block.map (·.statement)) context trace rest reached) :
    reached = context ∧ ∀ statement ∈ rest, ∀ site text, ¬ statement.Attempts reached site text := by
  generalize work : block.map (·.statement) = statements at leads
  induction leads generalizing block with
  | here =>
    subst work
    refine ⟨rfl, List.forall_mem_map.2 fun fallback member site text attempts => ?_⟩
    exact (Fallback.attempts_iff.1 attempts).1 (settled fallback member)
  | step advances _ ih =>
    cases advances with
    | completes simple runs =>
      obtain ⟨fallback, block, rfl, rfl, rfl⟩ := List.map_eq_cons_iff.1 work
      obtain ⟨here, later⟩ := List.forall_mem_cons.1 settled
      rw [Fallback.run_of_settled here] at runs
      cases runs
      exact ih later rfl
    | decides =>
      obtain ⟨fallback, block, rfl, impossible, -⟩ := List.map_eq_cons_iff.1 work
      cases impossible

end

open Definition (callWithin)

/-- A block of defaults changes no value in sight but null, however it ends. If then all of its names resolve to values
other than null, it runs again without changing anything, and no step of it evaluates an expression: a block with the
same names does the same whatever its expressions are, and whatever calls would do. -/
theorem fallbacks_idempotent {depth : Nat} {block : List Fallback} {context after : Context}
    {outcome : Outcome Completion}
    (runs : runAll (callWithin depth) (block.map (·.statement)) context = (outcome, after)) :
    (∀ name value, context.Settles name value → after.Settles name value) ∧
    ((∀ fallback ∈ block, ∃ value, after.Settles fallback.name value) →
      ∀ call : Caller,
        (∀ other : List Fallback, other.map (·.name) = block.map (·.name) →
          runAll call (other.map (·.statement)) after = (.done .normal, after)) ∧
        ∀ trace rest reached, Leads call (block.map (·.statement)) after trace rest reached →
          reached = after ∧ ∀ statement ∈ rest, ∀ site text, ¬ statement.Attempts reached site text) := by
  refine ⟨runAll_keeps (Definition.isolated_callWithin depth) runs, fun settled call => ⟨fun other same => ?_, ?_⟩⟩
  · have names : ∀ name ∈ block.map (·.name), ∃ value, after.Settles name value := List.forall_mem_map.2 settled
    rw [← same] at names
    exact runAll_of_settled (fun fallback member => names fallback.name (List.mem_map_of_mem member)) call
  · exact fun trace rest reached leads => leads.of_settled settled

/-- A name that is bound outside, one that a call gives a value, the same name with an underscore for the dash, and one
that was null. The second run is that of a block whose expressions cannot be read. -/
theorem fallbacks_idempotent_respelled :
    let excerpt (line : Nat) : Excerpt := ⟨[], ⟨['m'], line⟩⟩
    let definition : Definition := ⟨⟨['f'], [], excerpt 1⟩, [.print (excerpt 2) .debug "$a".toList,
      .returns (excerpt 3) "$a".toList]⟩
    let context :=
      (((Context.empty.declare ['f'] definition).assign ['a'] (.string ['x'] false)).assign ['c'] .null).push
    let block : List Fallback := [⟨excerpt 4, ['a'], "$b-c".toList⟩, ⟨excerpt 5, "b-c".toList, "f()".toList⟩,
      ⟨excerpt 6, "b_c".toList, ['y']⟩, ⟨excerpt 7, ['c'], "$b_c".toList⟩]
    let other : List Fallback := block.map fun fallback => { fallback with expression := ['('] }
    ∃ after, runAll (callWithin 1) (block.map (·.statement)) context = (.done .normal, after) ∧
      after.outputs = [⟨.debug, ⟨['m'], 2⟩, ['x']⟩] ∧
      context.Settles ['a'] (.string ['x'] false) ∧ after.Settles ['a'] (.string ['x'] false) ∧
      runAll (callWithin 0) (other.map (·.statement)) after = (.done .normal, after) := by
  intro excerpt definition context block other
  have ends : (match runAll (callWithin 1) (block.map (·.statement)) context with
      | (.done .normal, after) => decide (after.outputs = [⟨.debug, ⟨['m'], 2⟩, ['x']⟩]) &&
        block.all fun fallback => (after.findVariable fallback.name).any (!·.isNull)
      | _ => false) = true := by
    decide +kernel
  split at ends
  next after runs =>
    obtain ⟨outputs, filled⟩ := Bool.and_eq_true_iff.1 ends
    have bound : context.Settles ['a'] (.string ['x'] false) := ⟨by decide, by decide⟩
    have settled : ∀ fallback ∈ block, ∃ value, after.Settles fallback.name value := fun fallback member =>
      Context.exists_settles_iff.2 (List.all_eq_true.1 filled fallback member)
    have kept := fallbacks_idempotent runs
    exact ⟨after, runs, of_decide_eq_true outputs, bound, kept.1 _ _ bound, (kept.2 settled (callWithin 0)).1 other rfl⟩
  next => cases ends

end StyleScript
