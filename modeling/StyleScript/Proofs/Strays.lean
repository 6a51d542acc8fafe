import StyleScript.Proofs.Failures
import StyleScript.Proofs.FaultPlaces

/-! Where a `@return` comes out of a program. It leaves every block and every branch around it, but never a call;
so the one that stops a program stands in no function, and is the only one that was reached. What is reported is
the statement of the top level that it stood in: its own site where nothing is around it, and otherwise the site
of the outermost condition. -/

namespace StyleScript

open Run

/-- How far a block comes: the steps to a `@return`, and the value that it returns. -/
structure ReturnPoint where
  trace : List Event
  excerpt : Excerpt
  expression : Text
  rest : List Statement
  reached : Context
  value : Value

/-- A block comes to a point, and the expression that is to be returned has a value there. -/
structure ReturnsAt (call : Caller) (statements : List Statement) (context after : Context) (point : ReturnPoint) :
    Prop where
  leads : Leads call statements context point.trace (.returns point.excerpt point.expression :: point.rest) point.reached
  evaluates : evaluate call point.excerpt.site point.expression point.reached = (.done point.value, after)

variable {call : Caller}

theorem isStuck_returns (excerpt : Excerpt) (expression : Text) (rest : List Statement) (context : Context) :
    IsStuck call (.returns excerpt expression :: rest) context := by
  intro event next after advances
  cases advances with
  | completes simple => cases simple

section
variable {work work' more : List Statement} {context reached after : Context} {trace : List Event}

/-- What comes later does not hinder a step. -/
theorem Advances.append {event : Event} (advances : Advances call work context event work' after) (more : List Statement) :
    Advances call (work ++ more) context event (work' ++ more) after := by
  cases advances with
  | completes simple runs adds => exact .completes simple runs adds
  | decides evaluates adds =>
    rw [List.append_assoc]
    exact .decides evaluates adds

theorem Leads.append (leads : Leads call work context trace work' reached) (more : List Statement) :
    Leads call (work ++ more) context trace (work' ++ more) reached := by
  induction leads with
  | here => exact .here
  | step advances _ ih => exact .step (advances.append more) ih

theorem Leads.trans {work'' : List Statement} {trace' : List Event} (leads : Leads call work context trace work' reached)
    (later : Leads call work' reached trace' work'' after) : Leads call work context (trace ++ trace') work'' after := by
  induction leads with
  | here => exact later
  | step advances _ ih => exact .step advances (ih later)

theorem ReturnsAt.runAll_eq {point : ReturnPoint} (returns : ReturnsAt call work context after point) :
    runAll call work context = (.done (.returned point.value), after) := by
  have own : Statement.run call (.returns point.excerpt point.expression) point.reached =
      (.done (.returned point.value), after) := bind_of_done returns.evaluates _
  rw [returns.leads.runAll_eq, runAll, bind_of_done own]
  rfl

theorem ReturnsAt.unique {point other : ReturnPoint} {after' : Context} (returns : ReturnsAt call work context after point)
    (again : ReturnsAt call work context after' other) : other = point := by
  obtain ⟨trace, excerpt, expression, rest, reached, value⟩ := point
  obtain ⟨trace', excerpt', expression', rest', reached', value'⟩ := other
  obtain ⟨rfl, same, rfl⟩ := returns.leads.unique (isStuck_returns _ _ _ _) again.leads (isStuck_returns _ _ _ _)
  cases same
  cases returns.evaluates.symm.trans again.evaluates
  rfl

variable (isolated : call.Isolated)
include isolated

/-- A block that has no step left ends with the value of a `@return`, or does not end. -/
theorem IsStuck.returns_or_ne_done {statement : Statement} {rest : List Statement}
    (stuck : IsStuck call (statement :: rest) context) :
    (∃ excerpt text value after, statement = .returns excerpt text ∧
        evaluate call excerpt.site text context = (.done value, after)) ∨
      ∀ completion after, runAll call (statement :: rest) context ≠ (.done completion, after) := by
  obtain ⟨site, text, attempts, valued⟩ := stuck.attempts isolated
  rcases evaluates : evaluate call site text context with ⟨value | fault | _, after⟩
  · obtain ⟨excerpt, rfl⟩ := valued value after evaluates
    cases attempts
    exact .inl ⟨excerpt, text, value, after, rfl, evaluates⟩
  · refine .inr fun completion after' ends => ?_
    rw [runAll, bind_of_failed (attempts.run_eq.trans (bind_of_failed evaluates _))] at ends
    cases ends
  · refine .inr fun completion after' ends => ?_
    rw [runAll, bind_of_exhausted (attempts.run_eq.trans (bind_of_exhausted evaluates _))] at ends
    cases ends

/-- A block that ends with a value was led to the `@return` that it belongs to. -/
theorem exists_returnsAt {value : Value} (returns : runAll call work context = (.done (.returned value), after)) :
    ∃ point, ReturnsAt call work context after point := by
  obtain ⟨trace, work', reached, leads, stuck⟩ := exists_stuck call work context
  cases work' with
  | nil => cases leads.runAll_eq.symm.trans returns
  | cons statement rest =>
    rcases stuck.returns_or_ne_done isolated with ⟨excerpt, text, found, middle, rfl, evaluates⟩ | unfinished
    · have at_end : ReturnsAt call work context middle ⟨trace, excerpt, text, rest, reached, found⟩ :=
        ⟨leads, evaluates⟩
      cases at_end.runAll_eq.symm.trans returns
      exact ⟨_, at_end⟩
    · exact absurd (leads.runAll_eq.symm.trans returns) (unfinished _ _)

/-- A block that is completed was led to its end. -/
theorem exists_leads_of_completes (completes : runAll call work context = (.done .normal, after)) :
    ∃ trace, Leads call work context trace [] after := by
  obtain ⟨trace, work', reached, leads, stuck⟩ := exists_stuck call work context
  cases work' with
  | nil =>
    cases leads.runAll_eq.symm.trans completes
    exact ⟨trace, leads⟩
  | cons statement rest =>
    rcases stuck.returns_or_ne_done isolated with ⟨excerpt, text, found, middle, rfl, evaluates⟩ | unfinished
    · have at_end : ReturnsAt call work context middle ⟨trace, excerpt, text, rest, reached, found⟩ :=
        ⟨leads, evaluates⟩
      cases at_end.runAll_eq.symm.trans completes
    · exact absurd (leads.runAll_eq.symm.trans completes) (unfinished _ _)

end

namespace Run
variable {α β : Type}

/-- The run does not end with the fault of a stray `@return`. -/
def NeverStrays (run : Run α) : Prop := ∀ context site, (run context).1 ≠ .failed (.returnOutsideFunction site)

theorem NeverStrays.bind {run : Run α} {next : α → Run β} (first : run.NeverStrays)
    (second : ∀ value, (next value).NeverStrays) : (run >>= next).NeverStrays := by
  intro context site
  rcases began : run context with ⟨value | fault | _, after⟩
  · rw [bind_of_done began]
    exact second value after site
  · rw [bind_of_failed began]
    rintro ⟨⟩
    exact first context site (congrArg Prod.fst began)
  · rw [bind_of_exhausted began]
    nofun

theorem rule_neverStrays :
    BlockRule (fun fault => ∀ site, fault ≠ .returnOutsideFunction site) fun {_} run _ => run.NeverStrays where
  pure _ := nofun
  fail admits := by
    rintro context site ⟨⟩
    exact admits site rfl
  bind := NeverStrays.bind
  lookup _ := nofun
  assign _ _ := nofun
  record _ := nofun

end Run

def Caller.NeverStrays (call : Caller) : Prop :=
  ∀ definition arguments called, (call definition arguments called).NeverStrays

section
variable (calls : call.NeverStrays)
include calls

theorem evaluate_neverStrays (site : Site) (text : Text) : (evaluate call site text).NeverStrays := by
  apply evaluate_related call rule_neverStrays.toRule
  · rintro fault (_ | _ | _) <;> nofun
  intro expr _ name arguments _
  apply NeverStrays.bind
  · nofun
  · rintro (_ | definition)
    · rintro context site ⟨⟩
    · exact calls definition arguments site

theorem Node.neverStrays (node : Node) : node.Related (fun {_} run _ => run.NeverStrays) call call := by
  match node with
  | .statement (.function ..) => nofun
  | .statement (.returns ..) | .statement (.assign ..) | .statement (.print ..) | .statement (.conditional ..)
  | .branch .. => exact evaluate_neverStrays calls _ _

theorem Statement.run_neverStrays (statement : Statement) : (statement.run call).NeverStrays :=
  Statement.run_related rule_neverStrays fun node _ => node.neverStrays calls

/-- A `@return` in a function is taken up by the call. -/
theorem Definition.callWith_neverStrays : (callWith call).NeverStrays := by
  intro definition arguments called context
  have body : (definition.bindParameters call called definition.header.parameters arguments >>= fun _ =>
      definition.result call).NeverStrays := by
    apply NeverStrays.bind
    · apply bindParameters_related call rule_neverStrays
      · exact fun argument _ => evaluate_neverStrays calls called argument
      · exact fun _ _ default _ => evaluate_neverStrays calls definition.site default
      · exact fun _ => nofun
    · exact fun _ => result_related rule_neverStrays fun node _ => node.neverStrays calls
  exact body context.push

end

theorem Definition.neverStrays_callWithin (depth : Nat) : (callWithin depth).NeverStrays := by
  induction depth with
  | zero => exact fun _ _ _ => nofun
  | succ depth ih => exact callWith_neverStrays ih

section
variable {statements : List Statement} {context after : Context}

/-- The statements that are completed are passed over. -/
theorem runTopLevel_append {before : List Statement} (completes : runAll call before context = (.done .normal, after))
    (later : List Statement) : runTopLevel call (before ++ later) context = runTopLevel call later after := by
  induction before generalizing context with
  | nil =>
    cases completes
    rfl
  | cons statement before ih =>
    rcases runs : statement.run call context with ⟨(_ | value) | fault | _, middle⟩
    · rw [runAll, bind_of_done runs] at completes
      rw [List.cons_append, runTopLevel, bind_of_done runs]
      exact ih completes
    · rw [runAll, bind_of_done runs] at completes
      cases completes
    · rw [runAll, bind_of_failed runs] at completes
      cases completes
    · rw [runAll, bind_of_exhausted runs] at completes
      cases completes

/-- A value that ends a block comes out of one of its statements, after those before it were completed. -/
theorem exists_outermost {value : Value} (returns : runAll call statements context = (.done (.returned value), after)) :
    ∃ before outermost later entered, statements = before ++ outermost :: later ∧
      runAll call before context = (.done .normal, entered) ∧
      outermost.run call entered = (.done (.returned value), after) := by
  induction statements generalizing context with
  | nil => cases returns
  | cons statement statements ih =>
    rcases runs : statement.run call context with ⟨(_ | found) | fault | _, middle⟩
    · rw [runAll, bind_of_done runs] at returns
      obtain ⟨before, outermost, later, entered, rfl, completes, comes⟩ := ih returns
      refine ⟨statement :: before, outermost, later, entered, rfl, ?_, comes⟩
      rw [runAll, bind_of_done runs]
      exact completes
    · rw [runAll, bind_of_done runs] at returns
      cases returns
      exact ⟨[], statement, statements, context, rfl, rfl, runs⟩
    · rw [runAll, bind_of_failed runs] at returns
      cases returns
    · rw [runAll, bind_of_exhausted runs] at returns
      cases returns

/-- Where the fault is that of a stray `@return`, there was one. -/
theorem returned_of_strays (calls : call.NeverStrays) {site : Site}
    (strays : runTopLevel call statements context = (.failed (.returnOutsideFunction site), after)) :
    ∃ value, runAll call statements context = (.done (.returned value), after) := by
  induction statements generalizing context with
  | nil => cases strays
  | cons statement statements ih =>
    rcases runs : statement.run call context with ⟨(_ | value) | fault | _, middle⟩
    · rw [runTopLevel, bind_of_done runs] at strays
      rw [runAll, bind_of_done runs]
      exact ih strays
    · rw [runTopLevel, bind_of_done runs] at strays
      rw [runAll, bind_of_done runs]
      cases strays
      exact ⟨value, rfl⟩
    · rw [runTopLevel, bind_of_failed runs] at strays
      cases strays
      exact absurd (congrArg Prod.fst runs) (statement.run_neverStrays calls context site)
    · rw [runTopLevel, bind_of_exhausted runs] at strays
      cases strays

/-- Only a `@return` itself and a condition lead to one. -/
theorem Leads.of_singleton {outermost : Statement} {trace : List Event} {excerpt : Excerpt} {expression : Text}
    {inner : List Statement} (leads : Leads call [outermost] context trace (.returns excerpt expression :: inner) after) :
    outermost = .returns excerpt expression ∨
      ∃ head condition body next, outermost = .conditional head condition body next := by
  cases leads with
  | here => exact .inl rfl
  | step advances leads =>
    cases advances with
    | completes =>
      cases leads with
      | step advances => cases advances
    | decides => exact .inr ⟨_, _, _, _, rfl⟩

end

open Definition (callWithin)

theorem Sheet.compile_eq {sheet : Sheet} {statements : List Statement} (accepted : sheet.statements = .ok statements)
    (depth : Nat) : sheet.compile depth = outputsOf depth statements := by
  rw [Sheet.compile, accepted]

theorem outputsOf_failed {depth : Nat} {statements : List Statement} {fault : Fault} :
    outputsOf depth statements = .failed fault ↔
      ∃ after, runTopLevel (callWithin depth) statements .empty = (.failed fault, after) := by
  rw [outputsOf]
  rcases ends : runTopLevel (callWithin depth) statements .empty with ⟨value | cause | _, after⟩ <;> simp

theorem Sheet.ne_returnOutsideFunction {sheet : Sheet} {fault : Fault} (fails : sheet.statements = .error fault)
    (site : Site) : fault ≠ .returnOutsideFunction site := by
  obtain ⟨place, read⟩ := isOfReading_of_fault fails
  cases read <;> nofun

/-- A `@return` that a program comes to stands in one statement of the top level, and it is the site of this
one that is reported. -/
theorem ReturnsAt.comes_out {depth : Nat} {statements : List Statement} {after : Context} {point : ReturnPoint}
    (returns : ReturnsAt (callWithin depth) statements .empty after point) :
    ∃ before outermost later entered trace inner, statements = before ++ outermost :: later ∧
      runAll (callWithin depth) before .empty = (.done .normal, entered) ∧
      Leads (callWithin depth) [outermost] entered trace (.returns point.excerpt point.expression :: inner)
        point.reached ∧
      outputsOf depth statements = .failed (.returnOutsideFunction outermost.excerpt.site) := by
  have isolated : (callWithin depth).Isolated := Definition.isolated_callWithin depth
  obtain ⟨before, outermost, later, entered, rfl, completes, comes⟩ := exists_outermost returns.runAll_eq
  obtain ⟨own, inside⟩ := exists_returnsAt isolated ((congrFun (runAll_singleton outermost) entered).trans comes)
  obtain ⟨first, leads⟩ := exists_leads_of_completes isolated completes
  -- The way through the statements before, and then to the point in the outermost statement, is the only way.
  have whole : ReturnsAt (callWithin depth) (before ++ outermost :: later) .empty after
      { own with trace := first ++ own.trace, rest := own.rest ++ later } :=
    ⟨(leads.append (outermost :: later)).trans (inside.leads.append later), inside.evaluates⟩
  obtain rfl := returns.unique whole
  refine ⟨before, outermost, later, entered, own.trace, own.rest, rfl, completes, inside.leads, ?_⟩
  refine outputsOf_failed.2 ⟨after, ?_⟩
  rw [runTopLevel_append completes, runTopLevel, bind_of_done comes]
  rfl

/-- A program fails for a stray `@return` exactly if it comes to one, outside of calls, and the expression there
has a value. It comes to one point only, and what is reported is the site of the statement of the top level which
that `@return` stands in: this is the `@return` itself, or a condition. So the site of the `@return` is reported
exactly if that statement begins on the same line. -/
theorem Sheet.strays_come_out (sheet : Sheet) (depth : Nat) :
    let call := callWithin depth
    ((∃ site, sheet.compile depth = .failed (.returnOutsideFunction site)) ↔
      ∃ statements point after, sheet.statements = .ok statements ∧ ReturnsAt call statements .empty after point) ∧
    ∀ statements point after, sheet.statements = .ok statements → ReturnsAt call statements .empty after point →
      (∀ other after', ReturnsAt call statements .empty after' other → other = point) ∧
      ∃ before outermost later entered trace inner, statements = before ++ outermost :: later ∧
        runAll call before .empty = (.done .normal, entered) ∧
        Leads call [outermost] entered trace (.returns point.excerpt point.expression :: inner) point.reached ∧
        (outermost = .returns point.excerpt point.expression ∨
          ∃ head condition body next, outermost = .conditional head condition body next) ∧
        sheet.compile depth = .failed (.returnOutsideFunction outermost.excerpt.site) ∧
        (sheet.compile depth = .failed (.returnOutsideFunction point.excerpt.site) ↔
          outermost.excerpt.site = point.excerpt.site) := by
  intro call
  refine ⟨⟨?comes, ?stops⟩, ?where_⟩
  case comes =>
    rintro ⟨site, fails⟩
    cases accepted : sheet.statements with
    | error fault =>
      rw [Sheet.compile, accepted] at fails
      cases fails
      exact absurd rfl (sheet.ne_returnOutsideFunction accepted site)
    | ok statements =>
      rw [sheet.compile_eq accepted] at fails
      obtain ⟨after, strays⟩ := outputsOf_failed.1 fails
      obtain ⟨value, returns⟩ := returned_of_strays (Definition.neverStrays_callWithin depth) strays
      obtain ⟨point, reaches⟩ := exists_returnsAt (Definition.isolated_callWithin depth) returns
      exact ⟨statements, point, after, rfl, reaches⟩
  case stops =>
    rintro ⟨statements, point, after, accepted, returns⟩
    obtain ⟨before, outermost, later, entered, trace, inner, -, -, -, fails⟩ := returns.comes_out
    exact ⟨outermost.excerpt.site, (sheet.compile_eq accepted depth).trans fails⟩
  case where_ =>
    intro statements point after accepted returns
    obtain ⟨before, outermost, later, entered, trace, inner, split, completes, leads, fails⟩ := returns.comes_out
    have reported := (sheet.compile_eq accepted depth).trans fails
    refine ⟨fun _ _ again => returns.unique again, before, outermost, later, entered, trace, inner, split, completes,
      leads, leads.of_singleton, reported, ?_⟩
    rw [reported, Outcome.failed.injEq, Fault.returnOutsideFunction.injEq]

/-- A condition on the first line, and a return inside of it on the second. -/
def strayInBranch : Sheet := ⟨"main.scss".toList, .standard, "@if true {
  @return 1;
}".toList⟩

theorem reads_strayInBranch : strayInBranch.statements.toOption.map (fun statements => match statements with
    | [.conditional place condition [.returns inner text] .nothing] =>
      decide (place = ⟨"@if true".toList, ⟨"main.scss".toList, 1⟩⟩ ∧ condition = "true".toList ∧
        inner = ⟨"@return 1".toList, ⟨"main.scss".toList, 2⟩⟩ ∧ text = ['1'])
    | _ => false) = some true := by
  decide +kernel

theorem returnsAt_strayInBranch : ∃ statements point after, strayInBranch.statements = .ok statements ∧
    ReturnsAt (callWithin 1) statements .empty after point ∧ point.excerpt.site = ⟨"main.scss".toList, 2⟩ := by
  let head : Excerpt := ⟨"@if true".toList, ⟨"main.scss".toList, 1⟩⟩
  let excerpt : Excerpt := ⟨"@return 1".toList, ⟨"main.scss".toList, 2⟩⟩
  obtain ⟨statements, accepted, holds⟩ := Reading.ok_of_toOption_map reads_strayInBranch
  split at holds
  next =>
    obtain ⟨rfl, rfl, rfl, rfl⟩ := of_decide_eq_true holds
    have decided : evaluate (callWithin 1) head.site "true".toList .empty = (.done (.boolean true), .empty) := by rfl
    have valued : (match evaluate (callWithin 1) excerpt.site ['1'] .empty with
        | (.done _, _) => true
        | _ => false) = true := by
      decide +kernel
    split at valued
    next value after evaluates =>
      exact ⟨_, ⟨_, excerpt, ['1'], [], .empty, value⟩, after, accepted, ⟨.step (.decides decided rfl) .here, evaluates⟩,
        rfl⟩
    next => cases valued
  next => cases holds

/-- It is the line of the condition that is reported. -/
theorem compile_strayInBranch :
    strayInBranch.compile 1 = .failed (.returnOutsideFunction ⟨"main.scss".toList, 1⟩) := by
  have ends : (match strayInBranch.compile 1 with | .failed fault => some fault | _ => none) =
      some (.returnOutsideFunction ⟨"main.scss".toList, 1⟩) := by
    decide +kernel
  split at ends
  next fault fails =>
    cases ends
    exact fails
  next => cases ends

theorem strays_come_out_of_branch :
    (∃ site, strayInBranch.compile 1 = .failed (.returnOutsideFunction site)) ∧
    ∃ statements point after, strayInBranch.statements = .ok statements ∧
      ReturnsAt (callWithin 1) statements .empty after point ∧ point.excerpt.site = ⟨"main.scss".toList, 2⟩ ∧
      ∃ head condition body next, .conditional head condition body next ∈ statements ∧
        strayInBranch.compile 1 = .failed (.returnOutsideFunction head.site) := by
  obtain ⟨statements, point, after, accepted, returns, second⟩ := returnsAt_strayInBranch
  obtain ⟨strays, comes⟩ := Sheet.strays_come_out strayInBranch 1
  refine ⟨strays.2 ⟨statements, point, after, accepted, returns⟩, statements, point, after, accepted, returns, second, ?_⟩
  obtain ⟨-, before, outermost, later, entered, trace, inner, rfl, -, -, around, reported, own⟩ :=
    comes statements point after accepted returns
  have inside : outermost ∈ before ++ outermost :: later := List.mem_append_right _ List.mem_cons_self
  rcases around with rfl | ⟨head, condition, body, next, rfl⟩
  · cases compile_strayInBranch.symm.trans ((own.2 rfl).trans (by rw [second]))
  · exact ⟨head, condition, body, next, inside, reported⟩

/-- The site that is reported need not be that of the `@return`. -/
theorem not_strays_where_written :
    ¬ ∀ (sheet : Sheet) (depth : Nat) (statements : List Statement) (point : ReturnPoint) (after : Context),
      sheet.statements = .ok statements → ReturnsAt (callWithin depth) statements .empty after point →
      sheet.compile depth = .failed (.returnOutsideFunction point.excerpt.site) := by
  intro reported
  obtain ⟨statements, point, after, accepted, returns, second⟩ := returnsAt_strayInBranch
  have own := reported strayInBranch 1 statements point after accepted returns
  rw [second] at own
  cases compile_strayInBranch.symm.trans own

end StyleScript
