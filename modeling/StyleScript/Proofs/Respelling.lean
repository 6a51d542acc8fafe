import StyleScript.Proofs.Correspondence
import StyleScript.Proofs.Taking

/-! Spellings of one program. A variable may be written with either sigil, and with dashes or underscores;
a function may be called by any name that has its key. Programs that differ in nothing else run alike:
bindings and lookups go by keys, and so does the reading of texts that are evaluated later. -/

namespace StyleScript
open Definition (callWithin)

mutual
/-- Both texts are expressions, and these are spellings of one another. -/
inductive Text.Respelled : Text → Text → Prop where
  | read {text text' : Text} {expr expr' : Expr} (reads : Expr.ofText text = .ok expr)
      (reads' : Expr.ofText text' = .ok expr') (exprs : Expr.Respelled expr expr') : Text.Respelled text text'

/-- Which sigil a variable is written with does not show in an expression. -/
inductive Expr.Respelled : Expr → Expr → Prop where
  | literal (value : Value) : Expr.Respelled (.literal value) (.literal value)
  | reference {name name' : Text} (names : Name.variableKey name = Name.variableKey name') :
      Expr.Respelled (.reference name) (.reference name')
  | call {name name' : Text} {arguments arguments' : List Text}
      (names : Name.functionKey name = Name.functionKey name')
      (texts : List.Forall₂ Text.Respelled arguments arguments') :
      Expr.Respelled (.call name arguments) (.call name' arguments')
  | negate {operand operand' : Expr} (operands : Expr.Respelled operand operand') :
      Expr.Respelled (.negate operand) (.negate operand')
  | not {operand operand' : Expr} (operands : Expr.Respelled operand operand') :
      Expr.Respelled (.not operand) (.not operand')
  | both {left left' right right' : Expr} (lefts : Expr.Respelled left left') (rights : Expr.Respelled right right') :
      Expr.Respelled (.both left right) (.both left' right')
  | either {left left' right right' : Expr} (lefts : Expr.Respelled left left')
      (rights : Expr.Respelled right right') : Expr.Respelled (.either left right) (.either left' right')
  | binary {left left' right right' : Expr} (operator : Operator) (lefts : Expr.Respelled left left')
      (rights : Expr.Respelled right right') :
      Expr.Respelled (.binary operator left right) (.binary operator left' right')
end

structure Parameter.Respelled (parameter parameter' : Parameter) : Prop where
  names : Name.variableKey parameter.name = Name.variableKey parameter'.name
  defaults : Option.Rel Text.Respelled parameter.default parameter'.default

/-- The name in a header is a key already. -/
structure Header.Respelled (header header' : Header) : Prop where
  names : header.name = header'.name
  sites : header.excerpt.site = header'.excerpt.site
  parameters : List.Forall₂ Parameter.Respelled header.parameters header'.parameters

mutual
inductive Statement.Respelled : Statement → Statement → Prop where
  | function {header header' : Header} {body body' : List Statement} (headers : header.Respelled header')
      (bodies : RespelledAll body body') : Statement.Respelled (.function header body) (.function header' body')
  | returns {excerpt excerpt' : Excerpt} {text text' : Text} (sites : excerpt.site = excerpt'.site)
      (texts : Text.Respelled text text') : Statement.Respelled (.returns excerpt text) (.returns excerpt' text')
  | assign {excerpt excerpt' : Excerpt} {name name' text text' : Text} (isDefault : Bool)
      (sites : excerpt.site = excerpt'.site) (names : Name.variableKey name = Name.variableKey name')
      (texts : Text.Respelled text text') :
      Statement.Respelled (.assign excerpt name text isDefault) (.assign excerpt' name' text' isDefault)
  | conditional {excerpt excerpt' : Excerpt} {text text' : Text} {body body' : List Statement}
      {next next' : Otherwise} (sites : excerpt.site = excerpt'.site) (texts : Text.Respelled text text')
      (bodies : RespelledAll body body') (nexts : Otherwise.Respelled next next') :
      Statement.Respelled (.conditional excerpt text body next) (.conditional excerpt' text' body' next')
  | print {excerpt excerpt' : Excerpt} (severity : Severity) {text text' : Text}
      (sites : excerpt.site = excerpt'.site) (texts : Text.Respelled text text') :
      Statement.Respelled (.print excerpt severity text) (.print excerpt' severity text')

/-- Two trees of one shape, with the same sites and with names and texts that are respelled. -/
inductive RespelledAll : List Statement → List Statement → Prop where
  | nil : RespelledAll [] []
  | cons {statement statement' : Statement} {statements statements' : List Statement}
      (first : Statement.Respelled statement statement') (rest : RespelledAll statements statements') :
      RespelledAll (statement :: statements) (statement' :: statements')

inductive Otherwise.Respelled : Otherwise → Otherwise → Prop where
  | nothing : Otherwise.Respelled .nothing .nothing
  | block {body body' : List Statement} (bodies : RespelledAll body body') :
      Otherwise.Respelled (.block body) (.block body')
  | condition (site : Site) {text text' : Text} {body body' : List Statement} {next next' : Otherwise}
      (texts : Text.Respelled text text') (bodies : RespelledAll body body')
      (nexts : Otherwise.Respelled next next') :
      Otherwise.Respelled (.condition site text body next) (.condition site text' body' next')
end

/-- The same fault, but for the spelling of the names that it quotes. -/
inductive Fault.Respelled : Fault → Fault → Prop where
  | same (fault : Fault) : Fault.Respelled fault fault
  | undefinedVariable (site : Site) {name name' : Text} (names : Name.variableKey name = Name.variableKey name') :
      Fault.Respelled (.undefinedVariable site name) (.undefinedVariable site name')
  | undefinedFunction (site : Site) {name name' : Text} (names : Name.functionKey name = Name.functionKey name') :
      Fault.Respelled (.undefinedFunction site name) (.undefinedFunction site name')
  | missingArgument (function : Text) {parameter parameter' : Text} (declared called : Site)
      (names : Name.variableKey parameter = Name.variableKey parameter') :
      Fault.Respelled (.missingArgument function parameter declared called)
        (.missingArgument function parameter' declared called)

structure Definition.Respelled (definition definition' : Definition) : Prop where
  headers : definition.header.Respelled definition'.header
  bodies : RespelledAll definition.body definition'.body

/-- The same values under every key, functions that are respelled, and the same outputs. -/
structure Context.Respelled (first second : Context) : Prop where
  values : ∀ name, first.findVariable name = second.findVariable name
  functions : ∀ key, Option.Rel Definition.Respelled (first.findFunction key) (second.findFunction key)
  outputs : first.outputs = second.outputs

/-- Names belong together where they have one key. -/
def respelling : Correspondence where
  site _ := True
  name first second := Name.variableKey first = Name.variableKey second
  callee first second := Name.functionKey first = Name.functionKey second
  source _ := Text.Respelled
  definition := Definition.Respelled
  fault := Fault.Respelled
  context := Context.Respelled

namespace Context.Respelled
variable {first second : Context} (respelled : first.Respelled second)
include respelled

theorem assign {name name' : Text} (names : Name.variableKey name = Name.variableKey name') (value : Value) :
    (first.assign name value).Respelled (second.assign name' value) where
  values other := by rw [findVariable_assign, findVariable_assign, names, respelled.values]
  functions := respelled.functions
  outputs := by rw [outputs_assign, outputs_assign, respelled.outputs]

theorem declare (key : Text) {definition definition' : Definition} (definitions : definition.Respelled definition') :
    (first.declare key definition).Respelled (second.declare key definition') where
  values := respelled.values
  functions other := by
    rw [findFunction_declare, findFunction_declare]
    split
    · exact .some definitions
    · exact respelled.functions other
  outputs := by rw [outputs_declare, outputs_declare, respelled.outputs]

theorem holding (held : List Output) : (first.holding held).Respelled (second.holding held) where
  values name := by rw [findVariable_holding, findVariable_holding, respelled.values]
  functions key := by
    rw [findFunction_holding, findFunction_holding]
    exact respelled.functions key
  outputs := by rw [outputs_holding, outputs_holding]

theorem push : first.push.Respelled second.push where
  values := respelled.values
  functions := respelled.functions
  outputs := by rw [outputs_push, outputs_push, respelled.outputs]

theorem record (output : Output) : (first.record output).Respelled (second.record output) := by
  rw [record_eq_holding, record_eq_holding, respelled.outputs]
  exact respelled.holding _

end Context.Respelled

namespace respelling

theorem expressions (site : Site) : ∀ {expr expr' : Expr}, Expr.Respelled expr expr' →
    respelling.Expressions site expr expr'
  | _, _, .literal value => .literal value
  | _, _, .reference names => .reference names
  | _, _, .call names texts => .call names texts
  | _, _, .negate operands => .negate (expressions site operands)
  | _, _, .not operands => .not (expressions site operands)
  | _, _, .both lefts rights => .both (expressions site lefts) (expressions site rights)
  | _, _, .either lefts rights => .either (expressions site lefts) (expressions site rights)
  | _, _, .binary operator lefts rights => .binary operator (expressions site lefts) (expressions site rights)

mutual
theorem statements : ∀ {statement statement' : Statement}, statement.Respelled statement' →
    respelling.Statements statement statement'
  | _, _, .function headers bodies => .function headers.names headers.sites ⟨headers, bodies⟩
  | _, _, .returns sites texts => .returns sites texts
  | _, _, .assign _ sites names texts => .assign sites names texts
  | _, _, .conditional sites texts bodies nexts => .conditional sites texts (blocks bodies) (others nexts)
  | _, _, .print _ sites texts => .print sites texts fun _ _ _ respelled => respelled.record _

theorem blocks : ∀ {statements statements' : List Statement}, RespelledAll statements statements' →
    respelling.Blocks statements statements'
  | _, _, .nil => .nil
  | _, _, .cons first rest => .cons (statements first) (blocks rest)

theorem others : ∀ {next next' : Otherwise}, next.Respelled next' → respelling.Others next next'
  | _, _, .nothing => .nothing
  | _, _, .block bodies => .block (blocks bodies)
  | _, _, .condition _ texts bodies nexts => .condition texts (blocks bodies) (others nexts)
end

theorem definitions {definition definition' : Definition} (respelled : definition.Respelled definition') :
    respelling.Definitions definition definition' where
  sites := respelled.headers.sites
  parameters := by
    refine respelled.headers.parameters.imp fun parameter parameter' parameters => ?_
    refine ⟨parameters.names, parameters.defaults, fun _ called _ => ?_⟩
    have sites : definition.site = definition'.site := respelled.headers.sites
    rw [respelled.headers.names, sites]
    exact .missingArgument _ _ called parameters.names
  bodies := blocks respelled.bodies

theorem readings (site : Site) {text text' : Text} (respelled : text.Respelled text') :
    respelling.Readings site (Expr.read site text) (Expr.read site text') := by
  obtain ⟨reads, reads', exprs⟩ := respelled
  rw [Expr.read, Expr.read, reads, reads']
  exact .ok (expressions site exprs)

theorem lawful : respelling.Lawful where
  source respelled := ⟨trivial, readings _ respelled⟩
  definition := definitions
  key := id
  value := by
    intro first second name name' respelled names
    have key : second.findVariable name = second.findVariable name' := congrArg (second.find? Scope.values) names
    rw [respelled.values, key]
  function key respelled := respelled.functions key
  assign value respelled names := respelled.assign names value
  declare key respelled definitions := respelled.declare key definitions
  enter respelled := respelled.push
  leave respelled inside := by
    rw [inside.outputs]
    exact respelled.holding _
  operation _ _ := .same _
  unbound _ names := .undefinedVariable _ names
  unknown _ names := .undefinedFunction _ names

theorem start : Context.empty.Respelled Context.empty := ⟨fun _ => rfl, fun _ => .none, rfl⟩

end respelling

/-- Programs that are spellings of one another end alike, with the same fault but for the names that it
quotes, and print the same up to their end. -/
theorem runs_of_respelled (depth : Nat) {statements statements' : List Statement}
    (respelled : RespelledAll statements statements') :
    let ended := runTopLevel (callWithin depth) statements Context.empty
    let ended' := runTopLevel (callWithin depth) statements' Context.empty
    ended.1.Alike Fault.Respelled ended'.1 ∧ ended.2.outputs = ended'.2.outputs ∧
      (outputsOf depth statements).Alike Fault.Respelled (outputsOf depth statements') := by
  intro ended ended'
  have lawful := respelling.lawful
  have blocks := respelling.blocks respelled
  have runs := runTopLevel_together lawful (Definition.callWithin_together lawful depth) blocks fun _ _ => .same _
  obtain ⟨outcomes, afters⟩ := runs _ _ respelling.start
  refine ⟨outcomes, afters.outputs, ?_⟩
  exact outputsOf_together lawful depth blocks (fun _ _ => .same _) respelling.start fun _ _ contexts => contexts.outputs

/-- A default that uses the parameter before it, a call inside of a call, and a variable that is not bound. -/
theorem runs_of_respelled_call :
    let site (line : Nat) : Site := ⟨"main.scss".toList, line⟩
    let first : List Statement :=
      [.function ⟨"f_1".toList, [⟨"x-y".toList, none⟩, ⟨['z'], some "$x-y".toList⟩], ⟨[], site 1⟩⟩
          [.returns ⟨[], site 2⟩ "$x_y + $z".toList],
        .print ⟨[], site 3⟩ .debug "F-1(f_1(red))".toList, .print ⟨[], site 4⟩ .warn "f_1($a-b)".toList]
    let second : List Statement :=
      [.function ⟨"f_1".toList, [⟨"x_y".toList, none⟩, ⟨['z'], some "!x_y".toList⟩], ⟨[], site 1⟩⟩
          [.returns ⟨[], site 2⟩ "!x-y + !z".toList],
        .print ⟨[], site 3⟩ .debug "f-1(F_1(red))".toList, .print ⟨[], site 4⟩ .warn "F-1(!a_b)".toList]
    (outputsOf 3 first).Alike Fault.Respelled (outputsOf 3 second) := by
  intro site first second
  have read {text text' : Text} (expr expr' : Expr) (reads : (Expr.ofText text).toOption = some expr)
      (reads' : (Expr.ofText text').toOption = some expr') (exprs : expr.Respelled expr') : text.Respelled text' :=
    .read (Reading.eq_ok_of_toOption reads) (Reading.eq_ok_of_toOption reads') exprs
  have default : Text.Respelled "$x-y".toList "!x_y".toList :=
    read (.reference "x-y".toList) (.reference "x_y".toList) (by decide +kernel) (by decide +kernel)
      (.reference (by decide))
  have sum : Text.Respelled "$x_y + $z".toList "!x-y + !z".toList :=
    read (.binary .plus (.reference "x_y".toList) (.reference ['z']))
      (.binary .plus (.reference "x-y".toList) (.reference ['z'])) (by decide +kernel) (by decide +kernel)
      (.binary .plus (.reference (by decide)) (.reference rfl))
  have word : Text.Respelled "red".toList "red".toList :=
    read _ _ (by decide +kernel) (by decide +kernel) (.literal (.string "red".toList false))
  have inner : Text.Respelled "f_1(red)".toList "F_1(red)".toList :=
    read (.call "f_1".toList ["red".toList]) (.call "F_1".toList ["red".toList]) (by decide +kernel)
      (by decide +kernel) (.call (by decide) (.cons word .nil))
  have outer : Text.Respelled "F-1(f_1(red))".toList "f-1(F_1(red))".toList :=
    read (.call "F-1".toList ["f_1(red)".toList]) (.call "f-1".toList ["F_1(red)".toList]) (by decide +kernel)
      (by decide +kernel) (.call (by decide) (.cons inner .nil))
  have unbound : Text.Respelled "$a-b".toList "!a_b".toList :=
    read (.reference "a-b".toList) (.reference "a_b".toList) (by decide +kernel) (by decide +kernel)
      (.reference (by decide))
  have last : Text.Respelled "f_1($a-b)".toList "F-1(!a_b)".toList :=
    read (.call "f_1".toList ["$a-b".toList]) (.call "F-1".toList ["!a_b".toList]) (by decide +kernel)
      (by decide +kernel) (.call (by decide) (.cons unbound .nil))
  have header : Header.Respelled ⟨"f_1".toList, [⟨"x-y".toList, none⟩, ⟨['z'], some "$x-y".toList⟩], ⟨[], site 1⟩⟩
      ⟨"f_1".toList, [⟨"x_y".toList, none⟩, ⟨['z'], some "!x_y".toList⟩], ⟨[], site 1⟩⟩ :=
    ⟨rfl, rfl, .cons ⟨by decide, .none⟩ (.cons ⟨rfl, .some default⟩ .nil)⟩
  have respelled : RespelledAll first second :=
    .cons (.function header (.cons (.returns rfl sum) .nil))
      (.cons (.print .debug rfl outer) (.cons (.print .warn rfl last) .nil))
  exact (runs_of_respelled 3 respelled).2.2

end StyleScript
