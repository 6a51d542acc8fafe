import StyleScript.Proofs.Excerpts
import StyleScript.Proofs.FaultPlaces
import StyleScript.Proofs.Legibility

/-! Every diagnostic points into the program. Sites are handed from statements to expressions, from
calls to arguments and from declarations to defaults; a program beside itself shows that none of them
comes from anywhere but its tree. -/

namespace StyleScript

/-- The site of a statement, or of a condition after an `@else`. -/
def Node.site : Node → Site
  | .statement inner => inner.excerpt.site
  | .branch site _ => site

def IsSiteIn (site : Site) (statements : List Statement) : Prop := ∃ node ∈ nodesOf statements, node.site = site

/-- All sites that a message mentions. -/
def Fault.sites : Fault → List Site
  | .missingArgument _ _ declared called => [called, declared]
  | fault => [fault.site]

/-- A parameter that has to be given is one of a function declared at the site. -/
def IsRequired (function parameter : Text) (declared : Site) (statements : List Statement) : Prop :=
  ∃ definition, IsDeclared definition statements ∧ definition.header.name = function ∧ definition.site = declared ∧
    ⟨parameter, none⟩ ∈ definition.header.parameters

structure Fault.PointsInto (fault : Fault) (statements : List Statement) : Prop where
  site : IsSiteIn fault.site statements
  required : ∀ function parameter declared called, fault = .missingArgument function parameter declared called →
    IsRequired function parameter declared statements

/-- A statement of this kind and at this site prints. -/
def Output.PointsInto (output : Output) (statements : List Statement) : Prop :=
  ∃ excerpt text, .statement (.print excerpt output.severity text) ∈ nodesOf statements ∧ excerpt.site = output.site

theorem Statement.mem_nodes (statement : Statement) : .statement statement ∈ statement.nodes := by
  cases statement <;> exact List.mem_cons_self

theorem mem_nodesOf {statement : Statement} {statements : List Statement} (member : statement ∈ statements) :
    .statement statement ∈ nodesOf statements := by
  induction member with
  | head statements => exact List.mem_append_left _ statement.mem_nodes
  | tail other _ ih => exact List.mem_append_right _ ih

section
variable {statements : List Statement}

theorem IsDeclared.isSiteIn {definition : Definition} (declared : IsDeclared definition statements) :
    IsSiteIn definition.site statements := ⟨_, declared, rfl⟩

theorem Fault.PointsInto.sites {fault : Fault} (points : fault.PointsInto statements) :
    ∀ site ∈ fault.sites, IsSiteIn site statements := by
  intro site member
  cases fault with
  | missingArgument function parameter declared called =>
    obtain rfl | last := List.mem_cons.1 member
    · exact points.site
    · obtain rfl := List.mem_singleton.1 last
      obtain ⟨definition, known, -, rfl, -⟩ := points.required function parameter site called rfl
      exact known.isSiteIn
  | _ =>
    obtain rfl := List.mem_singleton.1 member
    exact points.site

end

/-- A program beside itself, with every site and every output traced to a node. -/
def pointing (statements : List Statement) : Correspondence where
  site site := IsSiteIn site statements
  name := Eq
  callee := Eq
  source site text text' := text = text' ∧ IsSiteIn site statements
  definition first second := first = second ∧ IsDeclared first statements
  fault first second := first = second ∧ first.PointsInto statements
  context first second := first = second ∧ first.Declares (IsDeclared · statements) ∧
    ∀ output ∈ first.outputs, output.PointsInto statements

namespace pointing
variable {statements : List Statement}

theorem fault_self {fault : Fault} (inside : IsSiteIn fault.site statements)
    (given : ∀ function parameter declared called, fault ≠ .missingArgument function parameter declared called) :
    (pointing statements).fault fault fault :=
  ⟨rfl, inside, fun function parameter declared called same => absurd same (given function parameter declared called)⟩

theorem suits {node : Node} (member : node ∈ nodesOf statements) : (pointing statements).Suits node := by
  match node with
  | .statement (.function header body) => exact ⟨rfl, member⟩
  | .statement (.returns ..) | .statement (.conditional ..) | .branch .. => exact ⟨rfl, _, member, rfl⟩
  | .statement (.assign ..) => exact ⟨rfl, rfl, _, member, rfl⟩
  | .statement (.print excerpt severity text) =>
    refine ⟨⟨rfl, _, member, rfl⟩, ?_⟩
    rintro message context _ ⟨rfl, declares, printed⟩
    have last : Output.PointsInto ⟨severity, excerpt.site, message⟩ statements := ⟨excerpt, text, member, rfl⟩
    refine ⟨rfl, declares.record _, ?_⟩
    rw [Context.outputs_record]
    exact List.forall_mem_append.2 ⟨printed, List.forall_mem_singleton.2 last⟩

theorem readings {site : Site} (inside : IsSiteIn site statements) (text : Text) :
    (pointing statements).Readings site (Expr.read site text) (Expr.read site text) := by
  rcases reads : Expr.read site text with fault | expr
  · obtain ⟨place, -, rfl⟩ := Expr.read_eq_error reads
    exact .error (fault_self inside nofun)
  · exact .ok (Correspondence.expressions_self (fun _ _ => rfl) (fun _ => rfl) fun _ _ => ⟨rfl, inside⟩)

theorem definitions {definition : Definition} (declared : IsDeclared definition statements) :
    (pointing statements).Definitions definition definition where
  sites := rfl
  parameters := by
    refine List.forall₂_same.2 fun parameter member => ⟨rfl, ?_, fun absent called inside => ?_⟩
    · cases parameter.default with
      | none => exact .none
      | some default => exact .some ⟨rfl, declared.isSiteIn⟩
    · refine ⟨rfl, inside, ?_⟩
      rintro _ _ _ _ ⟨⟩
      obtain ⟨name, default⟩ := parameter
      obtain rfl : default = none := absent
      exact ⟨definition, declared, rfl, rfl, member⟩
  bodies := Correspondence.blocks_self fun _ member => suits (nodesOf_of_declared member declared)

theorem lawful : (pointing statements).Lawful where
  source := by
    rintro site text _ ⟨rfl, inside⟩
    exact ⟨inside, readings inside text⟩
  definition := by
    rintro definition _ ⟨rfl, declared⟩
    exact definitions declared
  key := by
    rintro _ _ rfl
    rfl
  value := by
    rintro _ _ _ _ ⟨rfl, -⟩ rfl
    rfl
  function := by
    rintro context _ key ⟨rfl, declares, -⟩
    cases found : context.findFunction key with
    | none => exact .none
    | some definition => exact .some ⟨rfl, declares.findFunction found⟩
  assign := by
    rintro context _ name _ value ⟨rfl, declares, printed⟩ rfl
    exact ⟨rfl, declares.assign name value, context.outputs_assign name value ▸ printed⟩
  declare := by
    rintro context _ definition _ key ⟨rfl, declares, printed⟩ ⟨rfl, declared⟩
    exact ⟨rfl, declares.declare key declared, context.outputs_declare key definition ▸ printed⟩
  enter := by
    rintro context _ ⟨rfl, declares, printed⟩
    exact ⟨rfl, declares.push, context.outputs_push ▸ printed⟩
  leave := by
    rintro context _ after _ ⟨rfl, declares, -⟩ ⟨rfl, -, printed⟩
    exact ⟨rfl, declares.holding _, (context.outputs_holding after.outputs).symm ▸ printed⟩
  operation _ inside := fault_self inside nofun
  unbound := by
    rintro _ _ _ inside rfl
    exact fault_self inside nofun
  unknown := by
    rintro _ _ _ inside rfl
    exact fault_self inside nofun

end pointing

theorem outputsOf_pointsInto (depth : Nat) (statements : List Statement) :
    (∀ outputs, outputsOf depth statements = .done outputs → ∀ output ∈ outputs, output.PointsInto statements) ∧
      ∀ fault, outputsOf depth statements = .failed fault → fault.PointsInto statements := by
  have lawful : (pointing statements).Lawful := pointing.lawful
  have calls := Definition.callWithin_together lawful depth
  have blocks : (pointing statements).Blocks statements statements :=
    Correspondence.blocks_self fun _ member => pointing.suits member
  have runs := runTopLevel_together lawful calls blocks fun statement member =>
    pointing.fault_self ⟨.statement statement, mem_nodesOf member, rfl⟩ nofun
  obtain ⟨outcomes, -, -, printed⟩ := runs Context.empty Context.empty
    ⟨rfl, Context.declares_empty, List.forall_mem_nil _⟩
  unfold outputsOf
  generalize runTopLevel (Definition.callWithin depth) statements Context.empty = ended at outcomes printed
  obtain ⟨outcome, after⟩ := ended
  cases outcomes with
  | done value => exact ⟨fun outputs same => by cases same; exact printed, nofun⟩
  | failed faults => exact ⟨nofun, fun fault same => by cases same; exact faults.2⟩
  | exhausted => exact ⟨nofun, nofun⟩

theorem Node.Read.filename {sheet : Sheet} {node : Node} (read : node.Read sheet) :
    node.site.filename = sheet.filename := by
  cases read with
  | function body reads =>
    change (Header.excerpt _).site.filename = _
    rw [Header.excerpt_of_ofExcerpt reads]
    rfl
  | _ => rfl

/-- What is printed has the kind and the site of a statement that prints. A run that fails names only sites
of the tree, and a missing argument with the function that asks for it; a source that cannot be read
is wrong at one of its lines. -/
theorem Sheet.diagnostics_point_inside (sheet : Sheet) (depth : Nat) :
    (∀ fault, sheet.statements = .error fault → sheet.compile depth = .failed fault ∧
      fault.site.filename = sheet.filename ∧ 1 ≤ fault.site.line ∧
      fault.site.line ≤ 1 + Text.newlines sheet.source) ∧
    (∀ statements, sheet.statements = .ok statements →
      (∀ outputs, sheet.compile depth = .done outputs → ∀ output ∈ outputs, output.PointsInto statements) ∧
      ∀ fault, sheet.compile depth = .failed fault → fault.PointsInto statements ∧
        ∀ site ∈ fault.sites, site.filename = sheet.filename) := by
  constructor
  · intro fault fails
    obtain ⟨place, same⟩ := exists_place_of_fault fails
    rw [same]
    exact ⟨by rw [compile, fails], sheet.siteOf_bounds place⟩
  · intro statements accepted
    have compiled : sheet.compile depth = outputsOf depth statements := by rw [compile, accepted]
    obtain ⟨printed, failed⟩ := outputsOf_pointsInto depth statements
    rw [compiled]
    refine ⟨printed, fun fault fails => ⟨failed fault fails, fun site member => ?_⟩⟩
    obtain ⟨node, inside, rfl⟩ := (failed fault fails).sites site member
    exact (sheet.read_nodes accepted node inside).filename

/-- An argument is missing in the default of a called function, a warning is printed by a branch, and a brace is
left over on the second line. -/
theorem Sheet.diagnostics_point_inside_default :
    (∃ (sheet : Sheet) (statements : List Statement) (fault : Fault), sheet.source =
        "@function f($a, $b: g()) { @return $b; }
@function g($c) { @return $c; }
@if true {
  @warn f(1);
}".toList ∧
      sheet.statements = .ok statements ∧
      fault = .missingArgument ['g'] ['c'] ⟨['m'], 2⟩ ⟨['m'], 1⟩ ∧ sheet.compile 3 = .failed fault ∧
      fault.PointsInto statements ∧ ∀ site ∈ fault.sites, site.filename = ['m']) ∧
    (∃ (sheet : Sheet) (statements : List Statement) (output : Output), sheet.source =
        "@if false { } @else if true {
  @warn 1; }".toList ∧
      sheet.statements = .ok statements ∧ output = ⟨.warn, ⟨['m'], 2⟩, ['1']⟩ ∧ sheet.compile 1 = .done [output] ∧
      output.PointsInto statements) ∧
    ∃ (sheet : Sheet) (fault : Fault), sheet.source = "$a: 1;
\x7d $b: 2;".toList ∧
      sheet.statements = .error fault ∧ fault = .badSyntax ⟨['m'], 2⟩ .strayBrace ∧
      sheet.compile 0 = .failed fault ∧ fault.site.filename = ['m'] ∧ 1 ≤ fault.site.line ∧ fault.site.line ≤ 2 := by
  refine ⟨?missing, ?printed, ?unread⟩
  case missing =>
    let sheet : Sheet := ⟨['m'], .standard, "@function f($a, $b: g()) { @return $b; }
@function g($c) { @return $c; }
@if true {
  @warn f(1);
}".toList⟩
    have reads : sheet.statements.toOption.map List.length = some 3 := by decide +kernel
    obtain ⟨statements, accepted, -⟩ := Reading.ok_of_toOption_map reads
    have ends : (match sheet.compile 3 with | .failed fault => some fault | _ => none) =
        some (.missingArgument ['g'] ['c'] ⟨['m'], 2⟩ ⟨['m'], 1⟩) := by decide +kernel
    split at ends
    next fault fails =>
      have inside := ((Sheet.diagnostics_point_inside sheet 3).2 statements accepted).2 fault fails
      exact ⟨sheet, statements, fault, rfl, accepted, Option.some.inj ends, fails, inside⟩
    next => cases ends
  case printed =>
    let sheet : Sheet := ⟨['m'], .standard, "@if false { } @else if true {
  @warn 1; }".toList⟩
    have reads : sheet.statements.toOption.map List.length = some 1 := by decide +kernel
    obtain ⟨statements, accepted, -⟩ := Reading.ok_of_toOption_map reads
    have ends : (match sheet.compile 1 with | .done outputs => some outputs | _ => none) =
        some [⟨.warn, ⟨['m'], 2⟩, ['1']⟩] := by decide +kernel
    split at ends
    next outputs prints =>
      cases Option.some.inj ends
      have inside := ((Sheet.diagnostics_point_inside sheet 1).2 statements accepted).1 _ prints
      exact ⟨sheet, statements, _, rfl, accepted, rfl, prints, inside _ List.mem_cons_self⟩
    next => cases ends
  case unread =>
    let sheet : Sheet := ⟨['m'], .standard, "$a: 1;
\x7d $b: 2;".toList⟩
    have ends : (match sheet.statements with | .error fault => some fault | .ok _ => none) =
        some (.badSyntax ⟨['m'], 2⟩ .strayBrace) := by decide +kernel
    split at ends
    next fault fails =>
      have inside := (Sheet.diagnostics_point_inside sheet 0).1 fault fails
      exact ⟨sheet, fault, rfl, fails, Option.some.inj ends, inside⟩
    next => cases ends

end StyleScript
