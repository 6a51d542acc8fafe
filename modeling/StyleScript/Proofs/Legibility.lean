import StyleScript.Proofs.Gathering

/-! Where a run can meet a text that is no expression. All texts of an accepted tree were taken by
the grammar, and so were the arguments inside of them; only the defaults of parameters were not. A
program beside itself shows that they alone can stop a run. -/

namespace StyleScript

theorem Legible.read {text : Text} (legible : Legible text) (site : Site) :
    ∃ expr, Expr.read site text = .ok expr := by
  obtain ⟨expr, rest, takes⟩ := legible
  exact ⟨expr, Expr.read_of_takes takes site⟩

theorem Expr.read_eq_ok {site : Site} {text : Text} {expr : Expr} (reads : Expr.read site text = .ok expr) :
    ∃ rest, Expr.parser text = .ok (expr, rest) := by
  have whole : Expr.ofText text = .ok expr := by
    rw [Expr.read] at reads
    split at reads
    · cases reads
      assumption
    · cases reads
  rw [Expr.ofText] at whole
  split at whole
  · cases whole
  next found rest taken =>
    split at whole
    · cases whole
      exact ⟨rest, taken⟩
    · cases whole

theorem Expr.read_eq_error {site : Site} {text : Text} {fault : Fault} (fails : Expr.read site text = .error fault) :
    ∃ place, Expr.ofText text = .error place ∧ fault = .badSyntax site (.ofPlace place) := by
  rw [Expr.read] at fails
  split at fails
  · cases fails
  next place rejected =>
    cases fails
    exact ⟨place, rejected, rfl⟩

theorem Expr.legible_of_read {site : Site} {text : Text} {expr : Expr} (reads : Expr.read site text = .ok expr) :
    ∀ argument ∈ expr.argumentTexts, Legible argument := by
  obtain ⟨rest, reads⟩ := Expr.read_eq_ok reads
  obtain ⟨taken, -, takes⟩ := Expr.progresses_expr.proceeds.takes reads
  exact fun argument member => ((Expr.kept_argumentTexts _).of_takes takes argument member).2

namespace Context
variable {allowed : Definition → Prop} {context : Context}

/-- Every function that a lookup can find is of one kind. -/
def Declares (allowed : Definition → Prop) (context : Context) : Prop :=
  ∀ scope ∈ context.scopes, ∀ entry ∈ scope.functions, allowed entry.2

theorem declares_empty : empty.Declares allowed := by
  intro scope member entry inside
  obtain rfl := List.mem_singleton.1 member
  cases inside

theorem Declares.findFunction (declares : context.Declares allowed) {key : Text} {definition : Definition}
    (found : context.findFunction key = some definition) : allowed definition := by
  obtain ⟨scope, member, bound⟩ := List.exists_of_findSome?_eq_some found
  obtain ⟨first, last, same, -⟩ := List.lookup_eq_some_iff.1 bound
  exact declares scope member (key, definition) (same ▸ List.mem_append_right first List.mem_cons_self)

theorem Declares.assign (declares : context.Declares allowed) (name : Text) (value : Value) :
    (context.assign name value).Declares allowed := by
  obtain ⟨inner, outer⟩ := List.forall_mem_cons.1 declares
  exact List.forall_mem_cons.2 ⟨inner, outer⟩

theorem Declares.declare (declares : context.Declares allowed) (key : Text) {definition : Definition}
    (declared : allowed definition) : (context.declare key definition).Declares allowed := by
  obtain ⟨inner, outer⟩ := List.forall_mem_cons.1 declares
  refine List.forall_mem_cons.2 ⟨List.forall_mem_cons.2 ⟨declared, fun entry member => ?_⟩, outer⟩
  exact inner entry (List.mem_filter.1 member).1

theorem Declares.push (declares : context.Declares allowed) : context.push.Declares allowed :=
  List.forall_mem_cons.2 ⟨List.forall_mem_nil _, declares⟩

theorem Declares.holding (declares : context.Declares allowed) (held : List Output) :
    (context.holding held).Declares allowed := by
  rw [Declares, scopes_holding]
  exact declares

theorem Declares.record (declares : context.Declares allowed) (output : Output) :
    (context.record output).Declares allowed := by
  rw [record_eq_holding]
  exact declares.holding _

end Context

/-- A function declared at the site has a parameter with a default that is no expression. -/
def HasBadDefault (statements : List Statement) (site : Site) : Prop :=
  ∃ definition, IsDeclared definition statements ∧ definition.site = site ∧
    ∃ parameter ∈ definition.header.parameters, ∃ default ∈ parameter.default, ∃ place,
      Expr.ofText default = .error place

/-- Bad syntax is the fault of a default. -/
def Blamable (statements : List Statement) (fault : Fault) : Prop :=
  ∀ site cause, fault = .badSyntax site cause → HasBadDefault statements site

/-- A program beside itself, with what is known of its functions and its texts. -/
def sameProgram (statements : List Statement) : Correspondence where
  site _ := True
  name := Eq
  callee := Eq
  source site text text' := text = text' ∧ ∀ fault, Expr.read site text = .error fault → Blamable statements fault
  definition first second := first = second ∧ IsDeclared first statements
  fault first second := first = second ∧ Blamable statements first
  context first second := first = second ∧ first.Declares (IsDeclared · statements)

namespace sameProgram
variable {statements : List Statement}

theorem source_of_legible (site : Site) {text : Text} (legible : Legible text) :
    (sameProgram statements).source site text text := by
  refine ⟨rfl, fun fault fails => ?_⟩
  obtain ⟨expr, reads⟩ := legible.read site
  rw [reads] at fails
  cases fails

theorem source_of_default {definition : Definition} (declared : IsDeclared definition statements)
    {parameter : Parameter} (member : parameter ∈ definition.header.parameters) {default : Text}
    (given : parameter.default = some default) :
    (sameProgram statements).source definition.site default default := by
  refine ⟨rfl, fun fault fails site cause same => ?_⟩
  obtain ⟨place, rejected, blamed⟩ := Expr.read_eq_error fails
  rw [same] at blamed
  cases blamed
  exact ⟨definition, declared, rfl, parameter, member, default, given, place, rejected⟩

theorem suits_of_read {sheet : Sheet} {node : Node} (read : node.Read sheet) (member : node ∈ nodesOf statements) :
    (sameProgram statements).Suits node := by
  cases read with
  | function body _ => exact ⟨rfl, member⟩
  | returns _ _ legible => exact source_of_legible _ legible
  | assign _ _ isDefault _ legible => exact ⟨rfl, source_of_legible _ legible⟩
  | conditional _ _ _ _ legible => exact source_of_legible _ legible
  | print _ _ severity legible =>
    refine ⟨source_of_legible _ legible, ?_⟩
    rintro message context _ ⟨rfl, declares⟩
    exact ⟨rfl, declares.record _⟩
  | branch _ legible => exact source_of_legible _ legible

theorem readings {site : Site} {text : Text} (allowed : (sameProgram statements).source site text text) :
    (sameProgram statements).Readings site (Expr.read site text) (Expr.read site text) := by
  rcases reads : Expr.read site text with fault | expr
  · exact .error ⟨rfl, allowed.2 fault reads⟩
  · apply Correspondence.Readings.ok
    apply Correspondence.expressions_self (fun _ _ => rfl) fun _ => rfl
    exact fun argument member => source_of_legible site (Expr.legible_of_read reads argument member)

variable (suits : ∀ node ∈ nodesOf statements, (sameProgram statements).Suits node)
include suits

theorem definitions {definition : Definition} (declared : IsDeclared definition statements) :
    (sameProgram statements).Definitions definition definition where
  sites := rfl
  parameters := by
    refine List.forall₂_same.2 fun parameter member => ⟨rfl, ?_, fun _ _ _ => ⟨rfl, nofun⟩⟩
    cases given : parameter.default with
    | none => exact .none
    | some default => exact .some (source_of_default declared member given)
  bodies := Correspondence.blocks_self fun node member => suits node (nodesOf_of_declared member declared)

theorem lawful : (sameProgram statements).Lawful where
  source := by
    rintro site text _ ⟨rfl, allowed⟩
    exact ⟨trivial, readings ⟨rfl, allowed⟩⟩
  definition := by
    rintro definition _ ⟨rfl, declared⟩
    exact definitions suits declared
  key := by
    rintro _ _ rfl
    rfl
  value := by
    rintro _ _ _ _ ⟨rfl, -⟩ rfl
    rfl
  function := by
    rintro context _ key ⟨rfl, declares⟩
    cases found : context.findFunction key with
    | none => exact .none
    | some definition => exact .some ⟨rfl, declares.findFunction found⟩
  assign := by
    rintro context _ name _ value ⟨rfl, declares⟩ rfl
    exact ⟨rfl, declares.assign name value⟩
  declare := by
    rintro context _ definition _ key ⟨rfl, declares⟩ ⟨rfl, declared⟩
    exact ⟨rfl, declares.declare key declared⟩
  enter := by
    rintro context _ ⟨rfl, declares⟩
    exact ⟨rfl, declares.push⟩
  leave := by
    rintro context _ after _ ⟨rfl, declares⟩ ⟨rfl, -⟩
    exact ⟨rfl, declares.holding _⟩
  operation _ _ := ⟨rfl, nofun⟩
  unbound := by
    rintro _ _ _ _ rfl
    exact ⟨rfl, nofun⟩
  unknown := by
    rintro _ _ _ _ rfl
    exact ⟨rfl, nofun⟩

end sameProgram

/-- A stylesheet that is read stops with bad syntax only where a default is to blame: at the site of a
function one of whose defaults is no expression. If all defaults are expressions, it never does. -/
theorem Sheet.badSyntax_of_default {sheet : Sheet} {statements : List Statement}
    (accepted : sheet.statements = .ok statements) :
    (∀ depth site cause, sheet.compile depth = .failed (.badSyntax site cause) → HasBadDefault statements site) ∧
    ((∀ definition, IsDeclared definition statements → ∀ parameter ∈ definition.header.parameters,
        ∀ default ∈ parameter.default, ∃ expr, Expr.ofText default = .ok expr) →
      ∀ depth site cause, sheet.compile depth ≠ .failed (.badSyntax site cause)) := by
  have suits : ∀ node ∈ nodesOf statements, (sameProgram statements).Suits node :=
    fun node member => sameProgram.suits_of_read (sheet.read_nodes accepted node member) member
  have blamed : ∀ depth site cause, sheet.compile depth = .failed (.badSyntax site cause) →
      HasBadDefault statements site := by
    intro depth site cause fails
    have alike := outputsOf_together (sameProgram.lawful suits) depth (Correspondence.blocks_self suits)
      (fun _ _ => ⟨rfl, nofun⟩) ⟨rfl, Context.declares_empty⟩ (fun _ _ same => congrArg Context.outputs same.1)
    rw [Sheet.compile, accepted] at fails
    change outputsOf depth statements = _ at fails
    rw [fails] at alike
    obtain _ | ⟨-, blamable⟩ := alike
    exact blamable site cause rfl
  refine ⟨blamed, fun legible depth site cause fails => ?_⟩
  obtain ⟨definition, declared, -, parameter, member, default, given, place, rejected⟩ := blamed depth site cause fails
  obtain ⟨expr, reads⟩ := legible definition declared parameter member default given
  rw [reads] at rejected
  cases rejected

/-- A default that ends too early, met when its function is called inside an argument. -/
theorem Sheet.badSyntax_of_default_call :
    ∃ (sheet : Sheet) (statements : List Statement) (cause : SyntaxFault), sheet.source =
        "@function f($x: 1 +) { @return $x; }
@function g($y) { @return $y; }
$a: g(g(f()));".toList ∧
      sheet.statements = .ok statements ∧ sheet.compile 3 = .failed (.badSyntax ⟨"main.scss".toList, 1⟩ cause) ∧
      HasBadDefault statements ⟨"main.scss".toList, 1⟩ := by
  let sheet : Sheet := ⟨"main.scss".toList, .standard,
    "@function f($x: 1 +) { @return $x; }
@function g($y) { @return $y; }
$a: g(g(f()));".toList⟩
  have reads : sheet.statements.toOption.map List.length = some 3 := by decide +kernel
  obtain ⟨statements, accepted, -⟩ := Reading.ok_of_toOption_map reads
  have ends : (match sheet.compile 3 with | .failed fault => some fault | _ => none) =
      some (.badSyntax ⟨"main.scss".toList, 1⟩ (.unexpected ['+'])) := by decide +kernel
  have fails : sheet.compile 3 = .failed (.badSyntax ⟨"main.scss".toList, 1⟩ (.unexpected ['+'])) := by
    split at ends
    next fault result =>
      rw [result, Option.some.inj ends]
    next => cases ends
  exact ⟨sheet, statements, _, rfl, accepted, fails, (Sheet.badSyntax_of_default accepted).1 3 _ _ fails⟩

end StyleScript
