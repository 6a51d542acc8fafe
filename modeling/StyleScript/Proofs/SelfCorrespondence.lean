import StyleScript.Proofs.Correspondence
import StyleScript.Proofs.Nodes
import StyleScript.Proofs.Rereading

/-! A program beside itself: it corresponds to itself as soon as each of its nodes does. -/

namespace StyleScript

/-- The names of all variables in an expression, those in the texts of arguments not counted. -/
def Expr.references : Expr → List Text
  | .literal _ | .call .. => []
  | .reference name => [name]
  | .negate operand | .not operand => operand.references
  | .both left right | .either left right | .binary _ left right => left.references ++ right.references

namespace Correspondence
variable (k : Correspondence)

/-- What a node has to bring along so that it corresponds to itself. -/
def Suits : Node → Prop
  | .statement (.function header body) => k.definition ⟨header, body⟩ ⟨header, body⟩
  | .statement (.returns excerpt expression) => k.source excerpt.site expression expression
  | .statement (.assign excerpt name expression _) =>
    k.name name name ∧ k.source excerpt.site expression expression
  | .statement (.conditional excerpt condition _ _) => k.source excerpt.site condition condition
  | .statement (.print excerpt severity expression) =>
    k.source excerpt.site expression expression ∧ k.Records severity excerpt.site
  | .branch site condition => k.source site condition condition

variable {k}

theorem expressions_self {site : Site} {expr : Expr} (names : ∀ name ∈ expr.references, k.name name name)
    (callees : ∀ name, k.callee name name) (sources : ∀ text ∈ expr.argumentTexts, k.source site text text) :
    k.Expressions site expr expr := by
  induction expr with
  | literal value => exact .literal value
  | reference name => exact .reference (names name List.mem_cons_self)
  | call name arguments => exact .call (callees name) (List.forall₂_same.2 sources)
  | negate operand ih => exact .negate (ih names sources)
  | not operand ih => exact .not (ih names sources)
  | both left right ihLeft ihRight =>
    obtain ⟨namesLeft, namesRight⟩ := List.forall_mem_append.1 names
    obtain ⟨lefts, rights⟩ := List.forall_mem_append.1 sources
    exact .both (ihLeft namesLeft lefts) (ihRight namesRight rights)
  | either left right ihLeft ihRight =>
    obtain ⟨namesLeft, namesRight⟩ := List.forall_mem_append.1 names
    obtain ⟨lefts, rights⟩ := List.forall_mem_append.1 sources
    exact .either (ihLeft namesLeft lefts) (ihRight namesRight rights)
  | binary operator left right ihLeft ihRight =>
    obtain ⟨namesLeft, namesRight⟩ := List.forall_mem_append.1 names
    obtain ⟨lefts, rights⟩ := List.forall_mem_append.1 sources
    exact .binary operator (ihLeft namesLeft lefts) (ihRight namesRight rights)

mutual
theorem statements_self : ∀ {statement : Statement}, (∀ node ∈ statement.nodes, k.Suits node) →
    k.Statements statement statement
  | .function header body, suits => .function rfl rfl (suits _ List.mem_cons_self)
  | .returns excerpt expression, suits => .returns rfl (suits _ List.mem_cons_self)
  | .assign excerpt name expression isDefault, suits => by
    obtain ⟨names, sources⟩ := suits _ List.mem_cons_self
    exact .assign rfl names sources
  | .conditional excerpt condition body next, suits => by
    obtain ⟨own, deeper⟩ := List.forall_mem_cons.1 suits
    obtain ⟨bodies, nexts⟩ := List.forall_mem_append.1 deeper
    exact .conditional rfl own (blocks_self bodies) (others_self nexts)
  | .print excerpt severity expression, suits => by
    obtain ⟨sources, records⟩ := suits _ List.mem_cons_self
    exact .print rfl sources records

theorem blocks_self : ∀ {statements : List Statement}, (∀ node ∈ nodesOf statements, k.Suits node) →
    k.Blocks statements statements
  | [], _ => .nil
  | statement :: statements, suits => by
    obtain ⟨first, rest⟩ := List.forall_mem_append.1 suits
    exact .cons (statements_self first) (blocks_self rest)

theorem others_self : ∀ {next : Otherwise}, (∀ node ∈ next.nodes, k.Suits node) → k.Others next next
  | .nothing, _ => .nothing
  | .block body, suits => .block (blocks_self suits)
  | .condition site condition body next, suits => by
    obtain ⟨own, deeper⟩ := List.forall_mem_cons.1 suits
    obtain ⟨bodies, nexts⟩ := List.forall_mem_append.1 deeper
    exact .condition own (blocks_self bodies) (others_self nexts)
end

end Correspondence
end StyleScript
