import StyleScript.Statement.Basic

/-! The nodes of a tree at every depth, the bodies of functions included or left closed. -/

namespace StyleScript

/-- A statement, or a condition after an `@else`. -/
inductive Node where
  | statement (statement : Statement)
  | branch (site : Site) (condition : Text)

mutual
def Statement.nodes : Statement → List Node
  | .function header body => .statement (.function header body) :: nodesOf body
  | .conditional excerpt condition body next =>
    .statement (.conditional excerpt condition body next) :: (nodesOf body ++ next.nodes)
  | .returns excerpt expression => [.statement (.returns excerpt expression)]
  | .assign excerpt name expression isDefault => [.statement (.assign excerpt name expression isDefault)]
  | .print excerpt severity expression => [.statement (.print excerpt severity expression)]

def nodesOf : List Statement → List Node
  | [] => []
  | statement :: statements => statement.nodes ++ nodesOf statements

def Otherwise.nodes : Otherwise → List Node
  | .nothing => []
  | .block body => nodesOf body
  | .condition site condition body next => .branch site condition :: (nodesOf body ++ next.nodes)
end

/-- The functions declared anywhere in a tree. -/
def IsDeclared (definition : Definition) (statements : List Statement) : Prop :=
  .statement (.function definition.header definition.body) ∈ nodesOf statements

mutual
theorem Statement.nodes_of_declared {header : Header} {body : List Statement} {node : Node}
    (inside : node ∈ nodesOf body) : ∀ {statement : Statement},
    .statement (.function header body) ∈ statement.nodes → node ∈ statement.nodes
  | .function header' body', declared => by
    obtain same | deeper := List.mem_cons.1 declared
    · cases same
      exact List.mem_cons_of_mem _ inside
    · exact List.mem_cons_of_mem _ (nodesOf_of_declared inside deeper)
  | .conditional excerpt condition body' next, declared => by
    obtain same | deeper := List.mem_cons.1 declared
    · cases same
    apply List.mem_cons_of_mem
    obtain here | there := List.mem_append.1 deeper
    · exact List.mem_append_left _ (nodesOf_of_declared inside here)
    · exact List.mem_append_right _ (Otherwise.nodes_of_declared inside there)
  | .returns excerpt expression, declared => nomatch List.mem_singleton.1 declared
  | .assign excerpt name expression isDefault, declared => nomatch List.mem_singleton.1 declared
  | .print excerpt severity expression, declared => nomatch List.mem_singleton.1 declared

/-- What is inside a function is inside the tree that declares it. -/
theorem nodesOf_of_declared {header : Header} {body : List Statement} {node : Node}
    (inside : node ∈ nodesOf body) : ∀ {statements : List Statement},
    .statement (.function header body) ∈ nodesOf statements → node ∈ nodesOf statements
  | statement :: statements, declared => by
    obtain here | there := List.mem_append.1 declared
    · exact List.mem_append_left _ (Statement.nodes_of_declared inside here)
    · exact List.mem_append_right _ (nodesOf_of_declared inside there)

theorem Otherwise.nodes_of_declared {header : Header} {body : List Statement} {node : Node}
    (inside : node ∈ nodesOf body) : ∀ {next : Otherwise},
    .statement (.function header body) ∈ next.nodes → node ∈ next.nodes
  | .block body', declared => nodesOf_of_declared inside declared
  | .condition site condition body' next, declared => by
    obtain same | deeper := List.mem_cons.1 declared
    · cases same
    apply List.mem_cons_of_mem
    obtain here | there := List.mem_append.1 deeper
    · exact List.mem_append_left _ (nodesOf_of_declared inside here)
    · exact List.mem_append_right _ (Otherwise.nodes_of_declared inside there)
end

theorem nodesOf_append (first second : List Statement) : nodesOf (first ++ second) = nodesOf first ++ nodesOf second := by
  induction first with
  | nil => rfl
  | cons statement first ih => rw [List.cons_append, nodesOf, nodesOf, ih, List.append_assoc]

mutual
/-- The nodes that running a statement may come to. A function is declared and stays closed. -/
def Statement.ownNodes : Statement → List Node
  | .function header body => [.statement (.function header body)]
  | .conditional excerpt condition body next =>
    .statement (.conditional excerpt condition body next) :: (ownNodesOf body ++ next.ownNodes)
  | .returns excerpt expression => [.statement (.returns excerpt expression)]
  | .assign excerpt name expression isDefault => [.statement (.assign excerpt name expression isDefault)]
  | .print excerpt severity expression => [.statement (.print excerpt severity expression)]

def ownNodesOf : List Statement → List Node
  | [] => []
  | statement :: statements => statement.ownNodes ++ ownNodesOf statements

def Otherwise.ownNodes : Otherwise → List Node
  | .nothing => []
  | .block body => ownNodesOf body
  | .condition site condition body next => .branch site condition :: (ownNodesOf body ++ next.ownNodes)
end

mutual
theorem Statement.ownNodes_subset : ∀ statement : Statement, statement.ownNodes ⊆ statement.nodes
  | .function header body => List.cons_subset_cons _ (List.nil_subset _)
  | .conditional excerpt condition body next => by
    have deeper := List.append_subset.2 ⟨List.subset_append_of_subset_left next.nodes (ownNodesOf_subset body),
      List.subset_append_of_subset_right (nodesOf body) next.ownNodes_subset⟩
    exact List.cons_subset_cons _ deeper
  | .returns .. | .assign .. | .print .. => List.Subset.refl _

theorem ownNodesOf_subset : ∀ statements : List Statement, ownNodesOf statements ⊆ nodesOf statements
  | [] => List.Subset.refl _
  | statement :: statements =>
    List.append_subset.2 ⟨List.subset_append_of_subset_left _ statement.ownNodes_subset,
      List.subset_append_of_subset_right _ (ownNodesOf_subset statements)⟩

theorem Otherwise.ownNodes_subset : ∀ next : Otherwise, next.ownNodes ⊆ next.nodes
  | .nothing => List.Subset.refl _
  | .block body => ownNodesOf_subset body
  | .condition site condition body next => by
    have deeper := List.append_subset.2 ⟨List.subset_append_of_subset_left next.nodes (ownNodesOf_subset body),
      List.subset_append_of_subset_right (nodesOf body) next.ownNodes_subset⟩
    exact List.cons_subset_cons _ deeper
end

end StyleScript
