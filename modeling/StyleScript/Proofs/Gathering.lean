import StyleScript.Proofs.SelfCorrespondence
import StyleScript.Proofs.StatementTaking

/-! What reading a source has checked of each node, at every depth. Every expression text is one
that the grammar took, every head one that was read where it stands in the source; no node comes from
anywhere else. -/

namespace StyleScript

/-- A text that the grammar of expressions took, before whatever came after it. -/
def Legible (text : Text) : Prop := ∃ expr rest, Expr.parser.Takes text expr rest

inductive Node.Read (sheet : Sheet) : Node → Prop where
  | function {start finish : Text} {header : Header} (body : List Statement)
      (reads : Header.ofExcerpt sheet.dialect (sheet.excerpt start finish) = .ok header)
      (within : start <:+ sheet.source) (scanned : fromHeaderEnd none start = finish)
      (bodiless : finish = [] → body = []) : Read sheet (.statement (.function header body))
  | returns (start finish : Text) {text : Text} (legible : Legible text) :
      Read sheet (.statement (.returns (sheet.excerpt start finish) text))
  | assign (start finish : Text) {name text : Text} (isDefault : Bool) (identifier : Name.isIdentifier name = true)
      (legible : Legible text) : Read sheet (.statement (.assign (sheet.excerpt start finish) name text isDefault))
  | conditional (start finish : Text) {text : Text} (body : List Statement) (next : Otherwise)
      (legible : Legible text) :
      Read sheet (.statement (.conditional (sheet.excerpt start finish) text body next))
  | print (start finish : Text) (severity : Severity) {text : Text} (legible : Legible text) :
      Read sheet (.statement (.print (sheet.excerpt start finish) severity text))
  | branch (start : Text) {text : Text} (legible : Legible text) : Read sheet (.branch (sheet.siteOf start) text)

namespace Statement.Grammar
open Reading

theorem legible_of_argument {taken text rest : Text} (takes : (Expr.Grammar.argument Expr.parser).Takes taken text rest) :
    Legible text := by
  obtain ⟨spaces, expr, -, -, -, reads⟩ := (Expr.Grammar.takes_argument Expr.progresses_expr.proceeds).1 takes
  exact ⟨expr, rest, reads⟩

variable {sheet : Sheet} {taken rest : Text}

def Gathered (sheet : Sheet) (taken : Text) : Prop :=
  ∀ rest body, taken ++ rest <:+ sheet.source → (items sheet).Takes taken body rest →
    ∀ node ∈ nodesOf body, node.Read sheet

/-- What comes after a part of the source is an end of it as well. -/
theorem suffix_of_append (front : Text) {text whole : Text} (within : front ++ text <:+ whole) : text <:+ whole :=
  (List.suffix_append front text).trans within

theorem read_block {body : List Statement} (gathered : ∀ inside, inside.length < taken.length → Gathered sheet inside)
    (within : taken ++ rest <:+ sheet.source) (takes : (block sheet (items sheet)).Takes taken body rest) :
    ∀ node ∈ nodesOf body, node.Read sheet := by
  obtain ⟨gap, inside, rfl, -, reads⟩ := (takes_block (proceeds_items sheet)).1 takes
  have inner : inside ++ '}' :: rest <:+ sheet.source :=
    suffix_of_append (gap ++ ['{']) (by simpa using within)
  exact gathered inside (by simp; omega) _ _ inner reads

/-- By induction on the text, since every later branch comes after an `@else`. -/
theorem read_follow {next : Otherwise} (gathered : ∀ inside, inside.length < taken.length → Gathered sheet inside)
    (within : taken ++ rest <:+ sheet.source) (takes : (follow sheet (items sheet)).Takes taken next rest) : ∀ node ∈ next.nodes, node.Read sheet := by
  have proceeds := proceeds_items sheet
  induction size : taken.length using Nat.strongRecOn generalizing taken rest next with
  | ind size ih =>
    subst size
    obtain ⟨rfl, -, -⟩ | ⟨gap, between, more, rfl, -, -, -, branch⟩ := (takes_follow proceeds).1 takes
    · exact List.forall_mem_nil _
    · simp only [List.append_assoc] at within
      have inner := suffix_of_append _ (suffix_of_append _ (suffix_of_append _ within))
      obtain ⟨-, last⟩ | ⟨after, rfl, -, branch⟩ := branch
      · obtain ⟨body, inside, rfl⟩ := takes_lastBlock.1 last
        exact read_block (fun part short => gathered part (by simp; omega)) inner inside
      · obtain ⟨condition, body, otherwise, written, inside, others, rfl, reads, blocks, branches, rfl⟩ :=
          (takes_elseIf proceeds (proceeds_follow proceeds)).1 branch
        simp only [List.append_assoc] at inner
        have afterCondition := suffix_of_append _ (suffix_of_append _ inner)
        have bodies := read_block (fun part short => gathered part (by simp; omega)) afterCondition blocks
        have later := ih others.length (by simp; omega) (fun part short => gathered part (by simp; omega))
          (suffix_of_append _ afterCondition) branches rfl
        exact List.forall_mem_cons.2
          ⟨.branch _ (legible_of_argument reads), List.forall_mem_append.2 ⟨bodies, later⟩⟩

theorem read_statement {value : Statement} (gathered : ∀ inside, inside.length < taken.length → Gathered sheet inside)
    (within : taken ++ rest <:+ sheet.source) (takes : (statement sheet (items sheet)).Takes taken value rest) :
    ∀ node ∈ value.nodes, node.Read sheet := by
  have proceeds := proceeds_items sheet
  obtain ⟨word, kind, written, rfl, isWord, -, reads⟩ | ⟨-, reads⟩ := (takes_statement proceeds).1 takes
  · rw [List.append_assoc] at within
    cases kind with
    | function =>
      obtain ⟨header, head, tail, rfl, skipped, read, ends⟩ := (takes_function proceeds).1 reads
      rw [List.append_assoc] at within read
      obtain rfl : word = "@function".toList := by simpa [directives] using isWord
      have scanned : fromHeaderEnd none ("@function".toList ++ (head ++ (tail ++ rest))) = tail ++ rest := skipped
      obtain ⟨brace, body, inside, rfl⟩ | ⟨-, -, rfl⟩ := ends
      · have bodies := read_block (fun part short => gathered part (by simp; omega))
          (suffix_of_append _ (suffix_of_append _ within)) inside
        have nonempty : tail ++ rest ≠ [] := fun empty => by rw [empty] at brace; cases brace
        exact List.forall_mem_cons.2 ⟨.function body read within scanned fun empty => absurd empty nonempty, bodies⟩
      · exact List.forall_mem_singleton.2 (.function [] read within scanned fun _ => rfl)
    | returns =>
      obtain ⟨text, _, _, -, given, -, rfl⟩ := takes_single.1 reads
      exact List.forall_mem_singleton.2 (.returns _ _ (legible_of_argument given))
    | conditional =>
      obtain ⟨condition, body, otherwise, _, inside, others, rfl, given, blocks, later, rfl⟩ :=
        (takes_conditional proceeds).1 reads
      simp only [List.append_assoc] at within
      have afterCondition := suffix_of_append _ (suffix_of_append _ within)
      have bodies := read_block (fun part short => gathered part (by simp; omega)) afterCondition blocks
      have nexts := read_follow (fun part short => gathered part (by simp; omega)) (suffix_of_append _ afterCondition) later
      exact List.forall_mem_cons.2
        ⟨.conditional _ _ _ _ (legible_of_argument given), List.forall_mem_append.2 ⟨bodies, nexts⟩⟩
    | print severity =>
      have printed : (single sheet (.print · severity ·) _).Takes written value rest := reads
      obtain ⟨text, _, _, -, given, -, rfl⟩ := takes_single.1 printed
      exact List.forall_mem_singleton.2 (.print _ _ severity (legible_of_argument given))
  · obtain ⟨name, text, isDefault, head, written, mark, trailing, rfl, target, given, -, -, rfl⟩ :=
      takes_assignment.1 reads
    obtain ⟨-, -, identifier, -⟩ := takes_target.1 target
    exact List.forall_mem_singleton.2 (.assign _ _ isDefault identifier (legible_of_argument given))

/-- By induction on the text, since what is inside braces is shorter than the text around it. -/
theorem gathered_items (sheet : Sheet) (taken : Text) : Gathered sheet taken := by
  induction size : taken.length using Nat.strongRecOn generalizing taken with
  | ind size ih =>
    subst size
    intro rest body within takes
    obtain ⟨gap, more, rfl, -, branch⟩ := takes_items.1 takes
    rw [List.append_assoc] at within
    have inner := suffix_of_append _ within
    obtain ⟨rfl, -, rfl⟩ | ⟨tail, rfl, later⟩ | ⟨first, others, written, tail, rfl, -, -, head, later, rfl⟩ := branch
    · exact List.forall_mem_nil _
    · exact ih tail.length (by simp; omega) tail rfl rest body (suffix_of_append [';'] inner) later
    · have nonempty := (progresses_statement (proceeds_items sheet)).takes_ne_nil head
      have positive := List.length_pos_iff.2 nonempty
      rw [List.append_assoc] at inner
      have firsts := read_statement (fun part short => ih part.length (by simp; omega) part rfl) inner head
      have rests := ih tail.length (by simp; omega) tail rfl rest others (suffix_of_append _ inner) later
      exact List.forall_mem_append.2 ⟨firsts, rests⟩

end Statement.Grammar

theorem Sheet.read_nodes {sheet : Sheet} {statements : List Statement} (accepted : sheet.statements = .ok statements) :
    ∀ node ∈ nodesOf statements, node.Read sheet := by
  have whole : sheet.source ++ [] <:+ sheet.source := ⟨[], List.append_nil _⟩
  exact Statement.Grammar.gathered_items sheet _ _ _ whole (Statement.Grammar.statements_eq_ok.1 accepted)

end StyleScript
