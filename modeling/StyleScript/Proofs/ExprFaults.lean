import StyleScript.Evaluation
import StyleScript.Proofs.ExprKnot
import Mathlib.Data.List.TakeWhile

/-! Where an expression cannot be read. A level of the grammar fails only where its first operand does, and an
operand fails with the last of its alternatives, a bare word. So what is reported is either the first character of
the text or the first one that is left over. -/

namespace StyleScript.Expr.Grammar
open Reading StyleScript.Parser Text

section
variable {α β : Type}

/-- When the parser fails, it gives up behind the blanks at the beginning. -/
def FailsAhead (parser : Parser α) : Prop := ∀ text place, parser text = .error place → place = dropBlanks text

/-- What comes after the first part cannot fail. -/
theorem FailsAhead.bind {first : Parser α} {next : α → Parser β} (ahead : FailsAhead first)
    (total : ∀ value text, ¬ (next value).Refuses text) : FailsAhead (first >>= next) := by
  intro text place fails
  obtain early | ⟨value, middle, -, late⟩ := bind_eq_error.1 fails
  · exact ahead text place early
  · exact absurd ⟨place, late⟩ (total value middle)

theorem FailsAhead.orElse {second : Parser α} (ahead : FailsAhead second) (first : Parser α) :
    FailsAhead (first <|> second) :=
  fun text place fails => ahead text place (orElse_eq_error.1 fails).2

theorem not_refuses_optional {parser : Parser α} (text : Text) : ¬ (optional parser).Refuses text := by
  rintro ⟨place, fails⟩
  rw [Parser.optional] at fails
  split at fails <;> cases fails

theorem failsAhead_blanks {next : Parser α} (here : ∀ text place, next text = .error place → place = text) :
    FailsAhead (do blanks; next) := by
  intro text place fails
  obtain impossible | ⟨_, _, ⟨⟩, late⟩ := bind_eq_error.1 fails
  · cases impossible
  · exact here _ place late

end

theorem bareWord_fails {text place : Text} (fails : bareWord text = .error place) : place = text := by
  obtain early | ⟨_, _, -, ⟨⟩⟩ := bind_eq_error.1 fails
  cases text with
  | nil =>
    cases early
    rfl
  | cons c text =>
    rw [identifier] at early
    split at early
    · cases early
    · cases early
      rfl

theorem failsAhead_atom (inner : Parser Expr) : FailsAhead (atom inner) := by
  apply failsAhead_blanks
  intro text place fails
  -- All other alternatives were tried before the bare word.
  iterate 6 replace fails := (orElse_eq_error.1 fails).2
  exact bareWord_fails fails

theorem failsAhead_unary (inner : Parser Expr) : FailsAhead (unary inner) := by
  intro text
  change ∀ place, unaryWithin inner text text = .error place → place = dropBlanks text
  cases text with
  | nil => exact failsAhead_atom inner []
  | cons c text => exact ((failsAhead_atom inner).orElse _).orElse _ (c :: text)

theorem failsAhead_chain {σ : Type} {join : σ → Expr → Expr → Expr} {operator : Parser σ} {operand : Parser Expr}
    (symbol : operator.Progresses) (proceeds : operand.Proceeds) (ahead : FailsAhead operand) :
    FailsAhead (chain join operator operand) := by
  refine ahead.bind fun first text => ?_
  obtain ⟨others, rest, reads⟩ := exists_many (progresses_item symbol proceeds) text
  intro refuses
  obtain refuses | ⟨_, _, -, refuses⟩ := refuses_bind.1 refuses
  · exact not_refuses reads refuses
  · exact not_refuses_pure _ _ refuses

section
variable {inner : Parser Expr} (proceeds : inner.Proceeds)
include proceeds

theorem failsAhead_sum : FailsAhead (sum inner) := by
  have products : FailsAhead (product inner) :=
    failsAhead_chain progresses_productOperator (progresses_unary proceeds).proceeds (failsAhead_unary inner)
  exact failsAhead_chain progresses_sumOperator (progresses_product proceeds).proceeds products

theorem failsAhead_comparison : FailsAhead (comparison inner) := by
  refine (failsAhead_sum proceeds).bind fun left text refuses => ?_
  obtain refuses | ⟨right, rest, -, refuses⟩ := refuses_bind.1 refuses
  · exact not_refuses_optional text refuses
  · cases right <;> exact not_refuses_pure _ _ refuses

theorem failsAhead_disjunction : FailsAhead (disjunction inner) := by
  have conjunctions : FailsAhead (conjunction inner) :=
    failsAhead_chain (progresses_keyword (by decide)) (progresses_comparison proceeds).proceeds
      (failsAhead_comparison proceeds)
  exact failsAhead_chain (progresses_keyword (by decide)) (progresses_conjunction proceeds).proceeds conjunctions

end
end StyleScript.Expr.Grammar

namespace StyleScript
open Reading Text

namespace Expr
open Grammar

theorem failsAhead_expr : FailsAhead parser := by
  rw [parser_eq]
  exact failsAhead_disjunction progresses_expr.proceeds

theorem dropBlanks_eq_nil {text : Text} : dropBlanks text = [] ↔ ∀ c ∈ text, isBlank c = true :=
  List.dropWhile_eq_nil_iff

/-- Where a text cannot be read as one expression: at its beginning, or at what is left over. -/
inductive StopsAt (text : Text) : Text → Prop where
  | beginning (refuses : parser.Refuses text) : StopsAt text (dropBlanks text)
  | leftover {expr : Expr} {rest : Text} (reads : parser text = .ok (expr, rest))
      (more : ¬ ∀ c ∈ rest, isBlank c = true) : StopsAt text (dropBlanks rest)

/-- Blanks may be left over, and nothing else. -/
theorem ofText_of_parsed {text rest : Text} {expr : Expr} (reads : parser text = .ok (expr, rest)) :
    ofText text = if dropBlanks rest = [] then .ok expr else .error (dropBlanks rest) := by
  rw [ofText, reads]

theorem ofText_eq_ok {text : Text} {expr : Expr} :
    ofText text = .ok expr ↔ ∃ rest, parser text = .ok (expr, rest) ∧ ∀ c ∈ rest, isBlank c = true := by
  constructor
  · intro whole
    obtain ⟨place, fails⟩ | ⟨found, rest, reads⟩ := refuses_or_reads parser text
    · rw [ofText, fails] at whole
      cases whole
    · rw [ofText_of_parsed reads] at whole
      split at whole
      next blank =>
        cases whole
        exact ⟨rest, reads, dropBlanks_eq_nil.1 blank⟩
      next => cases whole
  · rintro ⟨rest, reads, blank⟩
    rw [ofText_of_parsed reads, if_pos (dropBlanks_eq_nil.2 blank)]

theorem stopsAt_of_ofText {text place : Text} (fails : ofText text = .error place) : StopsAt text place := by
  obtain ⟨stop, refuses⟩ | ⟨found, rest, reads⟩ := refuses_or_reads parser text
  · rw [ofText, refuses] at fails
    cases fails
    obtain rfl := failsAhead_expr text place refuses
    exact .beginning ⟨_, refuses⟩
  · rw [ofText_of_parsed reads] at fails
    split at fails
    next => cases fails
    next more =>
      cases fails
      exact .leftover reads fun blank => more (dropBlanks_eq_nil.2 blank)

end Expr

/-- What is said of a place: its first line without the white characters around it, or that nothing is on it. -/
inductive Describes (place : Text) : Text → Prop where
  | line {line later : Text} (whole : place = line ++ later) (single : '\n' ∉ line)
      (ends : later = [] ∨ later.head? = some '\n') (visible : trim line ≠ []) :
      Describes place ("unexpected `".toList ++ trim line ++ ['`'])
  | blank {line later : Text} (whole : place = line ++ later) (single : '\n' ∉ line)
      (ends : later = [] ∨ later.head? = some '\n') (white : trim line = []) :
      Describes place "unexpected end of input".toList

theorem Describes.ofPlace (place : Text) : Describes place (SyntaxFault.ofPlace place).message := by
  have whole : place = firstLine place ++ place.dropWhile (· != '\n') := List.takeWhile_append_dropWhile.symm
  have single : '\n' ∉ firstLine place := fun member => by simpa using List.mem_takeWhile_imp member
  have ends : place.dropWhile (· != '\n') = [] ∨ (place.dropWhile (· != '\n')).head? = some '\n' := by
    have stops := stops_dropWhile (· != '\n') place
    cases left : place.dropWhile (· != '\n') with
    | nil => exact .inl rfl
    | cons c later =>
      rw [left, stops_cons, bne_eq_false_iff_eq] at stops
      exact .inr (congrArg some stops)
  rw [SyntaxFault.ofPlace]
  by_cases blank : trim (firstLine place) = []
  · rw [if_pos blank]
    exact .blank whole single ends blank
  · rw [if_neg blank]
    exact .line whole single ends blank

/-- A text that is not read as one expression is reported where its first character is that is not blank, if it
does not begin with an expression, and otherwise at the first such character of what is left over. -/
theorem reported_at_start_or_leftover (site : Site) (text : Text) :
    (∀ place, Expr.parser text = .error place → place = dropBlanks text) ∧
    (∀ expr, Expr.read site text = .ok expr ↔
      ∃ rest, Expr.parser text = .ok (expr, rest) ∧ ∀ c ∈ rest, isBlank c = true) ∧
    ((∃ expr, Expr.read site text = .ok expr) ∨
      ∃ place cause, Expr.StopsAt text place ∧ Describes place cause.message ∧
        Expr.read site text = .error (.badSyntax site cause)) := by
  refine ⟨Expr.failsAhead_expr text, fun expr => ?_, ?_⟩
  · rw [← Expr.ofText_eq_ok, Expr.read]
    cases Expr.ofText text <;> simp
  · rw [Expr.read]
    cases reads : Expr.ofText text with
    | ok expr => exact .inl ⟨expr, rfl⟩
    | error place => exact .inr ⟨place, .ofPlace place, Expr.stopsAt_of_ofText reads, .ofPlace place, rfl⟩

/-- A group that is never closed, with a call in it: it is reported at its parenthesis. After a sum, it is left over
together with the operator before it. -/
theorem reported_at_start_or_leftover_group :
    let site : Site := ⟨['m'], 3⟩
    let unclosed := "\n (1 + f(2)".toList
    let sum := "1 + 2 * (3\n;".toList
    Expr.parser unclosed = .error "(1 + f(2)".toList ∧
    ∃ place cause, Expr.StopsAt sum place ∧ Describes place cause.message ∧
      Expr.read site sum = .error (.badSyntax site cause) := by
  intro site unclosed sum
  have fails : (Expr.parser unclosed).toOption = none := by decide +kernel
  have rejected : (Expr.read site sum).toOption = none := by decide +kernel
  obtain ⟨ahead, -⟩ := reported_at_start_or_leftover site unclosed
  obtain ⟨-, -, reported⟩ := reported_at_start_or_leftover site sum
  constructor
  · cases result : Expr.parser unclosed with
    | ok taken =>
      rw [result] at fails
      cases fails
    | error place =>
      rw [ahead place result]
      rfl
  · refine reported.resolve_left fun found => ?_
    obtain ⟨expr, reads⟩ := found
    rw [reads] at rejected
    cases rejected

end StyleScript
