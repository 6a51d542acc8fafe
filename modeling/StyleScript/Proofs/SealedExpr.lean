import StyleScript.Proofs.Layers
import StyleScript.Proofs.Sealed

/-! The grammar of expressions takes nothing but sealed texts. Quotes and parentheses are opened and
closed by the same part of it, commas stand between arguments only, and no part takes a brace or a
semicolon outside of quotes. -/

namespace StyleScript.Expr.Grammar
open Reading StyleScript.Parser Text

/-- What is taken from texts shorter than `size` is sealed. -/
def Seals {ε α : Type} (size : Nat) (reading : Reading ε α) : Prop :=
  ∀ taken value rest, taken.length < size → reading.Takes taken value rest → Sealed false taken

section
variable {commas : Bool} {gap name : Text}

theorem sealed_of_blanks (blank : ∀ c ∈ gap, isBlank c = true) : Sealed commas gap :=
  .of_class (by decide) blank

theorem sealed_of_identifier (identifier : Name.isIdentifier name = true) : Sealed commas name :=
  .of_class (by decide) (Name.continues_of_isIdentifier identifier)

end

theorem sealed_of_number {taken rest : Text} {expr : Expr} (takes : number.Takes taken expr rest) :
    Sealed false taken := by
  have digits {text : Text} (proper : Numeral.Spelling.IsDigits text) : Sealed false text :=
    .of_class (by decide) proper.2
  obtain ⟨_, _, -, numeral⟩ := takes_number.1 takes
  obtain ⟨spelling, unit, rfl, -, decimal, letters⟩ := Numeral.takes_numeral.1 numeral
  obtain ⟨other, same, -, proper, -⟩ := Numeral.takes_decimal.1 decimal
  have number : Sealed false spelling.text := by
    rw [same]
    cases other with
    | whole run => exact digits proper
    | mixed run places => exact (digits proper.1).append (.plain (by decide) (digits proper.2))
    | fraction places => exact .plain (by decide) (digits proper)
  apply number.append
  obtain ⟨-, rfl | ⟨letters, -⟩⟩ := Numeral.takes_unit.1 letters
  · exact .single (by decide)
  · exact .of_class (by decide) letters

section
variable {size : Nat} (seals : Seals size parser)
include seals

theorem sealed_of_argument {taken value rest : Text} (short : taken.length < size)
    (takes : (argument parser).Takes taken value rest) : Sealed true taken := by
  obtain ⟨gap, expr, rfl, blank, -, reads⟩ := (takes_argument progresses_expr.proceeds).1 takes
  rw [List.length_append] at short
  exact (sealed_of_blanks blank).append (seals _ _ _ (by omega) reads).weaken

theorem sealed_of_nextArguments {values : List Text} : ∀ {taken rest : Text}, taken.length < size →
    (many (do blanks; char ','; argument parser)).Takes taken values rest → Sealed true taken := by
  have proceeds := progresses_expr.proceeds
  induction values with
  | nil =>
    intro taken rest short takes
    obtain ⟨-, rfl, -⟩ | ⟨_, _, _, _, impossible, -⟩ := (takes_many (progresses_nextArgument proceeds)).1 takes
    · exact .nil
    · cases impossible
  | cons first others ih =>
    intro taken rest short takes
    obtain ⟨impossible, -⟩ | ⟨_, _, piece, more, ⟨⟩, rfl, here, later⟩ :=
      (takes_many (progresses_nextArgument proceeds)).1 takes
    · cases impossible
    · obtain ⟨gap, written, rfl, blank, argument⟩ := (takes_nextArgument proceeds).1 here
      simp only [List.length_append, List.length_cons] at short
      have comma := Sealed.comma (sealed_of_argument seals (by omega) argument)
      exact ((sealed_of_blanks blank).append comma).append (ih (by omega) later)

theorem sealed_of_arguments {taken rest : Text} {values : List Text} (short : taken.length < size)
    (takes : (arguments parser).Takes taken values rest) : Sealed true taken := by
  obtain ⟨-, rfl, -⟩ | ⟨value, others, first, second, -, rfl, argument, later⟩ :=
    (takes_arguments progresses_expr.proceeds).1 takes
  · exact .nil
  · rw [List.length_append] at short
    exact (sealed_of_argument seals (by omega) argument).append (sealed_of_nextArguments seals (by omega) later)

theorem seals_token : Seals (size + 1) (token parser) := by
  have proceeds := progresses_expr.proceeds
  intro taken expr rest short takes
  obtain number | quote | sigil | paren | word | ⟨-, call⟩ | ⟨-, -, bare⟩ := (takes_token proceeds).1 takes
  · exact sealed_of_number number
  · obtain ⟨quote, body, isQuote, rfl, outside, -⟩ := takes_quoted.1 quote
    exact .quoted isQuote outside .nil
  · obtain ⟨sigil, name, isSigil, rfl, identifier, -⟩ := takes_reference.1 sigil
    refine .plain ?_ (sealed_of_identifier identifier)
    obtain rfl | rfl := isSigil <;> decide
  · obtain ⟨inside, gap, rfl, blank, reads⟩ := (takes_group proceeds).1 paren
    simp only [List.length_cons, List.length_append] at short
    have body := (seals _ _ _ (by omega) reads).weaken.append (sealed_of_blanks blank)
    rw [← List.append_assoc]
    exact .enclose body
  · obtain ⟨member, -⟩ := takes_constant.1 word
    simp only [constants, List.mem_cons, Prod.mk.injEq, List.not_mem_nil, or_false] at member
    obtain ⟨rfl, -⟩ | ⟨rfl, -⟩ | ⟨rfl, -⟩ := member <;> exact sealed_of_identifier (by decide)
  · obtain ⟨name, values, inside, gap, rfl, identifier, blank, arguments, -⟩ := (takes_call proceeds).1 call
    simp only [List.length_cons, List.length_append] at short
    have body := (sealed_of_arguments seals (by omega) arguments).append (sealed_of_blanks blank)
    rw [← List.append_assoc]
    exact (sealed_of_identifier identifier).append (.enclose body)
  · obtain ⟨identifier, -⟩ := takes_bareWord.1 bare
    exact sealed_of_identifier identifier

/-- By induction on the text, since every operator before an atom takes a character. -/
theorem seals_unary : Seals (size + 1) (unary parser) := by
  have proceeds := progresses_expr.proceeds
  have operand := (progresses_unary proceeds).proceeds
  intro taken expr rest short takes
  induction length : taken.length using Nat.strongRecOn generalizing taken expr with
  | ind length ih =>
    subst length
    obtain negated | inverted | ⟨-, atom⟩ := (takes_unary proceeds).1 takes
    · obtain ⟨gap, written, value, rfl, blank, later, -⟩ := (takes_negated operand).1 negated
      have shorter : written.length < (gap ++ '-' :: written).length := by simp; omega
      exact (sealed_of_blanks blank).append (.plain (by decide) (ih _ shorter _ _ (by omega) later rfl))
    · obtain ⟨gap, written, value, rfl, blank, -, later, -⟩ := (takes_inverted operand).1 inverted
      have shorter : written.length < (gap ++ ("not".toList ++ written)).length := by simp; omega
      have word : Sealed false "not".toList := sealed_of_identifier (by decide)
      exact (sealed_of_blanks blank).append (word.append (ih _ shorter _ _ (by omega) later rfl))
    · obtain ⟨gap, body, rfl, blank, -, reads⟩ := (takes_atom proceeds).1 atom
      rw [List.length_append] at short
      exact (sealed_of_blanks blank).append (seals_token seals _ _ _ (by omega) reads)

end

section
variable {size : Nat}

theorem seals_item {σ : Type} {operator : Parser σ} {operand : Parser Expr} (symbol : operator.Progresses)
    (signs : Seals size operator) (proceeds : operand.Proceeds) (seals : Seals size operand) :
    Seals size (item operator operand) := by
  intro taken value rest short takes
  obtain ⟨joined, right⟩ := value
  obtain ⟨gap, sign, written, rfl, blank, -, first, last⟩ := (takes_item symbol.proceeds proceeds).1 takes
  simp only [List.length_append] at short
  exact (sealed_of_blanks blank).append ((signs _ _ _ (by omega) first).append (seals _ _ _ (by omega) last))

theorem seals_many {α : Type} {parser : Parser α} (progresses : parser.Progresses) (seals : Seals size parser) :
    Seals size (many parser) := by
  intro taken values rest short takes
  induction values generalizing taken with
  | nil =>
    obtain ⟨-, rfl, -⟩ | ⟨_, _, _, _, impossible, -⟩ := (takes_many progresses).1 takes
    · exact .nil
    · cases impossible
  | cons value others ih =>
    obtain ⟨impossible, -⟩ | ⟨_, _, first, second, ⟨⟩, rfl, here, later⟩ := (takes_many progresses).1 takes
    · cases impossible
    · rw [List.length_append] at short
      exact (seals _ _ _ (by omega) here).append (ih _ (by omega) later)

theorem seals_chain {σ : Type} {join : σ → Expr → Expr → Expr} {operator : Parser σ} {operand : Parser Expr}
    (symbol : operator.Progresses) (signs : Seals size operator) (proceeds : operand.Proceeds)
    (seals : Seals size operand) : Seals size (chain join operator operand) := by
  intro taken expr rest short takes
  obtain ⟨start, others, first, second, rfl, head, tail, -⟩ := (takes_chain symbol proceeds).1 takes
  have items := seals_many (progresses_item symbol proceeds) (seals_item symbol signs proceeds seals)
  rw [List.length_append] at short
  exact (seals _ _ _ (by omega) head).append (items _ _ _ (by omega) tail)

theorem seals_comparison (signs : Seals size comparisonOperator) (seals : Seals size (sum parser)) :
    Seals size (comparison parser) := by
  have proceeds := progresses_expr.proceeds
  intro taken expr rest short takes
  obtain ⟨alone, -⟩ | ⟨_, _, _, first, second, rfl, head, tail, -⟩ := (takes_comparison proceeds).1 takes
  · exact seals _ _ _ short alone
  · have items := seals_item progresses_comparisonOperator signs (progresses_sum proceeds).proceeds seals
    rw [List.length_append] at short
    exact (seals _ _ _ (by omega) head).append (items _ _ _ (by omega) tail)

/-- The signs of a level are given in a table, and no sign has a mark in it. -/
theorem seals_symbols {operator : Parser Operator} {symbols : List (Text × Operator)}
    (member : ∀ {taken joined rest}, operator.Takes taken joined rest → (taken, joined) ∈ symbols)
    (plain : symbols.all (·.1.all (· ∉ marks)) = true) : Seals size operator :=
  fun _ _ _ _ takes => .of_all (List.all_eq_true.1 plain _ (member takes))

theorem seals_keyword {word : String} (plain : word.toList.all (· ∉ marks) = true) : Seals size (keyword word) := by
  intro taken value rest _ takes
  obtain ⟨rfl, -⟩ := takes_keyword.1 takes
  exact .of_all plain

theorem seals_disjunction (seals : Seals size parser) : Seals (size + 1) (disjunction parser) := by
  have proceeds := progresses_expr.proceeds
  have products : Seals (size + 1) (product parser) :=
    seals_chain progresses_productOperator (seals_symbols takes_productOperator.1 (by decide))
      (progresses_unary proceeds).proceeds (seals_unary seals)
  have sums : Seals (size + 1) (sum parser) :=
    seals_chain progresses_sumOperator (seals_symbols takes_sumOperator.1 (by decide))
      (progresses_product proceeds).proceeds products
  have comparisons := seals_comparison (seals_symbols (fun takes => (takes_comparisonOperator.1 takes).1) (by decide)) sums
  have conjunctions : Seals (size + 1) (conjunction parser) :=
    seals_chain (progresses_keyword (by decide)) (seals_keyword (by decide)) (progresses_comparison proceeds).proceeds
      comparisons
  exact seals_chain (progresses_keyword (by decide)) (seals_keyword (by decide))
    (progresses_conjunction proceeds).proceeds conjunctions

theorem seals_expr : ∀ size, Seals size parser
  | 0 => fun _ _ _ short => absurd short (Nat.not_lt_zero _)
  | size + 1 => by
    rw [parser_eq]
    exact seals_disjunction (seals_expr size)

end
end StyleScript.Expr.Grammar

namespace StyleScript.Expr
open Reading Grammar

theorem sealed_of_takes {taken rest : Text} {expr : Expr} (takes : parser.Takes taken expr rest) : Sealed false taken :=
  seals_expr (taken.length + 1) _ _ _ (Nat.lt_succ_self _) takes

end StyleScript.Expr
