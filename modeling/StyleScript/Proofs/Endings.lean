import StyleScript.Proofs.Levels
import StyleScript.Proofs.Words
import StyleScript.Text.White

/-! The text of an expression does not end in a white character, so nothing of it is trimmed. The
blanks that are taken stand before a part, never after the last one. -/

namespace StyleScript

namespace Text

/-- The last character of a text is not white. -/
def Visible (text : Text) : Prop := ∃ before c, text = before ++ [c] ∧ isWhite c = false

theorem Visible.append {text : Text} (visible : Visible text) (before : Text) : Visible (before ++ text) := by
  obtain ⟨inner, c, rfl, last⟩ := visible
  exact ⟨before ++ inner, c, (List.append_assoc ..).symm, last⟩

theorem Visible.mark (before : Text) {c : Char} (visible : isWhite c = false) : Visible (before ++ [c]) :=
  ⟨before, c, rfl, visible⟩

theorem trimEnd_of_visible {text : Text} (visible : Visible text) : trimEnd text = text := by
  obtain ⟨before, c, rfl, last⟩ := visible
  rw [trimEnd, List.reverse_append]
  simp [last]

theorem visible_of_forall {text : Text} (nonempty : text ≠ []) (visible : ∀ c ∈ text, isWhite c = false) :
    Visible text := by
  refine ⟨text.dropLast, text.getLast nonempty, (List.dropLast_concat_getLast nonempty).symm, ?_⟩
  exact visible _ (List.getLast_mem nonempty)

theorem isWhite_of_bounds {c : Char} (least : 33 ≤ c.toNat) (most : c.toNat < 133) : isWhite c = false := by
  cases white : isWhite c with
  | false => rfl
  | true =>
    exfalso
    simp only [isWhite, Bool.or_eq_true, Bool.and_eq_true, decide_eq_true_eq, beq_iff_eq, Char.le_def,
      UInt32.le_iff_toNat_le] at white
    simp only [Char.toNat] at least most
    have first : '\x0d'.val.toNat = 13 := rfl
    have second : '\u2000'.val.toNat = 8192 := rfl
    obtain (((((((((( inside | rfl) | rfl) | rfl) | rfl) | inside) | rfl) | rfl) | rfl) | rfl) | rfl) := white
    · omega
    all_goals first | omega | exact absurd least (by decide) | exact absurd most (by decide)

theorem bounds_of_isAlpha {c : Char} (alpha : c.isAlpha = true) : 65 ≤ c.toNat ∧ c.toNat ≤ 122 := by
  have bounds : c.isAlpha =
      (decide ('A'.val ≤ c.val ∧ c.val ≤ 'Z'.val) || decide ('a'.val ≤ c.val) && decide (c.val ≤ 'z'.val)) :=
    rfl
  simp only [bounds, Bool.or_eq_true, Bool.and_eq_true, decide_eq_true_eq, UInt32.le_iff_toNat_le] at alpha
  have marks : 'A'.val.toNat = 65 ∧ 'Z'.val.toNat = 90 ∧ 'a'.val.toNat = 97 ∧ 'z'.val.toNat = 122 := by decide
  simp only [Char.toNat]
  omega

theorem isWhite_of_isAlpha {c : Char} (alpha : c.isAlpha = true) : isWhite c = false := by
  have bounds := bounds_of_isAlpha alpha
  apply isWhite_of_bounds
  · omega
  · omega

theorem isWhite_of_isDigit {c : Char} (digit : c.isDigit = true) : isWhite c = false := by
  have bounds := Char.isDigit_iff_toNat.1 digit
  have marks : '0'.toNat = 48 ∧ '9'.toNat = 57 := by decide
  apply isWhite_of_bounds
  · omega
  · omega

theorem isWhite_of_continues {c : Char} (continues : Name.continues c = true) : isWhite c = false := by
  simp only [Name.continues, Char.isAlphanum, Bool.or_eq_true, beq_iff_eq] at continues
  obtain ((alpha | digit) | rfl) | rfl := continues
  · exact isWhite_of_isAlpha alpha
  · exact isWhite_of_isDigit digit
  · decide
  · decide

theorem visible_of_isIdentifier {name : Text} (identifier : Name.isIdentifier name = true) : Visible name := by
  obtain ⟨c, tail, rfl, -⟩ := Name.exists_cons_of_isIdentifier identifier
  exact visible_of_forall (List.cons_ne_nil _ _) fun d member =>
    isWhite_of_continues (Name.continues_of_isIdentifier identifier d member)

end Text

namespace Expr.Grammar
open Reading StyleScript.Parser Text

/-- Whatever a reading takes does not end in a white character. -/
def EndsVisibly {ε α : Type} (reading : Reading ε α) : Prop :=
  ∀ taken value rest, reading.Takes taken value rest → Visible taken

theorem visible_of_decimal : EndsVisibly Numeral.decimal := by
  intro taken value rest takes
  have digits {text : Text} (proper : Numeral.Spelling.IsDigits text) : Visible text :=
    visible_of_forall proper.1 fun c member => isWhite_of_isDigit (proper.2 c member)
  obtain ⟨spelling, rfl, -, proper, -⟩ := Numeral.takes_decimal.1 takes
  cases spelling with
  | whole run => exact digits proper
  | mixed run places => exact ((digits proper.2).append ['.']).append run
  | fraction places => exact (digits proper).append ['.']

theorem visible_of_number : EndsVisibly number := by
  intro taken value rest takes
  obtain ⟨_, _, -, numeral⟩ := takes_number.1 takes
  obtain ⟨spelling, unit, rfl, -, decimal, letters⟩ := Numeral.takes_numeral.1 numeral
  have digits := visible_of_decimal _ _ _ decimal
  obtain ⟨-, rfl | ⟨letters, -⟩⟩ := Numeral.takes_unit.1 letters
  · exact .mark _ (by decide)
  · by_cases empty : unit = []
    · rw [empty, List.append_nil]
      exact digits
    · exact (visible_of_forall empty fun c member => isWhite_of_isAlpha (letters c member)).append _

section
variable {inner : Parser Expr} (proceeds : inner.Proceeds)
include proceeds

theorem visible_of_token : EndsVisibly (token inner) := by
  intro taken expr rest takes
  have closed (before : Text) : Visible (before ++ [')']) := .mark before (by decide)
  obtain number | quoted | reference | group | constant | ⟨-, call⟩ | ⟨-, -, word⟩ := (takes_token proceeds).1 takes
  · exact visible_of_number _ _ _ number
  · obtain ⟨quote, body, rfl | rfl, rfl, -⟩ := takes_quoted.1 quoted
    · exact .mark ('"' :: body) (by decide)
    · exact .mark ('\'' :: body) (by decide)
  · obtain ⟨sigil, name, isSigil, rfl, identifier, -⟩ := takes_reference.1 reference
    exact (visible_of_isIdentifier identifier).append [_]
  · obtain ⟨inside, gap, rfl, -⟩ := (takes_group proceeds).1 group
    exact (closed gap).append ('(' :: inside)
  · obtain ⟨member, -⟩ := takes_constant.1 constant
    simp only [constants, List.mem_cons, Prod.mk.injEq, List.not_mem_nil, or_false] at member
    obtain ⟨rfl, -⟩ | ⟨rfl, -⟩ | ⟨rfl, -⟩ := member <;> exact visible_of_isIdentifier (by decide)
  · obtain ⟨name, _, inside, gap, rfl, -⟩ := (takes_call proceeds).1 call
    exact ((closed gap).append ('(' :: inside)).append name
  · obtain ⟨identifier, -⟩ := takes_bareWord.1 word
    exact visible_of_isIdentifier identifier

/-- By induction on the text, since every operator before an atom takes a character. -/
theorem visible_of_unary : EndsVisibly (unary inner) := by
  intro taken expr rest takes
  have operand := (progresses_unary proceeds).proceeds
  induction size : taken.length using Nat.strongRecOn generalizing taken expr with
  | ind size ih =>
    subst size
    obtain negated | inverted | ⟨-, atom⟩ := (takes_unary proceeds).1 takes
    · obtain ⟨gap, written, value, rfl, -, later, -⟩ := (takes_negated operand).1 negated
      have shorter : written.length < (gap ++ '-' :: written).length := by simp; omega
      exact ((ih _ shorter _ _ later rfl).append ['-']).append gap
    · obtain ⟨gap, written, value, rfl, -, -, later, -⟩ := (takes_inverted operand).1 inverted
      have shorter : written.length < (gap ++ ("not".toList ++ written)).length := by simp; omega
      exact ((ih _ shorter _ _ later rfl).append _).append gap
    · obtain ⟨gap, body, rfl, -, -, token⟩ := (takes_atom proceeds).1 atom
      exact (visible_of_token proceeds _ _ _ token).append gap

end

theorem visible_of_item {σ : Type} {operator : Parser σ} {operand : Parser Expr} (symbol : operator.Proceeds)
    (proceeds : operand.Proceeds) (visible : EndsVisibly operand) : EndsVisibly (item operator operand) := by
  intro taken value rest takes
  obtain ⟨joined, right⟩ := value
  obtain ⟨gap, sign, written, rfl, -, -, -, last⟩ := (takes_item symbol proceeds).1 takes
  exact ((visible _ _ _ last).append sign).append gap

theorem visible_of_many {α : Type} {parser : Parser α} (progresses : parser.Progresses) (visible : EndsVisibly parser)
    {values : List α} {taken rest : Text} (takes : (many parser).Takes taken values rest) :
    taken = [] ∨ Visible taken := by
  induction values generalizing taken with
  | nil =>
    obtain ⟨-, rfl, -⟩ | ⟨_, _, _, _, impossible, -⟩ := (takes_many progresses).1 takes
    · exact .inl rfl
    · cases impossible
  | cons value others ih =>
    obtain ⟨impossible, -⟩ | ⟨_, _, first, second, same, rfl, here, tail⟩ := (takes_many progresses).1 takes
    · cases impossible
    · cases same
      obtain rfl | last := ih tail
      · rw [List.append_nil]
        exact .inr (visible _ _ _ here)
      · exact .inr (last.append first)

theorem visible_of_chain {σ : Type} {join : σ → Expr → Expr → Expr} {operator : Parser σ} {operand : Parser Expr}
    (symbol : operator.Progresses) (proceeds : operand.Proceeds) (visible : EndsVisibly operand) :
    EndsVisibly (chain join operator operand) := by
  intro taken expr rest takes
  obtain ⟨start, others, first, second, rfl, head, tail, -⟩ := (takes_chain symbol proceeds).1 takes
  have items := visible_of_item symbol.proceeds proceeds visible
  obtain rfl | last := visible_of_many (progresses_item symbol proceeds) items tail
  · rw [List.append_nil]
    exact visible _ _ _ head
  · exact last.append first

end Expr.Grammar

namespace Expr
open Grammar

theorem visible_of_expr : EndsVisibly parser := by
  have proceeds := progresses_expr.proceeds
  have sums : EndsVisibly (sum parser) :=
    visible_of_chain progresses_sumOperator (progresses_product proceeds).proceeds <|
      visible_of_chain progresses_productOperator (progresses_unary proceeds).proceeds (visible_of_unary proceeds)
  have comparisons : EndsVisibly (comparison parser) := by
    intro taken expr rest takes
    obtain ⟨alone, -⟩ | ⟨_, _, _, first, second, rfl, -, item, -⟩ := (takes_comparison proceeds).1 takes
    · exact sums _ _ _ alone
    · exact (visible_of_item progresses_comparisonOperator.proceeds
        (progresses_sum proceeds).proceeds sums _ _ _ item).append first
  rw [parser_eq]
  exact visible_of_chain (Parser.progresses_keyword (by decide)) (progresses_conjunction proceeds).proceeds <|
    visible_of_chain (Parser.progresses_keyword (by decide)) (progresses_comparison proceeds).proceeds comparisons

end Expr
end StyleScript
