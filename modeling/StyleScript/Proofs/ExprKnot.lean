import StyleScript.Expr.Grammar
import StyleScript.Proofs.Knot
import StyleScript.Proofs.Words

/-! Every level of the expression grammar takes at least one character, and asks for what stands
inside parentheses only after it took one. So the bounds of the grammar can be forgotten: an
expression is a disjunction whose parentheses hold expressions. -/

namespace StyleScript.Numeral
open Reading StyleScript.Parser

@[grind ←]
theorem progresses_digits1 : digits1.Progresses := progresses_takeWhile1 _

@[grind ←]
theorem progresses_fraction : fraction.Progresses :=
  (progresses_char _).bind fun _ => progresses_digits1.proceeds

@[grind ←]
theorem progresses_decimal : decimal.Progresses :=
  progresses_orElse
    (progresses_digits1.bind fun _ =>
      (proceeds_optional progresses_fraction.proceeds).bind fun _ => proceeds_pure _)
    (progresses_fraction.bind fun _ => proceeds_pure _)

@[grind ←]
theorem proceeds_unit : unit.Proceeds :=
  (proceeds_optional (proceeds_orElse (proceeds_span (progresses_char _).proceeds)
    (progresses_takeWhile1 _).proceeds)).bind fun _ => proceeds_pure _

@[grind ←]
theorem progresses_numeral : numeral.Progresses :=
  progresses_decimal.bind fun _ => proceeds_unit.bind fun _ => proceeds_pure _

end StyleScript.Numeral

namespace StyleScript.Expr.Grammar
open Reading StyleScript.Parser

theorem progresses_number : number.Progresses :=
  Numeral.progresses_numeral.bind fun (_, _) => proceeds_pure _

theorem progresses_quotedBy (quote : Char) : (quotedBy quote).Progresses :=
  (progresses_char _).bind fun _ => (proceeds_takeWhile _).bind fun _ =>
    (progresses_char _).proceeds.bind fun _ => proceeds_pure _

theorem progresses_quoted : quoted.Progresses :=
  progresses_orElse (progresses_quotedBy _) (progresses_quotedBy _)

theorem progresses_reference : reference.Progresses :=
  (progresses_orElse (progresses_char _) (progresses_char _)).bind fun _ =>
    progresses_identifier.proceeds.bind fun _ => proceeds_pure _

theorem progresses_constant : constant.Progresses := by
  have word : ∀ (word : String) (expr : Expr), word.toList ≠ [] →
      (do keyword word; return expr : Parser Expr).Progresses :=
    fun _ _ nonempty => (progresses_keyword nonempty).bind fun _ => proceeds_pure _
  exact progresses_orElse (word _ _ (by decide)) (progresses_orElse (word _ _ (by decide)) (word _ _ (by decide)))

theorem progresses_bareWord : bareWord.Progresses :=
  progresses_identifier.bind fun _ => proceeds_pure _

theorem progresses_operator {symbol : String} (nonempty : symbol.toList ≠ []) (meaning : Operator) :
    (operator symbol meaning).Progresses :=
  (progresses_exactly nonempty).bind fun _ => proceeds_pure _

theorem progresses_productOperator : productOperator.Progresses :=
  progresses_orElse (progresses_operator (by decide) _)
    (progresses_orElse (progresses_operator (by decide) _) (progresses_operator (by decide) _))

theorem progresses_sumOperator : sumOperator.Progresses :=
  progresses_orElse (progresses_operator (by decide) _) (progresses_operator (by decide) _)

theorem progresses_comparisonOperator : comparisonOperator.Progresses :=
  progresses_orElse (progresses_operator (by decide) _) <|
    progresses_orElse (progresses_operator (by decide) _) <|
      progresses_orElse (progresses_operator (by decide) _) <|
        progresses_orElse (progresses_operator (by decide) _) <|
          progresses_orElse (progresses_operator (by decide) _) (progresses_operator (by decide) _)

/-- An operator with blanks before it, and its right operand. -/
def item {σ : Type} (operator : Parser σ) (operand : Parser Expr) : Parser (σ × Expr) := do
  blanks
  let joined ← operator
  return (joined, ← operand)

theorem progresses_item {σ : Type} {operator : Parser σ} {operand : Parser Expr} (symbol : operator.Progresses)
    (proceeds : operand.Proceeds) : (item operator operand).Progresses :=
  proceeds_blanks.bind_progresses fun _ => symbol.bind fun _ => proceeds.bind fun _ => proceeds_pure _

theorem agreeBelow_item {σ : Type} {size : Nat} {operator : Parser σ} {first second : Parser Expr}
    (symbol : operator.Progresses) (agree : AgreeBelow size first second) :
    AgreeBelow size (item operator first) (item operator second) :=
  proceeds_blanks.agreeBelow_bind fun _ => symbol.proceeds.agreeBelow_bind fun _ => agree.bind_left _

theorem progresses_chain {σ : Type} {join : σ → Expr → Expr → Expr} {operator : Parser σ} {operand : Parser Expr}
    (symbol : operator.Progresses) (progresses : operand.Progresses) : (chain join operator operand).Progresses :=
  progresses.bind fun _ =>
    (proceeds_many (progresses_item symbol progresses.proceeds).proceeds).bind fun _ => proceeds_pure _

theorem agreeBelow_chain {σ : Type} {size : Nat} {join : σ → Expr → Expr → Expr} {operator : Parser σ}
    {first second : Parser Expr} (symbol : operator.Progresses) (progresses : first.Progresses)
    (agree : AgreeBelow size first second) :
    AgreeBelow size (chain join operator first) (chain join operator second) := by
  have items := progresses_item symbol progresses.proceeds
  exact .bind progresses.proceeds agree fun _ =>
    (agreeBelow_many items.proceeds (agreeBelow_item symbol agree)).bind_left _

/-- An atom without blanks before it. -/
def token (inner : Parser Expr) : Parser Expr :=
  number <|> quoted <|> reference <|> group inner <|> constant <|> call inner <|> bareWord

def negated (operand : Parser Expr) : Parser Expr := do
  blanks
  char '-'
  return .negate (← operand)

def inverted (operand : Parser Expr) : Parser Expr := do
  blanks
  keyword "not"
  return .not (← operand)

theorem progresses_negated {operand : Parser Expr} (proceeds : operand.Proceeds) : (negated operand).Progresses :=
  proceeds_blanks.bind_progresses fun _ => (progresses_char _).bind fun _ => proceeds.bind fun _ => proceeds_pure _

theorem progresses_inverted {operand : Parser Expr} (proceeds : operand.Proceeds) : (inverted operand).Progresses :=
  proceeds_blanks.bind_progresses fun _ => (progresses_keyword (by decide)).bind fun _ =>
    proceeds.bind fun _ => proceeds_pure _

section
variable {inner : Parser Expr} (proceeds : inner.Proceeds)
include proceeds

theorem progresses_group : (group inner).Progresses :=
  (progresses_char _).bind fun _ => proceeds.bind fun _ => proceeds_blanks.bind fun _ =>
    (progresses_char _).proceeds.bind fun _ => proceeds_pure _

@[grind ←]
theorem proceeds_argument : (argument inner).Proceeds :=
  proceeds_blanks.bind fun _ => proceeds_span proceeds

theorem progresses_nextArgument : (do blanks; char ','; argument inner : Parser Text).Progresses :=
  proceeds_blanks.bind_progresses fun _ => (progresses_char _).bind fun _ => proceeds_argument proceeds

@[grind ←]
theorem proceeds_arguments : (arguments inner).Proceeds := by
  apply (proceeds_optional (proceeds_argument proceeds)).bind
  intro first
  cases first with
  | none => exact proceeds_pure _
  | some first =>
    exact (proceeds_many (progresses_nextArgument proceeds).proceeds).bind fun _ => proceeds_pure _

theorem progresses_call : (call inner).Progresses :=
  progresses_identifier.bind fun _ => (progresses_char _).proceeds.bind fun _ =>
    (proceeds_arguments proceeds).bind fun _ => proceeds_blanks.bind fun _ =>
      (progresses_char _).proceeds.bind fun _ => proceeds_pure _

theorem progresses_token : (token inner).Progresses :=
  progresses_orElse progresses_number <| progresses_orElse progresses_quoted <|
    progresses_orElse progresses_reference <| progresses_orElse (progresses_group proceeds) <|
      progresses_orElse progresses_constant <| progresses_orElse (progresses_call proceeds) progresses_bareWord

theorem progresses_atom : (atom inner).Progresses :=
  proceeds_blanks.bind_progresses fun _ => progresses_token proceeds

theorem progresses_unaryWithin : ∀ bound, (unaryWithin inner bound).Progresses
  | [] => progresses_atom proceeds
  | _ :: bound =>
    have operand := (progresses_unaryWithin bound).proceeds
    progresses_orElse (progresses_negated operand) <|
      progresses_orElse (progresses_inverted operand) (progresses_atom proceeds)

theorem progresses_unary : (unary inner).Progresses :=
  fun text => progresses_unaryWithin proceeds text text

theorem progresses_product : (product inner).Progresses :=
  progresses_chain progresses_productOperator (progresses_unary proceeds)

theorem progresses_sum : (sum inner).Progresses :=
  progresses_chain progresses_sumOperator (progresses_product proceeds)

theorem progresses_comparison : (comparison inner).Progresses := by
  have item := progresses_item progresses_comparisonOperator (progresses_sum proceeds).proceeds
  refine (progresses_sum proceeds).bind fun left => (proceeds_optional item.proceeds).bind fun right => ?_
  cases right <;> exact proceeds_pure _

theorem progresses_conjunction : (conjunction inner).Progresses :=
  progresses_chain (progresses_keyword (by decide)) (progresses_comparison proceeds)

theorem progresses_disjunction : (disjunction inner).Progresses :=
  progresses_chain (progresses_keyword (by decide)) (progresses_conjunction proceeds)

end

theorem progresses_within : ∀ bound, (within bound).Progresses
  | [] => progresses_disjunction proceeds_fail
  | _ :: bound => progresses_disjunction (progresses_within bound).proceeds

theorem contractive_unary (inner : Parser Expr) :
    Contractive fun operand => negated operand <|> inverted operand <|> atom inner := by
  intro size first second _ agree
  refine agreeBelow_orElse ?_ (agreeBelow_orElse ?_ (agreeBelow_refl _ _))
  · exact proceeds_blanks.agreeBelow_bind fun _ => (progresses_char _).agreeBelow_bind fun _ => agree.bind_left _
  · exact proceeds_blanks.agreeBelow_bind fun _ =>
      (progresses_keyword (by decide)).agreeBelow_bind fun _ => agree.bind_left _

theorem unary_eq {inner : Parser Expr} (proceeds : inner.Proceeds) :
    unary inner = (negated (unary inner) <|> inverted (unary inner) <|> atom inner) := by
  refine tied (unaryWithin inner) _ (contractive_unary inner)
    (fun bound => (progresses_unaryWithin proceeds bound).proceeds) ?_ (fun _ _ => rfl)
  intro operand text shorter
  obtain rfl : text = [] := List.length_eq_zero_iff.1 (by omega)
  rfl

theorem agreeBelow_argument {size : Nat} {inner other : Parser Expr} (agree : AgreeBelow size inner other) :
    AgreeBelow size (argument inner) (argument other) :=
  proceeds_blanks.agreeBelow_bind fun _ => agreeBelow_span agree

theorem agreeBelow_group {size : Nat} {inner other : Parser Expr} (agree : AgreeBelow size inner other) :
    AgreeBelow (size + 1) (group inner) (group other) :=
  (progresses_char _).agreeBelow_bind fun _ => agree.bind_left _

section
variable {size : Nat} {inner other : Parser Expr} (proceeds : inner.Proceeds) (agree : AgreeBelow size inner other)
include proceeds agree

theorem agreeBelow_arguments : AgreeBelow size (arguments inner) (arguments other) := by
  have first := agreeBelow_argument agree
  refine .bind (proceeds_optional (proceeds_argument proceeds)) (agreeBelow_optional first) fun given => ?_
  cases given with
  | none => exact agreeBelow_refl _ _
  | some given =>
    have others := (progresses_nextArgument proceeds).proceeds
    have next : AgreeBelow size (do blanks; char ','; argument inner) (do blanks; char ','; argument other) :=
      proceeds_blanks.agreeBelow_bind fun _ => (progresses_char _).proceeds.agreeBelow_bind fun _ => first
    exact (agreeBelow_many others next).bind_left _

theorem agreeBelow_call : AgreeBelow (size + 1) (call inner) (call other) :=
  progresses_identifier.agreeBelow_bind fun _ => (progresses_char _).proceeds.agreeBelow_bind fun _ =>
    (agreeBelow_arguments proceeds agree).bind_left _

theorem agreeBelow_atom : AgreeBelow (size + 1) (atom inner) (atom other) :=
  proceeds_blanks.agreeBelow_bind fun _ =>
    agreeBelow_orElse (agreeBelow_refl _ _) <| agreeBelow_orElse (agreeBelow_refl _ _) <|
      agreeBelow_orElse (agreeBelow_refl _ _) <| agreeBelow_orElse (agreeBelow_group agree) <|
        agreeBelow_orElse (agreeBelow_refl _ _) <|
          agreeBelow_orElse (agreeBelow_call proceeds agree) (agreeBelow_refl _ _)

theorem agreeBelow_unary : AgreeBelow (size + 1) (unary inner) (unary other) := by
  have within : ∀ bound, AgreeBelow (size + 1) (unaryWithin inner bound) (unaryWithin other bound) := by
    intro bound
    induction bound with
    | nil => exact agreeBelow_atom proceeds agree
    | cons c bound ih =>
      have operand := (progresses_unaryWithin proceeds bound).proceeds
      have atoms := agreeBelow_atom proceeds agree
      intro text shorter
      have steps := contractive_unary inner (size + 1) _ _ operand ih text (Nat.lt_succ_of_lt shorter)
      have last := agreeBelow_orElse (agreeBelow_refl (size + 1) (negated (unaryWithin other bound)))
        (agreeBelow_orElse (agreeBelow_refl (size + 1) (inverted (unaryWithin other bound))) atoms)
      exact steps.trans (last text shorter)
  exact fun text shorter => within text text shorter

theorem agreeBelow_product : AgreeBelow (size + 1) (product inner) (product other) :=
  agreeBelow_chain progresses_productOperator (progresses_unary proceeds) (agreeBelow_unary proceeds agree)

theorem agreeBelow_sum : AgreeBelow (size + 1) (sum inner) (sum other) :=
  agreeBelow_chain progresses_sumOperator (progresses_product proceeds) (agreeBelow_product proceeds agree)

theorem agreeBelow_comparison : AgreeBelow (size + 1) (comparison inner) (comparison other) := by
  have sums := agreeBelow_sum proceeds agree
  have operand := (progresses_sum proceeds).proceeds
  exact .bind operand sums fun _ =>
    (agreeBelow_optional (agreeBelow_item progresses_comparisonOperator sums)).bind_left _

theorem agreeBelow_conjunction : AgreeBelow (size + 1) (conjunction inner) (conjunction other) :=
  agreeBelow_chain (progresses_keyword (by decide)) (progresses_comparison proceeds)
    (agreeBelow_comparison proceeds agree)

end

theorem contractive_disjunction : Contractive disjunction := fun _ _ _ proceeds agree =>
  agreeBelow_chain (progresses_keyword (by decide)) (progresses_conjunction proceeds)
    (agreeBelow_conjunction proceeds agree)

end StyleScript.Expr.Grammar

namespace StyleScript.Expr
open Reading StyleScript.Parser Grammar

theorem progresses_expr : parser.Progresses :=
  fun text => progresses_within text text

theorem parser_eq : parser = disjunction parser := by
  refine tied within disjunction contractive_disjunction (fun bound => (progresses_within bound).proceeds) ?_
    (fun _ _ => rfl)
  intro inner
  exact contractive_disjunction 0 _ _ proceeds_fail fun _ below => absurd below (Nat.not_lt_zero _)

end StyleScript.Expr
